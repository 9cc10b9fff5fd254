import Mathlib.Data.List.TakeWhile
import TweakedXv6.FsDir

namespace TweakedXv6.Fs

open Prog Files

def components (path : List UInt8) : List (List UInt8) :=
  ((path.splitOnP (· == slash)).filter (· ≠ [])).map (·.take DIRSIZ)

def Volume.lookup (s : Volume) (i : Nat) (name : List UInt8) : Option Nat :=
  if (s.dinode i).type = .dir then (s.dinode i).binding s.block name else none

def Volume.resolve (s : Volume) (i : Nat) (names : List (List UInt8)) : Option Nat := names.foldlM s.lookup i

def Volume.start (s : Volume) (cwd : Fin NINODE) (path : List UInt8) : Nat :=
  if path.head? = some slash then ROOTINO else (s.inode cwd).inum

/-- The inode table between system calls: an inode is in it once, and what was read from the disk is
still there. -/
structure Table (s : Volume) : Prop where
  nonneg : ∀ k, 0 ≤ (s.inode k).ref
  dev : ∀ k, 0 < (s.inode k).ref → (s.inode k).dev = ROOTDEV
  copy : ∀ k, 0 < (s.inode k).ref → (s.inode k).valid = true → (s.inode k).copy = s.dinode (s.inode k).inum
  used : ∀ k, 0 < (s.inode k).ref → (s.inode k).valid = true → (s.dinode (s.inode k).inum).type ≠ .free
  unique : ∀ j k, 0 < (s.inode j).ref → 0 < (s.inode k).ref → (s.inode j).inum = (s.inode k).inum → j = k

def Linked (s : Volume) (i : Nat) : Prop :=
  (s.dinode i).type = .free ∨ (s.dinode i).nlink ≠ 0 ∨ ∃ k, 0 < (s.inode k).ref ∧ (s.inode k).inum = i

structure Listed (s : Volume) (i : Nat) : Prop where
  whole : Whole (s.dinode i) s.block (s.dinode i).size
  aligned : (s.dinode i).size % DESIZE = 0
  size_le : (s.dinode i).size ≤ MAXFILE * BSIZE

/-- The part of the tree that a walk along the names from inode `i` comes to. -/
structure Trail (s : Volume) (i : Nat) (names : List (List UInt8)) : Prop where
  linked : ∀ pre j, pre <+: names → s.resolve i pre = some j → Linked s j
  listed : ∀ pre j, pre <+: names → s.resolve i pre = some j → (s.dinode j).type = .dir → Listed s j

/-- The disk is as it was, and beside the references there were are those to the inodes `l`. -/
structure Walked (l : List (Fin NINODE)) (s t : Volume) : Prop where
  bit : t.bit = s.bit
  dinode : t.dinode = s.dinode
  block : t.block = s.block
  table : Table t
  ref : ∀ j, (t.inode j).ref = (s.inode j).ref + l.count j
  inum : ∀ j, 0 < (s.inode j).ref → (t.inode j).inum = (s.inode j).inum

variable {sb : Superblock} {k ip cwd : Fin NINODE} {s t u : Volume} {i j fuel inum : Nat}
  {name rest path : List UInt8} {names pre : List (List UInt8)} {l m : List (Fin NINODE)} {parent : Bool}
  {v : Inode} {e : String}

theorem components_nil : components [] = [] := rfl

theorem components_slash : components (slash :: path) = components path := by
  unfold components
  rw [List.splitOnP_cons_eq_if_modifyHead]
  simp

theorem components_dropWhile : components (path.dropWhile (· = slash)) = components path := by
  induction path with
  | nil => rfl
  | cons a path ih =>
    by_cases ha : a = slash
    · subst ha
      rw [List.dropWhile_cons_of_pos (by simp), ih, components_slash]
    · rw [List.dropWhile_cons_of_neg (by simpa using ha)]

theorem components_element (h : path.takeWhile (· ≠ slash) ≠ []) : components path =
    (path.takeWhile (· ≠ slash)).take DIRSIZ :: components (path.dropWhile (· ≠ slash)) := by
  have hno : ∀ x ∈ path.takeWhile (· ≠ slash), (x == slash) = false := by
    intro x hx
    simpa using List.mem_takeWhile_imp hx
  have hsplit := List.takeWhile_append_dropWhile (p := (· ≠ slash)) (l := path)
  have hhead := List.head?_dropWhile_not (· ≠ slash) path
  generalize path.takeWhile (· ≠ slash) = w at h hno hsplit ⊢
  generalize path.dropWhile (· ≠ slash) = r at hsplit hhead ⊢
  subst hsplit
  cases r with
  | nil =>
    unfold components
    rw [List.append_nil, List.splitOnP_eq_singleton hno]
    simp [h]
  | cons b rest =>
    have hb : b = slash := by simpa using hhead
    subst hb
    rw [components_slash]
    unfold components
    rw [List.splitOnP_append_cons_of_forall_mem hno slash (by simp)]
    simp [h]

theorem head_dropWhile (h : path.dropWhile (· = slash) ≠ []) :
    (path.dropWhile (· = slash)).takeWhile (· ≠ slash) ≠ [] := by
  have hhead := List.head?_dropWhile_not (· = slash) path
  cases hp : path.dropWhile (· = slash) with
  | nil => exact absurd hp h
  | cons a rest =>
    have ha : a ≠ slash := by simpa [hp] using hhead
    rw [List.takeWhile_cons_of_pos (by simpa using ha)]
    exact List.cons_ne_nil _ _

theorem skipelem_none : skipelem path = none ↔ components path = [] := by
  rw [← components_dropWhile, skipelem]
  by_cases hp : path.dropWhile (· = slash) = []
  · simp [hp, components_nil]
  · simp [hp, components_element (head_dropWhile hp)]

theorem skipelem_some (h : skipelem path = some (name, rest)) :
    components path = name :: components rest ∧ rest.length < path.length ∧ (rest = [] ↔ components rest = []) := by
  unfold skipelem at h
  dsimp only at h
  split at h
  next => cases h
  next hp =>
    obtain ⟨rfl, rfl⟩ := Prod.mk.inj (Option.some.inj h)
    have hfirst := head_dropWhile hp
    refine ⟨?_, ?_, ?_⟩
    · rw [components_dropWhile, ← components_element hfirst, components_dropWhile]
    · have hdrop := List.length_dropWhile_le (· = slash) path
      have hrest := List.length_dropWhile_le (· = slash) ((path.dropWhile (· = slash)).dropWhile (· ≠ slash))
      have hsum := congrArg List.length
        (List.takeWhile_append_dropWhile (p := (· ≠ slash)) (l := path.dropWhile (· = slash)))
      rw [List.length_append] at hsum
      have hpos := List.length_pos_of_ne_nil hfirst
      omega
    · constructor
      · intro hnil
        rw [hnil, components_nil]
      · intro hnil
        by_contra hrest
        rw [components_element (head_dropWhile hrest)] at hnil
        exact List.cons_ne_nil _ _ hnil

theorem resolve_cons : s.resolve i (name :: names) = (s.lookup i name).bind fun j => s.resolve j names := by
  unfold Volume.resolve
  rw [List.foldlM_cons]
  rfl

theorem resolve_one : s.resolve i [name] = s.lookup i name := by
  rw [resolve_cons]
  cases s.lookup i name <;> rfl

theorem resolve_append {post : List (List UInt8)} :
    s.resolve i (pre ++ post) = (s.resolve i pre).bind fun j => s.resolve j post := by
  unfold Volume.resolve
  rw [List.foldlM_append]
  rfl

theorem resolve_snoc : s.resolve i (pre ++ [name]) = (s.resolve i pre).bind fun j => s.lookup j name := by
  rw [resolve_append]
  simp only [resolve_one]

theorem Trail.below (h : Trail s i (pre ++ names)) (hj : s.resolve i pre = some j) :
    Trail s j names where
  linked p m hp hm := h.linked (pre ++ p) m ((List.prefix_append_right_inj pre).mpr hp)
    (by rw [resolve_append, hj, Option.bind_some, hm])
  listed p m hp hm := h.listed (pre ++ p) m ((List.prefix_append_right_inj pre).mpr hp)
    (by rw [resolve_append, hj, Option.bind_some, hm])

theorem Trail.next (h : Trail s i (name :: names)) (hj : s.lookup i name = some j) : Trail s j names :=
  have hone : s.resolve i [name] = some j := by rw [resolve_one, hj]
  Trail.below h hone

theorem Trail.self (h : Trail s i names) : Linked s i := h.linked [] i List.nil_prefix rfl

theorem Trail.dir (h : Trail s i names) (hdir : (s.dinode i).type = .dir) : Listed s i :=
  h.listed [] i List.nil_prefix rfl hdir

theorem Table.set (h : Table t) (hnonneg : 0 ≤ v.ref) (hdev : 0 < v.ref → v.dev = ROOTDEV)
    (hcopy : 0 < v.ref → v.valid = true → v.copy = t.dinode v.inum)
    (hused : 0 < v.ref → v.valid = true → (t.dinode v.inum).type ≠ .free)
    (hunique : 0 < v.ref → ∀ j, j ≠ k → 0 < (t.inode j).ref → (t.inode j).inum ≠ v.inum) : Table (t.setInode k v) where
  nonneg j := by
    by_cases hj : j = k
    · subst hj
      simpa [Volume.setInode] using hnonneg
    · simpa [Volume.setInode, hj] using h.nonneg j
  dev j := by
    by_cases hj : j = k
    · subst hj
      simpa [Volume.setInode] using hdev
    · simpa [Volume.setInode, hj] using h.dev j
  copy j := by
    by_cases hj : j = k
    · subst hj
      simpa [Volume.setInode] using hcopy
    · simpa [Volume.setInode, hj] using h.copy j
  used j := by
    by_cases hj : j = k
    · subst hj
      simpa [Volume.setInode] using hused
    · simpa [Volume.setInode, hj] using h.used j
  unique i j hi hj hij := by
    by_cases hik : i = k
    · by_cases hjk : j = k
      · rw [hik, hjk]
      · subst hik
        simp only [Volume.setInode, Function.update_self, Function.update_of_ne hjk] at hi hj hij
        exact absurd hij.symm (hunique hi j hjk hj)
    · by_cases hjk : j = k
      · subst hjk
        simp only [Volume.setInode, Function.update_self, Function.update_of_ne hik] at hi hj hij
        exact absurd hij (hunique hj i hik hi)
      · simp only [Volume.setInode, Function.update_of_ne hik, Function.update_of_ne hjk] at hi hj hij
        exact h.unique i j hi hj hij

theorem Walked.set (h : Walked l s t) (htable : Table (t.setInode k v))
    (href : v.ref = (s.inode k).ref + m.count k) (hothers : ∀ j, j ≠ k → m.count j = l.count j)
    (hinum : 0 < (s.inode k).ref → v.inum = (s.inode k).inum) : Walked m s (t.setInode k v) where
  bit := h.bit
  dinode := h.dinode
  block := h.block
  table := htable
  ref j := by
    by_cases hj : j = k
    · subst hj
      simpa [Volume.setInode] using href
    · simpa [Volume.setInode, hj, hothers j hj] using h.ref j
  inum j := by
    by_cases hj : j = k
    · subst hj
      simpa [Volume.setInode] using hinum
    · simpa [Volume.setInode, hj] using h.inum j

theorem Walked.refl (h : Table s) : Walked [] s s :=
  ⟨rfl, rfl, rfl, h, fun _ => by simp, fun _ _ => rfl⟩

theorem Walked.perm (h : Walked l s t) (hperm : l.Perm m) : Walked m s t :=
  ⟨h.bit, h.dinode, h.block, h.table, fun j => by rw [h.ref j, hperm.count_eq], h.inum⟩

theorem count_cons_other {j : Fin NINODE} (h : j ≠ k) : (k :: l).count j = l.count j := List.count_cons_of_ne (Ne.symm h)

theorem Walked.again (h : Walked l s t) (hpos : 0 < (t.inode k).ref) :
    Walked (k :: l) s (t.setInode k { t.inode k with ref := (t.inode k).ref + 1 }) := by
  refine h.set (h.table.set (by dsimp only; omega) (fun _ => h.table.dev k hpos) (fun _ => h.table.copy k hpos)
    (fun _ => h.table.used k hpos) fun _ j hj hposj hsame => hj (h.table.unique j k hposj hpos hsame)) ?_
    (fun j => count_cons_other) (h.inum k)
  have href := h.ref k
  simp only [List.count_cons_self]
  omega

theorem Walked.got (h : Walked l s t) (hg : Got ROOTDEV inum t k u) : Walked (k :: l) s u := by
  cases hg with
  | again hpos => exact h.again hpos
  | new hfree hnone =>
    have hzero : (s.inode k).ref + l.count k = 0 := by rw [← h.ref k, hfree]
    refine h.set (h.table.set (Int.zero_le_ofNat 1) (fun _ => rfl) (fun _ hv => absurd hv Bool.false_ne_true)
      (fun _ hv => absurd hv Bool.false_ne_true) ?_) ?_ (fun j => count_cons_other) ?_
    · intro _ j _ hpos hsame
      exact hnone j hpos ⟨h.table.dev j hpos, hsame⟩
    · simp only [List.count_cons_self]
      omega
    · intro hpos
      omega

theorem Walked.pos (h : Walked (k :: l) s t) (hs : Table s) : 0 < (t.inode k).ref := by
  have href := h.ref k
  have hnonneg := hs.nonneg k
  rw [List.count_cons_self] at href
  omega

theorem Walked.ilock (h : Walked l s t) (hpos : 0 < (t.inode k).ref) :
    Post (fun e => e = "ilock: no type" ∧ (s.dinode (t.inode k).inum).type = .free) (ilock k) t fun _ u =>
      Walked l s u ∧ u.inode k = { t.inode k with copy := s.dinode (t.inode k).inum, valid := true } := by
  rw [Fs.ilock, post_read_bind, if_neg (by omega)]
  cases hv : (t.inode k).valid with
  | true =>
    refine ⟨h, ?_⟩
    rw [← h.dinode, ← h.table.copy k hpos hv, ← hv]
  | false =>
    rw [when, if_pos rfl, post_change_bind, post_read_bind, ← h.dinode]
    unfold when
    split
    next hfree => exact ⟨rfl, hfree⟩
    next hfree =>
      refine ⟨h.set (h.table.set (h.table.nonneg k) (h.table.dev k) (fun _ _ => rfl) (fun _ _ => hfree) ?_) (h.ref k)
        (fun j _ => rfl) (h.inum k), ?_⟩
      · intro _ j hj hposj hsame
        exact hj (h.table.unique j k hposj hpos hsame)
      · simp [Volume.setInode]

theorem Walked.nlink (h : Walked l s t) (hlinked : Linked s (t.inode k).inum) (hpos : 0 < (t.inode k).ref)
    (hzero : (s.inode k).ref = 0) (hvalid : (t.inode k).valid = true) : (s.dinode (t.inode k).inum).nlink ≠ 0 := by
  rcases hlinked with hfree | hlink | ⟨j, hj, hinum⟩
  · rw [← h.dinode] at hfree
    exact absurd hfree (h.table.used k hpos hvalid)
  · exact hlink
  · have href := h.ref j
    have hsame := h.table.unique j k (by omega) hpos ((h.inum j hj).trans hinum)
    subst hsame
    omega

theorem Walked.iput (h : Walked (k :: l) s t) (hs : Table s) (hlinked : Linked s (t.inode k).inum) :
    ∃ u, iput k t = .ok ((), u) ∧ Walked l s u ∧ ∀ j, (u.inode j).inum = (t.inode j).inum := by
  have href := h.ref k
  rw [List.count_cons_self] at href
  have hnonneg := hs.nonneg k
  have hpos := h.pos hs
  have hput : ¬ ((t.inode k).ref = 1 ∧ (t.inode k).valid = true ∧ (t.inode k).copy.nlink = 0) := by
    rintro ⟨hone, hvalid, hnlink⟩
    rw [h.table.copy k hpos hvalid, h.dinode] at hnlink
    exact h.nlink hlinked hpos (by omega) hvalid hnlink
  refine ⟨_, iput_run hput, h.set (h.table.set ?_ (fun _ => h.table.dev k hpos) (fun _ => h.table.copy k hpos)
    (fun _ => h.table.used k hpos) fun _ j hj hposj hsame => hj (h.table.unique j k hposj hpos hsame)) ?_ ?_ (h.inum k), ?_⟩
  · dsimp only
    omega
  · dsimp only
    omega
  · intro j hj
    rw [count_cons_other hj]
  · intro j
    by_cases hj : j = k
    · subst hj
      simp [Volume.setInode]
    · simp [Volume.setInode, hj]

def Scarce (s : Volume) : Prop := ∀ j k, (s.inode j).ref = 0 → (s.inode k).ref = 0 → j = k

theorem Walked.scarce (h : Walked [ip] s t) (hfull : ∀ k, (t.inode k).ref ≠ 0) : Scarce s := by
  have hip : ∀ j, (s.inode j).ref = 0 → j = ip := by
    intro j hj
    by_contra hne
    have href := h.ref j
    rw [count_cons_other hne, hj] at href
    exact hfull j href
  intro j k hj hk
  rw [hip j hj, hip k hk]

/-- A walk panics only if the inode table is almost full, or if it comes to a free inode. -/
def Stuck (s : Volume) (i : Nat) (names : List (List UInt8)) (e : String) : Prop :=
  e = "iget: no inodes" ∧ Scarce s ∨
    e = "ilock: no type" ∧ ∃ pre j, pre <+: names ∧ s.resolve i pre = some j ∧ (s.dinode j).type = .free

theorem Stuck.step (h : Stuck s j names e) (hlookup : s.lookup i name = some j) : Stuck s i (name :: names) e := by
  rcases h with h | ⟨he, pre, m, hpre, hm, hfree⟩
  · exact .inl h
  · refine .inr ⟨he, name :: pre, m, (List.prefix_cons_inj name).mpr hpre, ?_, hfree⟩
    rw [resolve_cons, hlookup, Option.bind_some, hm]

theorem Stuck.here (he : e = "ilock: no type" ∧ (s.dinode i).type = .free) : Stuck s i names e :=
  .inr ⟨he.1, [], i, List.nil_prefix, rfl, he.2⟩

structure Reached (s : Volume) (i : Nat) (names : List (List UInt8)) (r : Option (Fin NINODE)) (t : Volume) : Prop where
  inum : (r.map fun k => (t.inode k).inum) = s.resolve i names
  walked : Walked r.toList s t

inductive Parent (s : Volume) (i : Nat) (names : List (List UInt8)) : Option (Fin NINODE × List UInt8) → Volume → Prop
  | none {t : Volume} (hwalked : Walked [] s t)
      (hno : ∀ pre name, names = pre ++ [name] → ∀ j, s.resolve i pre = some j → (s.dinode j).type ≠ .dir) :
      Parent s i names none t
  | some {t : Volume} {dp : Fin NINODE} {pre : List (List UInt8)} {name : List UInt8}
      (hwalked : Walked [dp] s t) (hnames : names = pre ++ [name])
      (hpre : s.resolve i pre = some (t.inode dp).inum) (hdir : (s.dinode (t.inode dp).inum).type = .dir) :
      Parent s i names (some (dp, name)) t

theorem lookup_dir (h : (s.dinode i).type = .dir) : s.lookup i name = (s.dinode i).binding s.block name := if_pos h

theorem lookup_other (h : (s.dinode i).type ≠ .dir) : s.lookup i name = none := if_neg h

theorem Walked.readable (h : Walked l s t) (hlisted : Listed s (t.inode k).inum)
    (hdir : (s.dinode (t.inode k).inum).type = .dir) (hcopy : (t.inode k).copy = s.dinode (t.inode k).inum) : Readable k t where
  type := by rw [hcopy, hdir]
  whole := by
    rw [hcopy, h.block]
    exact hlisted.whole
  aligned := by rw [hcopy, hlisted.aligned]
  size_le := by rw [hcopy]; exact hlisted.size_le

theorem dirlookup_walked (h : Walked (ip :: l) s t) (hs : Table s) (hlisted : Listed s (t.inode ip).inum)
    (hdir : (s.dinode (t.inode ip).inum).type = .dir) (hcopy : (t.inode ip).copy = s.dinode (t.inode ip).inum) :
    Post (fun e => e = "iget: no inodes" ∧ ∀ k, (t.inode k).ref ≠ 0) (dirlookup sb ip name) t fun r u =>
      r = none ∧ s.lookup (t.inode ip).inum name = none ∧ u = t ∨
      ∃ next off, r = some (next, off) ∧ s.lookup (t.inode ip).inum name = some (u.inode next).inum ∧
        Walked (next :: ip :: l) s u ∧ (u.inode ip).inum = (t.inode ip).inum := by
  have hpos := h.pos hs
  have hlookup : s.lookup (t.inode ip).inum name = (t.inode ip).copy.binding t.block name := by
    rw [lookup_dir hdir, hcopy, h.block]
  rw [hlookup]
  refine ((dirlookup_spec (h.readable hlisted hdir hcopy)).mono_panic ?_).mono ?_
  · intro e he
    obtain ⟨_, _, he, hfull⟩ := he
    exact ⟨he, fun k => (hfull k).1⟩
  · intro r u hr
    rcases hr with ⟨hr, hnone, hu⟩ | ⟨next, i, inum, hr, _, _, hbind, hgot⟩
    · exact .inl ⟨hr, hnone, hu⟩
    · rw [h.table.dev ip hpos] at hgot
      refine .inr ⟨next, _, hr, ?_, h.got hgot, ?_⟩
      · rw [hbind, hgot.inode.2.1]
      · rw [(hgot.held hpos).1]

def Result (parent : Bool) (s : Volume) (i : Nat) (names : List (List UInt8)) (r : Option (Fin NINODE × List UInt8))
    (t : Volume) : Prop :=
  if parent = true then Parent s i names r t else Reached s i names (r.map Prod.fst) t

theorem Result.stop (h : Walked [] s t) (hlookup : s.lookup i name = none)
    (hmore : (s.dinode i).type ≠ .dir ∨ ¬ (parent = true ∧ names = [])) : Result parent s i (name :: names) none t := by
  have hnone : s.resolve i (name :: names) = none := by rw [resolve_cons, hlookup, Option.bind_none]
  cases parent with
  | false => exact ⟨hnone.symm, h⟩
  | true =>
    refine Parent.none h ?_
    intro pre last hnames j hj
    cases pre with
    | nil =>
      obtain ⟨_, rfl⟩ := List.cons.inj hnames
      cases hj
      exact hmore.resolve_right fun hno => hno ⟨rfl, rfl⟩
    | cons first pre =>
      obtain ⟨rfl, _⟩ := List.cons.inj hnames
      rw [resolve_cons, hlookup] at hj
      cases hj

theorem Result.step {r : Option (Fin NINODE × List UInt8)} (h : Result parent s j names r t)
    (hlookup : s.lookup i name = some j) (hmore : ¬ (parent = true ∧ names = [])) : Result parent s i (name :: names) r t := by
  have hcons : ∀ names, s.resolve i (name :: names) = s.resolve j names := by
    intro names
    rw [resolve_cons, hlookup, Option.bind_some]
  cases parent with
  | false => exact ⟨h.inum.trans (hcons names).symm, h.walked⟩
  | true =>
    cases h with
    | none hwalked hno =>
      refine Parent.none hwalked ?_
      intro pre last hnames m hm
      cases pre with
      | nil =>
        obtain ⟨_, rfl⟩ := List.cons.inj hnames
        exact absurd ⟨rfl, rfl⟩ hmore
      | cons first pre =>
        obtain ⟨rfl, hrest⟩ := List.cons.inj hnames
        rw [hcons] at hm
        exact hno pre last hrest m hm
    | @some _ _ pre last hwalked hnames hpre hdir =>
      have hall : name :: names = (name :: pre) ++ [last] := congrArg (name :: ·) hnames
      refine Parent.some hwalked hall ?_ hdir
      rw [hcons, hpre]

theorem namexLoop_spec (h : Walked [ip] s t) (hs : Table s) (htrail : Trail s (t.inode ip).inum (components path))
    (hfuel : path.length < fuel) : Post (Stuck s (t.inode ip).inum (components path)) (namexLoop sb parent fuel ip path) t
      (Result parent s (t.inode ip).inum (components path)) := by
  induction fuel generalizing ip t path with
  | zero => omega
  | succ fuel ih =>
    unfold namexLoop
    cases hskip : skipelem path with
    | none =>
      have hnil := skipelem_none.mp hskip
      rw [hnil]
      cases parent with
      | false => exact ⟨rfl, h⟩
      | true =>
        obtain ⟨u, hrun, hu, _⟩ := h.iput hs htrail.self
        dsimp only
        rw [if_pos rfl, post_run_bind hrun]
        refine Parent.none hu fun pre name hnames => ?_
        exact absurd hnames.symm (List.append_ne_nil_of_right_ne_nil pre (List.cons_ne_nil _ _))
    | some elem =>
      obtain ⟨name, rest⟩ := elem
      obtain ⟨hnames, hlen, hlast⟩ := skipelem_some hskip
      rw [hnames] at htrail ⊢
      refine ((h.ilock (h.pos hs)).mono_panic fun e => Stuck.here).bind ?_
      rintro _ u ⟨hu, hcopy⟩
      have hinum : (u.inode ip).inum = (t.inode ip).inum := by rw [hcopy]
      have hself : (u.inode ip).copy = s.dinode (u.inode ip).inum := by rw [hcopy]
      rw [← hinum] at htrail ⊢
      rw [post_read_bind, hself]
      split
      next hdir =>
        obtain ⟨w, hput, hw, _⟩ := hu.iput hs htrail.self
        rw [post_run_bind hput]
        exact Result.stop hw (lookup_other hdir) (.inl hdir)
      next hdir =>
        have hdir : (s.dinode (u.inode ip).inum).type = .dir := Classical.not_not.mp hdir
        split
        next hparent =>
          obtain ⟨rfl, hrest⟩ := hparent
          rw [hlast.mp hrest]
          exact Parent.some hu (List.nil_append _).symm rfl hdir
        next hmore =>
          have hmore : ¬ (parent = true ∧ components rest = []) := fun hno => hmore ⟨hno.1, hlast.mpr hno.2⟩
          refine ((dirlookup_walked hu hs (htrail.dir hdir) hdir hself).mono_panic ?_).bind ?_
          · intro e he
            exact .inl ⟨he.1, hu.scarce he.2⟩
          · intro r v hv
            rcases hv with ⟨rfl, hlookup, rfl⟩ | ⟨next, off, rfl, hlookup, hv, hkeep⟩
            · obtain ⟨w, hput, hw, _⟩ := hu.iput hs htrail.self
              dsimp only
              rw [post_run_bind hput]
              exact Result.stop hw hlookup (.inr hmore)
            · have hlinked : Linked s (v.inode ip).inum := by
                rw [hkeep]
                exact htrail.self
              obtain ⟨w, hput, hw, hsame⟩ := (hv.perm (List.Perm.swap ..)).iput hs hlinked
              rw [← hsame next] at hlookup
              dsimp only
              rw [post_run_bind hput]
              refine ((ih hw (htrail.next hlookup) (by omega)).mono_panic fun e he => he.step hlookup).mono ?_
              intro r x hx
              exact Result.step hx hlookup hmore

theorem namex_spec (hs : Table s) (hcwd : 0 < (s.inode cwd).ref) (htrail : Trail s (s.start cwd path) (components path)) :
    Post (Stuck s (s.start cwd path) (components path)) (namex sb cwd parent path) s
      (Result parent s (s.start cwd path) (components path)) := by
  unfold namex
  unfold Volume.start at htrail ⊢
  split
  next hroot =>
    rw [if_pos hroot] at htrail
    refine (iget_spec.mono_panic ?_).bind ?_
    · intro e he
      exact .inl ⟨he.1, fun j _ hj => absurd hj (he.2 j).1⟩
    · intro ip t ht
      rw [← ht.inode.2.1] at htrail ⊢
      exact namexLoop_spec ((Walked.refl hs).got ht) hs htrail (Nat.lt_succ_self _)
  next hrel =>
    rw [if_neg hrel] at htrail
    have hdup := (Walked.refl hs).again hcwd
    have hinum : ((s.setInode cwd { s.inode cwd with ref := (s.inode cwd).ref + 1 }).inode cwd).inum =
        (s.inode cwd).inum := by
      simp [Volume.setInode]
    rw [← hinum] at htrail ⊢
    rw [post_run_bind rfl]
    exact namexLoop_spec hdup hs htrail (Nat.lt_succ_self _)

theorem resolve_none : s.resolve i names = none ↔
    ∃ pre name post j, names = pre ++ name :: post ∧ s.resolve i pre = some j ∧
      ((s.dinode j).type ≠ .dir ∨ (s.dinode j).binding s.block name = none) := by
  constructor
  · intro h
    induction names generalizing i with
    | nil => cases h
    | cons name names ih =>
      rw [resolve_cons] at h
      cases hl : s.lookup i name with
      | none =>
        refine ⟨[], name, names, i, rfl, rfl, ?_⟩
        by_cases hdir : (s.dinode i).type = .dir
        · rw [lookup_dir hdir] at hl
          exact .inr hl
        · exact .inl hdir
      | some j =>
        rw [hl, Option.bind_some] at h
        obtain ⟨pre, last, post, m, rfl, hpre, hm⟩ := ih h
        refine ⟨name :: pre, last, post, m, rfl, ?_, hm⟩
        rw [resolve_cons, hl, Option.bind_some, hpre]
  · rintro ⟨pre, name, post, j, rfl, hpre, hj⟩
    have hlookup : s.lookup j name = none := by
      by_cases hdir : (s.dinode j).type = .dir
      · rw [lookup_dir hdir]
        exact hj.resolve_left fun hno => hno hdir
      · exact lookup_other hdir
    rw [resolve_append, hpre, Option.bind_some, resolve_cons, hlookup, Option.bind_none]

theorem parent_dirlookup {dp : Fin NINODE} (h : Parent s i names (some (dp, name)) t) (hs : Table s)
    (htrail : Trail s i names) :
    Post (fun e => e = "iget: no inodes" ∧ Scarce s) (do ilock dp; dirlookup sb dp name) t fun r u =>
      (r.map fun x => (u.inode x.1).inum) = s.resolve i names := by
  cases h with
  | @some _ _ pre _ hwalked hnames hpre hdir =>
    rw [hnames] at htrail ⊢
    have hlisted := htrail.listed pre _ (List.prefix_append _ _) hpre hdir
    refine ((hwalked.ilock (hwalked.pos hs)).mono_panic ?_).bind ?_
    · intro e he
      rw [hdir] at he
      cases he.2
    rintro _ u ⟨hu, hcopy⟩
    have hinum : (u.inode dp).inum = (t.inode dp).inum := by rw [hcopy]
    have hself : (u.inode dp).copy = s.dinode (u.inode dp).inum := by rw [hcopy]
    rw [← hinum] at hdir hpre hlisted
    rw [resolve_snoc, hpre, Option.bind_some]
    refine ((dirlookup_walked hu hs hlisted hdir hself).mono_panic ?_).mono ?_
    · intro e he
      exact ⟨he.1, hu.scarce he.2⟩
    · intro r v hv
      rcases hv with ⟨rfl, hlookup, _⟩ | ⟨next, off, rfl, hlookup, _, _⟩
      · exact hlookup.symm
      · exact hlookup.symm

/-- `namei` finds nothing exactly when an element is missing or looked up in something else than a
directory. `nameiparent` returns the directory of the last element. Only the inode returned has one more
reference. -/
theorem path_resolution (hs : Table s) (hcwd : 0 < (s.inode cwd).ref) (htrail : Trail s (s.start cwd path) (components path)) :
    Post (Stuck s (s.start cwd path) (components path)) (namei sb cwd path) s
      (Reached s (s.start cwd path) (components path)) ∧
    (s.resolve (s.start cwd path) (components path) = none ↔
      ∃ pre name post j, components path = pre ++ name :: post ∧ s.resolve (s.start cwd path) pre = some j ∧
        ((s.dinode j).type ≠ .dir ∨ (s.dinode j).binding s.block name = none)) ∧
    Post (Stuck s (s.start cwd path) (components path)) (nameiparent sb cwd path) s fun r t =>
      Parent s (s.start cwd path) (components path) r t ∧
      ∀ dp name, r = some (dp, name) →
        Post (fun e => e = "iget: no inodes" ∧ Scarce s) (do ilock dp; dirlookup sb dp name) t fun r u =>
          (r.map fun x => (u.inode x.1).inum) = s.resolve (s.start cwd path) (components path) := by
  refine ⟨?_, resolve_none, ?_⟩
  · have hwalk : Post _ (namex sb cwd false path) s _ := namex_spec hs hcwd htrail
    exact hwalk.bind fun r t hr => hr
  · have hwalk : Post _ (namex sb cwd true path) s _ := namex_spec hs hcwd htrail
    refine hwalk.mono fun r t hr => ⟨hr, ?_⟩
    intro dp name hdp
    rw [hdp] at hr
    exact parent_dirlookup hr hs htrail

def oneFile : Volume where
  bit := fun b => b < 2
  dinode := fun i => if i = 1 then { type := .dir, nlink := 1, size := 16, addrs := fun _ => 1 }
    else if i = 2 then { type := .file, nlink := 1 } else {}
  block := fun b o => if b = 1 then (direntBytes 2 [97]).getD o 0 else 0
  inode := Function.update (fun _ => {}) ⟨0, zero_lt_NINODE⟩ { dev := 1, inum := 1, ref := 1 }

section OneFile

variable (hname : ∀ j, oneFile.resolve 1 [name] = some j → j = 2)

include hname

theorem oneFile_visited (hpre : pre <+: [name]) (hj : oneFile.resolve 1 pre = some j) : j = 1 ∨ j = 2 := by
  rcases List.prefix_cons_iff.mp hpre with rfl | ⟨rest, rfl, hrest⟩
  · exact .inl (Option.some.inj hj).symm
  · rw [List.prefix_nil.mp hrest] at hj
    exact .inr (hname j hj)

theorem oneFile_trail : Trail oneFile 1 [name] := by
  constructor
  · intro pre j hpre hj
    rcases oneFile_visited hname hpre hj with rfl | rfl
    · exact .inr (.inl (by decide))
    · exact .inr (.inl (by decide))
  · intro pre j hpre hj hdir
    rcases oneFile_visited hname hpre hj with rfl | rfl
    · refine ⟨?_, rfl, by decide⟩
      intro bn hbn
      have hbn : bn * 1024 < 16 := hbn
      obtain rfl : bn = 0 := by omega
      decide
    · cases hdir

theorem oneFile_walks : ¬ Stuck oneFile 1 [name] e := by
  rintro (⟨_, hscarce⟩ | ⟨_, pre, j, hpre, hj, hfree⟩)
  · have hsame := hscarce ⟨1, by decide⟩ ⟨2, by decide⟩ (by decide) (by decide)
    exact absurd hsame (by decide)
  · rcases oneFile_visited hname hpre hj with rfl | rfl <;> cases hfree

end OneFile

theorem oneFile_table : Table oneFile := by
  have hinode : ∀ k, oneFile.inode k = if k = ⟨0, zero_lt_NINODE⟩ then { dev := 1, inum := 1, ref := 1 } else {} := by
    intro k
    simp [oneFile, Function.update_apply]
  have hvalid : ∀ k, (oneFile.inode k).valid = false := by
    intro k
    rw [hinode]
    split <;> rfl
  constructor
  · intro k
    rw [hinode]
    split <;> decide
  · intro k hk
    rw [hinode] at hk ⊢
    split at hk
    next h => rw [if_pos h]; rfl
    next => exact absurd hk (by decide)
  · intro k _ hv
    rw [hvalid] at hv
    cases hv
  · intro k _ hv
    rw [hvalid] at hv
    cases hv
  · intro j k hj hk _
    rw [hinode] at hj hk
    split at hj
    next hj0 =>
      split at hk
      next hk0 => rw [hj0, hk0]
      next => exact absurd hk (by decide)
    next => exact absurd hj (by decide)

theorem path_resolution_one : Table oneFile ∧ 0 < (oneFile.inode ⟨0, zero_lt_NINODE⟩).ref ∧ Trail oneFile 1 [[97]] ∧
    ∃ ip t, namei smallDisk ⟨0, zero_lt_NINODE⟩ [47, 97] oneFile = .ok (some ip, t) ∧ (t.inode ip).inum = 2 := by
  have hcwd : 0 < (oneFile.inode ⟨0, zero_lt_NINODE⟩).ref := by decide
  have hresolve : oneFile.resolve 1 [[97]] = some 2 := by decide +kernel
  have hname : ∀ j, oneFile.resolve 1 [[97]] = some j → j = 2 := fun j hj => Option.some.inj (hj.symm.trans hresolve)
  have htrail : Trail oneFile (oneFile.start ⟨0, zero_lt_NINODE⟩ [47, 97]) (components [47, 97]) := oneFile_trail hname
  have hspec : Returns (namei smallDisk ⟨0, zero_lt_NINODE⟩ [47, 97]) oneFile _ :=
    (path_resolution oneFile_table hcwd htrail).1.mono_panic fun e he => oneFile_walks hname he
  obtain ⟨r, t, hrun, hinum, _⟩ := hspec.exists
  obtain ⟨ip, rfl, hip⟩ := Option.map_eq_some_iff.mp (hinum.trans hresolve)
  exact ⟨oneFile_table, hcwd, htrail, ip, t, hrun, hip⟩

/-- The path has a last element that is neither `.` nor `..`, and there is such an entry. -/
def Volume.Removable (s : Volume) (i : Nat) (names : List (List UInt8)) : Prop :=
  s.resolve i names ≠ none ∧
    ∃ pre name, names = pre ++ [name] ∧ namecmp name dot = false ∧ namecmp name dotdot = false

theorem Walked.release (h : Walked [ip] s t) (hs : Table s) (hlinked : Linked s (t.inode ip).inum) (a : Bool)
    (E : String → Prop) : Post E (Fs.iput ip >>= fun _ => ret a) t fun r u => r = a ∧ Walked [] s u := by
  obtain ⟨u, hrun, hu, _⟩ := h.iput hs hlinked
  rw [post_run_bind hrun]
  exact ⟨rfl, hu⟩

/-- An `unlink` of a path that has no entry to remove returns -1, and the disk and all references are as
they were. -/
theorem unlink_refused (hs : Table s) (hcwd : 0 < (s.inode cwd).ref)
    (htrail : Trail s (s.start cwd path) (components path))
    (hno : ¬ s.Removable (s.start cwd path) (components path)) :
    Post (Stuck s (s.start cwd path) (components path)) (unlink sb cwd path) s fun r t =>
      r = false ∧ Walked [] s t := by
  have hwalk : Post _ (namex sb cwd true path) s _ := namex_spec hs hcwd htrail
  refine hwalk.bind fun r t hr => ?_
  cases hr with
  | none hwalked => exact ⟨rfl, hwalked⟩
  | @some t dp pre name hwalked hnames hpre hdir =>
    have hprefix : pre <+: components path := hnames ▸ List.prefix_append _ _
    have hlinked := htrail.linked pre _ hprefix hpre
    have hlisted := htrail.listed pre _ hprefix hpre hdir
    refine ((hwalked.ilock (hwalked.pos hs)).mono_panic fun e he => ?_).bind ?_
    · rw [hdir] at he
      cases he.2
    rintro _ u ⟨hu, hcopy⟩
    have hinum : (u.inode dp).inum = (t.inode dp).inum := by rw [hcopy]
    have hself : (u.inode dp).copy = s.dinode (u.inode dp).inum := by rw [hcopy]
    rw [← hinum] at hlinked hpre hdir hlisted
    unfold unlinkName
    split
    next => exact hu.release hs hlinked false _
    next hname =>
      refine ((dirlookup_walked hu hs hlisted hdir hself).mono_panic fun e he => ?_).bind fun r v hr => ?_
      · exact .inl ⟨he.1, hu.scarce he.2⟩
      rcases hr with ⟨rfl, _, rfl⟩ | ⟨next, off, rfl, hlookup, _⟩
      · exact hu.release hs hlinked false _
      · refine absurd ⟨?_, pre, name, hnames, by simpa using hname⟩ hno
        rw [hnames, resolve_snoc, hpre, Option.bind_some, hlookup]
        exact Option.some_ne_none _

/-- The root has an entry `a`, but no `b`. -/
theorem unlink_refused_missing : oneFile.resolve 1 [[97]] = some 2 ∧
    ∃ t, unlink smallDisk ⟨0, zero_lt_NINODE⟩ [47, 98] oneFile = .ok (false, t) ∧ Walked [] oneFile t := by
  have hresolve : oneFile.resolve 1 [[98]] = none := by decide +kernel
  have hname : ∀ j, oneFile.resolve 1 [[98]] = some j → j = 2 := fun j hj => by cases hresolve.symm.trans hj
  have htrail : Trail oneFile (oneFile.start ⟨0, zero_lt_NINODE⟩ [47, 98]) (components [47, 98]) := oneFile_trail hname
  have hspec : Returns (unlink smallDisk ⟨0, zero_lt_NINODE⟩ [47, 98]) oneFile _ :=
    (unlink_refused oneFile_table (by decide) htrail fun hno => hno.1 hresolve).mono_panic
      fun e he => oneFile_walks hname he
  obtain ⟨_, t, hrun, rfl, ht⟩ := hspec.exists
  exact ⟨by decide +kernel, t, hrun, ht⟩

end TweakedXv6.Fs

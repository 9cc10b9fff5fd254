import Mathlib.Algebra.Order.BigOperators.Group.Finset
import TweakedXv6.LinkModel
import TweakedXv6.RefCount

namespace TweakedXv6.Link

open Fs (Dirent Dinode short)
open Function (update update_self update_apply update_of_ne update_eq_self)

variable {m n : Nat} {s t : State m} {p q : Fin NPROC} {d : Fin m} {c : Pc m} {k : After m}
  {name : List UInt8} {j : Nat} {a : Act m} {l : List Dirent} {e : Dirent}

def Pc.refs : Pc m → Nat
  | .user | .linkOld .. | .unlinkDir .. | .openDir .. => 0
  | .iput (.bad _) | .freeing (.bad _) => 2
  | _ => 1

/-- A link whose entry is not there yet, or one whose entry is already cleared. -/
def Pc.pending : Pc m → Nat
  | .linkNew .. | .linkBad | .unlinkLower | .iput (.bad _) | .freeing (.bad _) => 1
  | _ => 0

def State.refs (s : State m) : Nat := ∑ p, (s.pc p).refs + ∑ p, s.opened p

def State.pending (s : State m) : Nat := ∑ p, (s.pc p).pending

def Pc.dir : Pc m → Option (Fin m)
  | .unlinkLock d _ | .iput (.bad d) | .freeing (.bad d) => some d
  | _ => none

def Pc.locked : Pc m → Bool
  | .linkNew .. | .linkBad | .unlinkLower | .iput _ | .freeing _ => true
  | _ => false

structure Ok (s : State m) (q : Fin NPROC) : Prop where
  dirLock : ∀ d, (s.pc q).dir = some d → s.dirLock d = some q
  entry : ∀ d j, s.pc q = .unlinkLock d j → ((s.dir d)[j]?.any fun e => e.inum = s.ino) = true
  lock : s.pc q = .unlinkLower ∨ (∃ k, s.pc q = .freeing k) → s.lock = some q
  valid : (s.pc q).locked = true ∨ 0 < s.opened q → s.inode.valid = true
  freeing : (∃ k, s.pc q = .freeing k) → s.inode.ref = 1 ∧ s.entries = 0 ∧ s.inode.copy.nlink = 0

/-- The link count is the number of entries, up to the calls in progress; the inode is freed when nothing
refers to it. -/
structure Inv (s : State m) : Prop where
  ino : s.ino ≠ 0
  ref : s.inode.ref = s.refs
  nlink : s.disk.nlink = short (s.entries + s.pending)
  free : s.disk.type = .free ↔ s.entries = 0 ∧ s.inode.ref = 0
  trunc : s.disk.type = .free → s.disk.size = 0 ∧ ∀ i, s.disk.addrs i = 0
  copy : s.inode.valid = true → 0 < s.inode.ref → s.inode.copy = s.disk
  ok : ∀ q, Ok s q

theorem short_add (x y : Int) : short (short x + y) = short (x + y) := Int.bmod_add_bmod

theorem short_eq (h : n < 32768) : short n = n := by
  refine Int.bmod_eq_of_le ?_ ?_ <;> omega

theorem pending_eq (hpc : t.pc = update s.pc p c) : t.pending + (s.pc p).pending = s.pending + c.pending := by
  have := sum_update s.pc p c fun _ c => c.pending
  rw [State.pending, State.pending, hpc]
  omega

theorem Pc.pending_le (c : Pc m) : c.pending ≤ c.refs := by
  unfold Pc.pending Pc.refs
  grind

theorem Pc.dir_refs (h : c.dir = some d) : 0 < c.refs := by
  unfold Pc.dir at h
  unfold Pc.refs
  grind

theorem Pc.locked_refs (h : c.locked = true) : 0 < c.refs := by
  unfold Pc.locked at h
  unfold Pc.refs
  grind

theorem refs_le (q : Fin NPROC) : (s.pc q).refs + s.opened q ≤ s.refs := by
  have h1 := Finset.single_le_sum (f := fun p => (s.pc p).refs) (fun _ _ => Nat.zero_le _) (Finset.mem_univ q)
  have h2 := Finset.single_le_sum (f := s.opened) (fun _ _ => Nat.zero_le _) (Finset.mem_univ q)
  unfold State.refs
  omega

theorem refs_two (hne : p ≠ q) : (s.pc p).refs + s.opened p + ((s.pc q).refs + s.opened q) ≤ s.refs := by
  have h : ∀ f : Fin NPROC → Nat, f p + f q ≤ ∑ x, f x := by
    intro f
    rw [← Finset.sum_pair hne]
    exact Finset.sum_le_sum_of_subset (Finset.subset_univ _)
  have h1 := h fun x => (s.pc x).refs
  have h2 := h s.opened
  unfold State.refs
  omega

theorem Ok.idle (hpc : (s.pc q).refs = 0) (ho : 0 < s.opened q → s.inode.valid = true) : Ok s q := by
  constructor
  · intro d hd
    have := Pc.dir_refs hd
    omega
  · intro d j he
    rw [he] at hpc
    cases hpc
  · rintro (he | ⟨k, he⟩)
    · rw [he] at hpc
      cases hpc
    · rw [he] at hpc
      cases k <;> cases hpc
  · rintro (hl | hl)
    · have := Pc.locked_refs hl
      omega
    · exact ho hl
  · rintro ⟨k, he⟩
    rw [he] at hpc
    cases k <;> cases hpc

theorem Ok.frame (h : Ok s q) (hpc : t.pc q = s.pc q) (hopened : t.opened q = s.opened q) (hino : t.ino = s.ino)
    (hlock : s.lock = some q → t.lock = some q)
    (hdir : ∀ d, s.dirLock d = some q → t.dirLock d = some q ∧ t.dir d = s.dir d)
    (hvalid : (s.pc q).locked = true ∨ 0 < s.opened q → s.inode.valid = true → t.inode.valid = true)
    (hfreeing : (∃ k, s.pc q = .freeing k) →
      t.inode.ref = s.inode.ref ∧ t.entries = s.entries ∧ t.inode.copy.nlink = s.inode.copy.nlink) : Ok t q := by
  constructor
  · intro d hd
    rw [hpc] at hd
    exact (hdir d (h.dirLock d hd)).1
  · intro d j he
    rw [hpc] at he
    have hd : (s.pc q).dir = some d := by rw [he, Pc.dir]
    rw [(hdir d (h.dirLock d hd)).2, hino]
    exact h.entry d j he
  · rw [hpc]
    exact fun he => hlock (h.lock he)
  · rw [hpc, hopened]
    exact fun he => hvalid he (h.valid he)
  · rw [hpc]
    intro he
    obtain ⟨h1, h2, h3⟩ := hfreeing he
    rw [h1, h2, h3]
    exact h.freeing he

theorem entries_setDir : (s.setDir d l).entries + (s.dir d).countP (fun e => e.inum = s.ino) =
    s.entries + l.countP fun e => e.inum = s.ino := by
  exact sum_update s.dir d l fun _ l => l.countP fun e => e.inum = s.ino

theorem countP_set {f : Dirent → Bool} (x : Dirent) (h : l[j]? = some e) :
    (l.set j x).countP f + (if f e then 1 else 0) = l.countP f + if f x then 1 else 0 := by
  induction l generalizing j with
  | nil => cases h
  | cons y l ih =>
    cases j with
    | zero =>
      cases h
      simp only [List.set_cons_zero, List.countP_cons]
      omega
    | succ j =>
      have := ih h
      simp only [List.set_cons_succ, List.countP_cons]
      omega

theorem countP_dirlink (hn : n ≠ 0) :
    (dirlink l name n).countP (fun e => e.inum = n) = l.countP (fun e => e.inum = n) + 1 := by
  unfold dirlink
  split
  next j hj =>
    obtain ⟨hlt, hfree, _⟩ := List.findIdx?_eq_some_iff_getElem.mp hj
    have hget : l[j]? = some l[j] := List.getElem?_eq_getElem hlt
    have hset := countP_set (f := fun e => e.inum = n) ⟨n, name⟩ hget
    have hne : l[j].inum ≠ n := by
      rw [show l[j].inum = 0 by simpa using hfree]
      exact hn.symm
    simpa [hne] using hset
  next => simp

theorem names_some (h : s.names d name = some j) :
    dirlookup (s.dir d) name = some j ∧ ∃ e, (s.dir d)[j]? = some e ∧ e.inum = s.ino := by
  unfold State.names at h
  rw [Option.filter_eq_some_iff] at h
  obtain ⟨hj, he⟩ := h
  obtain ⟨e, hget, hino⟩ := (Option.any_eq_true _ _).mp he
  exact ⟨hj, e, hget, by simpa using hino⟩

theorem entries_pos (h : (s.dir d)[j]? = some e) (he : e.inum = s.ino) : 0 < s.entries := by
  have hpos : 0 < (s.dir d).countP fun e => e.inum = s.ino :=
    List.countP_pos_iff.mpr ⟨e, List.mem_of_getElem? h, by simpa using he⟩
  have hle := Finset.single_le_sum (f := fun d => (s.dir d).countP fun e => e.inum = s.ino)
    (fun _ _ => Nat.zero_le _) (Finset.mem_univ d)
  exact Nat.lt_of_lt_of_le hpos hle

/-- What a step of `p` leaves to the others: their locks and directories, and what they rely on. -/
structure Spares (s t : State m) (p : Fin NPROC) : Prop where
  lock : s.lock = none ∨ s.lock = some p ∨ t.lock = s.lock
  dir : ∀ d, s.dirLock d = none ∨ s.dirLock d = some p ∨ t.dirLock d = s.dirLock d ∧ t.dir d = s.dir d
  valid : t.inode.valid = false → s.inode.ref = ((s.pc p).refs + s.opened p : Nat) ∨ s.inode.valid = false
  quiet : (s.pc p).refs = 0 → s.entries = 0 →
    t.inode.ref = s.inode.ref ∧ t.entries = s.entries ∧ t.inode.copy.nlink = s.inode.copy.nlink

section Steps

variable (h : Inv s)

include h

theorem Inv.of_step (hino : t.ino = s.ino) (hpc : t.pc = update s.pc p c)
    (hopened : t.opened = update s.opened p n)
    (href : t.inode.ref + ((s.pc p).refs + s.opened p : Nat) = s.inode.ref + (c.refs + n : Nat))
    (hnlink : t.disk.nlink = short (t.entries + t.pending))
    (hfree : t.disk.type = .free ↔ t.entries = 0 ∧ t.inode.ref = 0)
    (htrunc : t.disk = s.disk ∨ t.disk.type ≠ .free ∨ t.disk.size = 0 ∧ ∀ i, t.disk.addrs i = 0)
    (hcopy : t.inode.valid = true → 0 < t.inode.ref → t.inode.copy = t.disk) (hspares : Spares s t p)
    (hself : Ok t p) : Inv t := by
  have hsref := h.ref
  refine ⟨hino ▸ h.ino, ?_, hnlink, hfree, fun hf => ?_, hcopy, fun q => ?_⟩
  · have h1 := sum_update s.pc p c fun _ c => c.refs
    have h2 := sum_update s.opened p n fun _ n => n
    have hs : s.refs = ∑ x, (s.pc x).refs + ∑ x, s.opened x := rfl
    rw [State.refs, hpc, hopened]
    omega
  · rcases htrunc with h0 | h0 | h0
    · rw [h0] at hf ⊢
      exact h.trunc hf
    · exact absurd hf h0
    · exact h0
  · by_cases hq : q = p
    · exact hq ▸ hself
    have hok := h.ok q
    have htwo := refs_two (s := s) hq
    refine hok.frame (by rw [hpc, update_of_ne hq]) (by rw [hopened, update_of_ne hq]) hino ?_ ?_ ?_ ?_
    · intro hl
      rcases hspares.lock with h0 | h0 | h0
      · rw [h0] at hl
        cases hl
      · rw [h0] at hl
        exact absurd (Option.some.inj hl).symm hq
      · rw [h0, hl]
    · intro d hd
      rcases hspares.dir d with h0 | h0 | h0
      · rw [h0] at hd
        cases hd
      · rw [h0] at hd
        exact absurd (Option.some.inj hd).symm hq
      · exact ⟨h0.1.trans hd, h0.2⟩
    · -- a process that relies on `valid` has a reference
      intro hl hv
      by_contra hno
      have hpos : 0 < (s.pc q).refs + s.opened q := by
        rcases hl with hl | hl
        · have := Pc.locked_refs hl
          omega
        · omega
      rcases hspares.valid (by simpa using hno) with h0 | h0
      · omega
      · rw [h0] at hv
        cases hv
    · rintro ⟨k, hk⟩
      obtain ⟨h1, h2, _⟩ := hok.freeing ⟨k, hk⟩
      have hpos : 0 < (s.pc q).refs := by
        rw [hk]
        cases k <;> exact Nat.succ_pos _
      exact hspares.quiet (by omega) h2

theorem Inv.opened_valid (ho : 0 < s.opened p) : s.inode.valid = true := (h.ok p).valid (.inr ho)

theorem Inv.same_disk (hino : t.ino = s.ino) (hpc : t.pc = update s.pc p c)
    (hopened : t.opened = update s.opened p n) (hdisk : t.disk = s.disk)
    (href : t.inode.ref + ((s.pc p).refs + s.opened p : Nat) = s.inode.ref + (c.refs + n : Nat))
    (hent : t.entries + c.pending = s.entries + (s.pc p).pending)
    (hfree : s.disk.type = .free ↔ t.entries = 0 ∧ t.inode.ref = 0)
    (hcopy : t.inode.valid = true → 0 < t.inode.ref → t.inode.copy = s.disk) (hspares : Spares s t p)
    (hself : Ok t p) : Inv t := by
  have hpend := pending_eq hpc
  refine h.of_step hino hpc hopened href ?_ (by rwa [hdisk]) (.inl hdisk) (by rwa [hdisk]) hspares hself
  rw [hdisk, h.nlink, show (s.entries : Int) + s.pending = t.entries + t.pending by omega]

theorem Inv.goes (hinode : t.inode = s.inode) (hino : t.ino = s.ino) (hdisk : t.disk = s.disk)
    (hdir : t.dir = s.dir ∧ t.dirLock = s.dirLock) (hpc : t.pc = update s.pc p c)
    (hopened : t.opened = update s.opened p n) (hlock : s.lock = none ∨ t.lock = s.lock)
    (hrefs : (s.pc p).refs + s.opened p = c.refs + n) (hpend : c.pending = (s.pc p).pending) (hself : Ok t p) :
    Inv t := by
  have hent : t.entries = s.entries := by rw [State.entries, hdir.1, hino, State.entries]
  refine h.same_disk hino hpc hopened hdisk (by rw [hinode, hrefs]) (by rw [hent, hpend])
    (by rw [hent, hinode]; exact h.free) (by rw [hinode]; exact h.copy)
    ⟨hlock.imp_right .inr, fun d => .inr (.inr ?_), fun hv => .inr (hinode ▸ hv), fun _ _ => ?_⟩ hself
  · rw [hdir.1, hdir.2]
    exact ⟨rfl, rfl⟩
  · rw [hinode, hent]
    exact ⟨rfl, rfl, rfl⟩

theorem Inv.move (h0 : (s.pc p).refs = 0) (hc : c.refs = 0) : Inv (s.setPc p c) := by
  have hp := h0 ▸ Pc.pending_le (s.pc p)
  have hp' := hc ▸ Pc.pending_le c
  refine h.goes (n := s.opened p) rfl rfl rfl ⟨rfl, rfl⟩ rfl (update_eq_self ..).symm (.inr rfl) (by omega) (by omega) ?_
  exact Ok.idle (by simpa [State.setPc] using hc) h.opened_valid

theorem iget_cases : ∃ v, iget s = { s with inode := v } ∧ v.ref = s.inode.ref + 1 ∧
    (0 < s.inode.ref ∧ v.valid = s.inode.valid ∧ v.copy = s.inode.copy ∨ s.inode.ref = 0 ∧ v.valid = false) := by
  unfold iget
  split
  next hpos => exact ⟨_, rfl, rfl, .inl ⟨hpos, rfl, rfl⟩⟩
  next hpos =>
    have hzero : s.inode.ref = 0 := by
      have := h.ref
      omega
    exact ⟨_, rfl, by rw [hzero]; rfl, .inr ⟨hzero, rfl⟩⟩

theorem Inv.get (hr : c.refs = (s.pc p).refs + 1) (hpend : c.pending = (s.pc p).pending)
    (hpos : (s.pc p).refs = 0 → 0 < s.entries) (hup : s.dirLock d = none) (hd : c.dir = none ∨ c.dir = some d)
    (hlow : c ≠ .unlinkLower) (hfreeing : ∀ k, c ≠ .freeing k) (hlocked : c.locked = true → (s.pc p).locked = true)
    (hentry : ∀ d' j, c = .unlinkLock d' j → ((s.dir d')[j]?.any fun e => e.inum = s.ino) = true) :
    Inv (((iget s).setDirLock d (if c.dir = none then none else some p)).setPc p c) := by
  obtain ⟨v, hv, href, hcases⟩ := iget_cases h
  have hsref := h.ref
  have hle := refs_le (s := s) p
  rw [hv]
  generalize ht : (({ s with inode := v } : State m).setDirLock d (if c.dir = none then none else some p)).setPc p c = t
  have htv : t.inode = v := by rw [← ht]; rfl
  have hte : t.entries = s.entries := by rw [← ht]; rfl
  have htpc : t.pc = update s.pc p c := by rw [← ht]; rfl
  have hself : t.pc p = c := by rw [htpc, update_self]
  have hto : t.opened = s.opened := by rw [← ht]; rfl
  have htdir : t.dir = s.dir ∧ t.ino = s.ino := by rw [← ht]; exact ⟨rfl, rfl⟩
  have htlock : ∀ d', t.dirLock d' = if d' = d then (if c.dir = none then none else some p) else s.dirLock d' := by
    intro d'
    rw [← ht]
    exact update_apply ..
  have hfree : s.disk.type ≠ .free := by
    intro hf
    have := h.free.mp hf
    by_cases h0 : (s.pc p).refs = 0
    · have := hpos h0
      omega
    · omega
  refine h.same_disk (n := s.opened p) htdir.2 htpc (by rw [hto, update_eq_self]) (by rw [← ht]; rfl)
    (by rw [htv, href, hr]; omega) (by rw [hte, hpend]) ?_ ?_
    ⟨.inr (.inr (by rw [← ht]; rfl)), fun d' => ?_, ?_, fun h0 he => ?_⟩ ?_
  · rw [htv, href]
    exact ⟨fun hf => absurd hf hfree, fun he => by omega⟩
  · rw [htv]
    intro hval _
    rcases hcases with ⟨hr, hv1, hv2⟩ | ⟨_, hv1⟩
    · rw [hv2]
      exact h.copy (hv1 ▸ hval) hr
    · rw [hv1] at hval
      cases hval
  · by_cases hdd : d' = d
    · exact .inl (hdd ▸ hup)
    · exact .inr (.inr ⟨by rw [htlock, if_neg hdd], by rw [htdir.1]⟩)
  · rw [htv]
    intro hval
    rcases hcases with ⟨_, hv1, _⟩ | ⟨hr, _⟩
    · exact .inr (hv1 ▸ hval)
    · left
      omega
  · have := hpos h0
    omega
  · constructor
    · intro d' hd'
      rw [hself] at hd'
      have hne : c.dir ≠ none := by rw [hd']; exact nofun
      have hdd : d' = d := Option.some.inj (hd'.symm.trans (hd.resolve_left hne))
      rw [htlock, if_pos hdd, if_neg hne]
    · rw [hself, htdir.1, htdir.2]
      exact hentry
    · rw [hself]
      rintro (he | ⟨k, he⟩)
      · exact absurd he hlow
      · exact absurd he (hfreeing k)
    · -- who relies on `valid` has a reference, so that `iget` finds the entry
      rw [hself, htv, hto]
      intro hl
      have hl := hl.imp_left hlocked
      rcases hcases with ⟨_, hv1, _⟩ | ⟨h0, _⟩
      · rw [hv1]
        exact (h.ok p).valid hl
      · rcases hl with hl | hl
        · have := Pc.locked_refs hl
          omega
        · omega
    · rw [hself]
      rintro ⟨k, he⟩
      exact absurd he (hfreeing k)

theorem Inv.pos (hp : 0 < (s.pc p).refs) : 0 < s.inode.ref := by
  have := refs_le (s := s) p
  have := h.ref
  omega

theorem Inv.not_free (hp : 0 < s.inode.ref) : s.disk.type ≠ .free := by
  intro hf
  have := (h.free.mp hf).2
  omega

theorem ilock_eq (hp : 0 < s.inode.ref) :
    ilock s = { s with inode := { s.inode with copy := s.disk, valid := true } } := by
  unfold ilock
  split
  next hv =>
    have hc := h.copy hv hp
    cases s with
    | mk ino disk inode lock dir dirLock pc opened =>
      cases inode
      simp only at hc hv ⊢
      rw [hc, hv]
  next => rfl

end Steps

theorem Ok.unlocked (hpc : s.pc q = c) (hdir : c.dir = none) (hlow : c ≠ .unlinkLower) (hfree : ∀ k, c ≠ .freeing k)
    (hv : s.inode.valid = true) : Ok s q := by
  constructor
  · intro d hd
    rw [hpc, hdir] at hd
    cases hd
  · intro d j he
    rw [hpc] at he
    rw [he] at hdir
    cases hdir
  · rw [hpc]
    rintro (he | ⟨k, he⟩)
    · exact absurd he hlow
    · exact absurd he (hfree k)
  · exact fun _ => hv
  · rw [hpc]
    rintro ⟨k, he⟩
    exact absurd he (hfree k)

theorem Inv.relink {x : Int} (h : Inv s) (hp : (s.pc p).refs = 1) (hlock : s.lock = none ∨ s.lock = some p)
    (hc : c.refs = 1 ∧ c.dir = none ∧ c ≠ .unlinkLower) (hfree : ∀ k, c ≠ .freeing k)
    (hx : (c.pending : Int) = (s.pc p).pending + x) :
    Inv { (addLink (ilock s) x).setPc p c with lock := none } := by
  have hpos := h.pos (p := p) (by omega)
  rw [ilock_eq h hpos]
  generalize ht : ({ (addLink { s with inode := { s.inode with copy := s.disk, valid := true } } x).setPc p c with
    lock := none } : State m) = t
  have hte : t.entries = s.entries := by rw [← ht]; rfl
  have htpc : t.pc = update s.pc p c := by rw [← ht]; rfl
  have htd : t.disk = { s.disk with nlink := short (s.disk.nlink + x) } := by rw [← ht]; rfl
  have htv : t.inode = { s.inode with copy := t.disk, valid := true } := by rw [← ht]; rfl
  have htpend : (t.pending : Int) = s.pending + x := by
    have hpend := pending_eq htpc
    omega
  refine h.of_step (n := s.opened p) (by rw [← ht]; rfl) htpc ?_ ?_ ?_ ?_
    (.inr (.inl (by rw [htd]; exact h.not_free hpos))) ?_
    ⟨hlock.imp_right .inl, fun d => .inr (.inr (by rw [← ht]; exact ⟨rfl, rfl⟩)), ?_, ?_⟩ ?_
  · rw [← ht]
    exact (update_eq_self ..).symm
  · rw [htv]
    dsimp only
    omega
  · rw [htd, hte, htpend, h.nlink, short_add, Int.add_assoc]
  · have := h.not_free hpos
    rw [htd, htv]
    exact ⟨fun hf => absurd hf this, fun he => by
      have : s.inode.ref = 0 := he.2
      omega⟩
  · intro _ _
    rw [htv]
  · rw [htv]
    exact nofun
  · omega
  · exact Ok.unlocked (c := c) (by rw [htpc, update_self]) hc.2.1 hc.2.2 hfree (by rw [htv])

theorem Inv.stay (h : Inv s) (hp : (s.pc p).locked = true) (hrefs : c.refs = (s.pc p).refs)
    (hpend : c.pending = (s.pc p).pending) (hc : c.dir = none ∧ c ≠ .unlinkLower) (hfree : ∀ k, c ≠ .freeing k) :
    Inv (s.setPc p c) := by
  refine h.goes (n := s.opened p) rfl rfl rfl ⟨rfl, rfl⟩ rfl (update_eq_self ..).symm (.inr rfl) (by rw [hrefs]) hpend ?_
  exact Ok.unlocked (c := c) (update_self ..) hc.1 hc.2 hfree ((h.ok p).valid (.inl hp))

theorem Inv.enter (h : Inv s) (hp : s.pc p = .linkNew d name) (hup : s.dirLock d = none) :
    Inv ((s.setDir d (dirlink (s.dir d) name s.ino)).setPc p (.iput .done)) := by
  have hpos := h.pos (p := p) (by rw [hp]; exact Nat.one_pos)
  generalize ht : (s.setDir d (dirlink (s.dir d) name s.ino)).setPc p (.iput .done) = t
  have hte : t.entries = s.entries + 1 := by
    have := entries_setDir (s := s) (d := d) (l := dirlink (s.dir d) name s.ino)
    rw [countP_dirlink h.ino] at this
    rw [show t.entries = (s.setDir d (dirlink (s.dir d) name s.ino)).entries by rw [← ht]; rfl]
    omega
  have htpc : t.pc = update s.pc p (.iput .done) := by rw [← ht]; rfl
  have htv : t.inode = s.inode := by rw [← ht]; rfl
  refine h.same_disk (n := s.opened p) (by rw [← ht]; rfl) htpc ?_ (by rw [← ht]; rfl) ?_ ?_ ?_ ?_
    ⟨.inr (.inr (by rw [← ht]; rfl)), fun d' => ?_, fun hv => .inr (htv ▸ hv), ?_⟩ ?_
  · rw [← ht]
    exact (update_eq_self ..).symm
  · rw [htv, hp]
    simp only [Pc.refs]
  · rw [hte, hp]
    rfl
  · rw [hte, htv]
    exact ⟨fun hf => absurd hf (h.not_free hpos), fun he => by omega⟩
  · rw [htv]
    exact h.copy
  · by_cases hdd : d' = d
    · exact .inl (hdd ▸ hup)
    · refine .inr (.inr ⟨by rw [← ht]; rfl, ?_⟩)
      rw [← ht]
      exact update_of_ne hdd ..
  · rw [hp]
    exact nofun
  · refine Ok.unlocked (c := .iput .done) (by rw [htpc, update_self]) rfl nofun nofun ?_
    rw [htv]
    exact (h.ok p).valid (.inl (by rw [hp]; rfl))

theorem Inv.found (h : Inv s) (hp : s.pc p = .linkNew d name) (hup : s.dirLock d = none) :
    Inv (((iget s).setDirLock d (some p)).setPc p (.iput (.bad d))) :=
  h.get (p := p) (c := .iput (.bad d)) (by rw [hp]; rfl) (by rw [hp]; rfl) (by rw [hp]; exact nofun) hup (.inr rfl)
    nofun nofun (fun _ => by rw [hp]; rfl) nofun

theorem Inv.clear (h : Inv s) (hp : s.pc p = .unlinkLock d j) (hl : s.lock = none) :
    Inv { (((ilock s).setDir d ((s.dir d).set j ⟨0, List.replicate Fs.DIRSIZ 0⟩)).setDirLock d none).setPc p .unlinkLower
      with lock := some p } := by
  have hpos := h.pos (p := p) (by rw [hp]; exact Nat.one_pos)
  have hdl := (h.ok p).dirLock d (by rw [hp, Pc.dir])
  obtain ⟨e, hget, he⟩ := (Option.any_eq_true _ _).mp ((h.ok p).entry d j hp)
  rw [decide_eq_true_eq] at he
  rw [ilock_eq h hpos]
  generalize ht : ({ ((({ s with inode := { s.inode with copy := s.disk, valid := true } } : State m).setDir d
    ((s.dir d).set j ⟨0, List.replicate Fs.DIRSIZ 0⟩)).setDirLock d none).setPc p .unlinkLower with lock := some p } :
      State m) = t
  have hte : t.entries + 1 = s.entries := by
    have hset := countP_set (f := fun e => e.inum = s.ino) ⟨0, List.replicate Fs.DIRSIZ 0⟩ hget
    have hdir := entries_setDir (s := s) (d := d) (l := (s.dir d).set j ⟨0, List.replicate Fs.DIRSIZ 0⟩)
    rw [show t.entries = (s.setDir d ((s.dir d).set j ⟨0, List.replicate Fs.DIRSIZ 0⟩)).entries by rw [← ht]; rfl]
    simp only [he, decide_true, if_true, Ne.symm h.ino, decide_false, Bool.false_eq_true, if_false] at hset
    omega
  have htpc : t.pc = update s.pc p .unlinkLower := by rw [← ht]; rfl
  have htv : t.inode = { s.inode with copy := s.disk, valid := true } := by rw [← ht]; rfl
  have hself : t.pc p = .unlinkLower := by rw [htpc, update_self]
  refine h.same_disk (n := s.opened p) (by rw [← ht]; rfl) htpc ?_ (by rw [← ht]; rfl) ?_ ?_ ?_ ?_
    ⟨.inl hl, fun d' => ?_, ?_, ?_⟩ ?_
  · rw [← ht]
    exact (update_eq_self ..).symm
  · rw [htv, hp]
    simp only [Pc.refs]
  · rw [hp]
    exact hte
  · rw [htv]
    exact ⟨fun hf => absurd hf (h.not_free hpos), fun he => by
      have : s.inode.ref = 0 := he.2
      omega⟩
  · intro _ _
    rw [htv]
  · by_cases hdd : d' = d
    · exact .inr (.inl (hdd ▸ hdl))
    · refine .inr (.inr ?_)
      rw [← ht]
      exact ⟨update_of_ne hdd .., update_of_ne hdd ..⟩
  · rw [htv]
    exact nofun
  · rw [hp]
    exact nofun
  · constructor
    · intro d' hd'
      rw [hself] at hd'
      cases hd'
    · intro d' j' he
      rw [hself] at he
      cases he
    · intro _
      rw [← ht]
    · intro _
      rw [htv]
    · rw [hself]
      rintro ⟨k, he⟩
      cases he

theorem Inv.lockOpen (h : Inv s) (hp : (s.pc p).refs = 1 ∧ (s.pc p).pending = 0)
    (hc : c = .user ∧ n = s.opened p + 1 ∨ c = .iput .done ∧ n = s.opened p) :
    Inv { (ilock s).setPc p c with opened := update s.opened p n } := by
  have hpos := h.pos (p := p) (by omega)
  rw [ilock_eq h hpos]
  generalize ht : ({ ({ s with inode := { s.inode with copy := s.disk, valid := true } } : State m).setPc p c with
    opened := update s.opened p n } : State m) = t
  have hte : t.entries = s.entries := by rw [← ht]; rfl
  have htpc : t.pc = update s.pc p c := by rw [← ht]; rfl
  have htv : t.inode = { s.inode with copy := s.disk, valid := true } := by rw [← ht]; rfl
  have hc0 : c.pending = 0 ∧ c.refs + n = 1 + s.opened p := by
    rcases hc with ⟨rfl, rfl⟩ | ⟨rfl, rfl⟩
    · exact ⟨rfl, by simp only [Pc.refs]; omega⟩
    · exact ⟨rfl, rfl⟩
  refine h.same_disk (n := n) (by rw [← ht]; rfl) htpc (by rw [← ht]) (by rw [← ht]; rfl) ?_ (by omega) ?_ ?_
    ⟨.inr (.inr (by rw [← ht]; rfl)), fun d => .inr (.inr (by rw [← ht]; exact ⟨rfl, rfl⟩)), ?_, ?_⟩ ?_
  · rw [htv]
    dsimp only
    omega
  · rw [htv, hte]
    exact h.free
  · intro _ _
    rw [htv]
  · rw [htv]
    exact nofun
  · omega
  · refine Ok.unlocked (c := c) (by rw [htpc, update_self]) ?_ ?_ ?_ (by rw [htv])
    all_goals rcases hc with ⟨rfl, _⟩ | ⟨rfl, _⟩
    all_goals first | rfl | exact nofun

theorem Inv.close (h : Inv s) (hp : s.pc p = .user) (ho : 0 < s.opened p) :
    Inv { s.setPc p (.iput .done) with opened := update s.opened p (s.opened p - 1) } := by
  refine h.goes (c := .iput .done) rfl rfl rfl ⟨rfl, rfl⟩ rfl rfl (.inr rfl) ?_ (by rw [hp]; rfl) ?_
  · rw [hp]
    simp only [Pc.refs]
    omega
  · exact Ok.unlocked (c := .iput .done) (update_self ..) rfl nofun nofun (h.opened_valid ho)

theorem pending_lt (h0 : (s.pc p).pending = 0) (hp : (s.pc p).refs = 1) : s.pending + 1 ≤ s.refs := by
  have hsum : s.pending + ∑ q, ((s.pc q).refs - (s.pc q).pending) = ∑ q, (s.pc q).refs := by
    rw [State.pending, ← Finset.sum_add_distrib]
    refine Finset.sum_congr rfl fun q _ => ?_
    have := Pc.pending_le (s.pc q)
    omega
  have hle := Finset.single_le_sum (f := fun q => (s.pc q).refs - (s.pc q).pending) (fun _ _ => Nat.zero_le _)
    (Finset.mem_univ p)
  rw [h0, hp] at hle
  unfold State.refs
  omega

/-- What the last `iput` sees: the link count is the number of entries. -/
theorem Inv.last (h : Inv s) (hp : s.pc p = .iput k ∨ s.pc p = .freeing k) (hr : s.inode.ref = 1) :
    k = .done ∧ s.pending = 0 ∧ s.opened p = 0 ∧ s.inode.copy = s.disk ∧ s.disk.nlink = short s.entries := by
  have hle := refs_le (s := s) p
  have href := h.ref
  have hk : k = .done := by
    cases k with
    | done => rfl
    | bad d =>
      rcases hp with hp | hp <;> rw [hp] at hle <;> simp only [Pc.refs] at hle <;> omega
  subst hk
  have hpc : (s.pc p).pending = 0 ∧ (s.pc p).refs = 1 ∧ (s.pc p).locked = true := by
    rcases hp with hp | hp <;> rw [hp] <;> exact ⟨rfl, rfl, rfl⟩
  have hpend := pending_lt hpc.1 hpc.2.1
  have hcopy := h.copy ((h.ok p).valid (.inl hpc.2.2)) (by omega)
  have hz : s.pending = 0 := by omega
  refine ⟨rfl, hz, by omega, hcopy, ?_⟩
  have := h.nlink
  rw [hz] at this
  simpa using this

theorem Inv.put (h : Inv s) (hp : s.pc p = .iput k)
    (hno : ¬ (s.inode.ref = 1 ∧ s.inode.valid = true ∧ s.inode.copy.nlink = 0)) :
    Inv (({ s with inode := { s.inode with ref := s.inode.ref - 1 } } : State m).after p k) := by
  have hvalid := (h.ok p).valid (.inl (by rw [hp]; rfl))
  have hpos := h.pos (p := p) (by rw [hp]; cases k <;> exact Nat.succ_pos _)
  have hleft : ¬ (s.entries = 0 ∧ s.inode.ref - 1 = 0) := by
    rintro ⟨he, hr⟩
    have hr : s.inode.ref = 1 := by omega
    obtain ⟨_, _, _, hcopy, hnlink⟩ := h.last (.inl hp) hr
    refine hno ⟨hr, hvalid, ?_⟩
    rw [hcopy, hnlink, he]
    rfl
  have hnf := h.not_free hpos
  cases k with
  | done =>
    refine h.same_disk (c := .user) (n := s.opened p) rfl rfl (update_eq_self ..).symm rfl ?_ (by rw [hp]; rfl)
      ⟨fun hf => absurd hf hnf, fun he => absurd he hleft⟩ (fun hv _ => h.copy hv hpos)
      ⟨.inr (.inr rfl), fun d => .inr (.inr ⟨rfl, rfl⟩), .inr, by rw [hp]; exact nofun⟩ ?_
    · rw [hp]
      simp only [Pc.refs]
      change s.inode.ref - 1 + _ = _
      omega
    · exact Ok.idle (by simp [State.after, State.setPc, Pc.refs]) fun _ => hvalid
  | bad d =>
    have hdl := (h.ok p).dirLock d (by rw [hp, Pc.dir])
    refine h.same_disk (c := .linkBad) (n := s.opened p) rfl rfl (update_eq_self ..).symm rfl ?_ (by rw [hp]; rfl)
      ⟨fun hf => absurd hf hnf, fun he => absurd he hleft⟩ (fun hv _ => h.copy hv hpos)
      ⟨.inr (.inr rfl), fun d' => ?_, .inr, by rw [hp]; exact nofun⟩ ?_
    · rw [hp]
      simp only [Pc.refs]
      change s.inode.ref - 1 + _ = _
      omega
    · by_cases hdd : d' = d
      · exact .inr (.inl (hdd ▸ hdl))
      · exact .inr (.inr ⟨update_of_ne hdd .., rfl⟩)
    · exact Ok.unlocked (c := .linkBad) (update_self ..) rfl nofun nofun hvalid

theorem Inv.lockFree (h : Inv s) (hp : s.pc p = .iput k) (hlt : s.entries < 32768) (hl : s.lock = none)
    (hr : s.inode.ref = 1) (hn : s.inode.copy.nlink = 0) :
    Inv { s.setPc p (.freeing k) with lock := some p } := by
  have hvalid := (h.ok p).valid (.inl (by rw [hp]; rfl))
  obtain ⟨rfl, hpend0, _, hcopy, hnlink⟩ := h.last (.inl hp) hr
  have hzero : s.entries = 0 := by
    rw [hcopy, hnlink, short_eq hlt] at hn
    omega
  have hself : (s.setPc p (.freeing .done)).pc p = .freeing .done := update_self ..
  refine h.goes (c := .freeing .done) rfl rfl rfl ⟨rfl, rfl⟩ rfl (update_eq_self ..).symm (.inl hl) (by rw [hp]; rfl)
    (by rw [hp]; rfl) ⟨fun d hd => ?_, fun d j he => ?_, fun _ => rfl, fun _ => hvalid, fun _ => ⟨hr, hzero, hn⟩⟩
  · rw [show ({ s.setPc p (.freeing .done) with lock := some p } : State m).pc p = .freeing .done from hself] at hd
    cases hd
  · rw [show ({ s.setPc p (.freeing .done) with lock := some p } : State m).pc p = .freeing .done from hself] at he
    cases he

theorem Inv.freed (h : Inv s) (hp : s.pc p = .freeing k) {v : Dinode}
    (hv : v.type = .free ∧ v.nlink = s.inode.copy.nlink ∧ v.size = 0 ∧ ∀ i, v.addrs i = 0) :
    Inv (({ s with disk := v, inode := { s.inode with copy := v, valid := false, ref := s.inode.ref - 1 }, lock := none } :
      State m).after p k) := by
  have hlock := (h.ok p).lock (.inr ⟨k, hp⟩)
  obtain ⟨hr, he, hn⟩ := (h.ok p).freeing ⟨k, hp⟩
  obtain ⟨rfl, hpend0, ho, _⟩ := h.last (.inr hp) hr
  have hpend : ((({ s with disk := v, inode := { s.inode with copy := v, valid := false, ref := s.inode.ref - 1 }, lock := none } :
      State m).after p .done)).pending = 0 := by
    have hpend := pending_eq (s := s) (p := p) (c := .user) (t := s.setPc p .user) rfl
    rw [hp, hpend0] at hpend
    simp only [Pc.pending, Nat.add_zero] at hpend
    exact hpend
  refine h.of_step (c := .user) (n := s.opened p) rfl rfl (update_eq_self ..).symm ?_ ?_ ?_
    (.inr (.inr hv.2.2)) ?_ ⟨.inr (.inl hlock), fun d => .inr (.inr ⟨rfl, rfl⟩), fun _ => .inl ?_, ?_⟩ ?_
  · rw [hp]
    simp only [Pc.refs]
    change s.inode.ref - 1 + _ = _
    omega
  · rw [hpend]
    change v.nlink = short (s.entries + (0 : Nat))
    rw [hv.2.1, hn, he]
    rfl
  · refine ⟨fun _ => ⟨he, ?_⟩, fun _ => hv.1⟩
    change s.inode.ref - 1 = 0
    omega
  · exact nofun
  · rw [hp, ho, hr]
    rfl
  · rw [hp]
    exact nofun
  · refine Ok.idle (by simp [State.after, State.setPc, Pc.refs]) fun hpos => ?_
    change 0 < s.opened p at hpos
    omega

end TweakedXv6.Link

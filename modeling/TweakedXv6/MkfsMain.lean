import Mathlib.Algebra.BigOperators.Group.Finset.Piecewise
import TweakedXv6.MkfsImage

namespace TweakedXv6.Mkfs

open Prog Fs
open Function (update update_idem update_self update_of_ne update_eq_self)

def Arg.content (a : Arg) : List UInt8 := (a.chunks.getD []).flatMap Chunk.bytes

def root (argv : List Arg) : List UInt8 :=
  direntBytes ROOTINO dot ++ direntBytes ROOTINO dotdot ++ (argv.zipIdx 2).flatMap fun p => direntBytes p.2 p.1.name

def files (argv : List Arg) (i : Nat) : List UInt8 :=
  if i = ROOTINO then root argv else if i < 2 then [] else (argv[i - 2]?.map Arg.content).getD []

/-- The files can be opened and have names without `/`, none is too long, and there are blocks for all.
-/
structure Fit (argv : List Arg) : Prop where
  opens : ∀ a ∈ argv, a.chunks ≠ none
  plain : ∀ a ∈ argv, slash ∉ a.shortname
  short : ∀ i, (files argv i).length ≤ MAXFILE * BSIZE
  room : need (files argv) ≤ FSSIZE

def blank : Disk := { sect := fun _ _ => 0, len := 0, freeinode := 1, freeblock := nmeta }

variable {s t u : Disk} {data : Nat → List UInt8} {argv done l : List Arg} {a : Arg} {i j n : Nat}
  {p q : List UInt8} {E : String → Prop} {Q : Unit → Disk → Prop}

theorem root_snoc : root (done ++ [a]) = root done ++ direntBytes (done.length + 2) a.name := by
  unfold root
  rw [List.zipIdx_append, List.flatMap_append, ← List.append_assoc, Nat.add_comm 2]
  simp

theorem files_snoc : files (done ++ [a]) = update
    (update (files done) ROOTINO (files done ROOTINO ++ direntBytes (done.length + 2) a.name))
    (done.length + 2) a.content := by
  funext i
  have hR : ROOTINO = 1 := rfl
  by_cases hi : i = done.length + 2
  · subst hi
    rw [update_self, files, if_neg (by omega), if_neg (by omega)]
    simp
  · rw [update_of_ne hi]
    by_cases hr : i = ROOTINO
    · subst hr
      rw [update_self]
      exact root_snoc
    · rw [update_of_ne hr, files, files, if_neg hr, if_neg hr]
      split
      · rfl
      · rw [List.getElem?_append]
        split
        · rfl
        · rw [List.getElem?_eq_none (by simp; omega), List.getElem?_eq_none (by omega)]

theorem root_length : (root argv).length = DESIZE * (argv.length + 2) := by
  have hD : DESIZE = 16 := rfl
  have hlen : ∀ (l : List Arg) k, ((l.zipIdx k).flatMap fun p => direntBytes p.2 p.1.name).length = DESIZE * l.length := by
    intro l
    induction l with
    | nil => simp
    | cons a l ih =>
      intro k
      rw [List.zipIdx_cons, List.flatMap_cons, List.length_append, ih, direntBytes_length, List.length_cons, hD]
      omega
  rw [root, List.length_append, List.length_append, direntBytes_length, direntBytes_length, hlen, hD]
  omega

theorem files_append : (files done i).length ≤ (files (done ++ l) i).length := by
  by_cases hr : i = ROOTINO
  · rw [files, files, if_pos hr, if_pos hr, root_length, root_length, List.length_append]
    exact Nat.mul_le_mul_left _ (by omega)
  · rw [files, files, if_neg hr, if_neg hr]
    split
    · exact Nat.le_refl _
    · rw [List.getElem?_append]
      split
      · exact Nat.le_refl _
      · rw [List.getElem?_eq_none (by omega)]
        exact Nat.zero_le _

theorem Fit.left (h : Fit (done ++ l)) : Fit done :=
  ⟨fun a ha => h.opens a (List.mem_append_left _ ha), fun a ha => h.plain a (List.mem_append_left _ ha),
    fun i => Nat.le_trans files_append (h.short i), Nat.le_trans (need_mono fun _ => files_append) h.room⟩

theorem Fit.not_unfit (h : Fit argv) (hle : ∀ j, (update data i (data i ++ p) j).length ≤ (files argv j).length) :
    ¬ Unfit data i p := by
  intro hun
  obtain hun | hun := hun
  · have := need_mono hle
    have := h.room
    omega
  · have := hle i
    rw [update_self] at this
    have := h.short i
    omega

theorem Unfit.append (h : Unfit data i p) : Unfit data i (p ++ q) := by
  have hle : (data i ++ p).length ≤ (data i ++ (p ++ q)).length := by
    simp only [List.length_append]
    omega
  obtain h | h := h
  · left
    refine Nat.lt_of_lt_of_le h (need_mono fun j => ?_)
    by_cases hj : j = i
    · subst hj
      rw [update_self, update_self]
      exact hle
    · rw [update_of_ne hj, update_of_ne hj]
  · right
    omega

theorem Unfit.of_update (h : Unfit (update data i (data i ++ p)) i q) : Unfit data i (p ++ q) := by
  unfold Unfit at h ⊢
  rwa [update_idem, update_self, List.append_assoc] at h

theorem chunks_spec (cs : List Chunk) (h : Image s data) (h0 : 0 < i) (hi : i < s.freeinode) (hN : i < NINODES) :
    Post (fun _ => Unfit data i (cs.flatMap Chunk.bytes)) (each cs fun c => iappend i c.bytes) s fun _ t =>
      t.freeinode = s.freeinode ∧ Image t (update data i (data i ++ cs.flatMap Chunk.bytes)) := by
  induction cs generalizing s data with
  | nil =>
    refine ⟨rfl, ?_⟩
    rw [List.flatMap_nil, List.append_nil, update_eq_self]
    exact h
  | cons c cs ih =>
    rw [List.flatMap_cons]
    refine Post.bind ((iappend_spec h h0 hi hN).mono_panic fun _ he => he.append) fun _ t ht => ?_
    obtain ⟨hfree, himage⟩ := ht
    have hrec := ih himage (hfree.symm ▸ hi)
    rw [update_idem, update_self, List.append_assoc, hfree] at hrec
    exact hrec.mono_panic fun _ he => he.of_update

theorem addFile_spec (h : Image s (files done)) (hn : s.freeinode = done.length + 2) (hlt : done.length + 2 < NINODES) :
    Post (fun _ => ¬ Fit (done ++ [a])) (addFile ROOTINO a) s fun _ t =>
      t.freeinode = (done ++ [a]).length + 2 ∧ Image t (files (done ++ [a])) := by
  have hR : ROOTINO = 1 := rfl
  have hN : NINODES = 200 := rfl
  have hmem : a ∈ done ++ [a] := List.mem_append_right _ (List.mem_singleton_self a)
  unfold addFile
  split
  case isTrue hslash => exact fun hfit => hfit.plain a hmem hslash
  case isFalse =>
    split
    case h_1 hnone => exact fun hfit => hfit.opens a hmem hnone
    case h_2 cs hcs =>
      have hcontent : a.content = cs.flatMap Chunk.bytes := by rw [Arg.content, hcs, Option.getD_some]
      have hnone : files done (done.length + 2) = [] := (h.free _ (by omega)).2
      refine Post.bind ((ialloc_spec h (by omega) (by omega) (by rw [if_neg (by omega)])).mono_panic fun _ => False.elim)
        fun i t ht => ?_
      obtain ⟨hi, hfree, himage⟩ := ht
      rw [hn] at hi hfree
      subst hi
      have hroot := iappend_spec (p := direntBytes (done.length + 2) a.name) himage (i := ROOTINO) (by decide) (by omega)
        (by decide)
      generalize hdata : update (files done) ROOTINO (files done ROOTINO ++ direntBytes (done.length + 2) a.name) =
        data at hroot
      have hend : update data (done.length + 2) (data (done.length + 2) ++ a.content) = files (done ++ [a]) := by
        rw [files_snoc, ← hdata, update_of_ne (by omega), hnone, List.nil_append]
      refine Post.bind (hroot.mono_panic fun _ hun hfit => hfit.not_unfit (fun j => ?_) hun) fun _ u hu => ?_
      · rw [hdata, ← hend]
        by_cases hj : j = done.length + 2
        · rw [hj, update_self, List.length_append]
          omega
        · rw [update_of_ne hj]
      · obtain ⟨hfree', himage'⟩ := hu
        have hrest := chunks_spec cs himage' (i := done.length + 2) (by omega) (by omega) (by omega)
        rw [← hcontent, hend] at hrest
        have hfits : Unfit data (done.length + 2) a.content → ¬ Fit (done ++ [a]) :=
          fun hun hfit => hfit.not_unfit (fun j => Nat.le_of_eq (by rw [hend])) hun
        refine (hrest.mono_panic fun _ => hfits).mono fun _ v hv => ⟨?_, hv.2⟩
        rw [hv.1, hfree', hfree, List.length_append]
        rfl

theorem addFiles_spec (h : Image s (files done)) (hn : s.freeinode = done.length + 2)
    (hlt : (done ++ l).length + 2 ≤ NINODES) :
    Post (fun _ => ¬ Fit (done ++ l)) (each l (addFile ROOTINO)) s fun _ t =>
      t.freeinode = (done ++ l).length + 2 ∧ Image t (files (done ++ l)) := by
  induction l generalizing s done with
  | nil =>
    rw [List.append_nil]
    exact ⟨hn, h⟩
  | cons a l ih =>
    have hsplit : done ++ a :: l = (done ++ [a]) ++ l := (List.append_assoc done [a] l).symm
    rw [hsplit] at hlt ⊢
    have hle : done.length + 2 < NINODES := by
      simp only [List.length_append, List.length_singleton] at hlt
      omega
    refine Post.bind ((addFile_spec h hn hle).mono_panic fun _ hfit hall => hfit hall.left) fun _ t ht => ?_
    exact ih ht.2 ht.1 hlt

theorem blank_blocks : Blocks (fun _ => 0) nmeta fun _ => 0 := by
  refine ⟨⟨⟨fun w b hb => absurd hb.2.symm hb.1, fun w w' b hb => absurd hb.2.symm hb.1, fun b hb => ?_⟩,
    fun b hb hno => ?_⟩, fun i bn => by simp, fun i => by simp, by simp [taken]⟩
  · obtain ⟨hdata, hbit⟩ := hb
    exact absurd hdata.1 (Nat.not_le.mpr (of_decide_eq_true hbit))
  · by_contra hbit
    exact hno ⟨Nat.le_of_not_lt (of_decide_eq_false (Bool.not_eq_true _ ▸ hbit)), hb⟩

theorem blank_image : Returns (loop FSSIZE (fun i => wsect i fun _ => 0) >>= fun _ => wsect 1 superblock) blank fun _ t =>
    t.freeinode = 1 ∧ Image t fun _ => [] := by
  have hloop : Returns (loop FSSIZE fun i => wsect i fun _ => 0) blank fun _ t =>
      t = { blank with len := FSSIZE } := by
    refine Post.loop (I := fun i t => t = { blank with len := i }) rfl fun i t _ ht => ?_
    subst ht
    have hsect : update blank.sect i (fun _ => 0) = blank.sect := update_eq_self i blank.sect
    show Disk.mk (update blank.sect i fun _ => 0) (max i (i + 1)) _ _ = _
    rw [hsect, Nat.max_eq_right (Nat.le_succ i)]
  refine Post.bind hloop fun _ t ht => ?_
  subst ht
  unfold Post
  rw [wsect_run (by decide)]
  generalize hu : Disk.mk _ _ _ _ = u
  have hsect : ∀ b, b ≠ 1 → u.sect b = fun _ => 0 := by
    intro b hb
    rw [← hu]
    exact update_of_ne hb ..
  have hin : inodes u = fun _ => {} := by
    funext i
    unfold inodes dinodesAt
    split
    · have hne : i / IPB + inodestart ≠ 1 := Nat.ne_of_gt (Nat.lt_of_lt_of_le (by decide) (Nat.le_add_left ..))
      rw [hsect _ hne, dinodeAt_zero]
    · rfl
  have hfb : u.freeblock = nmeta := by rw [← hu]; rfl
  have hfi : u.freeinode = 1 := by rw [← hu]; rfl
  have hslot : slot (inodes u) u.sect = fun _ => 0 := by
    funext w
    simp [slot, hin]
  refine ⟨hfi, ⟨?_, ?_, ?_, fun b hb => hsect b ?_, fun i o ho => absurd ho (Nat.not_lt_zero o)⟩, ?_, fun i h0 hi => ?_,
    fun i _ => ⟨by rw [hin], rfl⟩⟩
  · rw [← hu]
  · rw [hfb]
    decide
  · rw [hslot, hfb]
    exact blank_blocks
  · rw [hfb] at hb
    exact Nat.ne_of_gt (Nat.lt_of_lt_of_le (by decide) hb)
  · rw [← hu]
    dsimp only
    rw [update_self]
  · omega

theorem root_image (h : Image s fun _ => []) (hn : s.freeinode = 2) :
    Post (fun _ => ¬ Fit []) (iappend ROOTINO (direntBytes ROOTINO dot) >>= fun _ =>
      iappend ROOTINO (direntBytes ROOTINO dotdot)) s fun _ t => t.freeinode = 2 ∧ Image t (files []) := by
  have hlt : ROOTINO < s.freeinode := by
    rw [hn]
    decide
  have hend : update (fun _ => []) ROOTINO (direntBytes ROOTINO dot ++ direntBytes ROOTINO dotdot) = files [] := by
    funext i
    by_cases hi : i = ROOTINO
    · rw [hi, update_self, files, if_pos rfl, root]
      simp
    · rw [update_of_ne hi, files, if_neg hi]
      simp
  have hfirst := iappend_spec (p := direntBytes ROOTINO dot) h (i := ROOTINO) (by decide) hlt (by decide)
  rw [List.nil_append] at hfirst
  refine Post.bind (hfirst.mono_panic fun _ hun hfit => hfit.not_unfit (fun j => ?_) hun) fun _ t ht => ?_
  · rw [← hend]
    by_cases hj : j = ROOTINO
    · rw [hj, update_self, update_self, List.nil_append, List.length_append]
      omega
    · rw [update_of_ne hj, update_of_ne hj]
  · obtain ⟨hfree, himage⟩ := ht
    have hsecond := iappend_spec (p := direntBytes ROOTINO dotdot) himage (i := ROOTINO) (by decide)
      (hfree.symm ▸ hlt) (by decide)
    rw [update_idem, update_self, hend] at hsecond
    refine (hsecond.mono_panic fun _ hun hfit => hfit.not_unfit (fun j => ?_) hun).mono fun _ u hu => ?_
    · exact ⟨by rw [hu.1, hfree, hn], hu.2⟩
    · rw [update_idem, update_self, hend]

def Disk.finish (s : Disk) : Disk :=
  let d := inodes s ROOTINO
  let t := s.putInode ROOTINO { d with size := (d.size / BSIZE + 1) * BSIZE }
  { t with sect := update t.sect bmapstart (bitmap s.freeblock) }

/-- The end of `main`. -/
def finishRoot (i : Nat) : Prog Disk Unit := do
  let din ← rinode i
  winode i { din with size := (din.size / BSIZE + 1) * BSIZE }
  let used ← Prog.read Disk.freeblock
  balloc used

theorem finish_run (h : Image s data) : finishRoot ROOTINO s = .ok ((), s.finish) := by
  have hlen : ROOTINO / IPB + inodestart < s.len := by
    rw [h.holds.len]
    decide
  have hfb : s.freeblock < BSIZE * 8 := Nat.lt_of_le_of_lt h.holds.le (by decide)
  rw [finishRoot, run_bind (rinode_run (by decide) h.holds.len), run_bind (winode_run hlen), run_bind run_read]
  unfold balloc Disk.putInode
  dsimp only
  rw [if_pos hfb]
  apply wsect_run
  dsimp only
  rw [h.holds.len]
  decide

theorem finish_post (h : Image s data) (hQ : Q () s.finish) : Post E (finishRoot ROOTINO) s Q := by
  unfold Post
  rw [finish_run h]
  exact hQ

theorem main_post (hE : ¬ Fit [] → ∀ e, E e)
    (hrest : ∀ s, s.freeinode = 2 → Image s (files []) →
      Post E (each argv (addFile ROOTINO) >>= fun _ => finishRoot ROOTINO) s Q) : Post E (main argv) blank Q := by
  have hmain : main argv = (loop FSSIZE (fun i => wsect i fun _ => 0) >>= fun _ => wsect 1 superblock) >>= fun _ =>
      ialloc .dir >>= fun i => if i ≠ ROOTINO then halt "assert" else
        iappend i (direntBytes i dot) >>= fun _ => iappend i (direntBytes i dotdot) >>= fun _ =>
          each argv (addFile i) >>= fun _ => finishRoot i := by
    rw [bind_assoc]
    rfl
  rw [hmain]
  refine Post.bind (blank_image.mono_panic fun _ => False.elim) fun _ s hs => ?_
  obtain ⟨hn, himage⟩ := hs
  have hR : ROOTINO = 1 := rfl
  refine Post.bind ((ialloc_spec himage (by omega) (by omega) (by rw [if_pos (hn.trans hR.symm)])).mono_panic
    fun _ => False.elim) fun i t ht => ?_
  obtain ⟨hi, hfree, himage⟩ := ht
  have hi : i = ROOTINO := hi.trans hn
  subst hi
  rw [if_neg fun h => h rfl, ← bind_assoc]
  refine Post.bind ((root_image himage (by omega)).mono_panic fun e hfit => hE hfit e) fun _ u hu => ?_
  exact hrest u hu.1 hu.2

theorem main_spec (hlt : argv.length + 2 ≤ NINODES) : Post (fun _ => ¬ Fit argv) (main argv) blank fun _ t =>
      ∃ s, s.freeinode = argv.length + 2 ∧ Image s (files argv) ∧ t = s.finish := by
  apply main_post
  · intro hfit _ hall
    have hall : Fit ([] ++ argv) := hall
    exact hfit hall.left
  · intro s hn h
    refine Post.bind (addFiles_spec h hn hlt) fun _ t ht => ?_
    exact finish_post ht.2 ⟨t, ht.1, ht.2, rfl⟩

theorem main_returns (hlt : argv.length + 2 ≤ NINODES) (hfit : Fit argv) :
    ∃ s, s.freeinode = argv.length + 2 ∧ Image s (files argv) ∧ main argv blank = .ok ((), s.finish) := by
  have hret : Returns (main argv) blank fun _ t =>
      ∃ s, s.freeinode = argv.length + 2 ∧ Image s (files argv) ∧ t = s.finish :=
    (main_spec hlt).mono_panic fun _ hno => hno hfit
  obtain ⟨_, t, hrun, s, hn, himage, ht⟩ := hret.exists
  exact ⟨s, hn, himage, by rw [hrun, ht]⟩

def emptyFile : Arg := { path := [97], string := by decide, chunks := some [] }

theorem files_empty : files (List.replicate n emptyFile) i = if i = ROOTINO then root (List.replicate n emptyFile) else [] := by
  unfold files
  split
  · rfl
  · split
    · rfl
    · rw [List.getElem?_replicate]
      split <;> rfl

theorem empty_fit (h : n ≤ 199) : Fit (List.replicate n emptyFile) := by
  have hlen : (root (List.replicate n emptyFile)).length ≤ 4 * BSIZE := by
    rw [root_length, List.length_replicate]
    have hD : DESIZE = 16 := rfl
    have hB : BSIZE = 1024 := rfl
    rw [hD, hB]
    omega
  refine ⟨fun a ha => ?_, fun a ha => ?_, fun i => ?_, ?_⟩
  · rw [List.eq_of_mem_replicate ha]
    exact Option.some_ne_none _
  · rw [List.eq_of_mem_replicate ha]
    decide
  · rw [files_empty]
    split
    · exact Nat.le_trans hlen (by decide)
    · exact Nat.zero_le _
  · have hsum : ∀ i ∈ Finset.range NINODES, taken (blocksFor (files (List.replicate n emptyFile) i).length) ≤
        if i = ROOTINO then 4 else 0 := by
      intro i _
      rw [files_empty]
      split
      · have hB : BSIZE = 1024 := rfl
        have hblocks : blocksFor (root (List.replicate n emptyFile)).length ≤ 4 := by
          unfold blocksFor
          rw [hB] at hlen ⊢
          omega
        exact taken_mono hblocks
      · exact Nat.le_refl _
    have hle := Finset.sum_le_sum hsum
    rw [Finset.sum_ite_eq'] at hle
    have hfour : (if ROOTINO ∈ Finset.range NINODES then 4 else 0) = 4 := rfl
    have hmeta : nmeta = 46 := rfl
    have hF : FSSIZE = 1000 := rfl
    unfold need total
    dsimp only
    omega

theorem Fit.of (hlen : argv.length + 2 ≤ NINODES) (hopens : ∀ a ∈ argv, a.chunks ≠ none)
    (hplain : ∀ a ∈ argv, slash ∉ a.shortname) (hshort : ∀ a ∈ argv, a.content.length ≤ MAXFILE * BSIZE)
    (hroom : need (files argv) ≤ FSSIZE) : Fit argv := by
  refine ⟨hopens, hplain, fun i => ?_, hroom⟩
  unfold files
  split
  · have hM : MAXFILE * BSIZE = 274432 := rfl
    have hD : DESIZE = 16 := rfl
    have hN : NINODES = 200 := rfl
    rw [root_length, hM, hD]
    omega
  · split
    · exact Nat.zero_le _
    · cases ha : argv[i - 2]? with
      | none => exact Nat.zero_le _
      | some a => exact hshort a (List.mem_of_getElem? ha)

theorem oneByte_string : (0 : UInt8) ∉ [97] := by decide

theorem twoBytes_pos : ([98, 99] : List UInt8) ≠ [] := List.cons_ne_nil 98 [99]

theorem twoBytes_le : ([98, 99] : List UInt8).length ≤ BSIZE := by decide

def twoBytes : Arg :=
  { path := [97], string := oneByte_string, chunks := some [⟨[98, 99], twoBytes_pos, twoBytes_le⟩] }

/-- Three files of the same name. -/
def threeFiles : List Arg := [twoBytes, emptyFile, twoBytes]

theorem threeFiles_room : need (files threeFiles) ≤ FSSIZE := by decide +kernel

theorem threeFiles_fit : Fit threeFiles := .of (by decide) (by decide) (by decide) (by decide) threeFiles_room

end TweakedXv6.Mkfs

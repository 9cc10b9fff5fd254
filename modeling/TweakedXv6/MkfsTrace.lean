import TweakedXv6.MkfsMain
import TweakedXv6.Traced

namespace TweakedXv6.Mkfs.Trace

open Traced Fs

inductive Event
  | handed (inum : Nat)
  | inode (inum block : Nat)
  | bitmap (block : Nat)
  deriving DecidableEq

abbrev Mkt := Traced Event Disk

def winode (inum : Nat) (din : Dinode) : Mkt Unit := do
  quiet (Mkfs.winode inum din)
  emit (.inode inum (inum / IPB + inodestart))

def ialloc (type : IType) : Mkt Nat := do
  let inum ← quiet (Prog.read Disk.freeinode)
  quiet (Prog.change fun s => { s with freeinode := s.freeinode + 1 })
  winode inum { type := type, nlink := 1 }
  emit (.handed inum)
  Traced.ret inum

def balloc (used : Nat) : Mkt Unit := do
  quiet (Mkfs.balloc used)
  emit (.bitmap bmapstart)

def iappend (inum : Nat) (p : List UInt8) : Mkt Unit := do
  let din ← quiet (rinode inum)
  let r ← quiet (iappendLoop p.length din din.size p)
  winode inum { r.1 with size := r.2 }

def addFile (rootino : Nat) (a : Arg) : Mkt Unit :=
  if slash ∈ a.shortname then quiet (Prog.halt "assert")
  else
    match a.chunks with
    | none => quiet (Prog.halt "open")
    | some chunks => do
      let inum ← ialloc .file
      iappend rootino (direntBytes inum a.name)
      each chunks fun c => iappend inum c.bytes

def main (argv : List Arg) : Mkt Unit := do
  quiet (Prog.loop FSSIZE fun i => wsect i fun _ => 0)
  quiet (wsect 1 superblock)
  let rootino ← ialloc .dir
  if rootino ≠ ROOTINO then quiet (Prog.halt "assert")
  else do
    iappend rootino (direntBytes rootino dot)
    iappend rootino (direntBytes rootino dotdot)
    each argv (addFile rootino)
    let din ← quiet (rinode rootino)
    winode rootino { din with size := (din.size / BSIZE + 1) * BSIZE }
    let used ← quiet (Prog.read Disk.freeblock)
    balloc used

variable {argv : List Arg} {a : Arg} {s t : Disk} {d : Dinode} {type : IType} {i n r used : Nat} {p : List UInt8}
  {l : List Event}

theorem erase_winode : erase (winode i d) = Mkfs.winode i d := by
  unfold winode
  rw [erase_quiet_bind]
  exact Prog.bind_ret _

theorem erase_ialloc : erase (ialloc type) = Mkfs.ialloc type := by
  unfold ialloc Mkfs.ialloc
  rw [erase_quiet_bind]
  congr 1
  funext n
  rw [erase_quiet_bind]
  congr 1
  funext _
  rw [erase_bind, erase_winode]
  rfl

theorem erase_balloc : erase (balloc used) = Mkfs.balloc used := by
  unfold balloc
  rw [erase_quiet_bind]
  exact Prog.bind_ret _

theorem erase_iappend : erase (iappend i p) = Mkfs.iappend i p := by
  unfold iappend Mkfs.iappend
  rw [erase_quiet_bind]
  congr 1
  funext d
  rw [erase_quiet_bind]
  congr 1
  funext r
  exact erase_winode

theorem erase_addFile : erase (addFile r a) = Mkfs.addFile r a := by
  unfold addFile Mkfs.addFile
  split
  · rfl
  · cases a.chunks with
    | none => rfl
    | some chunks =>
      dsimp only
      rw [erase_bind, erase_ialloc]
      congr 1
      funext n
      rw [erase_bind, erase_iappend]
      congr 1
      funext _
      exact erase_each (fun c => erase_iappend) _

theorem erase_main : erase (main argv) = Mkfs.main argv := by
  unfold main Mkfs.main
  rw [erase_quiet_bind]
  congr 1
  funext _
  rw [erase_quiet_bind]
  congr 1
  funext _
  rw [erase_bind, erase_ialloc]
  congr 1
  funext r
  split
  · rfl
  · rw [erase_bind, erase_iappend]
    congr 1
    funext _
    rw [erase_bind, erase_iappend]
    congr 1
    funext _
    rw [erase_bind, erase_each fun a => erase_addFile]
    congr 1
    funext _
    rw [erase_quiet_bind]
    congr 1
    funext d
    rw [erase_bind, erase_winode]
    congr 1
    funext _
    rw [erase_quiet_bind]
    congr 1
    funext used
    exact erase_balloc

/-- The inode numbers are valid, inodes are written to the inode blocks only, and the bitmap is not
written over an inode. -/
structure Safe (l : List Event) : Prop where
  numbers : ∀ i, .handed i ∈ l → i < NINODES
  blocks : ∀ i b, .inode i b ∈ l → inodestart ≤ b ∧ b < bmapstart
  apart : ∀ i b, .inode i b ∈ l → .bitmap b ∉ l

theorem kept_bind {α β : Type} {m : Mk α} {f : α → Mk β}
    (h : Prog.Post (fun _ => True) m s fun _ t => t.freeinode = s.freeinode)
    (hf : ∀ a t, Prog.Post (fun _ => True) (f a) t fun _ u => u.freeinode = t.freeinode) :
    Prog.Post (fun _ => True) (m >>= f) s fun _ t => t.freeinode = s.freeinode :=
  h.bind fun a t ht => (hf a t).mono fun _ _ hu => hu.trans ht

theorem rsect_kept : Prog.Post (fun _ => True) (rsect n) s fun _ t => t.freeinode = s.freeinode := by
  by_cases h : n < s.len
  · unfold Prog.Post
    rw [rsect_run h]
  · unfold Prog.Post
    rw [rsect_fail (Nat.le_of_not_lt h)]
    trivial

theorem rinode_kept : Prog.Post (fun _ => True) (rinode i) s fun _ t => t.freeinode = s.freeinode :=
  kept_bind rsect_kept fun _ _ => rfl

theorem winode_kept : Prog.Post (fun _ => True) (Mkfs.winode i d) s fun _ t => t.freeinode = s.freeinode :=
  kept_bind rsect_kept fun _ _ => rfl

theorem addrAlloc_kept : Prog.Post (fun _ => True) (addrAlloc d i) s fun _ t => t.freeinode = s.freeinode := by
  unfold addrAlloc
  split
  · exact rfl
  · exact rfl

theorem fileBlock_kept : Prog.Post (fun _ => True) (fileBlock d i) s fun _ t => t.freeinode = s.freeinode := by
  unfold fileBlock
  split
  · exact kept_bind addrAlloc_kept fun _ _ => rfl
  · refine kept_bind addrAlloc_kept fun d t => kept_bind rsect_kept fun c u => ?_
    split
    · exact rfl
    · exact rfl

theorem iappendLoop_kept {fuel off : Nat} :
    Prog.Post (fun _ => True) (iappendLoop fuel d off p) s fun _ t => t.freeinode = s.freeinode := by
  induction fuel generalizing d off p s with
  | zero => exact rfl
  | succ fuel ih =>
    unfold iappendLoop
    split
    · exact rfl
    · split
      · trivial
      · refine kept_bind fileBlock_kept fun r t => kept_bind rsect_kept fun c u => ?_
        exact kept_bind (m := wsect _ _) rfl fun _ _ => ih

abbrev Leaves {α : Type} (m : Mkt α) (s : Disk) (Q : List Event → α → Disk → Prop) : Prop := Ends m s (fun _ => True) Q

theorem leaves_bind {α β : Type} {m : Mkt α} {f : α → Mkt β} {Q : List Event → α → Disk → Prop}
    {R : List Event → β → Disk → Prop} (h : Leaves m s Q)
    (hf : ∀ l a t, Q l a t → Leaves (f a) t fun l' b u => R (l ++ l') b u) : Leaves (m >>= f) s R :=
  Ends.bind h hf

theorem leaves_quiet {α : Type} {m : Mk α} (h : Prog.Post (fun _ => True) m s fun _ t => t.freeinode = s.freeinode) :
    Leaves (quiet m) s fun l _ t => l = [] ∧ t.freeinode = s.freeinode :=
  Ends.of_post h trivial

theorem winode_leaves : Leaves (winode i d) s fun l _ t =>
    l = [.inode i (i / IPB + inodestart)] ∧ t.freeinode = s.freeinode := by
  refine leaves_bind (leaves_quiet winode_kept) fun l _ t ht => ?_
  rw [ht.1]
  exact ⟨rfl, ht.2⟩

theorem ialloc_leaves : Leaves (ialloc type) s fun l n t =>
    n = s.freeinode ∧ l = [.inode n (n / IPB + inodestart), .handed n] ∧ t.freeinode = s.freeinode + 1 := by
  unfold Leaves ialloc
  rw [ends_quiet_bind Prog.run_read, ends_quiet_bind Prog.run_change]
  refine leaves_bind winode_leaves fun l _ t ht => ?_
  rw [ht.1]
  exact ⟨rfl, rfl, ht.2⟩

theorem iappend_leaves : Leaves (iappend i p) s fun l _ t =>
    l = [.inode i (i / IPB + inodestart)] ∧ t.freeinode = s.freeinode := by
  refine leaves_bind (leaves_quiet rinode_kept) fun l d t ht => ?_
  refine leaves_bind (leaves_quiet iappendLoop_kept) fun l' r u hu => ?_
  refine winode_leaves.mono (fun _ h => h) fun l'' _ v hv => ?_
  rw [ht.1, hu.1, hv.1, hv.2, hu.2, ht.2]
  exact ⟨rfl, rfl⟩

structure Takes (n m : Nat) (l : List Event) : Prop where
  within : ∀ e ∈ l, ∃ i < m, e = .handed i ∨ e = .inode i (i / IPB + inodestart)
  given : ∀ i, n ≤ i → i < m → .handed i ∈ l

variable {m k : Nat} {l' : List Event}

theorem Takes.nil : Takes n n [] := ⟨fun _ h => absurd h List.not_mem_nil, fun i hi hlt => by omega⟩

theorem Takes.append (h : Takes n m l) (h' : Takes m k l') (hle : m ≤ k) : Takes n k (l ++ l') := by
  refine ⟨fun e he => ?_, fun i hi hlt => ?_⟩
  · obtain he | he := List.mem_append.mp he
    · obtain ⟨i, hi, he⟩ := h.within e he
      exact ⟨i, by omega, he⟩
    · exact h'.within e he
  · by_cases him : i < m
    · exact List.mem_append_left _ (h.given i hi him)
    · exact List.mem_append_right _ (h'.given i (by omega) hlt)

theorem Takes.inode (hi : i < n) : Takes n n [.inode i (i / IPB + inodestart)] := by
  refine ⟨fun e he => ⟨i, hi, .inr (List.mem_singleton.mp he)⟩, fun i hi hlt => by omega⟩

theorem Takes.fresh : Takes n (n + 1) [.inode n (n / IPB + inodestart), .handed n] := by
  refine ⟨fun e he => ⟨n, Nat.lt_succ_self n, ?_⟩, fun i hi hlt => ?_⟩
  · simpa [or_comm] using he
  · have hin : i = n := by omega
    simp [hin]

abbrev Uses (m : Mkt Unit) (s : Disk) (n : Nat) : Prop :=
  Leaves m s fun l _ t => t.freeinode = s.freeinode + n ∧ Takes s.freeinode (s.freeinode + n) l

theorem uses_bind {f : Mkt Unit} {g : Unit → Mkt Unit} (hm : m = n + k) (hf : Uses f s n)
    (hg : ∀ t, t.freeinode = s.freeinode + n → Uses (g ()) t k) : Uses (f >>= g) s m := by
  subst hm
  refine leaves_bind hf fun l _ t ht => (hg t ht.1).mono (fun _ h => h) fun l' _ u hu => ?_
  rw [ht.1, Nat.add_assoc] at hu
  exact ⟨hu.1, ht.2.append hu.2 (by omega)⟩

theorem iappend_uses (hi : i < s.freeinode) : Uses (iappend i p) s 0 := by
  refine iappend_leaves.mono (fun _ h => h) fun l _ t ht => ⟨ht.2, ?_⟩
  rw [ht.1]
  exact .inode hi

theorem chunks_uses (cs : List Chunk) (hi : i < s.freeinode) : Uses (each cs fun c => iappend i c.bytes) s 0 := by
  induction cs generalizing s with
  | nil => exact ⟨rfl, .nil⟩
  | cons c cs ih => exact uses_bind rfl (iappend_uses hi) fun t ht => ih (by omega)

theorem addFile_uses (hr : r < s.freeinode) : Uses (addFile r a) s 1 := by
  unfold addFile
  split
  · trivial
  · cases a.chunks with
    | none => trivial
    | some cs =>
      refine leaves_bind ialloc_leaves fun l n t ht => ?_
      obtain ⟨hn, hl, hfree⟩ := ht
      have hrest : Uses (iappend r (direntBytes n a.name) >>= fun _ => each cs fun c => iappend n c.bytes) t 0 :=
        uses_bind rfl (iappend_uses (by omega)) fun u hu => chunks_uses cs (by omega)
      refine hrest.mono (fun _ h => h) fun l' _ u hu => ⟨hu.1.trans hfree, ?_⟩
      rw [hfree] at hu
      rw [hl, hn]
      exact Takes.fresh.append hu.2 (Nat.le_refl _)

theorem addFiles_uses (hr : r < s.freeinode) : Uses (each argv (addFile r)) s argv.length := by
  induction argv generalizing s with
  | nil => exact ⟨rfl, .nil⟩
  | cons a argv ih =>
    exact uses_bind (Nat.add_comm ..) (addFile_uses hr) fun t ht => ih (by omega)

theorem finish_leaves : Leaves (quiet (rinode r) >>= fun din =>
    winode r { din with size := (din.size / BSIZE + 1) * BSIZE } >>= fun _ =>
      quiet (Prog.read Disk.freeblock) >>= fun used => balloc used) s fun l _ _ =>
        l = [.inode r (r / IPB + inodestart), .bitmap bmapstart] := by
  refine leaves_bind (leaves_quiet rinode_kept) fun l d t ht => leaves_bind winode_leaves fun l' _ u hu => ?_
  rw [ht.1, hu.1]
  have hballoc : Prog.Post (fun _ => True) (Mkfs.balloc u.freeblock) u fun _ _ => True := by
    unfold Mkfs.balloc
    split <;> trivial
  unfold Leaves
  rw [ends_quiet_bind Prog.run_read]
  refine leaves_bind (Ends.of_post hballoc trivial) fun l'' _ v hv => ?_
  rw [hv.1]
  exact rfl

theorem main_leaves : Leaves (main argv) blank fun l _ _ =>
    ∃ l', l = l' ++ [.bitmap bmapstart] ∧ Takes 1 (argv.length + 2) l' := by
  have hzero : Prog.Post (fun _ => True) (Prog.loop FSSIZE fun i => wsect i fun _ => 0) blank fun _ (t : Disk) =>
      t.freeinode = blank.freeinode := by
    apply Prog.Post.loop (I := fun _ (t : Disk) => t.freeinode = blank.freeinode) rfl
    intro i t _ ht
    exact ht
  refine leaves_bind (leaves_quiet hzero) fun l₁ _ s hs => ?_
  refine leaves_bind (leaves_quiet (m := wsect 1 superblock) rfl) fun l₂ _ t ht => ?_
  refine leaves_bind ialloc_leaves fun l₃ r u hu => ?_
  obtain ⟨hr, hl, hfree⟩ := hu
  have hone : t.freeinode = 1 := ht.2.trans hs.2
  rw [hone] at hr hfree
  subst hr
  rw [if_neg (fun h => h rfl), hs.1, ht.1, hl]
  refine leaves_bind (iappend_uses (by omega)) fun l₄ _ v hv => ?_
  refine leaves_bind (iappend_uses (by omega)) fun l₅ _ w hw => ?_
  refine leaves_bind (addFiles_uses (by omega)) fun l₆ _ x hx => ?_
  refine finish_leaves.mono (fun _ h => h) fun l₇ _ y hy => ?_
  rw [hfree] at hv
  rw [hv.1] at hw
  rw [hw.1] at hx
  subst hy
  have hlen : 1 + 1 + 0 + 0 + argv.length = argv.length + 2 := by omega
  have hlast : Takes (argv.length + 2) (argv.length + 2) [.inode 1 (1 / IPB + inodestart)] := .inode (by omega)
  rw [hlen] at hx
  refine ⟨_ ++ (l₄ ++ (l₅ ++ (l₆ ++ [.inode 1 (1 / IPB + inodestart)]))), ?_,
    Takes.fresh.append (hv.2.append (hw.2.append (hx.2.append hlast ?_) ?_) ?_) ?_⟩
  · simp only [List.nil_append, List.append_assoc, List.cons_append]
  all_goals omega

theorem main_events (h : Mkfs.main argv blank = .ok ((), t)) :
    ∃ l, (main argv blank).1 = l ++ [.bitmap bmapstart] ∧ Takes 1 (argv.length + 2) l := by
  rw [← erase_main] at h
  cases hm : main argv blank with
  | mk l r =>
    have hr : r = .ok ((), t) := by rw [← h, erase, hm]
    exact main_leaves.of_eq (hm.trans (by rw [hr]))

/-- The numbers are too large from 199 files on. -/
theorem inodes_iff (h : Mkfs.main argv blank = .ok ((), t)) : Safe (main argv blank).1 ↔ argv.length ≤ 198 := by
  obtain ⟨l, hl, htakes⟩ := main_events h
  have hN : NINODES = 200 := rfl
  rw [hl]
  constructor
  · intro hsafe
    have hlt := hsafe.numbers (argv.length + 1) (List.mem_append_left _ (htakes.given _ (by omega) (by omega)))
    omega
  · intro hle
    have hinode : ∀ i b, .inode i b ∈ l ++ [.bitmap bmapstart] → inodestart ≤ b ∧ b < bmapstart := by
      intro i b hmem
      obtain hmem | hmem := List.mem_append.mp hmem
      · obtain ⟨j, hj, he | he⟩ := htakes.within _ hmem
        · cases he
        · cases he
          exact ⟨Nat.le_add_left .., iblock_lt (by omega)⟩
      · cases List.mem_singleton.mp hmem
    refine ⟨fun i hmem => ?_, hinode, fun i b hmem hbit => ?_⟩
    · obtain hmem | hmem := List.mem_append.mp hmem
      · obtain ⟨j, hj, he | he⟩ := htakes.within _ hmem
        · cases he
          omega
        · cases he
      · cases List.mem_singleton.mp hmem
    · obtain ⟨_, hlt⟩ := hinode i b hmem
      obtain hbit | hbit := List.mem_append.mp hbit
      · obtain ⟨j, _, he | he⟩ := htakes.within _ hbit <;> cases he
      · cases List.mem_singleton.mp hbit
        omega

theorem inodes_iff_three : ∃ t, Mkfs.main threeFiles blank = .ok ((), t) ∧ Safe (main threeFiles blank).1 := by
  obtain ⟨s, _, _, hrun⟩ := main_returns (by decide) threeFiles_fit
  exact ⟨s.finish, hrun, (inodes_iff hrun).mpr (by decide)⟩

theorem addFile_past {done : List Arg} (h : Image s (files done)) (hn : s.freeinode = 200) (hlen : done.length = 198)
    (hfit : Fit (done ++ [emptyFile])) :
    Prog.Returns (Mkfs.addFile ROOTINO emptyFile) s fun _ t => ∃ data, Image t data := by
  have hR : ROOTINO = 1 := rfl
  refine Prog.Post.bind (ialloc_spec h (by omega) (by omega) (by rw [if_neg (by omega)])) fun i t ht => ?_
  obtain ⟨hi, hfree, himage⟩ := ht
  have hi : i = done.length + 2 := by omega
  subst hi
  have hroot := iappend_spec (p := direntBytes (done.length + 2) emptyFile.name) himage (i := ROOTINO) (by decide) (by omega)
    (by decide)
  refine Prog.Post.bind (hroot.mono_panic fun _ => hfit.not_unfit fun j => ?_) fun _ u hu => ⟨_, hu.2⟩
  rw [files_snoc]
  by_cases hj : j = done.length + 2
  · subst hj
    rw [Function.update_of_ne (by omega), Function.update_self, (h.free _ (by omega)).2]
    exact Nat.zero_le _
  · rw [Function.update_of_ne hj]

/-- With 199 empty files the last one gets the inode number 200. -/
theorem inodes_wrong : ∃ argv t, argv.length = 199 ∧ Mkfs.main argv blank = .ok ((), t) ∧
    .handed 200 ∈ (main argv blank).1 ∧ ¬ Safe (main argv blank).1 := by
  have hret : Prog.Returns (Mkfs.main (List.replicate 198 emptyFile ++ [emptyFile])) blank fun _ _ => True := by
    have hfit : Fit (List.replicate 198 emptyFile ++ [emptyFile]) := by
      rw [← List.replicate_succ']
      exact empty_fit (Nat.le_refl _)
    refine main_post (fun hno => absurd (empty_fit (n := 0) (Nat.zero_le _)) hno) fun s hn h => ?_
    rw [Prog.each_append]
    have hmany := addFiles_spec (l := List.replicate 198 emptyFile) h hn
      (by rw [List.nil_append, List.length_replicate]; decide)
    rw [List.nil_append, List.length_replicate] at hmany
    rw [bind_assoc]
    refine Prog.Post.bind (hmany.mono_panic fun _ hno => hno (empty_fit (by decide))) fun _ t ht => ?_
    have hlast : Prog.Returns (Prog.each [emptyFile] (Mkfs.addFile ROOTINO)) t fun _ u => ∃ data, Image u data :=
      Prog.Post.bind (addFile_past ht.2 ht.1 List.length_replicate hfit) fun _ _ hu => hu
    refine Prog.Post.bind hlast fun _ u hu => ?_
    obtain ⟨data, hu⟩ := hu
    exact finish_post hu trivial
  obtain ⟨_, t, hrun, _⟩ := hret.exists
  obtain ⟨l, hl, htakes⟩ := main_events hrun
  have hlen : (List.replicate 198 emptyFile ++ [emptyFile]).length = 199 := by
    rw [List.length_append, List.length_replicate]
    rfl
  rw [hlen] at htakes
  have hmem : .handed 200 ∈ (main (List.replicate 198 emptyFile ++ [emptyFile]) blank).1 := by
    rw [hl]
    exact List.mem_append_left _ (htakes.given 200 (by decide) (by decide))
  exact ⟨_, t, hlen, hrun, hmem, fun hsafe => absurd (hsafe.numbers 200 hmem) (by decide)⟩

end TweakedXv6.Mkfs.Trace

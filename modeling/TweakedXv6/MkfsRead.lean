import TweakedXv6.MkfsMount

namespace TweakedXv6.Mkfs

open Prog Files Fs

structure Loaded (v u : Volume) (k : Fin NINODE) (i : Nat) : Prop where
  block : u.block = v.block
  copy : (u.inode k).copy = v.dinode i

/-- The inode table has a free entry, or one for this inode. -/
def HasSlot (u : Volume) (dev inum : Nat) : Prop :=
  ∃ ip, (u.inode ip).ref = 0 ∨ 0 < (u.inode ip).ref ∧ (u.inode ip).dev = dev ∧ (u.inode ip).inum = inum

variable {s : Disk} {u : Volume} {k dp : Fin NINODE} {data : Nat → List UInt8} {argv : List Arg} {a : Arg}
  {i j n o off len : Nat} {name : List UInt8} {c : Bytes} {l : List UInt8}

theorem slice_eq (h : ∀ o, o < l.length → c o = l.getD o 0) (hle : off + len ≤ l.length) :
    c.slice off len = (l.drop off).take len := by
  apply List.ext_getElem
  · rw [Bytes.slice_length, List.length_take, List.length_drop]
    omega
  · intro i hi _
    rw [Bytes.slice_length] at hi
    rw [List.getElem_take, List.getElem_drop]
    simp only [Bytes.slice, List.getElem_map, List.getElem_range]
    rw [h _ (by omega), List.getD_eq_getElem?_getD, List.getElem?_eq_getElem (by omega), Option.getD_some]

section

variable (h : Image s data) (hn : ROOTINO < s.freeinode)
include h hn

theorem Image.content (ht : (s.finish.volume.dinode i).type ≠ .free) (ho : o < (data i).length) :
    (s.finish.volume.dinode i).slot s.finish.volume.block (.index (o / BSIZE)) ≠ 0 ∧
      (s.finish.volume.dinode i).content s.finish.volume.block o = (data i).getD o 0 := by
  have hslot : (s.finish.volume.dinode i).slot s.finish.volume.block (.index (o / BSIZE)) =
      slot (inodes s) s.sect (i, .index (o / BSIZE)) := by
    rw [← slot_used ht, ← h.finish_slot hn]
    rfl
  have hne : slot (inodes s) s.sect (i, .index (o / BSIZE)) ≠ 0 := by
    rw [h.holds.blocks.index, lt_blocksFor]
    exact Nat.lt_of_le_of_lt (Nat.div_mul_le_self o BSIZE) ho
  have hge := (h.holds.blocks.range hne).1
  refine ⟨hslot ▸ hne, ?_⟩
  unfold Dinode.content
  rw [hslot, ← h.holds.bytes i o ho]
  show s.finish.sect _ _ = _
  rw [finish_sect]
  · exact Nat.ne_of_gt (Nat.lt_of_lt_of_le (by decide) hge)
  · exact Nat.ne_of_gt (Nat.lt_of_lt_of_le (by decide) hge)

theorem Image.dinode (hi : i ≠ ROOTINO) : s.finish.volume.dinode i = inodes s i := by
  show inodes s.finish i = _
  rw [h.finish_inodes hn, Function.update_of_ne hi]

theorem Image.readi (h0 : 0 < i) (hfree : i < s.freeinode) (hN : i < NINODES) (hi : i ≠ ROOTINO)
    (hload : Loaded s.finish.volume u k i) (hoff : off < 4294967296) (hlt : n < 4294967296)
    (hwrap : off < (data i).length → off + n < 4294967296) :
    readi sb k off n n u = .ok (some (((data i).drop off).take n), u) := by
  have ht : (s.finish.volume.dinode i).type ≠ .free := by
    rw [h.dinode hn hi]
    exact h.type_ne h0 hfree hN
  have hsize : (s.finish.volume.dinode i).size = (data i).length := by
    obtain ⟨a, ha⟩ := h.used i h0 hfree hN
    rw [h.dinode hn hi, ha]
  have hcontent := fun o ho => h.content hn ht (o := o) ho
  have hcount : readCount (data i).length off n = min n ((data i).length - off) := by
    unfold readCount
    split
    · omega
    · rfl
  obtain ⟨r, hr, hres⟩ := @readi_there k u n off sb n (by
    rw [hload.copy, hload.block, hsize, hcount]
    intro o _ hlt
    exact (hcontent o (by omega)).1)
  rw [hload.copy, hload.block, hsize, hcount] at hres
  rw [hr, hres (Nat.min_le_left ..)]
  by_cases hle : off ≤ (data i).length
  · rw [slice_eq (fun o ho => (hcontent o ho).2) (by omega), ← List.length_drop, ← List.take_take, List.take_length]
  · rw [List.drop_eq_nil_of_le (by omega), List.take_nil, Nat.sub_eq_zero_of_le (by omega), Nat.min_zero]
    rfl

end

def entries (argv : List Arg) : List (Nat × List UInt8) :=
  (ROOTINO, dot) :: (ROOTINO, dotdot) :: (argv.zipIdx 2).map fun p => (p.2, p.1.name)

theorem root_entries : root argv = (entries argv).flatMap fun e => direntBytes e.1 e.2 := by
  unfold root entries
  rw [List.flatMap_cons, List.flatMap_cons, List.flatMap_map, List.append_assoc]

theorem entries_length : (entries argv).length = argv.length + 2 := by
  simp [entries]

theorem entries_file (j : Nat) : (entries argv)[j + 2]? = argv[j]?.map fun a => (j + 2, a.name) := by
  unfold entries
  rw [List.getElem?_cons_succ, List.getElem?_cons_succ, List.getElem?_map, List.getElem?_zipIdx, Nat.add_comm 2]
  cases argv[j]? <;> rfl

theorem entries_inum {e : Nat × List UInt8} (h : (entries argv)[j]? = some e) : 0 < e.1 ∧ e.1 < argv.length + 2 := by
  have hlt := (List.getElem?_eq_some_iff.mp h).1
  rw [entries_length] at hlt
  cases j with
  | zero =>
    cases h
    exact ⟨by decide, by simp [ROOTINO]⟩
  | succ j =>
    cases j with
    | zero =>
      cases h
      exact ⟨by decide, by simp [ROOTINO]⟩
    | succ j =>
      rw [entries_file] at h
      obtain ⟨a, _, rfl⟩ := Option.map_eq_some_iff.mp h
      exact ⟨Nat.succ_pos _, hlt⟩

theorem flatMap_entry {es : List (Nat × List UInt8)} {e : Nat × List UInt8} (h : es[j]? = some e) :
    ((es.flatMap fun e => direntBytes e.1 e.2).drop (DESIZE * j)).take DESIZE = direntBytes e.1 e.2 := by
  induction es generalizing j with
  | nil => simp at h
  | cons x es ih =>
    have hx := direntBytes_length x.1 x.2
    cases j with
    | zero =>
      rw [List.getElem?_cons_zero, Option.some.injEq] at h
      subst h
      rw [Nat.mul_zero, List.drop_zero, List.flatMap_cons, List.take_left' hx]
    | succ j =>
      rw [List.getElem?_cons_succ] at h
      rw [List.flatMap_cons, Nat.mul_succ, Nat.add_comm, ← List.drop_drop, List.drop_left' hx]
      exact ih h

section

variable (h : Image s (files argv)) (hn : s.freeinode = argv.length + 2) (hload : Loaded s.finish.volume u dp ROOTINO)
include h hn hload

theorem Image.root_copy : (u.inode dp).copy.type = .dir ∧
    (u.inode dp).copy.size = ((root argv).length / BSIZE + 1) * BSIZE := by
  have hlt : ROOTINO < s.freeinode := by rw [hn]; exact Nat.le_add_left ..
  have hroot : s.finish.volume.dinode ROOTINO =
      { inodes s ROOTINO with size := ((root argv).length / BSIZE + 1) * BSIZE } := by
    show inodes s.finish ROOTINO = _
    rw [h.finish_inodes hlt, Function.update_self]
    rfl
  obtain ⟨a, ha⟩ := h.used ROOTINO (by decide) hlt (by decide)
  rw [hload.copy, hroot, ha]
  exact ⟨rfl, rfl⟩

theorem Image.root_content (ho : o < (root argv).length) : (u.inode dp).copy.slot u.block (.index (o / BSIZE)) ≠ 0 ∧
      (u.inode dp).copy.content u.block o = (root argv).getD o 0 := by
  have hlt : ROOTINO < s.freeinode := by rw [hn]; exact Nat.le_add_left ..
  have ht : (s.finish.volume.dinode ROOTINO).type ≠ .free := by
    rw [← hload.copy, (h.root_copy hn hload).1]
    exact IType.noConfusion
  have hfiles : files argv ROOTINO = root argv := if_pos rfl
  rw [hload.copy, hload.block, ← hfiles]
  exact h.content hlt ht (hfiles.symm ▸ ho)

theorem Image.entry {e : Nat × List UInt8} (he : (entries argv)[j]? = some e) :
    (u.inode dp).copy.entry u.block (DESIZE * j) = .ofBytes (direntBytes e.1 e.2) := by
  have hj := (List.getElem?_eq_some_iff.mp he).1
  have hD : DESIZE = 16 := rfl
  have hend : DESIZE * j + DESIZE ≤ (root argv).length := by
    rw [root_length, ← entries_length, hD]
    omega
  unfold Dinode.entry
  rw [slice_eq (fun o ho => (h.root_content hn hload ho).2) hend, root_entries, flatMap_entry he]

theorem Image.accepts (hlen : argv.length + 2 ≤ NINODES) {e : Nat × List UInt8} (he : (entries argv)[j]? = some e) :
    ((u.inode dp).copy.entry u.block (DESIZE * j)).inum = e.1 ∧
      decide (((u.inode dp).copy.entry u.block (DESIZE * j)).inum ≠ 0 ∧
        namecmp name ((u.inode dp).copy.entry u.block (DESIZE * j)).name) = decide (cstr name = cstr e.2) := by
  have hN : NINODES = 200 := rfl
  obtain ⟨hpos, hlt⟩ := entries_inum he
  have hslot : (Dirent.ofBytes (direntBytes e.1 e.2)).slot = some (cstr e.2, e.1) := slot_direntBytes hpos (by omega)
  rw [h.entry hn hload he]
  unfold Dirent.slot at hslot
  split at hslot
  case isTrue => cases hslot
  case isFalse hne =>
    rw [Option.some.injEq, Prod.mk.injEq] at hslot
    refine ⟨hslot.2, decide_eq_decide.mpr ?_⟩
    rw [namecmp, hslot.1, decide_eq_true_eq]
    exact and_iff_right hne

theorem Image.dirlookup (hlen : argv.length + 2 ≤ NINODES) (hdot : cstr name ≠ cstr dot) (hdotdot : cstr name ≠ cstr dotdot)
    (hj : argv.findIdx (fun a => cstr name = cstr a.name) < argv.length)
    (hslot : HasSlot u (u.inode dp).dev (argv.findIdx (fun a => cstr name = cstr a.name) + 2)) :
    Returns (dirlookup sb dp name) u fun r t => ∃ ip off, r = some (ip, off) ∧
      (t.inode ip).dev = (u.inode dp).dev ∧
      (t.inode ip).inum = argv.findIdx (fun a => cstr name = cstr a.name) + 2 := by
  have hD : DESIZE = 16 := rfl
  have hB : BSIZE = 1024 := rfl
  obtain ⟨htype, hsize⟩ := h.root_copy hn hload
  have hroot : DESIZE * (argv.length + 2) ≤ (u.inode dp).copy.size := by
    rw [hsize, root_length, hB]
    omega
  have hsmall : (u.inode dp).copy.size < 4294967296 := by
    have hN : NINODES = 200 := rfl
    rw [hsize, root_length, hB, hD]
    omega
  have haccept := fun i e he => @Image.accepts s u dp argv i name h hn hload hlen e he
  generalize hk : argv.findIdx (fun a => cstr name = cstr a.name) = k at hj hslot
  have hget : (entries argv)[k + 2]? = some (k + 2, (argv[k]).name) := by
    rw [entries_file, List.getElem?_eq_getElem hj]
    rfl
  have hname : decide (cstr name = cstr (argv[k]).name) = true := by
    subst hk
    exact List.findIdx_getElem (p := fun a : Arg => decide (cstr name = cstr a.name)) (w := hj)
  have hfind : dirFind sb dp "dirlookup read" 0 (fun de => de.inum ≠ 0 ∧ namecmp name de.name) u =
      .ok (some (0 + DESIZE * (k + 2), (u.inode dp).copy.entry u.block (0 + DESIZE * (k + 2))), u) := by
    unfold dirFind
    rw [run_bind run_read]
    apply dirScan_finds _ hsmall
    · rw [hD] at hroot ⊢
      omega
    · intro o _ ho
      refine (h.root_content hn hload ?_).1
      rw [root_length]
      rw [hD] at ho ⊢
      omega
    · intro i hi
      rw [Nat.zero_add]
      cases i with
      | zero => exact (haccept 0 _ rfl).2.trans (decide_eq_false hdot)
      | succ i =>
        cases i with
        | zero => exact (haccept 1 _ rfl).2.trans (decide_eq_false hdotdot)
        | succ i =>
          have hlt : i < argv.findIdx fun a => cstr name = cstr a.name := by omega
          have hget : (entries argv)[i + 2]? = some (i + 2, (argv[i]).name) := by
            rw [entries_file, List.getElem?_eq_getElem (by omega)]
            rfl
          exact (haccept (i + 2) _ hget).2.trans (List.not_of_lt_findIdx hlt)
    · rw [Nat.zero_add]
      exact (haccept (k + 2) _ hget).2.trans hname
    · rw [hD] at hroot ⊢
      omega
  unfold Fs.dirlookup
  rw [Returns, post_read_bind, if_neg (fun hno => hno htype), post_run_bind hfind]
  dsimp only
  rw [Nat.zero_add, (haccept (k + 2) _ hget).1]
  have hpanic : ∀ e, ¬ NoSlot (u.inode dp).dev (k + 2) u e := by
    rintro e ⟨_, hno⟩
    obtain ⟨ip, hzero | hpos⟩ := hslot
    · exact (hno ip).1 hzero
    · exact (hno ip).2 hpos
  refine Post.bind (iget_spec.mono_panic hpanic) fun ip t hgot => ⟨ip, _, rfl, ?_⟩
  cases hgot with
  | again hpos hdev hinum => simp [Volume.setInode, hdev, hinum]
  | new hfree hnone => simp [Volume.setInode]

end

/-- The kernel reads the files that `mkfs` has written, unless a range of their bytes wraps around, and
finds the first one with a name if `iget` has an entry for it. -/
theorem mkfs_read (hlen : argv.length ≤ NINODES - 2) (hopens : ∀ a ∈ argv, a.chunks ≠ none)
    (hplain : ∀ a ∈ argv, slash ∉ a.shortname) (hshort : ∀ a ∈ argv, a.content.length ≤ MAXFILE * BSIZE)
    (hroom : need (files argv) ≤ FSSIZE) :
    ∃ img sb v, mkfs argv = some img ∧ mount img = some (sb, v) ∧
      (∀ k a, argv[k]? = some a → ∀ u ip off n, Loaded v u ip (k + 2) → off < 4294967296 → n < 4294967296 →
        (off < a.content.length → off + n < 4294967296) →
        readi sb ip off n n u = .ok (some ((a.content.drop off).take n), u)) ∧
      ∀ a ∈ argv, ∀ name, cstr name = cstr a.name → cstr name ≠ cstr dot → cstr name ≠ cstr dotdot →
        ∀ u dp, Loaded v u dp ROOTINO →
          HasSlot u (u.inode dp).dev (argv.findIdx (fun b => cstr name = cstr b.name) + 2) →
          Returns (dirlookup sb dp name) u fun r t => ∃ ip off, r = some (ip, off) ∧
            (t.inode ip).dev = (u.inode dp).dev ∧ (t.inode ip).inum = argv.findIdx (fun b => cstr name = cstr b.name) + 2 := by
  have hN : NINODES = 200 := rfl
  have hlt : argv.length + 2 ≤ NINODES := by omega
  obtain ⟨s, hn, himage, hrun⟩ := main_returns hlt (.of hlt hopens hplain hshort hroom)
  have hroot : ROOTINO < s.freeinode := by rw [hn]; exact Nat.le_add_left ..
  refine ⟨_, sb, _, mkfs_of_run hrun, finish_mount himage, fun k a ha u ip off n hload hoff hn' hwrap => ?_,
    fun a ha name hname hdot hdotdot u dp hload hslot => ?_⟩
  · have hk := (List.getElem?_eq_some_iff.mp ha).1
    have hR : ROOTINO = 1 := rfl
    have hfile : files argv (k + 2) = a.content := by
      rw [files, if_neg (by omega), if_neg (by omega), Nat.add_sub_cancel, ha]
      rfl
    rw [← hfile]
    exact himage.readi hroot (by omega) (by omega) (by omega) (by omega) hload hoff hn' (hfile ▸ hwrap)
  · refine himage.dirlookup hn hload hlt hdot hdotdot (List.findIdx_lt_length_of_exists ⟨a, ha, ?_⟩) hslot
    exact decide_eq_true hname

def loaded (v : Volume) (i : Nat) : Volume := { v with inode := fun _ => { copy := v.dinode i } }

theorem mkfs_read_two : ∃ img sb v, mkfs threeFiles = some img ∧ mount img = some (sb, v) ∧
    readi sb firstInode 1 5 5 (loaded v 2) = .ok (some [99], loaded v 2) ∧
    readi sb firstInode 2 4294967295 4294967295 (loaded v 2) = .ok (some [], loaded v 2) ∧
    Returns (dirlookup sb firstInode [97]) (loaded v ROOTINO) fun r t => ∃ ip off, r = some (ip, off) ∧
      (t.inode ip).inum = 2 := by
  obtain ⟨img, sb, v, hrun, hmount, hread, hlook⟩ := @mkfs_read threeFiles (by decide) (by decide) (by decide)
    (by decide) threeFiles_room
  have hfile := fun off n => hread 0 twoBytes rfl (loaded v 2) firstInode off n ⟨rfl, rfl⟩
  refine ⟨img, sb, v, hrun, hmount, hfile 1 5 (by decide) (by decide) (by decide),
    hfile 2 4294967295 (by decide) (by decide) (by decide), ?_⟩
  refine (hlook twoBytes List.mem_cons_self [97] (by decide) (by decide) (by decide) (loaded v ROOTINO) firstInode ⟨rfl, rfl⟩
    ⟨firstInode, .inl rfl⟩).mono ?_
  rintro r t ⟨ip, off, hr, _, hinum⟩
  exact ⟨ip, off, hr, hinum⟩

/-- From offset 1 a read of the largest number of bytes gets none. -/
theorem mkfs_read_wrong : ∃ img sb v u ip, mkfs threeFiles = some img ∧ mount img = some (sb, v) ∧ Loaded v u ip 2 ∧
    readi sb ip 1 4294967295 4294967295 u = .ok (some [], u) ∧ (twoBytes.content.drop 1).take 4294967295 = [99] := by
  obtain ⟨s, _, himage, hrun⟩ := main_returns (by decide) threeFiles_fit
  refine ⟨_, sb, s.finish.volume, loaded s.finish.volume 2, firstInode, mkfs_of_run hrun, finish_mount himage,
    ⟨rfl, rfl⟩, ?_, ?_⟩
  · unfold Fs.readi
    rw [run_bind run_read, if_pos (.inr (by decide))]
    rfl
  · exact List.take_of_length_le (by decide)

end TweakedXv6.Mkfs

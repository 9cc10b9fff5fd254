import TweakedXv6.ExecModel
import TweakedXv6.RamFork

namespace TweakedXv6.Phys

open Prog
open Vm (PGSIZE MAXVA Layout Pte Ghost Table UserMap KernelMap SameKernel pages tfVpn trampVpn)
open Fs (readCount)

variable {lay : Layout} {G : Ghost} {r r' : Ram} {T S : Table} {d q i n va tf fuel sz off offset : Nat} {f : File} {e : Pte}

theorem readCount_le {size : Nat} : readCount size off n ≤ n := by
  unfold readCount
  split <;> omega

theorem readi_kept (hn : n ≤ 4096) : Returns (readi f (q * PGSIZE) off n) r fun m r' =>
    m = readCount f.size off n ∧ Kept (· ≠ q) r r' ∧ r'.free = r.free := by
  have hle : readCount f.size off n ≤ n := readCount_le
  refine ⟨rfl, fun a ha => Bytes.transfer_out fun i hi heq => ha ?_, rfl⟩
  unfold PGSIZE at heq
  omega

section Leaf

variable (h : Sound lay G r) (hT : G.table d = some T) (hK : KernelMap lay tf T)

include h hT hK

theorem Sound.userPage_leaf (he : T.leaf (va / 4096) = some e) (hu : e.u = true) : userPage r d va = some e.ppn := by
  have hlt := hK.user_lt he hu
  refine (h.userPage_iff hT).mpr ⟨?_, e, he, hu, rfl⟩
  unfold tfVpn at hlt
  unfold MAXVA
  omega

theorem loadsegLoop_spec (hal : va % 4096 = 0)
    (hmap : ∀ n, va ≤ n * 4096 → n * 4096 < va + sz → ∃ e, T.leaf n = some e ∧ e.u = true) (hsz : va + sz ≤ 134217728)
    (hi : i % 4096 = 0) (hile : i ≤ sz + 4095) (hfuel : sz + 4095 < i + fuel * 4096) :
    Returns (loadsegLoop d va f offset sz fuel i) r fun _ r' => Sound lay G r' ∧ Kept (Closed r d) r r' := by
  induction fuel generalizing r i with
  | zero => omega
  | succ fuel ih =>
    unfold loadsegLoop
    split
    next hlt =>
      have hmod : (va + i) % 18446744073709551616 = va + i := by omega
      obtain ⟨e, he, hu⟩ := hmap ((va + i) / 4096) (by omega) (by omega)
      have hpage := h.userPage_leaf hT hK he hu
      have hne : e.ppn ≠ 0 := (h.userTable hT hK).nonnull _ _ hpage
      rw [hmod]
      rw [Returns, post_run_bind walkaddr_run, hpage, Option.map_some, Option.getD_some, if_neg (by omega)]
      have hn : (if sz - i < PGSIZE then sz - i else PGSIZE) ≤ 4096 := by
        unfold PGSIZE
        split <;> omega
      dsimp only
      generalize (if sz - i < PGSIZE then sz - i else PGSIZE) = n at hn
      refine Post.bind (readi_kept hn) ?_
      rintro m t ⟨_, hkt, hfree⟩
      have ht : Sound lay G t := h.store hT hK hpage hkt hfree
      have hclosed : ∀ x, Closed r d x → x ≠ e.ppn := fun x hx hxe => hx _ (hxe ▸ hpage)
      split
      next => exact ⟨ht, hkt.mono hclosed⟩
      next =>
        have hsame : userPage t d = userPage r d :=
          h.userPage_kept hT hkt fun x hx => hclosed x (Closed.of_page h hT hK hT hx)
        have hnext : (i + PGSIZE) % 4294967296 = i + 4096 := by
          unfold PGSIZE
          omega
        rw [hnext]
        refine (ih ht (by omega) (by omega) (by omega)).mono ?_
        rintro _ u ⟨hu, hku⟩
        refine ⟨hu, (hkt.mono hclosed).trans (hku.mono fun x hx va => ?_)⟩
        rw [hsame]
        exact hx va
    next => exact ⟨h, Kept.refl⟩

theorem loadseg_spec {k : Nat} (hU : UserMap T k fun _ => False) (hal : va % 4096 = 0) (hsz : va + sz ≤ k * 4096) :
    Returns (loadseg d va f offset sz) r fun _ r' => Sound lay G r' ∧ Kept (Closed r d) r r' := by
  have hle := h.pages_le hT hU
  refine loadsegLoop_spec h hT hK hal (fun n _ hn => ?_) (by omega) rfl (by omega) ?_
  · obtain ⟨e, he, hu⟩ := hU.mapped n (by omega)
    exact ⟨e, he, hu.resolve_right id⟩
  · unfold PGSIZE
    omega

end Leaf

def Resized (lay : Layout) (G : Ghost) (d : Nat) (T : Table) (guard : Nat → Prop) (k : Nat) (r r' : Ram) : Prop :=
  Kept (Other lay G d) r r' ∧
    ∃ S, Sound lay (G.setTable d (some S)) r' ∧ UserMap S k guard ∧ SameKernel T S

section Resized

variable {guard : Nat → Prop} {k oldsz newsz : Nat}

theorem Resized.refl (h : Sound lay G r) (hT : G.table d = some T) (hU : UserMap T k guard) :
    Resized lay G d T guard k r r :=
  ⟨Kept.refl, T, (Vm.setTable_eq hT).symm ▸ h, hU, fun _ _ => rfl⟩

theorem Resized.trans {t : Ram} (hk : Kept (Other lay G d) r r') (hST : SameKernel T S)
    (h : Resized lay (G.setTable d (some S)) d S guard k r' t) : Resized lay G d T guard k r t := by
  obtain ⟨hk', R, hR, hU, hK⟩ := h
  rw [Vm.setTable_setTable] at hR
  exact ⟨hk.trans (hk'.mono fun x hx => hx.setTable), R, hR, hU, hST.trans hK⟩

theorem Other.closed {x : Nat} (ho : Other lay G d x) (h : Sound lay (G.setTable d (some S)) r) (hK : KernelMap lay tf S) :
    Closed r d x :=
  fun _ hva => (Other.apart h ho.setTable).2 S _ Vm.setTable_self (h.userPage_at Vm.setTable_self hK hva)

theorem uvmalloc_resized (h : Sound lay G r) (hT : G.table d = some T) (hU : UserMap T (pages oldsz) guard) :
    Returns (uvmalloc lay d oldsz newsz) r fun v r' => v = 0 ∧ Resized lay G d T guard (pages oldsz) r r' ∨
      v = max oldsz newsz ∧ Resized lay G d T guard (pages v) r r' := by
  refine (uvmalloc_spec h hT hU).mono ?_
  rintro v r' (⟨rfl, S, hS, hleaf, hk⟩ | ⟨hv, S, hS, hgrown, hk⟩)
  · exact .inl ⟨rfl, hk, S, hS, hU.congr hleaf, Vm.sameKernel_of_leaf hleaf⟩
  · have hpages : pages oldsz ≤ pages v := by
      unfold pages
      omega
    have hSU := hgrown.userMap hU
    rw [Nat.add_sub_cancel' hpages] at hSU
    have hle := hS.pages_le Vm.setTable_self hSU
    exact .inr ⟨hv, hk.mono fun x hx => .inl hx, S, hS, hSU, hgrown.sameKernel (by unfold tfVpn; omega)⟩

theorem Resized.free (h : Resized lay G d T guard (pages sz) r r') (hK : KernelMap lay tf T) :
    Returns (procFreepagetable lay d sz) r' fun _ t => Sound lay (G.setTable d none) t ∧ Kept (Other lay G d) r t := by
  obtain ⟨hk, S, hS, hU, hSK⟩ := h
  refine (procFreepagetable_spec hS Vm.setTable_self (hSK.kernelMap hK) hU).mono ?_
  rintro _ t ⟨ht, hkt⟩
  rw [Vm.setTable_setTable] at ht
  exact ⟨ht, hk.trans (hkt.mono fun x hx => hx.setTable)⟩

end Resized

theorem execLoad_spec (h : Sound lay G r) (hT : G.table d = some T) (hK : KernelMap lay tf T)
    (hU : UserMap T (pages sz) fun _ => False) :
    Returns (execLoad lay d f n off sz) r fun x r' => Resized lay G d T (fun _ => False) (pages x.2) r r' := by
  induction n generalizing G r T off sz with
  | zero => exact .refl h hT hU
  | succ n ih =>
    have hself : Resized lay G d T (fun _ => False) (pages sz) r r := .refl h hT hU
    have hvaddr : phVaddr (f.at off) < 18446744073709551616 := Bytes.dword_lt
    have hmemsz : phMemsz (f.at off) < 18446744073709551616 := Bytes.dword_lt
    unfold execLoad
    dsimp only
    split
    next => exact hself
    split
    next => exact ih h hT hK hU
    split
    next => exact hself
    next hfile =>
    split
    next => exact hself
    next hwrap =>
    have hend : (phVaddr (f.at off) + phMemsz (f.at off)) % 18446744073709551616 =
        phVaddr (f.at off) + phMemsz (f.at off) := by omega
    rw [hend]
    refine Post.bind (uvmalloc_resized h hT hU) ?_
    rintro v u hv
    -- the size after a failure is the old one, and the new one after success
    have hsized : v = 0 ∧ Resized lay G d T (fun _ => False) (pages sz) r u ∨
        v ≠ 0 ∧ v = max sz (phVaddr (f.at off) + phMemsz (f.at off)) ∧
          Resized lay G d T (fun _ => False) (pages v) r u := by
      by_cases hzero : v = 0
      · rcases hv with ⟨_, hu⟩ | ⟨hmax, hu⟩
        · exact .inl ⟨hzero, hu⟩
        · have hsz : sz = v := by omega
          exact .inl ⟨hzero, hsz.symm ▸ hu⟩
      · exact .inr ⟨hzero, hv.resolve_left fun hno => hzero hno.1⟩
    rcases hsized with ⟨rfl, hu⟩ | ⟨hne, hmax, hu⟩
    · rw [if_pos rfl]
      exact hu
    rw [if_neg hne]
    split
    next => exact hu
    next haligned =>
    have hal : phVaddr (f.at off) % 4096 = 0 := by
      unfold PGSIZE at haligned
      omega
    have htop : phVaddr (f.at off) + phFilesz (f.at off) % 4294967296 ≤ pages v * 4096 := by
      have hmod := Nat.mod_le (phFilesz (f.at off)) 4294967296
      unfold pages
      omega
    obtain ⟨hku, S, hS, hSU, hSK⟩ := hu
    refine Post.bind (loadseg_spec hS Vm.setTable_self (hSK.kernelMap hK) hSU hal htop) ?_
    rintro ok w ⟨hw, hkw⟩
    have hkw' : Kept (Other lay G d) r w := hku.trans (hkw.mono fun x hx => hx.closed hS (hSK.kernelMap hK))
    cases ok with
    | false => exact ⟨hkw', S, hw, hSU, hSK⟩
    | true => exact (ih hw Vm.setTable_self (hSK.kernelMap hK) hSU).mono fun _ t ht => .trans hkw' hSK ht

theorem execFile_spec (htf : tf < 4503599627370496) (h : Sound lay G r) :
    Returns (execFile lay tf f) r fun o r' => Kept (Busy lay G) r r' ∧
      (o = none ∧ Sound lay G r' ∨ ∃ d sz S, o = some (d, sz) ∧ G.table d = none ∧
        Sound lay (G.setTable d (some S)) r' ∧ KernelMap lay tf S ∧ UserMap S (pages sz) fun _ => False) := by
  unfold execFile
  split
  next => exact ⟨Kept.refl, .inl ⟨rfl, h⟩⟩
  split
  next => exact ⟨Kept.refl, .inl ⟨rfl, h⟩⟩
  next =>
  refine Post.bind (procPagetable_spec htf h) ?_
  rintro o t ⟨hkt, ⟨rfl, ht⟩ | ⟨d, S, rfl, hd, ht, hK, hU⟩⟩
  · exact ⟨hkt, .inl ⟨rfl, ht⟩⟩
  have hU0 : UserMap S (pages 0) fun _ => False := hU
  refine Post.bind (execLoad_spec ht Vm.setTable_self hK hU0) ?_
  rintro ⟨ok, sz⟩ u hu
  cases ok with
  | false =>
    refine Post.bind (hu.free hK) ?_
    rintro _ w ⟨hw, hkw⟩
    rw [Vm.setTable_setTable, Vm.setTable_none hd] at hw
    exact ⟨hkt.trans (hkw.mono fun x hx => (hx.other hd).setTable), .inl ⟨rfl, hw⟩⟩
  | true =>
    obtain ⟨hku, R, hR, hRU, hRK⟩ := hu
    rw [Vm.setTable_setTable] at hR
    refine ⟨hkt.trans (hku.mono fun x hx => (hx.other hd).setTable), ?_⟩
    exact .inr ⟨d, sz, R, rfl, hd, hR, hRK.kernelMap hK, hRU⟩

theorem execStack_spec (h : Sound lay (G.setTable d (some T)) r) (hd : G.table d = none) (hK : KernelMap lay tf T)
    (hU : UserMap T (pages sz) fun _ => False) : Returns (execStack lay d sz) r fun o r' => Kept (Busy lay G) r r' ∧
      (o = none ∧ Sound lay G r' ∨ ∃ k S e, o = some ((k + 2) * 4096) ∧ Sound lay (G.setTable d (some S)) r' ∧
        KernelMap lay tf S ∧ UserMap S (k + 2) (· = k) ∧ S.leaf (k + 1) = some e ∧ e.u = true) := by
  have hle := h.pages_le Vm.setTable_self hU
  have hsz : sz ≤ 134217728 := by
    unfold pages at hle
    omega
  have hbusy : ∀ {S : Option Table} x, Busy lay G x → Other lay (G.setTable d S) d x := fun x hx => (hx.other hd).setTable
  have hU' : UserMap T (pages (pages sz * 4096)) fun _ => False := by rwa [Vm.pages_mul]
  rw [Returns, execStack, Vm.pgroundup_eq hsz]
  refine Post.bind (uvmalloc_resized h Vm.setTable_self hU') ?_
  rintro v u hv
  by_cases hzero : v = 0
  · have hu : Resized lay (G.setTable d (some T)) d T (fun _ => False) (pages (pages sz * 4096)) r u := by
      rcases hv with ⟨_, hu⟩ | ⟨hmax, hu⟩
      · exact hu
      · unfold PGSIZE at hmax
        omega
    rw [if_pos hzero]
    refine Post.bind (hu.free hK) ?_
    rintro _ w ⟨hw, hkw⟩
    rw [Vm.setTable_setTable, Vm.setTable_none hd] at hw
    exact ⟨hkw.mono hbusy, .inl ⟨rfl, hw⟩⟩
  · obtain ⟨hmax, hku, S, hS, hSU, hSK⟩ := hv.resolve_left fun hno => hzero hno.1
    rw [Vm.setTable_setTable] at hS
    have hv2 : v = (pages sz + 2) * 4096 := by
      unfold PGSIZE at hmax
      omega
    have hguard : v - 2 * PGSIZE = pages sz * 4096 := by
      unfold PGSIZE
      omega
    rw [hv2, Vm.pages_mul] at hSU
    have hle' := hS.pages_le Vm.setTable_self hSU
    obtain ⟨g, hg, _⟩ := hSU.mapped (pages sz) (by omega)
    obtain ⟨e, he, heu⟩ := hSU.mapped (pages sz + 1) (by omega)
    rw [if_neg hzero, hguard]
    refine Post.bind (uvmclear_spec hS Vm.setTable_self hg (by unfold trampVpn; omega)) ?_
    rintro _ w ⟨hw, hkw⟩
    rw [Vm.setTable_setTable] at hw
    refine ⟨(hku.mono hbusy).trans (hkw.mono fun x hx => .inl (hbusy x hx)), .inr ⟨pages sz, _, e, ?_, hw, ?_, ?_, ?_, ?_⟩⟩
    · rw [hv2]
    · exact ((hSK.trans (Vm.sameKernel_setLeaf (by unfold tfVpn; omega))).kernelMap hK)
    · exact (hSU.close (by omega)).weaken fun i hi => hi.resolve_left id
    · rw [Vm.setLeaf_other (by omega), he]
    · exact heu.resolve_right id

end TweakedXv6.Phys

import TweakedXv6.RamModel
import TweakedXv6.Refine
import TweakedXv6.VmUser

namespace TweakedXv6.Phys

open Prog
open Vm (PGSIZE phystopPage Layout Mem Pte)

def upperFlags (pte : Nat) : Fin 32 := ⟨pte / 32 % 32, Nat.mod_lt _ (by decide)⟩

def decode (pte : Nat) : Pte :=
  ⟨has pte PTE_V, has pte PTE_R, has pte PTE_W, has pte PTE_X, has pte PTE_U, upperFlags pte, pteToPage pte⟩

/-- The bytes in memory read as the abstract memory of page-table entries. -/
structure Reads (r : Ram) (m : Mem) : Prop where
  free : m.free = r.free
  fails : m.fails = r.fails
  pte : ∀ q i, i < 512 → m.pte q i = decode (r.pte q i)
  small : ∀ q ∈ r.free, q < 4503599627370496

def view (r : Ram) : Mem := ⟨r.free, fun q i => decode (r.table q i), r.fails⟩

variable {r : Ram} {m m' : Mem} {q q' i perm pte d k va : Nat} {b : UInt8} {lay : Layout} {alloc : Bool}

theorem has_testBit {flag : Nat} (h : flag = Nat.pow 2 k) : has pte flag = pte.testBit k := by
  rw [has, Nat.testBit_eq_decide_div_mod_eq, h]
  rfl

theorem testBit_entry (h0 : k ≠ 0) (hk : k < 10) : (q * 1024 ||| perm ||| PTE_V).testBit k = perm.testBit k := by
  have hpage : (q * 1024).testBit k = false := by
    have hmul := @Nat.testBit_mul_two_pow q k 10
    rw [decide_eq_false (Nat.not_le.mpr hk), Bool.false_and] at hmul
    exact hmul
  have hone : PTE_V.testBit k = false := by
    rw [PTE_V, Nat.testBit_eq_decide_div_mod_eq, Nat.div_eq_of_lt (Nat.one_lt_two_pow h0)]
    rfl
  rw [Nat.testBit_or, Nat.testBit_or, hpage, hone, Bool.false_or, Bool.or_false]

theorem entry_div (hperm : perm < 1024) : (q * 1024 ||| perm ||| PTE_V) / 1024 = q := by
  have hdiv : ∀ x : Nat, x / 1024 = x >>> 10 := fun x => (Nat.shiftRight_eq_div_pow x 10).symm
  have hflags : perm >>> 10 = 0 := by
    rw [← hdiv]
    omega
  have hpage : (q * 1024) >>> 10 = q := by
    rw [← hdiv]
    omega
  rw [hdiv, Nat.shiftRight_or_distrib, Nat.shiftRight_or_distrib, hpage, hflags, Nat.or_zero]
  exact Nat.or_zero q

theorem entry_rest : (q * 1024 ||| perm ||| PTE_V) / 32 % 32 = perm / 32 % 32 := by
  have hdiv : ∀ x : Nat, x / 32 = x >>> 5 := fun x => (Nat.shiftRight_eq_div_pow x 5).symm
  have hpage : (q * 1024) >>> 5 = q * 32 := by
    rw [← hdiv]
    omega
  have hone : PTE_V >>> 5 = 0 := rfl
  have hmod := @Nat.or_mod_two_pow (q * 32) (perm >>> 5) 5
  rw [Nat.mul_mod_left, Nat.zero_or] at hmod
  rw [hdiv, hdiv, Nat.shiftRight_or_distrib, Nat.shiftRight_or_distrib, hpage, hone, Nat.or_zero]
  exact hmod

theorem pageToPte_eq (hq : q < 4503599627370496) : pageToPte q = q * 1024 := by
  unfold pageToPte
  omega

theorem entry_lt (hq : q < 4503599627370496) (hperm : perm < 1024) :
    pageToPte q ||| perm ||| PTE_V < 18446744073709551616 := by
  have hdiv := @entry_div q perm hperm
  rw [← pageToPte_eq hq] at hdiv
  omega

theorem upperFlags_congr {a b : Nat} (h : a / 32 % 32 = b / 32 % 32) : upperFlags a = upperFlags b := Fin.ext h

theorem decode_mapped (hq : q < 4503599627370496) (hperm : perm < 1024) :
    decode (pageToPte q ||| perm ||| PTE_V) = (decode perm).mapped q := by
  have hflag : ∀ {k flag}, flag = Nat.pow 2 k → k ≠ 0 → k < 10 →
      has (q * 1024 ||| perm ||| PTE_V) flag = has perm flag := by
    intro k flag hf h0 hk
    rw [has_testBit hf, has_testBit hf, testBit_entry h0 hk]
  have hv : has (q * 1024 ||| perm ||| PTE_V) PTE_V = true := by
    rw [@has_testBit _ 0 PTE_V rfl, Nat.testBit_or, PTE_V, Nat.testBit_zero 1]
    exact Bool.or_true _
  have hppn : pteToPage (q * 1024 ||| perm ||| PTE_V) = q := by
    rw [pteToPage, entry_div hperm]
    omega
  unfold decode Pte.mapped
  rw [pageToPte_eq hq, hv, hppn, @hflag 1 PTE_R rfl (by decide) (by decide), @hflag 2 PTE_W rfl (by decide) (by decide),
    @hflag 3 PTE_X rfl (by decide) (by decide), @hflag 4 PTE_U rfl (by decide) (by decide),
    upperFlags_congr entry_rest]

theorem pte_setPte_self (hw : pte < 18446744073709551616) : (r.setPte q i pte).pte q i = pte :=
  Bytes.dword_setDword_self hw

theorem pte_setPte_other {j : Nat} (hi : i < 512) (hj : j < 512) (h : ¬ (q' = q ∧ j = i)) :
    (r.setPte q i pte).pte q' j = r.pte q' j := Bytes.dword_setDword_other (by omega)

theorem pte_fillPage_self (hi : i < 512) : (r.fillPage q b).pte q i = b.toNat * 72340172838076673 :=
  Bytes.dword_fill (by unfold PGSIZE; omega) (by unfold PGSIZE; omega)

theorem pte_fillPage_other (hi : i < 512) (h : q' ≠ q) : (r.fillPage q b).pte q' i = r.pte q' i :=
  Bytes.dword_congr fun k hk => Bytes.fill_out (by unfold PGSIZE; omega)

theorem Reads.setPte (h : Reads r m) (hi : i < 512) (hw : pte < 18446744073709551616) :
    Reads (r.setPte q i pte) (m.setPte q i (decode pte)) := by
  refine ⟨h.free, h.fails, fun q' j hj => ?_, h.small⟩
  by_cases hc : q' = q ∧ j = i
  · rw [hc.1, hc.2, Vm.setPte_self, pte_setPte_self hw]
  · rw [pte_setPte_other hi hj hc, ← h.pte q' j hj]
    by_cases hq : q' = q
    · subst hq
      exact Vm.setPte_index fun hji => hc ⟨rfl, hji⟩
    · rw [Vm.setPte_other hq]

theorem Reads.fillPage (h : Reads r m) :
    Reads (r.fillPage q b) (m.setPage q fun _ => decode (b.toNat * 72340172838076673)) := by
  refine ⟨h.free, h.fails, fun q' j hj => ?_, h.small⟩
  by_cases hq : q' = q
  · rw [hq, Vm.setPage_self, pte_fillPage_self hj]
  · rw [Vm.setPage_other hq, pte_fillPage_other hj hq, h.pte q' j hj]

theorem decode_zero : decode ((0 : UInt8).toNat * 72340172838076673) = .zero := by decide

theorem decode_ones : decode ((1 : UInt8).toNat * 72340172838076673) = .ones := by decide

theorem decode_fives : decode ((5 : UInt8).toNat * 72340172838076673) = .fives := by decide

theorem decode_table (hq : q < 4503599627370496) : decode (pageToPte q ||| PTE_V) = .table q := by
  have h := @decode_mapped q 0 hq (by decide)
  rwa [Nat.or_zero] at h

/-- The check of `uvmunmap` for a leaf. -/
theorem decode_bare (h : pteFlags pte = PTE_V) : decode pte = .table (decode pte).ppn := by
  unfold pteFlags PTE_V at h
  have hV : has pte PTE_V = true := decide_eq_true (by unfold PTE_V; omega)
  have hR : has pte PTE_R = false := decide_eq_false (by unfold PTE_R; omega)
  have hW : has pte PTE_W = false := decide_eq_false (by unfold PTE_W; omega)
  have hX : has pte PTE_X = false := decide_eq_false (by unfold PTE_X; omega)
  have hU : has pte PTE_U = false := decide_eq_false (by unfold PTE_U; omega)
  have hrest : upperFlags pte = 0 := Fin.ext (show pte / 32 % 32 = 0 by omega)
  unfold decode
  rw [hV, hR, hW, hX, hU, hrest]
  rfl

theorem kalloc_refines : Refines Reads kalloc Vm.kalloc := by
  intro r m h a m' hrun
  unfold Vm.kalloc at hrun
  unfold kalloc
  rw [h.fails, h.free] at hrun
  dsimp only at hrun ⊢
  split at hrun
  next hf =>
    cases hrun
    rw [if_pos hf]
    exact ⟨_, rfl, rfl, rfl, h.pte, h.small⟩
  next hf =>
    rw [if_neg hf]
    cases hfree : r.free with
    | nil =>
      rw [hfree] at hrun
      cases hrun
      exact ⟨_, rfl, rfl, rfl, h.pte, fun x hx => by cases hx⟩
    | cons q rest =>
      rw [hfree] at hrun
      cases hrun
      refine ⟨_, rfl, rfl, rfl, ?_, fun x hx => h.small x ?_⟩
      · have hpte := (h.fillPage (q := q) (b := 5)).pte
        rw [decode_fives] at hpte
        exact hpte
      · rw [hfree]
        exact List.mem_cons_of_mem q hx

theorem kalloc_small (h : Reads r m) (hrun : Vm.kalloc m = .ok (some q, m')) : q < 4503599627370496 := by
  unfold Vm.kalloc at hrun
  dsimp only at hrun
  split at hrun
  next => cases hrun
  next =>
    cases hfree : m.free with
    | nil =>
      rw [hfree] at hrun
      cases hrun
    | cons x rest =>
      rw [hfree] at hrun
      cases hrun
      exact h.small q (by rw [← h.free, hfree]; exact List.mem_cons_self)

theorem kfree_refines : Refines Reads (kfree lay q) (Vm.kfree lay q) := by
  unfold kfree Vm.kfree
  split
  next => exact refines_halt
  next hq =>
    refine refines_change fun r m h => ?_
    have hfill := h.fillPage (q := q) (b := 1)
    rw [decode_ones] at hfill
    refine ⟨by rw [h.free], hfill.fails, hfill.pte, fun x hx => ?_⟩
    rcases List.mem_cons.mp hx with rfl | hx
    · unfold phystopPage at hq
      omega
    · exact h.small x hx

theorem fillPage_refines : Refines Reads (fillPage q 0) (Vm.writePage q fun _ => .zero) := by
  refine refines_change fun r m h => ?_
  have hfill := h.fillPage (q := q) (b := 0)
  rwa [decode_zero] at hfill

theorem writePte_refines (hi : i < 512) (hw : pte < 18446744073709551616) :
    Refines Reads (writePte q i pte) (Vm.writePte q i (decode pte)) :=
  refines_change fun _ _ h => h.setPte hi hw

theorem walkStep_refines (hi : i < 512) : Refines Reads (walkStep q i alloc) (Vm.walkStep q i alloc) := by
  refine refines_read_bind fun r m h a m' hrun => ?_
  rw [h.pte q i hi] at hrun
  cases hv : has (r.pte q i) PTE_V with
  | true =>
    have hv' : (decode (r.pte q i)).v = true := hv
    rw [hv', if_pos rfl] at hrun
    cases hrun
    exact ⟨r, rfl, h⟩
  | false =>
    have hv' : (decode (r.pte q i)).v = false := hv
    rw [hv', if_neg Bool.false_ne_true] at hrun
    rw [if_neg Bool.false_ne_true]
    cases alloc with
    | false =>
      cases hrun
      exact ⟨r, rfl, h⟩
    | true =>
      rw [if_pos rfl] at hrun ⊢
      refine Refines.bind_run kalloc_refines (fun s t o t' hR ho => ?_) r m h a m' hrun
      cases o with
      | none => exact refines_ret
      | some x =>
        have hx := kalloc_small hR ho
        refine fillPage_refines.bind fun _ => ?_
        have hlt := @entry_lt x 0 hx (by decide)
        rw [Nat.or_zero] at hlt
        rw [← decode_table hx]
        exact (writePte_refines hi hlt).bind fun _ => refines_ret

theorem walk_refines : Refines Reads (walk q va alloc) (Vm.walk q va alloc) := by
  unfold walk Vm.walk
  split
  next => exact refines_halt
  next =>
    refine (walkStep_refines (px_lt 2 va)).bind fun o => ?_
    cases o with
    | none => exact refines_ret
    | some t1 =>
      refine (walkStep_refines (px_lt 1 va)).bind fun o => ?_
      cases o with
      | none => exact refines_ret
      | some t0 => exact refines_ret

theorem walk_index (h : Vm.walk q va alloc m = .ok (some (q', k), m')) : k < 512 := by
  unfold Vm.walk at h
  split at h
  next => cases h
  next =>
    obtain ⟨o, u, _, h⟩ := bind_eq_ok h
    cases o with
    | none => cases h
    | some t1 =>
      obtain ⟨o, u, _, h⟩ := bind_eq_ok h
      cases o with
      | none => cases h
      | some t0 =>
        cases h
        exact px_lt 0 va

theorem mappages_refines {n pa : Nat} (hn : n < Vm.trampVpn + 1) (hpa : pa < 4503599627370496) (hperm : perm < 1024) :
    Refines Reads (mappages d (n * 4096) PGSIZE pa perm) (Vm.mappages d (n * 4096) PGSIZE pa (decode perm)) := by
  have hva : n * 4096 < 18446744073709551616 := Nat.lt_trans (Vm.page_lt hn) (by decide)
  rw [mappages_page (by omega) hva, Vm.mappages_page (by omega) hva]
  refine walk_refines.bind_run fun _ _ o _ _ ho => ?_
  cases o with
  | none => exact refines_ret
  | some x =>
    obtain ⟨q, k⟩ := x
    have hk := walk_index ho
    refine refines_read_bind fun r m h a m' hrun => ?_
    rw [h.pte q k hk] at hrun
    cases hv : has (r.pte q k) PTE_V with
    | true =>
      have hv' : (decode (r.pte q k)).v = true := hv
      rw [hv', if_pos rfl] at hrun
      cases hrun
    | false =>
      have hv' : (decode (r.pte q k)).v = false := hv
      rw [hv', if_neg Bool.false_ne_true, ← decode_mapped hpa hperm] at hrun
      rw [if_neg Bool.false_ne_true]
      exact ((writePte_refines hk (entry_lt hpa hperm)).bind fun _ => refines_ret) r m h a m' hrun

theorem unmapPage_refines {a : Nat} {doFree : Bool} :
    Refines Reads (unmapPage lay d a doFree) (Vm.unmapPage lay d a doFree) := by
  refine walk_refines.bind_run fun _ _ o _ _ ho => ?_
  cases o with
  | none => exact refines_halt
  | some x =>
    obtain ⟨q, k⟩ := x
    have hk := walk_index ho
    refine refines_read_bind fun r m h a m' hrun => ?_
    rw [h.pte q k hk] at hrun
    generalize r.pte q k = pte at hrun
    have hzero : decode 0 = .zero := by decide
    split at hrun
    next => cases hrun
    next hv =>
      split at hrun
      next => cases hrun
      next hleaf =>
        have hflags : pteFlags pte ≠ PTE_V := fun hone => hleaf (decode_bare hone)
        rw [if_neg (show ¬ has pte PTE_V = false from hv), if_neg hflags]
        have hfree : Refines Reads (when doFree (kfree lay (pteToPage pte))) (when doFree (Vm.kfree lay (decode pte).ppn)) := by
          unfold Prog.when
          split
          next => exact kfree_refines
          next => exact refines_ret
        rw [← hzero] at hrun
        exact (hfree.bind fun _ => writePte_refines hk (by decide)) r m h a m' hrun

theorem uvmclear_refines : Refines Reads (uvmclear d va) (Vm.uvmclear d va) := by
  refine walk_refines.bind_run fun _ _ o _ _ ho => ?_
  cases o with
  | none => exact refines_halt
  | some x =>
    obtain ⟨q, k⟩ := x
    have hk := walk_index ho
    refine refines_read_bind fun r m h a m' hrun => ?_
    have hlt : r.pte q k < 18446744073709551616 := Bytes.dword_lt
    rw [h.pte q k hk] at hrun
    generalize r.pte q k = pte at hrun hlt
    have hclear : decode (if has pte PTE_U then pte - PTE_U else pte) = { decode pte with u := false } := by
      cases hu : has pte PTE_U with
      | false =>
        rw [if_neg Bool.false_ne_true]
        simp [decode, hu]
      | true =>
        have hbit : pte / 16 % 2 = 1 := of_decide_eq_true hu
        have hsame : ∀ flag, (pte - 16) / flag % 2 = pte / flag % 2 → has (pte - PTE_U) flag = has pte flag := by
          intro flag hflag
          unfold has PTE_U
          rw [hflag]
        have hoff : has (pte - PTE_U) PTE_U = false := decide_eq_false (by unfold PTE_U; omega)
        have hppn : pteToPage (pte - PTE_U) = pteToPage pte := by
          unfold pteToPage PTE_U
          omega
        rw [if_pos rfl]
        unfold decode
        rw [hoff, hppn, hsame PTE_V (by unfold PTE_V; omega), hsame PTE_R (by unfold PTE_R; omega),
          hsame PTE_W (by unfold PTE_W; omega), hsame PTE_X (by unfold PTE_X; omega),
          upperFlags_congr (show (pte - PTE_U) / 32 % 32 = pte / 32 % 32 by unfold PTE_U; omega)]
    rw [← hclear] at hrun
    refine writePte_refines hk ?_ r m h a m' hrun
    split <;> omega

end TweakedXv6.Phys

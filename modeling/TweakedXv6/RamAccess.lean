import TweakedXv6.RamTable

namespace TweakedXv6.Phys

open Prog Radix
open Vm (MAXVA Layout Pte Ghost Table KernelMap tfVpn trampVpn path)

variable {lay : Layout} {G : Ghost} {r r' : Ram} {T T' : Table} {d d' q i n va tf fuel src dstva len : Nat} {p : List Nat}
  {e : Pte} {P : Nat → Prop}

theorem descend_view : descend Vm.format (view r).pte q p = descend format r.table q p := by
  induction p generalizing q with
  | nil => rfl
  | cons i p ih =>
    rw [descend, descend]
    change (next format (r.table q i)).bind _ = _
    cases next format (r.table q i) with
    | none => rfl
    | some x => exact ih

theorem userPage_lookup : userPage r d va =
    if va < MAXVA then (Vm.lookup (view r) d (va / 4096)).bind fun e => if e.u then some e.ppn else none else none := by
  unfold userPage Vm.lookup
  split
  next hva =>
    rw [if_pos (Vm.px_path hva).2.2, find, find, descend_view]
    cases descend format r.table d (path (va / 4096)) with
    | none => rfl
    | some q =>
      change Option.bind (if has (r.table q (va / 4096 % 512)) PTE_V = true then _ else none) _ =
        Option.bind (if has (r.table q (va / 4096 % 512)) PTE_V = true then _ else none) _
      split <;> rfl
  next => rfl

theorem Sound.userPage_iff (h : Sound lay G r) (hT : G.table d = some T) :
    userPage r d va = some q ↔ va < MAXVA ∧ ∃ e, T.leaf (va / 4096) = some e ∧ e.u = true ∧ e.ppn = q := by
  rw [userPage_lookup]
  split
  next hva =>
    rw [(Vm.Good.wellFormed h hT).2 _ (Vm.px_path hva).2.2]
    cases hleaf : T.leaf (va / 4096) with
    | none => simp
    | some e => simp [hva]
  next hva => simp [hva]

theorem Sound.isTable (h : Sound lay G r) (hT : G.table d = some T) (hq : IsTable r d q) : T.Page q := by
  obtain ⟨p, hp, hd⟩ := hq
  rw [← descend_view, ← h.root d T hT, Vm.Represents.descend_eq (h.rep d T hT) hp] at hd
  exact ⟨_, _, hd⟩

theorem userPage_spot (hK : KernelMap lay tf T) (hn : T.leaf n = some e) (hu : e.u = true) :
    n < tfVpn ∧ T.at (.leaf n) = some e.ppn := by
  exact ⟨hK.user_lt hn hu, Vm.Table.at_user (hK.user_lt hn hu) hn⟩

section Reads

variable (h : Sound lay G r) (hT : G.table d = some T) (hK : KernelMap lay tf T)

include h hT hK

theorem Sound.userPage_at (hq : userPage r d va = some q) : T.at (.leaf (va / 4096)) = some q := by
  obtain ⟨_, e, he, hu, rfl⟩ := (h.userPage_iff hT).mp hq
  exact (userPage_spot hK he hu).2

theorem Sound.userPage_managed (hq : userPage r d va = some q) : lay.Managed q :=
  h.part.within (.spot d (.leaf (va / 4096))) q ⟨T, hT, h.userPage_at hT hK hq⟩

theorem Sound.userTable : UserTable r d := by
  refine ⟨fun va q hq htable => ?_, fun va q hq => ?_⟩
  · exact h.leaf_not_page hT (h.userPage_at hT hK hq) hT (h.isTable hT htable)
  · obtain ⟨hlo, _⟩ := h.userPage_managed hT hK hq
    have hbase := lay.lo_ge
    unfold Vm.kernbasePage at hbase
    omega

theorem Sound.store
    (hq : userPage r d va = some q) (hk : Kept (· ≠ q) r r') (hfree : r'.free = r.free) : Sound lay G r' :=
  h.write (fun _ _ hS => h.leaf_not_page hT (h.userPage_at hT hK hq) hS) hk hfree

end Reads

theorem Sound.userPage_kept (h : Sound lay G r) (hT : G.table d = some T) (hk : Kept P r r') (hP : ∀ q, T.Page q → P q) :
    userPage r' d = userPage r d :=
  (userPage_frame fun q hq => hk.table (hP q (h.isTable hT hq))).1

theorem userByte_kept (hmap : userPage r' d = userPage r d) (hk : Kept P r r')
    (hP : ∀ q, userPage r d va = some q → P q) (hacc : Accessible r d va) : userByte r' d va = userByte r d va := by
  obtain ⟨q, hq⟩ := Option.isSome_iff_exists.mp hacc
  have htrans : translate r' d va = translate r d va := by rw [translate, translate, hmap]
  rw [userByte, userByte, htrans]
  refine hk _ ?_
  rw [translate_div hq]
  exact hP q hq

def Closed (r : Ram) (d q : Nat) : Prop := ∀ va, userPage r d va ≠ some q

section Pages

variable (h : Sound lay G r) (hT : G.table d = some T) (hK : KernelMap lay tf T)

include h hT hK

theorem Closed.of_page (hT' : G.table d' = some T') (hq : T'.Page q) : Closed r d q :=
  fun _ hva => h.leaf_not_page hT (h.userPage_at hT hK hva) hT' hq

theorem Closed.of_used (hq : G.used q) : Closed r d q := by
  intro va hva
  cases h.part.unique (.spot d (.leaf (va / 4096))) .used q ⟨T, hT, h.userPage_at hT hK hva⟩ hq

theorem Closed.of_leaf (hT' : G.table d' = some T')
    (hne : d' ≠ d) (hq : T'.at (.leaf n) = some q) : Closed r d q := by
  intro va hva
  cases h.part.unique (.spot d (.leaf (va / 4096))) (.spot d' (.leaf n)) q ⟨T, hT, h.userPage_at hT hK hva⟩ ⟨T', hT', hq⟩
  exact hne rfl

theorem copyoutLoop_kept (hfuel : len < fuel) :
    Returns (copyoutLoop d fuel dstva src len) r fun _ r' => Sound lay G r' ∧ Kept (Closed r d) r r' := by
  induction fuel generalizing r dstva src len with
  | zero => exact absurd hfuel (Nat.not_lt_zero len)
  | succ fuel ih =>
    rcases Nat.eq_zero_or_pos len with rfl | hlen
    · exact ⟨h, Kept.refl⟩
    cases hmap : userPage r d dstva with
    | none =>
      unfold Returns Post
      rw [copyoutLoop_fault hlen hmap]
      exact ⟨h, Kept.refl⟩
    | some q =>
      obtain ⟨hpos, hle, hpage, _⟩ := chunk_spec dstva hlen
      have hstep : copyoutLoop d (fuel + 1) dstva src len r = _ :=
        copyoutLoop_page hlen (by omega) hmap ((h.userTable hT hK).nonnull dstva q hmap)
      generalize chunk dstva len = n at hpos hle hpage hstep
      generalize hm : r.transfer (fun i => translate r d (dstva + i)) (fun i => r.byte (src + i)) n = m at hstep
      have hkept : Kept (· ≠ q) r m := by
        rw [← hm]
        intro a ha
        refine Bytes.transfer_out fun i hi heq => ha ?_
        rw [← heq, translate_page hmap (by omega)]
        omega
      have hm' : Sound lay G m := h.store hT hK hmap hkept (by rw [← hm]; rfl)
      have hsame : userPage m d = userPage r d :=
        h.userPage_kept hT hkept fun x hx hxq => Closed.of_page h hT hK hT hx dstva (hxq ▸ hmap)
      unfold Returns Post
      rw [hstep]
      refine (ih hm' (by omega)).mono ?_
      rintro _ r' ⟨hr', hkr'⟩
      refine ⟨hr', (hkept.mono fun x hx hxq => hx dstva (hxq ▸ hmap)).trans (hkr'.mono fun x hx va => ?_)⟩
      rw [hsame]
      exact hx va

theorem copyout_kept : Returns (copyout d dstva src len) r fun _ r' => Sound lay G r' ∧ Kept (Closed r d) r r' :=
  copyoutLoop_kept h hT hK (Nat.lt_succ_self len)

end Pages

end TweakedXv6.Phys

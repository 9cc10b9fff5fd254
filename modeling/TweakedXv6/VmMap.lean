import TweakedXv6.VmWalk

namespace TweakedXv6.Vm

open Prog

variable {lay : Layout} {G : Ghost} {m : Mem} {T : Table} {d q n a k va : Nat} {e perm : Pte}

def Pte.mapped (perm : Pte) (pa : Nat) : Pte := { perm with v := true, ppn := pa }

def Pte.Leafy (perm : Pte) : Prop := (perm.r || perm.w || perm.x) = true

theorem leafEntry_mapped (h : perm.Leafy) : LeafEntry (perm.mapped q) (some (perm.mapped q)) :=
  ⟨rfl, rfl, h⟩

theorem walk_leaf (h : Good lay G m) (hT : G.table d = some T) (hn : T.leaf n = some e)
    (hlt : n < trampVpn + 1) : ∃ p, T.node 0 (n / 512) = some p ∧ m.pte p (n % 512) = e ∧ e.v = true ∧
      e.Leafy ∧ walk d (n * 4096) false m = .ok (some (p, n % 512), m) := by
  have hrep := h.rep d T hT
  obtain ⟨p, hp⟩ := Option.ne_none_iff_exists'.mp (hrep.leaf_parent n (by simp [hn]))
  have hent := hrep.bottom (n / 512) p hp (n % 512) (Nat.mod_lt _ (by decide))
  rw [show 512 * (n / 512) + n % 512 = n by omega, hn] at hent
  have hwalk := walk_find hrep (page_lt hlt)
  rw [h.root d T hT, show n * 4096 / 4096 = n by omega, hp] at hwalk
  exact ⟨p, hp, hent.1, hent.2.1, hent.2.2, hwalk⟩

theorem mappages_page {pagetable pa : Nat} (ha : va % 4096 = 0) (hva : va < 18446744073709551616) :
    mappages pagetable va PGSIZE pa perm = (do
      match ← walk pagetable va true with
      | none => ret false
      | some (q, k) => do
        let pte ← readPte q k
        if pte.v then halt "mappages: remap"
        else do
          writePte q k (perm.mapped pa)
          ret true) := by
  have hdown : pgrounddown va = va := by
    unfold pgrounddown
    omega
  have hlast : pgrounddown ((va + PGSIZE - 1) % 18446744073709551616) = va := by
    unfold pgrounddown PGSIZE
    omega
  unfold mappages
  rw [if_neg (by decide), hdown, hlast, mappagesLoop]
  simp only [if_true]
  rfl

theorem mappages_spec {H : Table → Ghost} {pa : Nat} (h : Good lay G m) (hT : G.table d = some T)
    (ha : n < trampVpn + 1) (hn : T.leaf n = none)
    (hput : ∀ S t q, Good lay (G.setTable d (some S)) t → S.root = T.root → S.leaf = T.leaf →
      S.node 0 (n / 512) = some q →
      Good lay (H (S.setLeaf n (some (perm.mapped pa)))) (t.setPte q (n % 512) (perm.mapped pa))) :
    Returns (mappages d (n * 4096) PGSIZE pa perm) m fun ok t =>
      ok = false ∧ (∃ S : Table, Good lay (G.setTable d (some S)) t ∧ S.root = T.root ∧ S.leaf = T.leaf) ∨
      ok = true ∧ ∃ S : Table, Good lay (H (S.setLeaf n (some (perm.mapped pa)))) t ∧ S.root = T.root ∧
        S.leaf = T.leaf := by
  have hva := page_lt ha
  have hdiv : n * 4096 / 4096 = n := by omega
  rw [mappages_page (by omega) (Nat.lt_trans hva (by decide))]
  refine (walk_alloc h hT hva).bind ?_
  rintro r t ⟨S, hS, hroot, hleaf, hr⟩
  rw [hdiv] at hr
  rcases hr with rfl | ⟨q, rfl, hq⟩
  · exact .inl ⟨rfl, S, hS, hroot, hleaf⟩
  · have hent := (hS.rep d S setTable_self).bottom (n / 512) q hq (n % 512) (Nat.mod_lt _ (by decide))
    rw [show 512 * (n / 512) + n % 512 = n by omega, hleaf, hn] at hent
    dsimp only
    rw [readPte, post_read_bind]
    rw [show (t.pte q (n % 512)).v = false from hent, if_neg (by simp)]
    exact .inr ⟨rfl, S, hput S t q hS hroot hleaf hq, hroot, hleaf⟩

theorem mappages_user (perm : Pte) (h : Good lay (G.use q) m) (hu : ¬ G.used q) (hT : G.table d = some T)
    (hn : n < tfVpn) (hfree : T.leaf n = none) (hperm : perm.Leafy) :
    Returns (mappages d (n * 4096) PGSIZE q perm) m fun ok t =>
      ok = false ∧ (∃ S : Table, Good lay ((G.setTable d (some S)).use q) t ∧ S.root = T.root ∧
        S.leaf = T.leaf) ∨
      ok = true ∧ ∃ S : Table, Good lay (G.setTable d (some (S.setLeaf n (some (perm.mapped q))))) t ∧
        S.root = T.root ∧ S.leaf = T.leaf := by
  refine (mappages_spec (H := fun S => G.setTable d (some S)) h hT (user_lt_tramp hn) hfree ?_).mono ?_
  · intro S t p hS hroot hleaf hp
    have hS' : Good lay ((G.setTable d (some S)).use q) t := hS
    have hnone : S.at (.leaf n) = none := by simp [Table.at, hleaf, hfree]
    have hput := hS'.put (s := .leaf n) hu setTable_self (R := S.setLeaf n (some (perm.mapped q)))
      (t := t.setPte p (n % 512) (perm.mapped q)) ?_ hnone rfl ?_ ?_ rfl
    · rwa [setTable_setTable] at hput
    · intro a
      rw [at_setLeaf, if_neg (user_not_kernel hn)]
      rfl
    · exact (hS.rep d S setTable_self).setLeaf (hS.distinct setTable_self) hp (leafEntry_mapped hperm)
    · intro x _ hx
      exact setPte_other fun he => hx ⟨0, n / 512, he ▸ hp⟩
  · rintro ok t (⟨rfl, S, hS, hroot, hleaf⟩ | ⟨rfl, S, hS, hroot, hleaf⟩)
    · exact .inl ⟨rfl, S, hS, hroot, hleaf⟩
    · exact .inr ⟨rfl, S, hS, hroot, hleaf⟩

theorem mappages_kernel {pa : Nat} (perm : Pte) (h : Good lay G m) (hT : G.table d = some T)
    (hn : n = trampVpn ∨ n = tfVpn) (hfree : T.leaf n = none) (hperm : perm.Leafy) :
    Returns (mappages d (n * 4096) PGSIZE pa perm) m fun ok t =>
      ok = false ∧ (∃ S : Table, Good lay (G.setTable d (some S)) t ∧ S.root = T.root ∧ S.leaf = T.leaf) ∨
      ok = true ∧ ∃ S : Table, Good lay (G.setTable d (some (S.setLeaf n (some (perm.mapped pa))))) t ∧
        S.root = T.root ∧ S.leaf = T.leaf := by
  refine mappages_spec (H := fun S => G.setTable d (some S)) h hT (kernel_lt_tramp hn) hfree ?_
  intro S t p hS hroot hleaf hp
  have hsame := hS.same setTable_self (R := S.setLeaf n (some (perm.mapped pa)))
    (t := t.setPte p (n % 512) (perm.mapped pa)) ?_ rfl ?_ ?_ rfl
  · rwa [setTable_setTable] at hsame
  · intro a
    rw [at_setLeaf, if_pos hn]
    split
    next he => simp [he, Table.at, hn]
    next => rfl
  · exact (hS.rep d S setTable_self).setLeaf (hS.distinct setTable_self) hp (leafEntry_mapped hperm)
  · intro x hx
    exact setPte_other fun he => hx ⟨0, n / 512, he ▸ hp⟩

theorem unmapPage_spec (doFree : Bool) (h : Good lay G m) (hT : G.table d = some T) (hlt : n < trampVpn + 1)
    (hn : T.leaf n = some e) (hown : doFree = true ↔ ¬ (n = trampVpn ∨ n = tfVpn)) :
    Returns (unmapPage lay d (n * 4096) doFree) m fun _ t => Good lay (G.setTable d (some (T.setLeaf n none))) t := by
  have hrep := h.rep d T hT
  obtain ⟨q, hq, he, hv, hleafy, hwalk⟩ := walk_leaf h hT hn hlt
  have hleaf : e ≠ .table e.ppn := fun heq => by rw [heq] at hleafy; cases hleafy
  rw [Returns, unmapPage, post_run_bind hwalk]
  dsimp only
  rw [readPte, post_read_bind, he, if_neg (by simp [hv]), if_neg hleaf]
  have hzero : LeafEntry Pte.zero none := rfl
  cases doFree with
  | true =>
    have hown' : ¬ (n = trampVpn ∨ n = tfVpn) := hown.mp rfl
    have hat : T.at (.leaf n) = some e.ppn := by simp [Table.at, hown', hn]
    have hplace : At G m (.spot d (.leaf n)) e.ppn := ⟨T, hT, hat⟩
    rw [when, if_pos rfl, kfree_managed (h.part.within _ _ hplace)]
    refine h.take (s := .leaf n) hT hat (R := T.setLeaf n none) ?_ rfl ?_ ?_ rfl
    · intro a
      rw [at_setLeaf]
      simp
    · -- the freed page is no table page, so the table is intact before its entry is cleared
      have hrep' : Represents (m.setPage e.ppn fun _ => Pte.ones).pte T :=
        hrep.frame fun p hp => setPage_other fun heq => h.leaf_not_page hT hat hT (heq ▸ hp)
      exact Represents.setLeaf (m := { m.setPage e.ppn fun _ => Pte.ones with
        free := e.ppn :: m.free }) hrep' (h.distinct hT) hq hzero
    · intro x hxe hx
      have hxq : x ≠ q := fun heq => hx ⟨0, n / 512, heq ▸ hq⟩
      exact (setPte_other hxq).trans (setPage_other hxe)
  | false =>
    have hown' : n = trampVpn ∨ n = tfVpn := by
      by_contra hno
      exact absurd (hown.mpr hno) (by simp)
    rw [when, if_neg (by simp)]
    refine h.same hT (R := T.setLeaf n none) ?_ rfl ?_ ?_ rfl
    · intro a
      rw [at_setLeaf, if_pos hown']
      split
      next heq => simp [heq, Table.at, hown']
      next => rfl
    · exact hrep.setLeaf (h.distinct hT) hq hzero
    · intro x hx
      exact setPte_other fun heq => hx ⟨0, n / 512, heq ▸ hq⟩

def Table.clear (T : Table) (n k : Nat) : Table :=
  { T with leaf := fun i => if n ≤ i ∧ i < n + k then none else T.leaf i }

theorem clear_zero : T.clear n 0 = T := by
  simp only [Table.clear]
  congr
  funext i
  rw [if_neg (by omega)]

theorem clear_succ : (T.clear n k).setLeaf (n + k) none = T.clear n (k + 1) := by
  simp only [Table.clear, Table.setLeaf, Table.mk.injEq, true_and]
  funext i
  by_cases hi : i = n + k
  · rw [if_pos hi, if_pos (by omega)]
  · rw [if_neg hi]
    by_cases hi' : n ≤ i ∧ i < n + k
    · rw [if_pos hi', if_pos (by omega)]
    · rw [if_neg hi', if_neg (by omega)]

theorem clear_next {i : Nat} (hlt : n + k ≤ tfVpn) (hmap : ∀ i, n ≤ i → i < n + k → T.leaf i ≠ none) (hi : i < k) :
    n + i < tfVpn ∧ ∃ e, (T.clear n i).leaf (n + i) = some e := by
  obtain ⟨e, he⟩ := Option.ne_none_iff_exists'.mp (hmap (n + i) (by omega) (by omega))
  refine ⟨by omega, e, ?_⟩
  simp only [Table.clear]
  rw [if_neg (by omega)]
  exact he

end TweakedXv6.Vm

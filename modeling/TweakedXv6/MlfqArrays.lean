import Mathlib.Data.List.Basic
import TweakedXv6.MlfqQueue

namespace TweakedXv6.Mlfq

open Function (update update_self update_apply update_of_ne)

def Queues.list (qs : Queues) (q : Nat) : List Nat := (List.range (qs.size q)).filterMap fun i => qs.at q i

structure Queues.Ok (qs : Queues) : Prop where
  le : ∀ q < 5, qs.size q ≤ NPROC
  live : ∀ q < 5, ∀ i < qs.size q, qs.at q i ≠ none

structure Lists (qs : Queues) (L : Nat → List Nat) : Prop where
  size : ∀ q < 5, qs.size q = (L q).length
  le : ∀ q < 5, (L q).length ≤ NPROC
  entry : ∀ q < 5, ∀ i < (L q).length, qs.at q i = (L q)[i]?

variable {qs : Queues} {L : Nat → List Nat} {pid : Nat → Int} {p q i a m n : Nat}

theorem filterMap_range {f : Nat → Option Nat} {g : Nat → Nat} (h : ∀ i < n, f i = some (g i)) :
    (List.range n).filterMap f = (List.range n).map g := by
  induction n with
  | zero => rfl
  | succ n ih =>
    rw [List.range_succ, List.filterMap_append, List.map_append, ih fun i hi => h i (by omega)]
    simp [h n (by omega)]

theorem Queues.Ok.lists (h : qs.Ok) : Lists qs qs.list := by
  have hlist : ∀ q < 5, qs.list q = (List.range (qs.size q)).map fun i => (qs.at q i).getD 0 := by
    intro q hq
    refine filterMap_range fun i hi => ?_
    obtain ⟨k, hk⟩ := Option.ne_none_iff_exists'.mp (h.live q hq i hi)
    rw [hk]
    rfl
  have hlen : ∀ q < 5, (qs.list q).length = qs.size q := by
    intro q hq
    rw [hlist q hq, List.length_map, List.length_range]
  refine ⟨fun q hq => (hlen q hq).symm, fun q hq => hlen q hq ▸ h.le q hq, fun q hq i hi => ?_⟩
  rw [hlen q hq] at hi
  obtain ⟨k, hk⟩ := Option.ne_none_iff_exists'.mp (h.live q hq i hi)
  rw [hlist q hq, List.getElem?_map, List.getElem?_range hi, hk]
  simp [hk]

theorem Lists.list_eq (h : Lists qs L) (hq : q < 5) : qs.list q = L q := by
  have hget : ∀ i < qs.size q, qs.at q i = some ((L q).getD i 0) := by
    intro i hi
    rw [h.size q hq] at hi
    rw [h.entry q hq i hi, List.getElem?_eq_getElem hi]
    simp [hi]
  rw [Queues.list, filterMap_range hget, h.size q hq]
  refine List.ext_getElem (by simp) fun i hi _ => ?_
  have hi : i < (L q).length := by simpa using hi
  simp [hi]

theorem Lists.ok (h : Lists qs L) : qs.Ok := by
  refine ⟨fun q hq => h.size q hq ▸ h.le q hq, fun q hq i hi => ?_⟩
  rw [h.size q hq] at hi
  rw [h.entry q hq i hi, List.getElem?_eq_getElem hi]
  exact Option.some_ne_none _

theorem Lists.congr {L' : Nat → List Nat} (h : Lists qs L) (he : ∀ q < 5, L' q = L q) : Lists qs L' := by
  refine ⟨fun q hq => ?_, fun q hq => ?_, fun q hq => ?_⟩
  · rw [he q hq]
    exact h.size q hq
  · rw [he q hq]
    exact h.le q hq
  · rw [he q hq]
    exact h.entry q hq

theorem findIndex_range (h : Lists qs L) (hq : q < 5) (ham : a + m = (L q).length) :
    findIndex qs pid p q (List.range' a m) = some ((((L q).drop a).findIdx? fun k => pid k = pid p).map (· + a)) := by
  induction m generalizing a with
  | zero =>
    have hdrop : (L q).drop a = [] := List.drop_eq_nil_of_le (by omega)
    rw [hdrop]
    rfl
  | succ m ih =>
    have ha : a < (L q).length := by omega
    have hslot : qs.at q a = some (L q)[a] := by rw [h.entry q hq a ha, List.getElem?_eq_getElem ha]
    rw [List.range'_succ, findIndex, hslot, List.drop_eq_getElem_cons ha, List.findIdx?_cons]
    by_cases hpid : pid (L q)[a] = pid p
    · simp [hpid]
    · simp only [hpid, if_false, decide_false, Bool.false_eq_true]
      rw [ih (by omega), Option.map_map]
      congr 2
      funext x
      simp only [Function.comp]
      omega

theorem findIndex_eq (h : Lists qs L) (hq : q < 5) :
    findIndex qs pid p q (List.range (qs.size q)) = some ((L q).findIdx? fun k => pid k = pid p) := by
  rw [h.size q hq, List.range_eq_range', findIndex_range h hq (Nat.zero_add _)]
  simp

theorem close_slot : (qs.close q i).slot a =
    if q * NPROC + i ≤ a ∧ a < q * NPROC + qs.size q then qs.slot (a + 1) else qs.slot a := rfl

theorem Lists.close (h : Lists qs L) (hq : q < 5) (hi : i < (L q).length) :
    Lists (qs.close q i) (update L q ((L q).eraseIdx i)) := by
  have hlen : ((L q).eraseIdx i).length = (L q).length - 1 := List.length_eraseIdx_of_lt hi
  have hsize := h.size q hq
  have hle := h.le q hq
  refine ⟨fun r hr => ?_, fun r hr => ?_, fun r hr k hk => ?_⟩
  · by_cases hrq : r = q
    · subst hrq
      simp [Queues.close, hsize, hlen]
    · simpa [Queues.close, hrq] using h.size r hr
  · by_cases hrq : r = q
    · subst hrq
      rw [update_self]
      omega
    · rw [update_of_ne hrq]
      exact h.le r hr
  · by_cases hrq : r = q
    · subst hrq
      rw [update_self] at hk ⊢
      rw [List.getElem?_eraseIdx]
      split
      next hki =>
        rw [← h.entry r hr k (by omega)]
        rw [Queues.at, close_slot, if_neg (by omega), Queues.at]
      next hki =>
        rw [← h.entry r hr (k + 1) (by omega)]
        rw [Queues.at, close_slot, if_pos (by omega), Queues.at, Nat.add_assoc]
    · rw [update_of_ne hrq] at hk ⊢
      rw [← h.entry r hr k hk]
      have hrow := h.le r hr
      have hne : ¬ (q * NPROC + i ≤ r * NPROC + k ∧ r * NPROC + k < q * NPROC + qs.size q) := by
        simp only [NPROC] at hrow hle ⊢
        omega
      rw [Queues.at, close_slot, if_neg hne, Queues.at]

theorem remove_absent (h : Lists qs L) (hq : q < 5) (hno : (L q).findIdx? (fun k => pid k = pid p) = none) :
    removeFromQueue qs pid p q = some (qs, 0) := by
  unfold removeFromQueue
  rw [findIndex_eq h hq, hno]
  exact ite_self _

theorem remove_found (h : Lists qs L) (hq : q < 5) (hi : (L q).findIdx? (fun k => pid k = pid p) = some i) :
    removeFromQueue qs pid p q = some (qs.close q i, 1) := by
  obtain ⟨hlt, _⟩ := List.findIdx?_eq_some_iff_getElem.mp hi
  have hsize := h.size q hq
  unfold removeFromQueue
  rw [findIndex_eq h hq, hi, if_neg (by omega)]

theorem remove_lists (pid : Nat → Int) (p : Nat) (h : Lists qs L) (hq : q < 5) :
    ∃ r, removeFromQueue qs pid p q = some r ∧ Lists r.1 (update L q ((L q).eraseP fun k => pid k = pid p)) := by
  cases hi : (L q).findIdx? fun k => pid k = pid p with
  | none =>
    refine ⟨_, remove_absent h hq hi, ?_⟩
    rw [List.eraseP_eq_eraseIdx, hi]
    exact h.congr fun r _ => by
      by_cases hr : r = q
      · rw [hr, update_self]
      · rw [update_of_ne hr]
  | some i =>
    obtain ⟨hlt, _⟩ := List.findIdx?_eq_some_iff_getElem.mp hi
    refine ⟨_, remove_found h hq hi, ?_⟩
    rw [List.eraseP_eq_eraseIdx, hi]
    exact h.close hq hlt

theorem Lists.append (h : Lists qs L) (hq : q < 5) (hlt : (L q).length < NPROC) (p : Nat) :
    Lists (qs.append p q) (update L q (L q ++ [p])) := by
  have hsize := h.size q hq
  have hneg : ¬ ((q : Int) < 0) := by omega
  have hslot : ∀ a, (qs.append p q).slot a = if a = q * NPROC + qs.size q then some p else qs.slot a := by
    intro a
    simp [Queues.append, hneg, update_apply]
  refine ⟨fun r hr => ?_, fun r hr => ?_, fun r hr k hk => ?_⟩
  · by_cases hrq : r = q
    · subst hrq
      simp [Queues.append, hneg, hsize]
    · simpa [Queues.append, hneg, hrq] using h.size r hr
  · by_cases hrq : r = q
    · subst hrq
      rw [update_self, List.length_append]
      exact hlt
    · rw [update_of_ne hrq]
      exact h.le r hr
  · by_cases hrq : r = q
    · subst hrq
      rw [update_self] at hk ⊢
      rw [Queues.at, hslot]
      by_cases hkl : k = (L r).length
      · rw [if_pos (by omega), hkl]
        simp
      · have hk' : k < (L r).length := by
          rw [List.length_append, List.length_singleton] at hk
          omega
        rw [if_neg (by omega), List.getElem?_append_left hk']
        exact h.entry r hr k hk'
    · rw [update_of_ne hrq] at hk ⊢
      have hrow := h.le r hr
      have hne : r * NPROC + k ≠ q * NPROC + qs.size q := by
        simp only [NPROC] at hrow hlt ⊢
        omega
      rw [Queues.at, hslot, if_neg hne]
      exact h.entry r hr k hk

end TweakedXv6.Mlfq

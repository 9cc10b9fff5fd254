import Mathlib.Logic.Function.Basic

namespace TweakedXv6.RedoLog

open Function (update update_self update_of_ne)

variable {ι β : Type} [DecidableEq ι]

/-- Where a redo log keeps its entries, and which addresses it may be asked to write. -/
structure Layout (ι : Type) where
  slot : Nat → ι
  cap : Nat
  home : ι → Prop
  slot_not_home : ∀ i, i < cap → ¬ home (slot i)

/-- The contents after a list of writes. -/
def replay (d : ι → β) (us : List (ι × β)) : ι → β :=
  us.foldl (fun d u => update d u.1 u.2) d

theorem replay_append (d : ι → β) (us vs : List (ι × β)) : replay d (us ++ vs) = replay (replay d us) vs :=
  List.foldl_append ..

theorem replay_of_not_mem {us : List (ι × β)} {d : ι → β} {a : ι} (h : ∀ u ∈ us, u.1 ≠ a) : replay d us a = d a := by
  induction us generalizing d with
  | nil => rfl
  | cons u us ih =>
    have hu := h u List.mem_cons_self
    calc replay d (u :: us) a = update d u.1 u.2 a :=
          ih fun v hv => h v (List.mem_cons_of_mem u hv)
      _ = d a := update_of_ne hu.symm ..

variable {lay : Layout ι} {R d : ι → β} {L : List ι} {a b : ι} {i k : Nat}

/-- Copy entry `i` of the log to the address that the header `L` gives for it. -/
def installAt (lay : Layout ι) (L : List ι) (d : ι → β) (i : Nat) : ι → β :=
  match L[i]? with
  | some a => update d a (d (lay.slot i))
  | none => d

def install (lay : Layout ι) (L : List ι) (d : ι → β) : ι → β :=
  (List.range L.length).foldl (installAt lay L) d

/-- The contents `R` can be had from `d`: at the addresses in the header from the log, elsewhere from `d`
itself. -/
structure Logged (lay : Layout ι) (R d : ι → β) (L : List ι) : Prop where
  fits : L.length ≤ lay.cap
  home : ∀ a ∈ L, lay.home a
  log : ∀ i a, L[i]? = some a → d (lay.slot i) = R a
  rest : ∀ a, lay.home a → a ∉ L → d a = R a

def Installed (R d : ι → β) (L : List ι) (k : Nat) : Prop :=
  ∀ i a, i < k → L[i]? = some a → d a = R a

omit [DecidableEq ι] in
theorem Logged.of_eq (h : ∀ a, lay.home a → d a = R a) : Logged lay R d [] where
  fits := Nat.zero_le _
  home a ha := by simp at ha
  log i a hi := by simp at hi
  rest a ha _ := h a ha

theorem Logged.installAt (h : Logged lay R d L) (ha : L[k]? = some a) :
    Logged lay R (update d a (d (lay.slot k))) L := by
  have hmem : a ∈ L := List.mem_of_getElem? ha
  constructor
  case fits => exact h.fits
  case home => exact h.home
  case log =>
    intro i b hb
    have hi : i < lay.cap := Nat.lt_of_lt_of_le (List.getElem?_eq_some_iff.mp hb).1 h.fits
    have hne : lay.slot i ≠ a := fun he => lay.slot_not_home i hi (he ▸ h.home a hmem)
    rw [update_of_ne hne]
    exact h.log i b hb
  case rest =>
    intro b hb hnot
    have hne : b ≠ a := fun he => hnot (he ▸ hmem)
    rw [update_of_ne hne]
    exact h.rest b hb hnot

theorem Installed.installAt (h : Installed R d L k) (hl : Logged lay R d L) (ha : L[k]? = some a) :
    Installed R (update d a (d (lay.slot k))) L (k + 1) := by
  intro i b hi hb
  by_cases hba : b = a
  · subst hba
    rw [update_self]
    exact hl.log k b ha
  · rw [update_of_ne hba]
    have hik : i ≠ k := fun he => hba (Option.some.inj ((he ▸ hb).symm.trans ha))
    exact h i b (by omega) hb

theorem Logged.done (h : Logged lay R d L) (hk : Installed R d L L.length) (ha : lay.home a) : d a = R a := by
  by_cases hmem : a ∈ L
  · obtain ⟨i, hi, rfl⟩ := List.getElem_of_mem hmem
    exact hk i _ hi (List.getElem?_eq_getElem hi)
  · exact h.rest a ha hmem

theorem Logged.foldl (h : Logged lay R d L) {n : Nat} (hn : n ≤ L.length) :
    Logged lay R ((List.range n).foldl (RedoLog.installAt lay L) d) L ∧
      Installed R ((List.range n).foldl (RedoLog.installAt lay L) d) L n := by
  induction n with
  | zero => exact ⟨h, fun i a hi => absurd hi (Nat.not_lt_zero i)⟩
  | succ n ih =>
    obtain ⟨hl, hi⟩ := ih (by omega)
    have hat : L[n]? = some L[n] := List.getElem?_eq_getElem (by omega)
    rw [List.range_succ, List.foldl_append, List.foldl_cons, List.foldl_nil, RedoLog.installAt, hat]
    exact ⟨hl.installAt hat, hi.installAt hl hat⟩

theorem Logged.install (h : Logged lay R d L) (ha : lay.home a) : RedoLog.install lay L d a = R a :=
  (h.foldl (Nat.le_refl _)).1.done (h.foldl (Nat.le_refl _)).2 ha

end TweakedXv6.RedoLog

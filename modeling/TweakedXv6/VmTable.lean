import Mathlib.Logic.Function.Basic
import TweakedXv6.VmModel

namespace TweakedXv6.Vm

/-- The tables of a level are numbered by the bits of the virtual page number above it: slot `j` of table
`a` leads to table `512 * a + j` of the level below. -/
structure Table where
  root : Nat
  node : Nat → Nat → Option Nat
  leaf : Nat → Option Pte

def Entry (e : Pte) : Option Nat → Prop
  | none => e.v = false
  | some q => e = .table q

def LeafEntry (e : Pte) : Option Pte → Prop
  | none => e.v = false
  | some f => e = f ∧ f.v = true ∧ (f.r || f.w || f.x) = true

structure Represents (pte : Nat → Nat → Pte) (T : Table) : Prop where
  top : T.node 2 0 = some T.root
  single : ∀ a, T.node 2 a ≠ none → a = 0
  high : ∀ l a, 2 < l → T.node l a = none
  inner : ∀ l a q, T.node (l + 1) a = some q → ∀ j < 512, Entry (pte q j) (T.node l (512 * a + j))
  bottom : ∀ a q, T.node 0 a = some q → ∀ k < 512, LeafEntry (pte q k) (T.leaf (512 * a + k))
  parent : ∀ l b, l < 2 → T.node l b ≠ none → T.node (l + 1) (b / 512) ≠ none
  leaf_parent : ∀ n, T.leaf n ≠ none → T.node 0 (n / 512) ≠ none

def trampVpn : Nat := 67108863

def tfVpn : Nat := 67108862

inductive Spot
  | node (l a : Nat)
  | leaf (n : Nat)
  deriving DecidableEq

def Table.at (T : Table) : Spot → Option Nat
  | .node l a => T.node l a
  | .leaf n => if n = trampVpn ∨ n = tfVpn then none else (T.leaf n).map Pte.ppn

def Table.Page (T : Table) (q : Nat) : Prop := ∃ l a, T.node l a = some q

def Table.Distinct (T : Table) : Prop :=
  ∀ a b q, T.at a = some q → T.at b = some q → a = b

def Table.setNode (T : Table) (l b : Nat) (o : Option Nat) : Table :=
  { T with node := fun l' b' => if l' = l ∧ b' = b then o else T.node l' b' }

def Table.setLeaf (T : Table) (n : Nat) (o : Option Pte) : Table :=
  { T with leaf := fun n' => if n' = n then o else T.leaf n' }

def Table.Childless (T : Table) : Nat → Nat → Prop
  | 0, b => ∀ k < 512, T.leaf (512 * b + k) = none
  | l + 1, b => ∀ j < 512, T.node l (512 * b + j) = none

variable {pte pte' : Nat → Nat → Pte} {T : Table} {q q' i n l a b : Nat} {e : Pte} {o : Option Pte} {m : Mem}
  {c : Nat → Pte}

theorem page_lt (h : n < trampVpn + 1) : n * 4096 < MAXVA := by
  unfold trampVpn at h
  unfold MAXVA
  omega

theorem user_lt_tramp (h : n < tfVpn) : n < trampVpn + 1 := by
  unfold tfVpn at h
  unfold trampVpn
  omega

theorem kernel_lt_tramp (h : n = trampVpn ∨ n = tfVpn) : n < trampVpn + 1 := by
  unfold trampVpn tfVpn at *
  omega

theorem user_not_kernel (h : n < tfVpn) : ¬ (n = trampVpn ∨ n = tfVpn) := by
  unfold tfVpn at h ⊢
  unfold trampVpn
  omega

theorem Table.at_user (hn : n < tfVpn) (he : T.leaf n = some e) : T.at (.leaf n) = some e.ppn := by
  simp [Table.at, user_not_kernel hn, he]

@[simp]
theorem setLeaf_node : (T.setLeaf n o).node = T.node := rfl

@[simp]
theorem setLeaf_root : (T.setLeaf n o).root = T.root := rfl

@[simp]
theorem setLeaf_self : (T.setLeaf n o).leaf n = o := by simp [Table.setLeaf]

theorem setLeaf_other (h : i ≠ n) : (T.setLeaf n o).leaf i = T.leaf i := by
  simp [Table.setLeaf, h]

@[simp]
theorem setNode_root {o : Option Nat} : (T.setNode l b o).root = T.root := rfl

@[simp]
theorem setNode_leaf {o : Option Nat} : (T.setNode l b o).leaf = T.leaf := rfl

@[simp]
theorem setNode_self {o : Option Nat} : (T.setNode l b o).node l b = o := by simp [Table.setNode]

theorem setNode_other {o : Option Nat} (h : ¬ (i = l ∧ a = b)) : (T.setNode l b o).node i a = T.node i a := by
  simp [Table.setNode, h]

@[simp]
theorem setPage_self : (m.setPage q c).pte q = c := by simp [Mem.setPage]

theorem setPage_other (h : q' ≠ q) : (m.setPage q c).pte q' = m.pte q' := by
  simp [Mem.setPage, h]

@[simp]
theorem setPte_self : (m.setPte q i e).pte q i = e := by simp [Mem.setPte]

theorem setPte_index {j : Nat} (h : j ≠ i) : (m.setPte q i e).pte q j = m.pte q j := by
  simp [Mem.setPte, h]

theorem setPte_other (h : q' ≠ q) : (m.setPte q i e).pte q' = m.pte q' := setPage_other h

@[simp]
theorem setPage_free : (m.setPage q c).free = m.free := rfl

@[simp]
theorem setPte_free : (m.setPte q i e).free = m.free := rfl

theorem Represents.frame (h : Represents pte T) (hkeep : ∀ q, T.Page q → pte' q = pte q) : Represents pte' T := by
  refine { h with inner := fun l a q hq j hj => ?_, bottom := fun a q hq k hk => ?_ }
  · rw [hkeep q ⟨l + 1, a, hq⟩]
    exact h.inner l a q hq j hj
  · rw [hkeep q ⟨0, a, hq⟩]
    exact h.bottom a q hq k hk

theorem Table.Distinct.node_inj (hd : T.Distinct) {l' a' : Nat} (h : T.node l a = some q)
    (h' : T.node l' a' = some q) : l = l' ∧ a = a' := by
  cases hd (.node l a) (.node l' a') q h h'
  exact ⟨rfl, rfl⟩

theorem Represents.setLeaf (h : Represents m.pte T) (hd : T.Distinct) (hq : T.node 0 (n / 512) = some q)
    (he : LeafEntry e o) : Represents (m.setPte q (n % 512) e).pte (T.setLeaf n o) := by
  refine { h with inner := fun l a p hp j hj => ?_, bottom := fun a p hp k hk => ?_, leaf_parent := ?_ }
  · have hne : p ≠ q := by
      rintro rfl
      have := (hd.node_inj hp hq).1
      omega
    rw [setPte_other hne]
    exact h.inner l a p hp j hj
  · rw [setLeaf_node] at hp
    by_cases hpq : p = q
    · subst hpq
      have ha := (hd.node_inj hp hq).2
      by_cases hkn : k = n % 512
      · have hn : 512 * a + k = n := by omega
        rw [hkn, setPte_self, ← hkn, hn, setLeaf_self]
        exact he
      · have hne : 512 * a + k ≠ n := by omega
        rw [setPte_index hkn, setLeaf_other hne]
        exact h.bottom a p hp k hk
    · have hne : 512 * a + k ≠ n := by
        intro hn
        have : a = n / 512 := by omega
        exact hpq (Option.some.inj (hp.symm.trans (this ▸ hq)))
      rw [setPte_other hpq, setLeaf_other hne]
      exact h.bottom a p hp k hk
  · intro a ha
    by_cases han : a = n
    · simp [han, hq]
    · exact h.leaf_parent a (by simpa [setLeaf_other han] using ha)

theorem Represents.setNode {o : Option Nat} (h : Represents pte T) (hd : T.Distinct) (hl : l < 2)
    (hq : T.node (l + 1) (b / 512) = some q) (hkeep : ∀ p, T.Page p → p ≠ q → T.node l b ≠ some p → pte' p = pte p)
    (hent : Entry (pte' q (b % 512)) o) (hsame : ∀ j, j ≠ b % 512 → pte' q j = pte q j) (hchild : T.Childless l b)
    (hnew : ∀ q', o = some q' → ∀ k, (pte' q' k).v = false) : Represents pte' (T.setNode l b o) := by
  -- the parent is one level up, so it is not the node that changes
  have hkeep' : ∀ l' a p, T.node l' a = some p → p ≠ q → ¬ (l' = l ∧ a = b) → pte' p = pte p := by
    intro l' a p hp hpq hne
    refine hkeep p ⟨l', a, hp⟩ hpq fun hb => hne ?_
    exact hd.node_inj hp hb
  constructor
  case top =>
    rw [setNode_other (by omega)]
    exact h.top
  case single =>
    intro a ha
    rw [setNode_other (by omega)] at ha
    exact h.single a ha
  case high =>
    intro l' a hl'
    rw [setNode_other (by omega)]
    exact h.high l' a hl'
  case inner =>
    intro l' a p hp j hj
    by_cases hlb : l' + 1 = l ∧ a = b
    · -- the entries of the new table
      obtain ⟨rfl, rfl⟩ := hlb
      rw [setNode_self] at hp
      rw [setNode_other (by omega), show T.node l' (512 * a + j) = none from hchild j hj]
      exact hnew p hp j
    · rw [setNode_other hlb] at hp
      by_cases hpq : p = q
      · subst hpq
        obtain ⟨hl1, ha⟩ := hd.node_inj hp hq
        have hll : l' = l := by omega
        subst hll
        by_cases hjb : j = b % 512
        · have hb : 512 * a + j = b := by omega
          rw [hb, setNode_self, hjb]
          exact hent
        · have hb : ¬ (l' = l' ∧ 512 * a + j = b) := by omega
          rw [setNode_other hb, hsame j hjb]
          exact h.inner l' a p hp j hj
      · have hb : ¬ (l' = l ∧ 512 * a + j = b) := by
          rintro ⟨rfl, rfl⟩
          rw [show (512 * a + j) / 512 = a by omega] at hq
          exact hpq (Option.some.inj (hp.symm.trans hq))
        rw [setNode_other hb, hkeep' _ _ p hp hpq hlb]
        exact h.inner l' a p hp j hj
  case bottom =>
    intro a p hp k hk
    by_cases hlb : 0 = l ∧ a = b
    · obtain ⟨rfl, rfl⟩ := hlb
      rw [setNode_self] at hp
      rw [setNode_leaf, show T.leaf (512 * a + k) = none from hchild k hk]
      exact hnew p hp k
    · rw [setNode_other hlb] at hp
      have hpq : p ≠ q := by
        rintro rfl
        have := (hd.node_inj hp hq).1
        omega
      rw [hkeep' _ _ p hp hpq hlb]
      exact h.bottom a p hp k hk
  case parent =>
    intro l' a hl' ha
    have hpar : T.node l' a ≠ none ∨ l' = l ∧ a = b := by
      by_cases hlb : l' = l ∧ a = b
      · exact .inr hlb
      · exact .inl (by simpa [setNode_other hlb] using ha)
    rcases hpar with hpar | ⟨rfl, rfl⟩
    · by_cases hup : l' + 1 = l ∧ a / 512 = b
      · -- a child of the node that changes: there is none
        obtain ⟨rfl, rfl⟩ := hup
        have := hchild (a % 512) (Nat.mod_lt _ (by decide))
        rw [show 512 * (a / 512) + a % 512 = a by omega] at this
        exact absurd this hpar
      · rw [setNode_other hup]
        exact h.parent l' a hl' hpar
    · rw [setNode_other (by omega), hq]
      simp
  case leaf_parent =>
    intro a ha
    by_cases hup : 0 = l ∧ a / 512 = b
    · obtain ⟨rfl, rfl⟩ := hup
      have := hchild (a % 512) (Nat.mod_lt _ (by decide))
      rw [show 512 * (a / 512) + a % 512 = a by omega] at this
      exact absurd this ha
    · rw [setNode_other hup]
      exact h.leaf_parent a ha

theorem Represents.childless_of_none (h : Represents pte T) (hl : l < 2) (hn : T.node l b = none) :
    T.Childless l b := by
  cases l with
  | zero =>
    intro k hk
    by_contra hne
    have := h.leaf_parent _ hne
    rw [show (512 * b + k) / 512 = b by omega] at this
    exact this hn
  | succ l =>
    intro j hj
    by_contra hne
    have := h.parent l _ (by omega) hne
    rw [show (512 * b + j) / 512 = b by omega] at this
    exact this hn

theorem Represents.link (h : Represents m.pte T) (hd : T.Distinct) (hl : l < 2)
    (hq : T.node (l + 1) (b / 512) = some q) (hn : T.node l b = none) (hfresh : ¬ T.Page q') :
    Represents ((m.setPage q' fun _ => .zero).setPte q (b % 512) (.table q')).pte (T.setNode l b (some q')) := by
  have hqq : q ≠ q' := fun he => hfresh ⟨l + 1, b / 512, he ▸ hq⟩
  refine h.setNode hd hl hq ?_ ?_ ?_ (h.childless_of_none hl hn) ?_
  · intro p hp hpq _
    have hne : p ≠ q' := fun he => hfresh (he ▸ hp)
    rw [setPte_other hpq, setPage_other hne]
  · rw [setPte_self]
    exact rfl
  · intro j hj
    rw [setPte_index hj, setPage_other hqq]
  · intro p hp k
    cases hp
    rw [setPte_other hqq.symm, setPage_self]
    rfl

end TweakedXv6.Vm

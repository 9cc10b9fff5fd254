import Mathlib.Tactic.Common
import Mathlib.Data.List.Perm.Subperm
import TweakedXv6.Circle
import TweakedXv6.MallocModel

namespace TweakedXv6.Malloc

def State.covers (s : State) (l : List Nat) (x : Nat) : Prop := ∃ a ∈ l, a ≤ x ∧ x < s.stop a

def State.apart (s : State) (a b : Nat) : Prop := s.stop a ≤ b ∨ s.stop b ≤ a

/-- The free list leads through `base` and the blocks `L` in the order of their addresses, with room
between them, and apart from the other blocks `D`. -/
structure Inv (s : State) (L D : List Nat) : Prop where
  circle : Circle s.ptr s.base L
  order : (s.base :: L).Pairwise fun a b => s.stop a < b
  base0 : s.size s.base = 0
  pos : ∀ a ∈ L, 0 < s.size a
  bound : ∀ a ∈ s.base :: L, s.stop a ≤ s.brk
  block : ∀ d ∈ D, s.base < d ∧ 0 < s.size d ∧ s.stop d ≤ s.brk
  apart : ∀ a ∈ s.base :: L, ∀ d ∈ D, s.apart a d
  apartD : D.Pairwise s.apart
  low : s.base < s.brk
  small : s.brk ≤ 68719476720

variable {s t : State} {L D l₁ l₂ m D₀ r : List Nat} {a b p q bp x n f k fuel : Nat}

@[simp] theorem setPtr_ptr : (s.setPtr p n).ptr a = if a = p then n else s.ptr a := by
  by_cases h : a = p <;> simp [State.setPtr, State.ptr, h]

@[simp] theorem setPtr_size : (s.setPtr p n).size a = s.size a := by
  by_cases h : a = p <;> simp [State.setPtr, State.size, h]

@[simp] theorem setSize_size : (s.setSize p n).size a = if a = p then n else s.size a := by
  by_cases h : a = p <;> simp [State.setSize, State.size, h]

@[simp] theorem setSize_ptr : (s.setSize p n).ptr a = s.ptr a := by
  by_cases h : a = p <;> simp [State.setSize, State.ptr, h]

@[simp] theorem setPtr_stop : (s.setPtr p n).stop a = s.stop a := by simp [State.stop]

theorem setSize_stop (h : a ≠ p) : (s.setSize p n).stop a = s.stop a := by simp [State.stop, h]

theorem le_stop : a ≤ s.stop a := by
  unfold State.stop
  omega

theorem lt_stop (h : 0 < s.size a) : a < s.stop a := by
  unfold State.stop unit
  omega

theorem lt_of_stop_lt (h : s.stop a < b) : a < b := Nat.lt_of_le_of_lt le_stop h

theorem Inv.stop_base (h : Inv s L D) : s.stop s.base = s.base := by
  unfold State.stop
  rw [h.base0]
  omega

theorem Inv.base_lt (h : Inv s L D) (ha : a ∈ L) : s.base < a := by
  have := (List.pairwise_cons.mp h.order).1 a ha
  rwa [h.stop_base] at this

theorem Inv.not_free (h : Inv s L D) (hd : b ∈ D) : b ∉ s.base :: L := by
  intro hmem
  have hpos := lt_stop (h.block b hd).2.1
  rcases h.apart b hmem b hd with hc | hc <;> omega

theorem Inv.nodup (h : Inv s L D) : (s.base :: L).Nodup := by
  refine h.order.imp ?_
  intro a b hab he
  subst he
  have := le_stop (s := s) (a := a)
  omega

theorem Inv.lt_brk (h : Inv s L D) (ha : a ∈ s.base :: L) : a < s.brk := by
  rcases List.mem_cons.mp ha with rfl | hL
  · exact h.low
  · exact (lt_stop (h.pos a hL)).trans_le (h.bound a ha)

theorem Inv.block_lt (h : Inv s L D) (hd : b ∈ D) : b < s.brk :=
  (lt_stop (h.block b hd).2.1).trans_le (h.block b hd).2.2

theorem Inv.cut (h : Inv s L D) (he : s.base :: L = l₁ ++ p :: l₂) :
    (∀ a ∈ l₁, s.stop a < p) ∧ (∀ a ∈ l₂, s.stop p < a) ∧ l₂.Pairwise fun a b => s.stop a < b := by
  have hord := h.order
  rw [he, List.pairwise_append] at hord
  obtain ⟨_, hord₂, hcross⟩ := hord
  exact ⟨fun a ha => hcross a ha p List.mem_cons_self, List.pairwise_cons.mp hord₂⟩

theorem Inv.length_lt (h : Inv s L D) : L.length < s.brk := by
  have hsub : s.base :: L ⊆ List.range s.brk := fun a ha => List.mem_range.mpr (h.lt_brk ha)
  have := (List.subperm_of_subset h.nodup hsub).length_le
  rw [List.length_range, List.length_cons] at this
  omega

theorem exists_cut {c : Nat} (hc : c < bp) (hs : (c :: L).Pairwise (· < ·)) (hn : bp ∉ L) :
    ∃ l₁ p l₂, c :: L = l₁ ++ p :: l₂ ∧ p < bp ∧ ∀ q ∈ l₂, bp < q := by
  induction L generalizing c with
  | nil => exact ⟨[], c, [], rfl, hc, by simp⟩
  | cons a L ih =>
    have hs' := (List.pairwise_cons.mp hs).2
    rcases Nat.lt_trichotomy a bp with hlt | rfl | hgt
    · obtain ⟨l₁, p, l₂, he, hp, hq⟩ := ih hlt hs' (fun hmem => hn (List.mem_cons_of_mem a hmem))
      exact ⟨c :: l₁, p, l₂, by rw [he, List.cons_append], hp, hq⟩
    · exact absurd List.mem_cons_self hn
    · refine ⟨[], c, a :: L, rfl, hc, fun q hq => ?_⟩
      rcases List.mem_cons.mp hq with rfl | hq
      · exact hgt
      · exact hgt.trans ((List.pairwise_cons.mp hs').1 q hq)

theorem Inv.increasing (h : Inv s L D) : (s.base :: L).Pairwise (· < ·) := by
  exact h.order.imp lt_of_stop_lt

theorem Inv.next_of_cut (h : Inv s L D) (he : s.base :: L = l₁ ++ p :: l₂) :
    l₂ = [] ∧ s.ptr p = s.base ∨ ∃ q l₃, l₂ = q :: l₃ ∧ s.ptr p = q ∧ s.stop p < q := by
  have hn := h.circle.next_eq he
  cases l₂ with
  | nil => exact .inl ⟨rfl, (Option.some.inj hn).symm⟩
  | cons q l₃ => exact .inr ⟨q, l₃, rfl, (Option.some.inj hn).symm, (h.cut he).2.1 q List.mem_cons_self⟩

theorem Inv.stops_iff (h : Inv s L D) (hbp : s.base < bp) (he : s.base :: L = l₁ ++ p :: l₂) :
    s.stops bp p = true ↔ p < bp ∧ ∀ q ∈ l₂, bp < q := by
  simp only [State.stops, decide_eq_true_eq]
  rcases h.next_of_cut he with ⟨rfl, hptr⟩ | ⟨q, l₃, rfl, hptr, hpq⟩
  · have hle : s.base ≤ p := by
      have hp : p ∈ s.base :: L := by simp [he]
      rcases List.mem_cons.mp hp with rfl | hp
      · exact Nat.le_refl _
      · exact (h.base_lt hp).le
    rw [hptr]
    simp only [List.not_mem_nil, false_implies, implies_true, and_true]
    omega
  · have hlt := lt_of_stop_lt hpq
    have hord := (List.pairwise_cons.mp (h.cut he).2.2).1
    rw [hptr]
    constructor
    · intro hc
      refine ⟨by omega, fun x hx => ?_⟩
      rcases List.mem_cons.mp hx with rfl | hx
      · omega
      · have := lt_of_stop_lt (hord x hx)
        omega
    · rintro ⟨hp, hall'⟩
      have := hall' q List.mem_cons_self
      omega

theorem freeSearch_some (fuel : Nat) (hk : s.stops bp (s.ptr^[k] p) = true) (hfuel : k < fuel) :
    ∃ j, freeSearch s bp fuel p = some (s.ptr^[j] p) ∧ s.stops bp (s.ptr^[j] p) = true := by
  induction fuel generalizing p k with
  | zero => exact absurd hfuel (Nat.not_lt_zero k)
  | succ fuel ih =>
    rw [freeSearch]
    split
    next hp => exact ⟨0, rfl, hp⟩
    next hp =>
      cases k with
      | zero => exact absurd hk hp
      | succ k =>
        obtain ⟨j, hj, hs⟩ := ih (p := s.ptr p) (k := k) hk (by omega)
        exact ⟨j + 1, hj, hs⟩

theorem Inv.search (h : Inv s L D) (hbp : bp ∈ D) (hf : f ∈ s.base :: L) :
    ∃ l₁ p l₂, freeSearch s bp (s.brk + 1) f = some p ∧ s.base :: L = l₁ ++ p :: l₂ ∧ p < bp ∧ ∀ q ∈ l₂, bp < q := by
  obtain ⟨hb, _, _⟩ := h.block bp hbp
  have hnot : bp ∉ L := fun hmem => h.not_free hbp (List.mem_cons_of_mem _ hmem)
  obtain ⟨l₁, p, l₂, he, hp⟩ := exists_cut hb h.increasing hnot
  have hstop := (h.stops_iff hb he).mpr hp
  obtain ⟨k, hk, hkp⟩ := h.circle.reach hf (show p ∈ s.base :: L by simp [he])
  have hlen := h.length_lt
  obtain ⟨j, hj, hs⟩ := freeSearch_some (s.brk + 1)
    (show s.stops bp (s.ptr^[k] f) = true by rwa [hkp]) (by omega)
  obtain ⟨m₁, m₂, hm⟩ := List.append_of_mem (h.circle.iterate_mem hf j)
  exact ⟨m₁, _, m₂, hj, hm, (h.stops_iff hb hm).mp hs⟩

/-- Block `bp` stands before the blocks `m` of the free list, when `free` has joined it with the one
after it. -/
structure Joined (s t : State) (bp : Nat) (l₂ m D : List Nat) : Prop where
  mem : ∀ a, a ≠ bp → t.mem a = s.mem a
  same : t.base = s.base ∧ t.brk = s.brk ∧ t.freep = s.freep ∧ t.heap = s.heap ∧ t.live = s.live
  sub : m <:+ l₂
  links : (bp :: (m ++ [s.base])).IsChain fun a b => t.ptr a = b
  order : ∀ q ∈ m, t.stop bp < q
  size : s.size bp ≤ t.size bp
  bound : t.stop bp ≤ s.brk
  apart : ∀ d ∈ D, t.stop bp ≤ d ∨ s.stop d ≤ bp
  covers : ∀ x, bp ≤ x ∧ x < t.stop bp ∨ s.covers m x ↔ bp ≤ x ∧ x < s.stop bp ∨ s.covers l₂ x

theorem ptr_congr (h : t.mem a = s.mem a) : t.ptr a = s.ptr a := by rw [State.ptr, h, State.ptr]

theorem size_congr (h : t.mem a = s.mem a) : t.size a = s.size a := by rw [State.size, h, State.size]

theorem stop_congr (h : t.mem a = s.mem a) : t.stop a = s.stop a := by rw [State.stop, size_congr h, State.stop]

theorem covers_congr (h : ∀ a ∈ m, t.stop a = s.stop a) : t.covers m x ↔ s.covers m x := by
  unfold State.covers
  refine exists_congr fun a => and_congr_right fun ha => ?_
  rw [h a ha]

theorem covers_cons : s.covers (a :: m) x ↔ a ≤ x ∧ x < s.stop a ∨ s.covers m x := by
  simp [State.covers]

theorem covers_append : s.covers (l₁ ++ m) x ↔ s.covers l₁ x ∨ s.covers m x := by
  simp [State.covers, or_and_right, exists_or]

theorem setPtr_mem (h : a ≠ p) : (s.setPtr p n).mem a = s.mem a := by simp [State.setPtr, h]

theorem setSize_mem (h : a ≠ p) : (s.setSize p n).mem a = s.mem a := by simp [State.setSize, h]

theorem uint_eq (h : n < 4294967296) : uint n = n := Nat.mod_eq_of_lt h

theorem joinNext_spec (h : Inv s L (bp :: D)) (he : s.base :: L = l₁ ++ p :: l₂)
    (hl₂ : ∀ q ∈ l₂, bp < q) : ∃ m, Joined s (joinNext s bp p) bp l₂ m D := by
  obtain ⟨hb, hpos, hbound⟩ := h.block bp List.mem_cons_self
  have hmem : ∀ q ∈ l₂, q ∈ s.base :: L := fun q hq => by simp [he, hq]
  have hnot : ∀ q ∈ l₂, q ≠ bp := fun q hq hqb => by
    have := hl₂ q hq
    omega
  have hstop := lt_stop hpos
  have hafter : ∀ q ∈ l₂, s.stop bp ≤ q := by
    intro q hq
    have := hl₂ q hq
    have hle := le_stop (s := s) (a := q)
    rcases h.apart q (hmem q hq) bp List.mem_cons_self with hc | hc
    · omega
    · exact hc
  have hlinks := (h.circle.cut he).2
  have hD : ∀ d ∈ D, s.apart bp d := (List.pairwise_cons.mp h.apartD).1
  have hbase : s.base ≠ bp := by omega
  unfold joinNext
  split
  next hnext =>
    -- the block after `bp` is the next one of the list
    rcases h.next_of_cut he with ⟨rfl, hptr⟩ | ⟨q, l₃, rfl, hptr, hpq⟩
    · rw [hptr] at hnext
      omega
    · rw [hptr] at hnext ⊢
      have hqL := hmem q List.mem_cons_self
      have hqbound := h.bound q hqL
      have hqstop : s.stop q = s.stop bp + unit * s.size q := by rw [State.stop, ← hnext]
      have hsum : s.size bp + s.size q < 4294967296 := by
        have hsmall := h.small
        unfold State.stop unit at *
        omega
      have htstop : ((s.setSize bp (uint (s.size bp + s.size q))).setPtr bp (s.ptr q)).stop bp = s.stop q := by
        rw [uint_eq hsum]
        simp only [State.stop, setPtr_size, setSize_size, if_true] at hqstop ⊢
        rw [hqstop]
        unfold unit
        omega
      have hord' := (List.pairwise_cons.mp (h.cut he).2.2).1
      refine ⟨l₃, ?_, ⟨rfl, rfl, rfl, rfl, rfl⟩, ?_, ?_, ?_, ?_, ?_, ?_, ?_⟩
      · intro a ha
        rw [setPtr_mem ha, setSize_mem ha]
      · exact List.suffix_cons q l₃
      · have hq3 := (List.isChain_cons_cons.mp hlinks).2
        rw [List.isChain_cons] at hq3 ⊢
        refine ⟨fun y hy => ?_, ?_⟩
        · have := hq3.1 y hy
          simpa using this
        · refine isChain_congr hq3.2 fun y hy z hz => ?_
          have hyb := hnot y (List.mem_cons_of_mem q hy)
          simpa [hyb] using hz
      · intro y hy
        rw [htstop]
        exact hord' y hy
      · simp [uint_eq hsum]
      · rw [htstop]
        exact hqbound
      · intro d hd
        rw [htstop]
        have hd1 := hD d hd
        have hd2 := h.apart q hqL d (List.mem_cons_of_mem bp hd)
        have hdpos := lt_stop (h.block d (List.mem_cons_of_mem bp hd)).2.1
        unfold State.apart at hd1 hd2
        omega
      · intro x
        rw [htstop, covers_cons, ← or_assoc]
        refine or_congr_left ?_
        have := le_stop (s := s) (a := q)
        omega
  next hnext =>
    have hptr : (l₂ ++ [s.base]).head? = some (s.ptr p) := h.circle.next_eq he
    refine ⟨l₂, ?_, ⟨rfl, rfl, rfl, rfl, rfl⟩, List.suffix_refl _, ?_, ?_, ?_, ?_, ?_, ?_⟩
    · intro a ha
      rw [setPtr_mem ha]
    · rw [List.isChain_cons] at hlinks ⊢
      refine ⟨fun y hy => ?_, ?_⟩
      · rw [hptr] at hy
        simpa using hy
      · refine isChain_congr hlinks.2 fun y hy z hz => ?_
        have hyb := hnot y hy
        simpa [hyb] using hz
    · intro y hy
      rw [setPtr_stop]
      have hle := hafter y hy
      rcases h.next_of_cut he with ⟨rfl, _⟩ | ⟨q, l₃, rfl, hq, _⟩
      · cases hy
      · rcases List.mem_cons.mp hy with rfl | hy3
        · rw [hq] at hnext
          omega
        · have hlt := lt_of_stop_lt ((List.pairwise_cons.mp (h.cut he).2.2).1 y hy3)
          have := hafter q List.mem_cons_self
          omega
    · simp
    · rw [setPtr_stop]
      exact hbound
    · intro d hd
      rw [setPtr_stop]
      exact hD d hd
    · intro x
      rw [setPtr_stop]

structure Relinked (s t : State) (l₁ : List Nat) (p : Nat) (r D : List Nat) : Prop where
  same : t.base = s.base ∧ t.brk = s.brk ∧ t.heap = s.heap ∧ t.live = s.live
  before : ∀ a ∈ l₁, t.mem a = s.mem a
  others : ∀ d ∈ D, t.mem d = s.mem d
  links : (p :: (r ++ [s.base])).IsChain fun a b => t.ptr a = b
  order : (p :: r).Pairwise fun a b => t.stop a < b
  after : ∀ b ∈ r, p < b
  base0 : p = s.base → t.size p = 0
  pos : ∀ a ∈ p :: r, a = s.base ∨ 0 < t.size a
  bound : ∀ a ∈ p :: r, t.stop a ≤ s.brk
  apart : ∀ a ∈ p :: r, ∀ d ∈ D, t.stop a ≤ d ∨ s.stop d ≤ a

/-- Block `a` has its room in `t`: below the break, and apart from the blocks `D`. -/
def Fits (s t : State) (D : List Nat) (a : Nat) : Prop :=
  (a = s.base ∨ 0 < t.size a) ∧ t.stop a ≤ s.brk ∧ ∀ d ∈ D, t.stop a ≤ d ∨ s.stop d ≤ a

theorem Inv.fits (h : Inv s L D₀) (hsub : D ⊆ D₀) (ha : a ∈ s.base :: L)
    (hsize : t.size a = s.size a) : Fits s t D a := by
  have hstop : t.stop a = s.stop a := by rw [State.stop, hsize, State.stop]
  unfold Fits
  rw [hstop, hsize]
  exact ⟨(List.mem_cons.mp ha).imp_right (h.pos a), h.bound a ha, fun d hd => h.apart a ha d (hsub hd)⟩

theorem Relinked.of_fits (same : t.base = s.base ∧ t.brk = s.brk ∧ t.heap = s.heap ∧ t.live = s.live)
    (before : ∀ a ∈ l₁, t.mem a = s.mem a) (others : ∀ d ∈ D, t.mem d = s.mem d)
    (links : (p :: (r ++ [s.base])).IsChain fun a b => t.ptr a = b)
    (order : (p :: r).Pairwise fun a b => t.stop a < b) (after : ∀ b ∈ r, p < b)
    (base0 : p = s.base → t.size p = 0) (fits : ∀ a ∈ p :: r, Fits s t D a) : Relinked s t l₁ p r D :=
  ⟨same, before, others, links, order, after, base0, fun a ha => (fits a ha).1, fun a ha => (fits a ha).2.1,
    fun a ha => (fits a ha).2.2⟩

theorem Inv.relink (h : Inv s L D₀) (hsub : D.Sublist D₀) (he : s.base :: L = l₁ ++ p :: l₂)
    (hr : Relinked s t l₁ p r D) : ∃ L', t.base :: L' = l₁ ++ p :: r ∧ Inv t L' D := by
  obtain ⟨hbase, hbrk, _, _⟩ := hr.same
  have hlist : ∃ L', s.base :: L' = l₁ ++ p :: r := by
    cases l₁ with
    | nil =>
      cases he
      exact ⟨r, rfl⟩
    | cons c l₁ =>
      cases he
      exact ⟨l₁ ++ p :: r, rfl⟩
  obtain ⟨L', he'⟩ := hlist
  have hord := h.order
  rw [he, List.pairwise_append] at hord
  have hord₁ := hord.1
  have hcross : ∀ a ∈ l₁, ∀ b ∈ p :: r, s.stop a < b := by
    intro a ha b hb
    have hap := (h.cut he).1 a ha
    rcases List.mem_cons.mp hb with rfl | hb
    · exact hap
    · exact hap.trans (hr.after b hb)
  have hstop₁ : ∀ a ∈ l₁, t.stop a = s.stop a := fun a ha => stop_congr (hr.before a ha)
  have hmem₁ : ∀ a ∈ l₁, a ∈ s.base :: L := fun a ha => by simp [he, ha]
  have hstopD : ∀ d ∈ D, t.stop d = s.stop d := fun d hd => stop_congr (hr.others d hd)
  have hmem : ∀ a, a ∈ s.base :: L' ↔ a ∈ l₁ ∨ a ∈ p :: r := fun a => by rw [he', List.mem_append]
  refine ⟨L', by rw [hbase, he'], ?_⟩
  constructor
  case circle =>
    rw [hbase]
    refine Circle.join he' ?_ hr.links
    refine isChain_congr (h.circle.cut he).1 fun x hx y hy => ?_
    rw [ptr_congr (hr.before x hx)]
    exact hy
  case order =>
    rw [hbase, he', List.pairwise_append]
    refine ⟨hord₁.imp_of_mem ?_, hr.order, ?_⟩
    · intro a b ha _ hab
      rwa [hstop₁ a ha]
    · intro a ha b hb
      rw [hstop₁ a ha]
      exact hcross a ha b hb
  case base0 =>
    rw [hbase]
    by_cases hp : p = s.base
    · rw [← hp]
      exact hr.base0 hp
    · have hbl : s.base ∈ l₁ := by
        cases l₁ with
        | nil =>
          cases he
          exact absurd rfl hp
        | cons c l₁ =>
          cases he
          exact List.mem_cons_self
      rw [size_congr (hr.before _ hbl)]
      exact h.base0
  case pos =>
    intro a ha
    have hnd : s.base ∉ L' := by
      have hnodup : (s.base :: L').Pairwise (fun a b => a < b) := by
        rw [he', List.pairwise_append]
        exact ⟨hord₁.imp lt_of_stop_lt, hr.order.imp lt_of_stop_lt, fun a ha b hb => lt_of_stop_lt (hcross a ha b hb)⟩
      intro hb
      exact Nat.lt_irrefl _ ((List.pairwise_cons.mp hnodup).1 _ hb)
    have hne : a ≠ s.base := fun hab => hnd (hab ▸ ha)
    rcases (hmem a).mp (List.mem_cons_of_mem _ ha) with hl | hl
    · rw [size_congr (hr.before a hl)]
      exact h.pos a ((List.mem_cons.mp (hmem₁ a hl)).resolve_left hne)
    · exact (hr.pos a hl).resolve_left hne
  case bound =>
    intro a ha
    rw [hbase, hmem] at ha
    rw [hbrk]
    rcases ha with hl | hl
    · rw [hstop₁ a hl]
      exact h.bound a (hmem₁ a hl)
    · exact hr.bound a hl
  case block =>
    intro d hd
    rw [hbase, hbrk, hstopD d hd, size_congr (hr.others d hd)]
    exact h.block d (hsub.subset hd)
  case apart =>
    intro a ha d hd
    rw [hbase, hmem] at ha
    unfold State.apart
    rw [hstopD d hd]
    rcases ha with hl | hl
    · rw [hstop₁ a hl]
      exact h.apart a (hmem₁ a hl) d (hsub.subset hd)
    · exact hr.apart a hl d hd
  case apartD =>
    refine (h.apartD.sublist hsub).imp_of_mem ?_
    intro d d' hd hd' hdd
    unfold State.apart at hdd ⊢
    rwa [hstopD d hd, hstopD d' hd']
  case low =>
    rw [hbase, hbrk]
    exact h.low
  case small =>
    rw [hbrk]
    exact h.small

theorem joinPrev_spec (h : Inv s L (bp :: D)) (he : s.base :: L = l₁ ++ p :: l₂) (hp : p < bp)
    (hl₂ : ∀ q ∈ l₂, bp < q) (hj : Joined s t bp l₂ m D) :
    ∃ r, Relinked s (joinPrev t bp p) l₁ p r D ∧ r.length ≤ l₂.length + 1 ∧
      (∃ b ∈ p :: r, b ≤ bp ∧ s.stop bp ≤ (joinPrev t bp p).stop b) ∧
      ∀ x, (joinPrev t bp p).covers (p :: r) x ↔
        p ≤ x ∧ x < s.stop p ∨ bp ≤ x ∧ x < s.stop bp ∨ s.covers l₂ x := by
  obtain ⟨hb, hpos, _⟩ := h.block bp List.mem_cons_self
  obtain ⟨hbase, hbrk, _, hheap, hlive⟩ := hj.same
  have hpmem : p ∈ s.base :: L := by simp [he]
  have hpb : p ≠ bp := by omega
  have hm₂ : ∀ a ∈ m, a ∈ l₂ := fun a ha => hj.sub.subset ha
  obtain ⟨hbefore, hafter, hord₂⟩ := h.cut he
  have hm_p : ∀ a ∈ m, p < a := fun a ha => lt_of_stop_lt (hafter a (hm₂ a ha))
  have hm_bp : ∀ a ∈ m, bp < a := fun a ha => hl₂ a (hm₂ a ha)
  have hl_p : ∀ a ∈ l₁, a < p := fun a ha => lt_of_stop_lt (hbefore a ha)
  have hd_p : ∀ d ∈ D, d ≠ p := fun d hd hdp =>
    h.not_free (List.mem_cons_of_mem bp hd) (hdp ▸ hpmem)
  have hd_bp : ∀ d ∈ D, d ≠ bp := by
    intro d hd hdb
    have hap := (List.pairwise_cons.mp h.apartD).1 d hd
    have := lt_stop hpos
    unfold State.apart at hap
    rw [hdb] at hap
    omega
  have hmemp : t.mem p = s.mem p := hj.mem p hpb
  have hple : s.stop p ≤ bp := by
    have hap := h.apart p hpmem bp List.mem_cons_self
    have := lt_stop hpos
    unfold State.apart at hap
    omega
  have hordm : m.Pairwise fun a b => s.stop a < b := hord₂.sublist hj.sub.sublist
  have hsizebp : 0 < t.size bp := by
    have := hj.size
    omega
  have hmemm : ∀ a ∈ m, t.mem a = s.mem a := fun a ha => hj.mem a (Nat.ne_of_gt (hm_bp a ha))
  have hfits : ∀ {u : State}, (∀ a, a ≠ p → u.size a = t.size a) → ∀ a ∈ m, Fits s u D a := fun hu a ha =>
    h.fits (List.subset_cons_self bp D) (by simp [he, hm₂ a ha])
      ((hu a (Nat.ne_of_gt (hm_p a ha))).trans (size_congr (hmemm a ha)))
  have hlen := hj.sub.length_le
  have hgrow : s.stop bp ≤ t.stop bp := by
    have := hj.size
    unfold State.stop unit
    omega
  unfold joinPrev
  split
  next hmerge =>
    rw [stop_congr hmemp] at hmerge
    have hsum : t.size p + t.size bp < 4294967296 := by
      have hsmall := h.small
      have hbound := hj.bound
      rw [size_congr hmemp]
      unfold State.stop unit at *
      omega
    rw [uint_eq hsum]
    generalize hu : (t.setSize p (t.size p + t.size bp)).setPtr p (t.ptr bp) = u
    have humem : ∀ a, a ≠ p → u.mem a = t.mem a := by
      intro a ha
      rw [← hu, setPtr_mem ha, setSize_mem ha]
    have hustop : u.stop p = t.stop bp := by
      rw [← hu]
      simp only [State.stop, setPtr_size, setSize_size, if_true]
      rw [size_congr hmemp]
      unfold State.stop unit at *
      omega
    have huptr : u.ptr p = t.ptr bp := by
      rw [← hu]
      simp
    have hustopm : ∀ a ∈ m, u.stop a = s.stop a := fun a ha => by
      rw [stop_congr (humem a (Nat.ne_of_gt (hm_p a ha))), stop_congr (hmemm a ha)]
    have hpbase : p ≠ s.base := by
      rintro rfl
      rw [h.stop_base] at hmerge
      omega
    refine ⟨m, .of_fits ?_ ?_ ?_ ?_ ?_ hm_p (fun hpb => absurd hpb hpbase) ?_, by omega,
      ⟨p, List.mem_cons_self, by omega, by rwa [hustop]⟩, ?_⟩
    · rw [← hu]
      exact ⟨hbase, hbrk, hheap, hlive⟩
    · intro a ha
      have := hl_p a ha
      rw [humem a (by omega), hj.mem a (by omega)]
    · intro d hd
      rw [humem d (hd_p d hd), hj.mem d (hd_bp d hd)]
    · have hlinks := hj.links
      rw [List.isChain_cons] at hlinks ⊢
      refine ⟨fun y hy => huptr.trans (hlinks.1 y hy), isChain_congr hlinks.2 fun a ha y hy => ?_⟩
      rw [ptr_congr (humem a (Nat.ne_of_gt (hm_p a ha)))]
      exact hy
    · refine List.pairwise_cons.mpr ⟨fun a ha => ?_, hordm.imp_of_mem fun {a b} ha _ hab => ?_⟩
      · rw [hustop]
        exact hj.order a ha
      · rwa [hustopm a ha]
    · refine List.forall_mem_cons.mpr ⟨⟨.inr ?_, ?_, fun d hd => ?_⟩, hfits fun a ha => size_congr (humem a ha)⟩
      · rw [← hu]
        simp
        omega
      · rw [hustop]
        exact hj.bound
      · rw [hustop]
        have hd1 := hj.apart d hd
        have hd2 := h.apart p hpmem d (List.mem_cons_of_mem bp hd)
        have hdpos := lt_stop (h.block d (List.mem_cons_of_mem bp hd)).2.1
        unfold State.apart at hd2
        omega
    · intro x
      rw [covers_cons, covers_congr hustopm, hustop, ← hj.covers x, ← or_assoc]
      refine or_congr_left ?_
      have := lt_stop hsizebp
      omega
  next hmerge =>
    rw [stop_congr hmemp] at hmerge
    have humem : ∀ a, a ≠ p → (t.setPtr p bp).mem a = t.mem a := fun a ha => setPtr_mem ha
    have hustopm : ∀ a ∈ m, (t.setPtr p bp).stop a = s.stop a := fun a ha => by
      rw [setPtr_stop, stop_congr (hmemm a ha)]
    refine ⟨bp :: m, .of_fits ⟨hbase, hbrk, hheap, hlive⟩ ?_ ?_ ?_ ?_ ?_ ?_ ?_,
      by rw [List.length_cons]; omega, ⟨bp, by simp, Nat.le_refl _, by rwa [setPtr_stop]⟩, ?_⟩
    · intro a ha
      have := hl_p a ha
      rw [humem a (by omega), hj.mem a (by omega)]
    · intro d hd
      rw [humem d (hd_p d hd), hj.mem d (hd_bp d hd)]
    · rw [List.cons_append, List.isChain_cons_cons]
      refine ⟨by simp, ?_⟩
      have hlinks := hj.links
      rw [← List.cons_append] at hlinks ⊢
      refine isChain_congr hlinks fun a ha y hy => ?_
      have hap : a ≠ p := by
        rcases List.mem_cons.mp ha with rfl | ha
        · exact hpb.symm
        · exact Nat.ne_of_gt (hm_p a ha)
      rw [ptr_congr (humem a hap)]
      exact hy
    · refine List.pairwise_cons.mpr ⟨fun a ha => ?_, List.pairwise_cons.mpr ⟨fun a ha => ?_, ?_⟩⟩
      · rw [setPtr_stop, stop_congr hmemp]
        rcases List.mem_cons.mp ha with rfl | ha
        · omega
        · have := hm_bp a ha
          omega
      · rw [setPtr_stop]
        exact hj.order a ha
      · refine hordm.imp_of_mem fun {a b} ha _ hab => ?_
        rwa [hustopm a ha]
    · exact List.forall_mem_cons.mpr ⟨hp, hm_p⟩
    · rintro rfl
      rw [setPtr_size, size_congr hmemp]
      exact h.base0
    · refine List.forall_mem_cons.mpr ⟨?_, List.forall_mem_cons.mpr ⟨⟨.inr ?_, ?_, ?_⟩, hfits fun a _ => setPtr_size⟩⟩
      · exact h.fits (List.subset_cons_self bp D) hpmem (setPtr_size.trans (size_congr hmemp))
      · rw [setPtr_size]
        exact hsizebp
      · rw [setPtr_stop]
        exact hj.bound
      · rw [setPtr_stop]
        exact hj.apart
    · intro x
      rw [covers_cons, covers_cons, covers_congr hustopm, setPtr_stop, setPtr_stop, stop_congr hmemp, hj.covers x]

def State.Same (s t : State) : Prop := t.base = s.base ∧ t.brk = s.brk ∧ t.heap = s.heap ∧ t.live = s.live

def Listed (t : State) (L D : List Nat) : Prop := Inv t L D ∧ ∃ g, t.freep = some g ∧ g ∈ t.base :: L

theorem Inv.listed (h : Inv s L D) (hp : p ∈ s.base :: L) : Listed { s with freep := some p } L D :=
  ⟨{ h with }, p, rfl, hp⟩

theorem free_spec (h : Listed s L (bp :: D)) : ∃ t L', free s bp = some t ∧ Listed t L' D ∧ s.Same t ∧
    (∀ d ∈ D, t.mem d = s.mem d) ∧ L'.length ≤ L.length + 1 ∧
    (∃ b ∈ t.base :: L', b ≤ bp ∧ s.stop bp ≤ t.stop b) ∧
    ∀ x, t.covers (t.base :: L') x ↔ bp ≤ x ∧ x < s.stop bp ∨ s.covers (s.base :: L) x := by
  obtain ⟨h, f, hf, hfm⟩ := h
  obtain ⟨l₁, p, l₂, hsearch, he, hp, hl₂⟩ := h.search List.mem_cons_self hfm
  obtain ⟨m, hj⟩ := joinNext_spec h he hl₂
  obtain ⟨r, hr, hlen, ⟨b, hb, hbb⟩, hcov⟩ := joinPrev_spec h he hp hl₂ hj
  obtain ⟨L', he', hinv⟩ := h.relink (List.sublist_cons_self bp D) he hr
  refine ⟨{ joinPrev (joinNext s bp p) bp p with freep := some p }, L', ?_, ?_, hr.same, hr.others, ?_,
    ⟨b, ?_, hbb⟩, ?_⟩
  · rw [free, hf]
    dsimp only
    rw [hsearch]
    rfl
  · exact hinv.listed (by rw [he']; simp)
  · have h1 := congrArg List.length he
    have h2 := congrArg List.length he'
    simp only [List.length_cons, List.length_append] at h1 h2
    omega
  · change b ∈ (joinPrev (joinNext s bp p) bp p).base :: L'
    rw [he']
    exact List.mem_append_right _ hb
  · intro x
    change (joinPrev (joinNext s bp p) bp p).covers ((joinPrev (joinNext s bp p) bp p).base :: L') x ↔ _
    rw [he', he, covers_append, covers_append, hcov x, covers_congr fun a ha => stop_congr (hr.before a ha), covers_cons]
    grind

end TweakedXv6.Malloc

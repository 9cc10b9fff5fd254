import Mathlib.Logic.Function.Basic
import TweakedXv6.Circle

namespace TweakedXv6

open Function (update update_of_ne update_self)

structure Links (α : Type) where
  next : α → α
  prev : α → α

namespace Links

variable {α : Type} [DecidableEq α] {k : Links α} {c a b x y : α} {l l₁ l₂ : List α} {p : α → Bool} {fuel : Nat}

def setNext (k : Links α) (a b : α) : Links α := { k with next := update k.next a b }

def setPrev (k : Links α) (a b : α) : Links α := { k with prev := update k.prev a b }

/-- `b->next->prev = b->prev; b->prev->next = b->next` -/
def unlink (k : Links α) (b : α) : Links α :=
  let k := k.setPrev (k.next b) (k.prev b)
  k.setNext (k.prev b) (k.next b)

/-- `b->next = c->next; b->prev = c; c->next->prev = b; c->next = b` -/
def push (k : Links α) (c b : α) : Links α :=
  let k := k.setNext b (k.next c)
  let k := k.setPrev b c
  let k := k.setPrev (k.next c) b
  k.setNext c b

/-- The first node with `p` on the way to `c`. -/
def search (next : α → α) (c : α) (p : α → Bool) : Nat → α → Option α
  | 0, _ => none
  | fuel + 1, a => if a = c then none else if p a then some a else search next c p fuel (next a)

def Adj (k : Links α) (a b : α) : Prop := k.next a = b ∧ k.prev b = a

/-- The nodes after `c` are `l`, each once, and then `c` again. -/
structure Linked (k : Links α) (c : α) (l : List α) : Prop where
  chain : (c :: (l ++ [c])).IsChain k.Adj
  nodup : (c :: l).Nodup

omit [DecidableEq α] in
theorem isChain_of_adj {R S : α → α → Prop} (h : (a :: l).IsChain R)
    (hsame : ∀ x ∈ (a :: l).dropLast, ∀ y ∈ l, R x y → S x y) : (a :: l).IsChain S := by
  induction l generalizing a with
  | nil => exact .singleton a
  | cons b l ih =>
    rw [List.isChain_cons_cons] at h ⊢
    refine ⟨hsame a (by simp) b List.mem_cons_self h.1, ih h.2 fun x hx y hy => ?_⟩
    exact hsame x (by simp [hx]) y (List.mem_cons_of_mem b hy)

omit [DecidableEq α] in
theorem Linked.next (h : Linked k c l) : Circle k.next c l := h.chain.imp fun _ _ hab => hab.1

omit [DecidableEq α] in
theorem Linked.prev (h : Linked k c l) : Circle k.prev c l.reverse := by
  have hrev : (c :: (l ++ [c])).reverse = c :: (l.reverse ++ [c]) := by simp
  unfold Circle
  rw [← hrev, List.isChain_reverse]
  exact h.chain.imp fun _ _ hab => hab.2

theorem Linked.unlink (h : Linked k c l) (hb : b ∈ l) : Linked (k.unlink b) c (l.erase b) := by
  obtain ⟨l₁, l₂, rfl⟩ := List.append_of_mem hb
  have hnd : (c :: l₁).Nodup ∧ (b :: l₂).Nodup ∧ List.Disjoint (c :: l₁) (b :: l₂) :=
    List.nodup_append'.mp h.nodup
  obtain ⟨hnd₁, hnd₂, hdis⟩ := hnd
  rw [List.nodup_cons] at hnd₂
  have hc : c ∉ l₂ := fun hmem => hdis List.mem_cons_self (List.mem_cons_of_mem b hmem)
  have herase : (l₁ ++ b :: l₂).erase b = l₁ ++ l₂ := by
    have hb₁ : b ∉ l₁ := fun hmem => hdis (List.mem_cons_of_mem c hmem) List.mem_cons_self
    rw [List.erase_append_right _ hb₁, List.erase_cons_head]
  rw [herase]
  -- the neighbours of `b`
  obtain ⟨u, x, hx⟩ : ∃ u x, c :: l₁ = u ++ [x] := ⟨_, _, (List.dropLast_append_getLast (by simp)).symm⟩
  obtain ⟨y, v, hy⟩ : ∃ y v, l₂ ++ [c] = y :: v := List.exists_cons_of_ne_nil (by simp)
  have hxmem : x ∈ c :: l₁ := by simp [hx]
  have hymem : y ∈ l₂ ∨ y = c := by simpa using show y ∈ l₂ ++ [c] by simp [hy]
  have hchain := h.chain
  rw [show c :: (l₁ ++ b :: l₂ ++ [c]) = (c :: l₁) ++ b :: (l₂ ++ [c]) by simp, hx, hy, List.append_assoc,
    List.singleton_append, List.isChain_split, List.isChain_cons_cons, List.isChain_cons_cons] at hchain
  obtain ⟨h₁, hxb, hby, h₂⟩ := hchain
  have hyb : b ≠ y := by
    rintro rfl
    rcases hymem with hmem | rfl
    · exact hnd₂.1 hmem
    · exact hdis List.mem_cons_self List.mem_cons_self
  have hk : k.unlink b = { next := update k.next x y, prev := update k.prev y x } := by
    have hprev : (k.setPrev (k.next b) (k.prev b)).prev b = x := by
      rw [hby.1, hxb.2]
      exact (update_of_ne hyb ..).trans hxb.2
    unfold Links.unlink
    dsimp only
    rw [hprev]
    unfold setNext setPrev
    rw [hby.1, hxb.2]
  refine ⟨?_, List.nodup_append'.mpr ⟨hnd₁, hnd₂.2, List.disjoint_of_disjoint_cons_right hdis⟩⟩
  rw [show c :: (l₁ ++ l₂ ++ [c]) = (c :: l₁) ++ (l₂ ++ [c]) by simp, hx, hy, List.append_assoc,
    List.singleton_append, List.isChain_split, List.isChain_cons_cons, hk]
  refine ⟨?_, ⟨update_self .., update_self ..⟩, ?_⟩
  · rw [← hx] at h₁ ⊢
    refine isChain_of_adj h₁ fun p hp q hq hadj => ?_
    have hpx : p ≠ x := by
      rw [hx, List.dropLast_concat] at hp
      rw [hx, List.nodup_append'] at hnd₁
      rintro rfl
      exact hnd₁.2.2 hp (List.mem_singleton_self p)
    have hqy : q ≠ y := by
      rintro rfl
      rcases hymem with hmem | rfl
      · exact hdis (List.mem_cons_of_mem c hq) (List.mem_cons_of_mem b hmem)
      · exact (List.nodup_cons.mp hnd₁).1 hq
    exact ⟨(update_of_ne hpx ..).trans hadj.1, (update_of_ne hqy ..).trans hadj.2⟩
  · refine isChain_of_adj h₂ fun p hp q hq hadj => ?_
    rw [← hy, List.dropLast_concat] at hp
    have hpx : p ≠ x := by
      rintro rfl
      exact hdis hxmem (List.mem_cons_of_mem b hp)
    have hqy : q ≠ y := by
      have hnd : (y :: v).Nodup := by
        rw [← hy, ← List.concat_eq_append]
        exact hnd₂.2.concat hc
      rintro rfl
      exact (List.nodup_cons.mp hnd).1 hq
    exact ⟨(update_of_ne hpx ..).trans hadj.1, (update_of_ne hqy ..).trans hadj.2⟩

theorem Linked.push (h : Linked k c l) (hb : b ∉ c :: l) : Linked (k.push c b) c (b :: l) := by
  obtain ⟨y, v, hy⟩ : ∃ y v, l ++ [c] = y :: v := List.exists_cons_of_ne_nil (by simp)
  obtain ⟨hc, hnd⟩ := List.nodup_cons.mp h.nodup
  obtain ⟨hbc, hbl⟩ := not_or.mp (mt List.mem_cons.mpr hb)
  have hmem : ∀ q ∈ y :: v, q ≠ b := by
    intro q hq
    rw [← hy, List.mem_append, List.mem_singleton] at hq
    rintro rfl
    exact hq.elim hbl hbc
  have hndy : (y :: v).Nodup := by
    rw [← hy, ← List.concat_eq_append]
    exact hnd.concat hc
  have hchain := h.chain
  rw [hy, List.isChain_cons_cons] at hchain
  obtain ⟨hcy, hrest⟩ := hchain
  have hyb : y ≠ b := hmem y List.mem_cons_self
  have hk : k.push c b = { next := update (update k.next b y) c b
                           prev := update (update k.prev b c) y b } := by
    have hnext : ((k.setNext b (k.next c)).setPrev b c).next c = y :=
      (update_of_ne (Ne.symm hbc) ..).trans hcy.1
    unfold Links.push
    dsimp only
    rw [hnext]
    unfold setNext setPrev
    rw [hcy.1]
  refine ⟨?_, List.nodup_cons.mpr ⟨?_, List.nodup_cons.mpr ⟨hbl, hnd⟩⟩⟩
  · rw [List.cons_append, hy, List.isChain_cons_cons, List.isChain_cons_cons, hk]
    refine ⟨⟨update_self .., ?_⟩, ⟨?_, update_self ..⟩, ?_⟩
    · exact (update_of_ne hyb.symm ..).trans (update_self ..)
    · exact (update_of_ne hbc ..).trans (update_self ..)
    · refine isChain_of_adj hrest fun p hp q hq hadj => ?_
      have hpb : p ≠ b := hmem p (List.mem_of_mem_dropLast hp)
      have hqb : q ≠ b := hmem q (List.mem_cons_of_mem y hq)
      have hqy : q ≠ y := fun he => (List.nodup_cons.mp hndy).1 (he ▸ hq)
      rw [← hy, List.dropLast_concat] at hp
      have hpc : p ≠ c := fun he => hc (he ▸ hp)
      refine ⟨?_, ?_⟩
      · exact (update_of_ne hpc ..).trans ((update_of_ne hpb ..).trans hadj.1)
      · exact (update_of_ne hqy ..).trans ((update_of_ne hqb ..).trans hadj.2)
  · exact mt List.mem_cons.mp (not_or.mpr ⟨Ne.symm hbc, hc⟩)

theorem Linked.front (h : Linked k c l) (hb : b ∈ l) : Linked ((k.unlink b).push c b) c (b :: l.erase b) := by
  obtain ⟨hc, hnd⟩ := List.nodup_cons.mp h.nodup
  exact (h.unlink hb).push (mt List.mem_cons.mp (not_or.mpr ⟨fun he => hc (he ▸ hb), hnd.not_mem_erase⟩))

theorem search_eq {next : α → α} (h : (l ++ [c]).IsChain fun a b => next a = b) (hc : c ∉ l)
    (ha : (l ++ [c]).head? = some a) (hfuel : l.length < fuel) : search next c p fuel a = l.find? p := by
  induction fuel generalizing l a with
  | zero => exact absurd hfuel (Nat.not_lt_zero _)
  | succ fuel ih =>
    cases l with
    | nil =>
      cases ha
      simp [search]
    | cons b l =>
      have hab : b = a := Option.some.inj ha
      subst hab
      rw [List.cons_append, List.isChain_cons] at h
      have hbc : b ≠ c := by grind
      obtain ⟨y, v, hy⟩ : ∃ y v, l ++ [c] = y :: v := List.exists_cons_of_ne_nil (by simp)
      have hnext : next b = y := h.1 y (by rw [hy]; rfl)
      have hrest := ih h.2 (by grind) (by rw [hy, List.head?_cons]) (by simpa using hfuel)
      rw [search, if_neg hbc, List.find?_cons, hnext, hrest]
      cases p b <;> rfl

theorem Linked.search_next (h : Linked k c l) (hfuel : l.length < fuel) :
    search k.next c p fuel (k.next c) = l.find? p := by
  have hnext := h.next.next_eq (List.nil_append _).symm
  refine search_eq ?_ (by grind [h.nodup]) hnext hfuel
  exact (List.isChain_cons.mp h.next).2

theorem Linked.search_prev (h : Linked k c l) (hfuel : l.length < fuel) :
    search k.prev c p fuel (k.prev c) = l.reverse.find? p := by
  have hprev := h.prev.next_eq (List.nil_append _).symm
  refine search_eq ?_ (by grind [h.nodup]) hprev (by simpa using hfuel)
  exact (List.isChain_cons.mp h.prev).2

end Links

end TweakedXv6

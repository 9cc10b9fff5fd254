import TweakedXv6.Partition
import TweakedXv6.VmTable

namespace TweakedXv6.Vm

open Prog

/-- Who holds which page: the page tables by their root, and the pages that the kernel has in use for
anything else. -/
structure Ghost where
  used : Nat → Prop
  table : Nat → Option Table

inductive Place
  | free
  | used
  | spot (d : Nat) (a : Spot)
  deriving DecidableEq

def At (G : Ghost) (m : Mem) : Place → Nat → Prop
  | .free, q => q ∈ m.free
  | .used, q => G.used q
  | .spot d a, q => ∃ T, G.table d = some T ∧ T.at a = some q

def Layout.Managed (lay : Layout) (q : Nat) : Prop := lay.lo ≤ q ∧ q < phystopPage

/-- Every managed page is at exactly one place, and memory holds the page tables. -/
structure Good (lay : Layout) (G : Ghost) (m : Mem) : Prop where
  part : Partition lay.Managed (At G m)
  nodup : m.free.Nodup
  root : ∀ d T, G.table d = some T → T.root = d
  rep : ∀ d T, G.table d = some T → Represents m.pte T

def Ghost.use (G : Ghost) (q : Nat) : Ghost := { G with used := fun x => x = q ∨ G.used x }

def Ghost.unuse (G : Ghost) (q : Nat) : Ghost := { G with used := fun x => x ≠ q ∧ G.used x }

def Ghost.setTable (G : Ghost) (d : Nat) (o : Option Table) : Ghost :=
  { G with table := fun d' => if d' = d then o else G.table d' }

variable {lay : Layout} {G : Ghost} {m : Mem} {T T' : Table} {d q l b n d' : Nat} {c : Nat → Pte}
  {o : Option Table}

@[simp]
theorem use_table : (G.use q).table = G.table := rfl

@[simp]
theorem unuse_table : (G.unuse q).table = G.table := rfl

@[simp]
theorem setTable_used : (G.setTable d o).used = G.used := rfl

@[simp]
theorem setTable_self : (G.setTable d o).table d = o := by simp [Ghost.setTable]

theorem setTable_other (h : d' ≠ d) : (G.setTable d o).table d' = G.table d' := by
  simp [Ghost.setTable, h]

section Fields

variable (h : Good lay G m)

include h

theorem Good.distinct (hT : G.table d = some T) : T.Distinct := by
  intro a b q ha hb
  cases h.part.unique (.spot d a) (.spot d b) q ⟨T, hT, ha⟩ ⟨T, hT, hb⟩
  rfl

theorem Good.used_not_page (hq : G.used q) (hT : G.table d = some T) : ¬ T.Page q := by
  rintro ⟨l, a, ha⟩
  cases h.part.unique .used (.spot d (.node l a)) q hq ⟨T, hT, ha⟩

theorem Good.free_not_page (hq : q ∈ m.free) (hT : G.table d = some T) : ¬ T.Page q := by
  rintro ⟨l, a, ha⟩
  cases h.part.unique .free (.spot d (.node l a)) q hq ⟨T, hT, ha⟩

theorem Good.leaf_not_page (hT : G.table d = some T)
    (hq : T.at (.leaf n) = some q) (hT' : G.table d' = some T') : ¬ T'.Page q := by
  rintro ⟨l, a, ha⟩
  cases h.part.unique (.spot d (.leaf n)) (.spot d' (.node l a)) q ⟨T, hT, hq⟩ ⟨T', hT', ha⟩

theorem Good.page_other (hT : G.table d = some T)
    (hq : T.Page q) (hT' : G.table d' = some T') (hd : d' ≠ d) : ¬ T'.Page q := by
  rintro ⟨l', a', ha'⟩
  obtain ⟨l, a, ha⟩ := hq
  cases h.part.unique (.spot d (.node l a)) (.spot d' (.node l' a')) q ⟨T, hT, ha⟩ ⟨T', hT', ha'⟩
  exact hd rfl

theorem Good.setPage (hq : ∀ d T, G.table d = some T → ¬ T.Page q) :
    Good lay G (m.setPage q c) where
  part := h.part.congr fun a x => by cases a <;> exact Iff.rfl
  nodup := h.nodup
  root := h.root
  rep d T hT := (h.rep d T hT).frame fun p hp => setPage_other fun he => hq d T hT (he ▸ hp)

end Fields

theorem kalloc_none (h : m.fails 0 = true ∨ m.free = []) :
    kalloc m = .ok (none, { m with fails := fun n => m.fails (n + 1) }) := by
  unfold kalloc
  dsimp only
  split
  next => rfl
  next hf =>
    rw [h.resolve_left hf]

theorem kalloc_some {rest : List Nat} (hf : m.fails 0 = false) (hfree : m.free = q :: rest) :
    kalloc m = .ok (some q, { m.setPage q fun _ => .fives with
      free := rest, fails := fun n => m.fails (n + 1) }) := by
  simp only [kalloc, hf, hfree, Bool.false_eq_true, if_false]
  rfl

theorem kalloc_spec (h : Good lay G m) : Returns kalloc m fun r t =>
    r = none ∧ Good lay G t ∨
      ∃ q, r = some q ∧ Good lay (G.use q) t ∧ ¬ G.used q ∧ ∀ d T, G.table d = some T → ¬ T.Page q := by
  have hfail : Good lay G { m with fails := fun n => m.fails (n + 1) } :=
    ⟨h.part.congr fun a x => by cases a <;> exact Iff.rfl, h.nodup, h.root, h.rep⟩
  unfold Returns Post
  by_cases hf : m.fails 0 = true
  · rw [kalloc_none (.inl hf)]
    exact .inl ⟨rfl, hfail⟩
  · cases hfree : m.free with
    | nil =>
      rw [kalloc_none (.inr hfree)]
      exact .inl ⟨rfl, hfail⟩
    | cons q rest =>
      rw [kalloc_some (by simpa using hf) hfree]
      have hmem : q ∈ m.free := by simp [hfree]
      have hnd : q ∉ rest ∧ rest.Nodup := by simpa [hfree] using h.nodup
      refine .inr ⟨q, rfl, ?_, (fun hu => nomatch h.part.unique .used .free q hu hmem),
        fun d T hT => h.free_not_page hmem hT⟩
      constructor
      case part =>
        refine h.part.move (a := .free) (b := .used) hmem (by simp) (fun y => ?_) (fun y => Iff.rfl) ?_
        · have hrest : y ∈ rest → y ≠ q := fun hy he => hnd.1 (he ▸ hy)
          simpa [At, hfree, or_and_right] using hrest
        · rintro (_ | _ | ⟨d, a⟩) y hb hb'
          · exact absurd rfl hb
          · exact absurd rfl hb'
          · exact Iff.rfl
      case nodup => exact hnd.2
      case root => exact h.root
      case rep =>
        intro d T hT
        refine (h.rep d T hT).frame fun p hp => setPage_other fun he => ?_
        exact h.free_not_page hmem hT (he ▸ hp)

theorem Good.free (h : Good lay G m) (hq : G.used q) :
    Good lay (G.unuse q) { m.setPage q c with free := q :: m.free } := by
  constructor
  case part =>
    refine h.part.move (a := .used) (b := .free) hq (by simp) (fun y => and_comm) (fun y => List.mem_cons) ?_
    rintro (_ | _ | ⟨d, a⟩) y hb hb'
    · exact absurd rfl hb'
    · exact absurd rfl hb
    · exact Iff.rfl
  case nodup =>
    refine List.nodup_cons.mpr ⟨fun hfree => ?_, h.nodup⟩
    cases h.part.unique .free .used q hfree hq
  case root => exact h.root
  case rep =>
    intro d T hT
    refine (h.rep d T hT).frame fun p hp => setPage_other fun he => ?_
    exact h.used_not_page hq hT (he ▸ hp)

theorem kfree_managed (hq : lay.Managed q) :
    kfree lay q = change fun m => { m.setPage q fun _ => .ones with free := q :: m.free } := by
  obtain ⟨hlo, hhi⟩ := hq
  simp [kfree, Nat.not_lt.mpr hlo, Nat.not_le.mpr hhi]

theorem kfree_spec (h : Good lay G m) (hq : G.used q) :
    Returns (kfree lay q) m fun _ t => Good lay (G.unuse q) t := by
  rw [kfree_managed (h.part.within .used q hq)]
  exact h.free hq

theorem Good.setTable {G' : Ghost} {t : Mem} (h : Good lay G m) (htable : G'.table = G.table)
    (hpart : Partition lay.Managed (At (G'.setTable d o) t)) (hnodup : t.free.Nodup)
    (hnew : ∀ R, o = some R → R.root = d ∧ Represents t.pte R)
    (hkeep : ∀ d' S p, d' ≠ d → G.table d' = some S → S.Page p → t.pte p = m.pte p) :
    Good lay (G'.setTable d o) t := by
  have hcases : ∀ d' S, (G'.setTable d o).table d' = some S → d' = d ∧ o = some S ∨ d' ≠ d ∧ G.table d' = some S := by
    intro d' S hS
    by_cases hd : d' = d
    · exact .inl ⟨hd, by rwa [hd, setTable_self] at hS⟩
    · exact .inr ⟨hd, by rwa [setTable_other hd, htable] at hS⟩
  refine ⟨hpart, hnodup, fun d' S hS => ?_, fun d' S hS => ?_⟩
  · rcases hcases d' S hS with ⟨rfl, ho⟩ | ⟨_, hS⟩
    · exact (hnew S ho).1
    · exact h.root d' S hS
  · rcases hcases d' S hS with ⟨rfl, ho⟩ | ⟨hd, hS⟩
    · exact (hnew S ho).2
    · exact (h.rep d' S hS).frame fun p hp => hkeep d' S p hd hS hp

end TweakedXv6.Vm

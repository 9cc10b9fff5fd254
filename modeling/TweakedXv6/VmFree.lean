import TweakedXv6.VmMap

namespace TweakedXv6.Vm

open Prog

variable {lay : Layout} {G : Ghost} {m : Mem} {T : Table} {d q l b : Nat} {pte : Nat → Nat → Pte} {s : Spot}

def Table.empty (q : Nat) : Table where
  root := q
  node l a := if l = 2 ∧ a = 0 then some q else none
  leaf _ := none

theorem represents_empty (h : ∀ i, (pte q i).v = false) :
    Represents pte (.empty q) where
  top := by simp [Table.empty]
  single a ha := by
    by_contra hne
    simp [Table.empty, hne] at ha
  high l a hl := by
    simp only [Table.empty]
    rw [if_neg (by omega)]
  inner l a p hp j hj := by
    simp only [Table.empty] at hp ⊢
    split at hp
    next hla =>
      cases hp
      rw [if_neg (by omega)]
      exact h j
    next => cases hp
  bottom a p hp := by simp [Table.empty] at hp
  parent l a hl ha := by
    simp only [Table.empty] at ha
    rw [if_neg (by omega)] at ha
    exact absurd rfl ha
  leaf_parent n hn := absurd rfl hn

theorem at_empty : (Table.empty q).at s = if s = .node 2 0 then some q else none := by
  cases s with
  | node l a => simp [Table.at, Table.empty]
  | leaf n => simp [Table.at, Table.empty]

theorem Good.root_page (h : Good lay G m) (hT : G.table d = some T) : T.Page d :=
  ⟨2, 0, h.root d T hT ▸ (h.rep d T hT).top⟩

theorem Good.create (h : Good lay (G.use q) m) (hu : ¬ G.used q) :
    Good lay (G.setTable q (some (.empty q))) (m.setPage q fun _ => .zero) := by
  have hused : (G.use q).used q := .inl rfl
  have hnone : G.table q = none := by
    by_contra hne
    obtain ⟨T, hT⟩ := Option.ne_none_iff_exists'.mp hne
    exact h.used_not_page hused hT (h.root_page hT)
  refine h.setTable rfl (h.part.move (a := .used) (b := .spot q (.node 2 0)) hused (by simp) ?_ ?_ ?_) h.nodup ?_ ?_
  · intro y
    by_cases hy : y = q
    · simp [At, hy, hu]
    · simp [At, Ghost.use, hy]
  · intro y
    simp [at_empty, At, hnone, eq_comm]
  · intro b y hb hb'
    cases b with
    | free => exact Iff.rfl
    | used => exact absurd rfl hb
    | spot d s =>
      refine at_spot_same fun hd y => ?_
      have hs : s ≠ .node 2 0 := fun hs => hb' (by rw [hd, hs])
      simp [at_empty, hs, hnone]
  · rintro _ ⟨⟩
    exact ⟨rfl, represents_empty fun i => by simp [Pte.zero]⟩
  · exact fun d S p _ hS hp => setPage_other fun he => h.used_not_page hused hS (he ▸ hp)

theorem uvmcreate_spec (h : Good lay G m) : Returns uvmcreate m fun r t =>
    r = none ∧ Good lay G t ∨
      ∃ q, r = some q ∧ G.table q = none ∧ ¬ G.used q ∧ Good lay (G.setTable q (some (.empty q))) t := by
  refine (kalloc_spec h).bind ?_
  rintro r t (⟨rfl, ht⟩ | ⟨q, rfl, ht, hu, hpage⟩)
  · exact .inl ⟨rfl, ht⟩
  · refine .inr ⟨q, rfl, ?_, hu, ht.create hu⟩
    by_contra hne
    obtain ⟨T, hT⟩ := Option.ne_none_iff_exists'.mp hne
    exact hpage q T hT (h.root_page hT)

theorem Represents.only_root (h : Represents pte T) (hleaf : ∀ n, T.leaf n = none) (hchild : T.Childless 2 0)
    (hs : T.at s = some q) : s = .node 2 0 ∧ q = T.root := by
  have hone : ∀ a, T.node 1 a = none := by
    intro a
    by_contra hne
    have ha := h.single _ (h.parent 1 a (by decide) hne)
    exact hne (by simpa using hchild a (by omega))
  have hzero : ∀ a, T.node 0 a = none := by
    intro a
    by_contra hne
    exact h.parent 0 a (by decide) hne (hone _)
  cases s with
  | leaf n => simp [Table.at, hleaf] at hs
  | node l a =>
    change T.node l a = some q at hs
    have hl : l = 0 ∨ l = 1 ∨ l = 2 ∨ 2 < l := by omega
    rcases hl with rfl | rfl | rfl | hl
    · simp [hzero] at hs
    · simp [hone] at hs
    · have ha := h.single a (by simp [hs])
      subst ha
      exact ⟨rfl, Option.some.inj (hs.symm.trans h.top)⟩
    · simp [h.high l a hl] at hs

theorem Good.destroy (h : Good lay G m) (hT : G.table d = some T) (hleaf : ∀ n, T.leaf n = none)
    (hchild : T.Childless 2 0) : Returns (kfree lay d) m fun _ t => Good lay (G.setTable d none) t := by
  have hrep := h.rep d T hT
  have hroot := h.root d T hT
  have htop : T.at (.node 2 0) = some d := hroot ▸ hrep.top
  have hplace : At G m (.spot d (.node 2 0)) d := ⟨T, hT, htop⟩
  have hdfree : d ∉ m.free := fun hd => nomatch h.part.unique .free _ d hd hplace
  rw [kfree_managed (h.part.within _ d hplace)]
  refine h.setTable rfl (h.part.move (b := .free) hplace (by simp) ?_ (fun y => List.mem_cons) ?_)
    (List.nodup_cons.mpr ⟨hdfree, h.nodup⟩) nofun ?_
  · intro y
    simpa [At, hT, htop] using Eq.symm
  · intro b y hb hb'
    cases b with
    | free => exact absurd rfl hb'
    | used => exact Iff.rfl
    | spot d' s =>
      refine at_spot_same fun hd y => ?_
      have hs : T.at s ≠ some y := fun hs => hb (by rw [hd, (hrep.only_root hleaf hchild hs).1])
      simp [hT, hs]
  · intro d' S p hd hS hp
    exact setPage_other fun he => h.page_other hT (h.root_page hT) hS hd (he ▸ hp)

theorem Good.unlink (h : Good lay G m) (hT : G.table d = some T) (hl : l < 2) {p : Nat}
    (hq : T.node (l + 1) (b / 512) = some q) (hp : T.node l b = some p) (hchild : T.Childless l b) :
    Returns (kfree lay p >>= fun _ => writePte q (b % 512) .zero) m fun _ t =>
      Good lay (G.setTable d (some (T.setNode l b none))) t := by
  have hdist := h.distinct hT
  have hpq : p ≠ q := by
    rintro rfl
    have := (hdist.node_inj hp hq).1
    omega
  have hplace : At G m (.spot d (.node l b)) p := ⟨T, hT, hp⟩
  rw [kfree_managed (h.part.within _ p hplace)]
  refine h.take (s := .node l b) hT hp (fun a => at_setNode) rfl ?_ ?_ rfl
  · refine (h.rep d T hT).setNode hdist hl hq ?_ ?_ ?_ hchild (fun q' hq' => by cases hq')
    · intro x _ hxq hx
      have hxp : x ≠ p := fun he => hx (he ▸ hp)
      rw [setPte_other hxq]
      exact setPage_other hxp
    · rw [setPte_self]
      exact rfl
    · intro j hj
      rw [setPte_index hj]
      change (m.setPage p fun _ => Pte.ones).pte q j = _
      rw [setPage_other hpq.symm]
  · intro x hxp hx
    have hxq : x ≠ q := fun he => hx ⟨l + 1, b / 512, he ▸ hq⟩
    rw [setPte_other hxq]
    exact setPage_other hxp

end TweakedXv6.Vm

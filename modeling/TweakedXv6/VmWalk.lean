import TweakedXv6.VmOwner

namespace TweakedXv6.Vm

open Prog

variable {lay : Layout} {G : Ghost} {m t : Mem} {T R : Table} {d q l b n a va d' x : Nat} {s : Spot}
  {o : Option Table}

theorem at_setNode {o : Option Nat} : (T.setNode l b o).at s = if s = .node l b then o else T.at s := by
  cases s with
  | node l' b' => simp only [Table.at, Table.setNode, Spot.node.injEq]
  | leaf n => simp [Table.at]

theorem at_setLeaf {o : Option Pte} : (T.setLeaf n o).at s =
    if s = .leaf n then if n = trampVpn ∨ n = tfVpn then none else o.map Pte.ppn else T.at s := by
  cases s with
  | node l' b' => simp [Table.at]
  | leaf k =>
    by_cases hk : k = n
    · simp [Table.at, hk]
    · simp [Table.at, hk, setLeaf_other hk]

@[simp]
theorem setTable_setTable {o' : Option Table} : (G.setTable d o).setTable d o' = G.setTable d o' := by
  simp only [Ghost.setTable, Ghost.mk.injEq, true_and]
  funext d'
  split <;> rfl

theorem setTable_eq (h : G.table d = some T) : G.setTable d (some T) = G := by
  cases G
  simp only [Ghost.setTable, Ghost.mk.injEq, true_and]
  funext d'
  split
  next he => rw [he, ← h]
  next => rfl

theorem at_spot_same (h : d' = d → ∀ y, (∃ S, o = some S ∧ S.at s = some y) ↔
    ∃ S, G.table d = some S ∧ S.at s = some y) : At (G.setTable d o) m (.spot d' s) x ↔ At G m (.spot d' s) x := by
  by_cases hd : d' = d
  · subst hd
    simpa [At] using h rfl x
  · simp [At, setTable_other hd]

theorem Good.put (h : Good lay (G.use q) m) (hu : ¬ G.used q) (hT : G.table d = some T)
    (hat : ∀ a, R.at a = if a = s then some q else T.at a) (hnone : T.at s = none) (hroot : R.root = T.root)
    (hrep : Represents t.pte R) (hkeep : ∀ p, p ≠ q → ¬ T.Page p → t.pte p = m.pte p) (hfree : t.free = m.free) :
    Good lay (G.setTable d (some R)) t := by
  have hused : (G.use q).used q := .inl rfl
  refine h.setTable rfl (h.part.move (a := .used) (b := .spot d s) hused (by simp) ?_ ?_ ?_) (hfree ▸ h.nodup) ?_ ?_
  · intro y
    by_cases hy : y = q
    · simp [At, hy, hu]
    · simp [At, Ghost.use, hy]
  · intro y
    simp [hat, At, hT, hnone, eq_comm]
  · intro b y hb hb'
    cases b with
    | free => simp [At, hfree]
    | used => exact absurd rfl hb
    | spot d' a =>
      refine at_spot_same fun hd y => ?_
      have ha : a ≠ s := fun ha => hb' (by rw [hd, ha])
      simp [hat, ha, hT]
  · rintro _ ⟨⟩
    exact ⟨hroot.trans (h.root d T hT), hrep⟩
  · intro d' S p hd hS hp
    exact hkeep p (fun he => h.used_not_page hused hS (he ▸ hp)) fun hpT => h.page_other hT hpT hS hd hp

theorem Good.take (h : Good lay G m) (hT : G.table d = some T) (hs : T.at s = some q)
    (hat : ∀ a, R.at a = if a = s then none else T.at a) (hroot : R.root = T.root) (hrep : Represents t.pte R)
    (hkeep : ∀ p, p ≠ q → ¬ T.Page p → t.pte p = m.pte p) (hfree : t.free = q :: m.free) :
    Good lay (G.setTable d (some R)) t := by
  have hplace : At G m (.spot d s) q := ⟨T, hT, hs⟩
  have hqfree : q ∉ m.free := fun hq => nomatch h.part.unique .free _ q hq hplace
  refine h.setTable rfl (h.part.move (b := .free) hplace (by simp) ?_ ?_ ?_)
    (hfree ▸ List.nodup_cons.mpr ⟨hqfree, h.nodup⟩) ?_ ?_
  · intro y
    simpa [At, hT, hat, hs] using Eq.symm
  · intro y
    simp [At, hfree]
  · intro b y hb hb'
    cases b with
    | free => exact absurd rfl hb'
    | used => exact Iff.rfl
    | spot d' a =>
      refine at_spot_same fun hd y => ?_
      have ha : a ≠ s := fun ha => hb (by rw [hd, ha])
      simp [hat, ha, hT]
  · rintro _ ⟨⟩
    exact ⟨hroot.trans (h.root d T hT), hrep⟩
  · rintro d' S p hd hS ⟨l, a, hp⟩
    refine hkeep p ?_ fun hpT => h.page_other hT hpT hS hd ⟨l, a, hp⟩
    rintro rfl
    cases h.part.unique (.spot d' (.node l a)) _ p ⟨S, hS, hp⟩ hplace
    exact hd rfl

theorem Good.same (h : Good lay G m) (hT : G.table d = some T) (hat : ∀ a, R.at a = T.at a) (hroot : R.root = T.root)
    (hrep : Represents t.pte R) (hkeep : ∀ p, ¬ T.Page p → t.pte p = m.pte p) (hfree : t.free = m.free) :
    Good lay (G.setTable d (some R)) t := by
  refine h.setTable rfl (h.part.congr fun b x => ?_) (hfree ▸ h.nodup) ?_ ?_
  · cases b with
    | free => simp [At, hfree]
    | used => exact Iff.rfl
    | spot d' a => exact at_spot_same fun _ y => by simp [hat, hT]
  · rintro _ ⟨⟩
    exact ⟨hroot.trans (h.root d T hT), hrep⟩
  · exact fun d' S p hd hS hp => hkeep p fun hpT => h.page_other hT hpT hS hd hp

theorem walkStep_find (h : Represents m.pte T) (hq : T.node (l + 1) (b / 512) = some q) :
    walkStep q (b % 512) false m = .ok (T.node l b, m) := by
  have hent := h.inner l (b / 512) q hq (b % 512) (Nat.mod_lt _ (by decide))
  rw [show 512 * (b / 512) + b % 512 = b by omega] at hent
  unfold walkStep readPte
  rw [run_bind run_read]
  cases hb : T.node l b with
  | none =>
    simp only [hb, Entry] at hent
    simp [hent]
  | some p =>
    simp only [hb, Entry] at hent
    simp [hent, Pte.table]

theorem walkStep_alloc (h : Good lay G m) (hT : G.table d = some T) (hl : l < 2)
    (hq : T.node (l + 1) (b / 512) = some q) :
    Returns (walkStep q (b % 512) true) m fun r t => ∃ S, Good lay (G.setTable d (some S)) t ∧
      S.root = T.root ∧ S.leaf = T.leaf ∧ r = S.node l b ∧
      ∀ l' a p, T.node l' a = some p → S.node l' a = some p := by
  have hrep := h.rep d T hT
  have hent := hrep.inner l (b / 512) q hq (b % 512) (Nat.mod_lt _ (by decide))
  rw [show 512 * (b / 512) + b % 512 = b by omega] at hent
  have hsame : Good lay (G.setTable d (some T)) m := (setTable_eq hT).symm ▸ h
  rw [Returns, walkStep, readPte, post_read_bind]
  cases hb : T.node l b with
  | some p =>
    simp only [hb, Entry] at hent
    rw [hent, if_pos rfl]
    refine ⟨T, hsame, rfl, rfl, ?_, fun _ _ _ hp => hp⟩
    rw [hb]
    rfl
  | none =>
    simp only [hb, Entry] at hent
    rw [hent, if_neg (by simp), if_pos rfl]
    refine (kalloc_spec h).bind ?_
    rintro r t (⟨rfl, ht⟩ | ⟨p, rfl, ht, hu, hpage⟩)
    · exact ⟨T, (setTable_eq hT).symm ▸ ht, rfl, rfl, hb.symm, fun _ _ _ hp => hp⟩
    · refine ⟨T.setNode l b (some p), ?_, rfl, rfl, setNode_self.symm, ?_⟩
      · refine ht.put (s := .node l b) hu hT (fun a => at_setNode) hb rfl ?_ ?_ rfl
        · exact (ht.rep d T hT).link (ht.distinct hT) hl hq hb (hpage d T hT)
        · intro x hx hxT
          have hxq : x ≠ q := fun he => hxT (he ▸ ⟨l + 1, b / 512, hq⟩)
          rw [setPte_other hxq, setPage_other hx]
      · intro l' a x hx
        by_cases hla : l' = l ∧ a = b
        · obtain ⟨rfl, rfl⟩ := hla
          simp [hb] at hx
        · rw [setNode_other hla]
          exact hx

theorem px_two (h : va < MAXVA) : px 2 va = va / 4096 / 512 / 512 % 512 ∧ va / 4096 / 512 / 512 / 512 = 0 := by
  unfold MAXVA at h
  simp only [px]
  omega

theorem px_one : px 1 va = va / 4096 / 512 % 512 := by
  simp only [px]
  omega

theorem walk_find (h : Represents m.pte T) (hva : va < MAXVA) : walk T.root va false m =
    .ok ((T.node 0 (va / 4096 / 512)).map fun q => (q, va / 4096 % 512), m) := by
  obtain ⟨hpx2, htop⟩ := px_two hva
  have hroot : T.node (1 + 1) (va / 4096 / 512 / 512 / 512) = some T.root := by
    rw [htop]
    exact h.top
  have h1 := walkStep_find h hroot
  unfold walk
  rw [if_neg (Nat.not_le.mpr hva), hpx2, px_one, run_bind h1]
  cases hq : T.node 1 (va / 4096 / 512 / 512) with
  | none =>
    have hnone : T.node 0 (va / 4096 / 512) = none := by
      by_contra hne
      exact h.parent 0 _ (by decide) hne hq
    simp [hnone]
  | some t1 =>
    dsimp only
    rw [run_bind (walkStep_find h (l := 0) hq)]
    cases T.node 0 (va / 4096 / 512) <;> rfl

theorem walk_alloc (h : Good lay G m) (hT : G.table d = some T) (hva : va < MAXVA) :
    Returns (walk d va true) m fun r t => ∃ S, Good lay (G.setTable d (some S)) t ∧
      S.root = T.root ∧ S.leaf = T.leaf ∧
      (r = none ∨ ∃ q, r = some (q, va / 4096 % 512) ∧ S.node 0 (va / 4096 / 512) = some q) := by
  obtain ⟨hpx2, htop⟩ := px_two hva
  have hroot : T.node (1 + 1) (va / 4096 / 512 / 512 / 512) = some d := by
    rw [htop, ← h.root d T hT]
    exact (h.rep d T hT).top
  unfold walk
  rw [if_neg (Nat.not_le.mpr hva), hpx2, px_one]
  refine (walkStep_alloc h hT (by decide) hroot).bind ?_
  rintro r t ⟨S, hS, hr, hleaf, rfl, _⟩
  cases hq : S.node 1 (va / 4096 / 512 / 512) with
  | none => exact ⟨S, hS, hr, hleaf, .inl rfl⟩
  | some t1 =>
    refine (walkStep_alloc hS setTable_self (by decide) hq).bind ?_
    rintro r u ⟨S', hS', hr', hleaf', rfl, _⟩
    rw [setTable_setTable] at hS'
    cases hq0 : S'.node 0 (va / 4096 / 512) with
    | none => exact ⟨S', hS', hr'.trans hr, hleaf'.trans hleaf, .inl rfl⟩
    | some t0 => exact ⟨S', hS', hr'.trans hr, hleaf'.trans hleaf, .inr ⟨t0, rfl, hq0⟩⟩

end TweakedXv6.Vm

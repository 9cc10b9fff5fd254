import TweakedXv6.MallocFree

namespace TweakedXv6.Malloc

variable {s t : State} {L D l₁ l₂ : List Nat} {a b p q x n f k fuel nunits prevp : Nat}
  {answers : List (Option Nat)}

theorem Inv.addBlock (h : Inv s L D) (hq : s.base < q ∧ 0 < s.size q ∧ s.stop q ≤ s.brk)
    (hL : ∀ a ∈ s.base :: L, s.apart a q) (hD : ∀ d ∈ D, s.apart q d) : Inv s L (q :: D) where
  circle := h.circle
  order := h.order
  base0 := h.base0
  pos := h.pos
  bound := h.bound
  block d hd := by
    rcases List.mem_cons.mp hd with rfl | hd
    · exact hq
    · exact h.block d hd
  apart a ha d hd := by
    rcases List.mem_cons.mp hd with rfl | hd
    · exact hL a ha
    · exact h.apart a ha d hd
  apartD := List.pairwise_cons.mpr ⟨hD, h.apartD⟩
  low := h.low
  small := h.small

theorem unlink_spec (h : Inv s L D) (he : s.base :: L = l₁ ++ prevp :: p :: l₂) :
    ∃ L', Inv (s.setPtr prevp (s.ptr p)) L' (p :: D) ∧ prevp ∈ s.base :: L' ∧
      ∀ x, (s.setPtr prevp (s.ptr p)).covers (s.base :: L') x ∨ p ≤ x ∧ x < s.stop p ↔ s.covers (s.base :: L) x := by
  obtain ⟨hcross, hprev, hord₃⟩ := h.cut he
  have hstop : ∀ a, (s.setPtr prevp (s.ptr p)).stop a = s.stop a := fun a => setPtr_stop
  have hpL : p ∈ L := by
    have hp : p ∈ s.base :: L := by simp [he]
    refine (List.mem_cons.mp hp).resolve_left fun hpb => ?_
    have hnd := h.nodup
    rw [he] at hnd
    cases l₁ with
    | nil =>
      cases he
      simp [hpb] at hnd
    | cons c l₁ =>
      cases he
      simp [hpb] at hnd
  have hprevmem : prevp ∈ s.base :: L := by simp [he]
  have hne : ∀ a ∈ p :: l₂, a ≠ prevp := fun a ha => Nat.ne_of_gt (lt_of_stop_lt (hprev a ha))
  have hlinks := (h.circle.cut he).2
  have hrel : Relinked s (s.setPtr prevp (s.ptr p)) l₁ prevp l₂ D := by
    refine .of_fits ⟨rfl, rfl, rfl, rfl⟩ ?_ ?_ ?_ ?_ ?_ ?_ ?_
    · intro a ha
      exact setPtr_mem (Nat.ne_of_lt (lt_of_stop_lt (hcross a ha)))
    · intro d hd
      refine setPtr_mem fun hdp => h.not_free hd (hdp ▸ hprevmem)
    · rw [List.cons_append, List.isChain_cons_cons] at hlinks
      have hp := hlinks.2
      rw [List.isChain_cons] at hp ⊢
      refine ⟨fun y hy => ?_, isChain_congr hp.2 fun a ha y hy => ?_⟩
      · rw [setPtr_ptr, if_pos rfl]
        exact hp.1 y hy
      · rw [setPtr_ptr, if_neg (hne a (List.mem_cons_of_mem p ha))]
        exact hy
    · simp only [hstop]
      exact List.pairwise_cons.mpr ⟨fun a ha => hprev a (List.mem_cons_of_mem p ha), (List.pairwise_cons.mp hord₃).2⟩
    · intro a ha
      exact lt_of_stop_lt (hprev a (List.mem_cons_of_mem p ha))
    · rintro rfl
      rw [setPtr_size]
      exact h.base0
    · intro a ha
      refine h.fits (List.Subset.refl D) ?_ setPtr_size
      rw [he]
      rcases List.mem_cons.mp ha with rfl | ha
      · simp
      · simp [ha]
  obtain ⟨L', he', hinv⟩ := h.relink (List.Sublist.refl D) he hrel
  change s.base :: L' = _ at he'
  refine ⟨L', hinv.addBlock ⟨h.base_lt hpL, ?_, ?_⟩ ?_ ?_, by rw [he']; simp, ?_⟩
  · rw [setPtr_size]
    exact h.pos p hpL
  · rw [hstop]
    exact h.bound p (List.mem_cons_of_mem _ hpL)
  · intro a ha
    change a ∈ s.base :: L' at ha
    rw [he', List.mem_append, List.mem_cons] at ha
    unfold State.apart
    rw [hstop, hstop]
    rcases ha with ha | rfl | ha
    · exact .inl ((hcross a ha).trans (lt_of_stop_lt (hprev p List.mem_cons_self))).le
    · exact .inl (hprev p List.mem_cons_self).le
    · exact .inr ((List.pairwise_cons.mp hord₃).1 a ha).le
  · intro d hd
    unfold State.apart
    rw [hstop, hstop]
    exact h.apart p (List.mem_cons_of_mem _ hpL) d hd
  · intro x
    rw [covers_congr fun a _ => hstop a, he', he, covers_append, covers_append, covers_cons, covers_cons, covers_cons]
    grind

theorem split_spec (h : Inv s L D) (hp : p ∈ L) (hn : 0 < nunits) (hlt : nunits < s.size p) :
    let t := s.setSize p (s.size p - nunits)
    let q := t.stop p
    Inv (t.setSize q nunits) L (q :: D) ∧ (∀ d ∈ D, (t.setSize q nunits).mem d = s.mem d) ∧
      (t.setSize q nunits).stop q = s.stop p ∧
      ∀ x, (t.setSize q nunits).covers (s.base :: L) x ∨ q ≤ x ∧ x < (t.setSize q nunits).stop q ↔
        s.covers (s.base :: L) x := by
  intro t q
  have hpC : p ∈ s.base :: L := List.mem_cons_of_mem _ hp
  have hq : q = p + unit * (s.size p - nunits) := by simp [q, t, State.stop]
  have hpq : p < q ∧ q < s.stop p := by
    rw [hq]
    unfold State.stop unit
    omega
  obtain ⟨l₁, l₂, he⟩ := List.append_of_mem hpC
  obtain ⟨hcross, hafter, hord₃⟩ := h.cut he
  -- the new header lies inside the block, so it is none of the others
  have hqC : ∀ a ∈ s.base :: L, a ≠ q := by
    intro a ha haq
    rw [he, List.mem_append, List.mem_cons] at ha
    rcases ha with ha | rfl | ha
    · have := lt_of_stop_lt (hcross a ha)
      omega
    · omega
    · have := hafter a ha
      omega
  have hpD : ∀ d ∈ D, s.stop p ≤ d ∨ s.stop d ≤ p := fun d hd => h.apart p hpC d hd
  have hdq : ∀ d ∈ D, d ≠ q := by
    intro d hd hdq
    have hd1 := hpD d hd
    have := lt_stop (h.block d hd).2.1
    omega
  have hdp : ∀ d ∈ D, d ≠ p := fun d hd hdp => h.not_free hd (hdp ▸ hpC)
  have hmem : ∀ a, a ≠ p → a ≠ q → (t.setSize q nunits).mem a = s.mem a := by
    intro a hap haq
    rw [setSize_mem haq, setSize_mem hap]
  have hstopq : (t.setSize q nunits).stop q = s.stop p := by
    simp only [State.stop, setSize_size, if_true]
    rw [hq]
    unfold unit
    omega
  have hstopp : (t.setSize q nunits).stop p = q := by
    rw [setSize_stop (by omega)]
  have hptr : ∀ a, (t.setSize q nunits).ptr a = s.ptr a := by
    intro a
    simp [t]
  have hrel : Relinked s (t.setSize q nunits) l₁ p l₂ D := by
    refine .of_fits ⟨rfl, rfl, rfl, rfl⟩ ?_ ?_ ?_ ?_ ?_ ?_ ?_
    · intro a ha
      have := lt_of_stop_lt (hcross a ha)
      exact hmem a (by omega) (by omega)
    · intro d hd
      exact hmem d (hdp d hd) (hdq d hd)
    · simp only [hptr]
      exact (h.circle.cut he).2
    · refine List.pairwise_cons.mpr ⟨fun a ha => ?_, hord₃.imp_of_mem fun {a b} ha _ hab => ?_⟩
      · rw [hstopp]
        have := hafter a ha
        omega
      · have := hafter a ha
        rwa [stop_congr (hmem a (by omega) (by omega))]
    · intro a ha
      exact lt_of_stop_lt (hafter a ha)
    · rintro rfl
      exact absurd (h.base_lt hp) (Nat.lt_irrefl _)
    · refine List.forall_mem_cons.mpr ⟨⟨.inr ?_, ?_, fun d hd => ?_⟩, fun a ha => ?_⟩
      · rw [setSize_size, if_neg (by omega)]
        simp only [t, setSize_size, if_true]
        omega
      · rw [hstopp]
        have := h.bound p hpC
        omega
      · rw [hstopp]
        have := hpD d hd
        omega
      · have := hafter a ha
        exact h.fits (List.Subset.refl D) (by simp [he, ha]) (size_congr (hmem a (by omega) (by omega)))
  obtain ⟨L', he', hinv⟩ := h.relink (List.Sublist.refl D) he hrel
  have hL : L' = L := by
    have : s.base :: L' = s.base :: L := he'.trans he.symm
    exact (List.cons.inj this).2
  subst hL
  refine ⟨hinv.addBlock ⟨?_, ?_, ?_⟩ ?_ ?_, fun d hd => hmem d (hdp d hd) (hdq d hd), hstopq, fun x => ?_⟩
  · have := h.base_lt hp
    change s.base < q
    omega
  · simp only [setSize_size, if_true]
    exact hn
  · rw [hstopq]
    exact h.bound p hpC
  · intro a ha
    change a ∈ s.base :: L' at ha
    unfold State.apart
    rw [hstopq]
    rw [he, List.mem_append, List.mem_cons] at ha
    rcases ha with ha | rfl | ha
    · have hap := hcross a ha
      have := lt_of_stop_lt hap
      rw [stop_congr (hmem a (by omega) (by omega))]
      omega
    · rw [hstopp]
      exact .inl (Nat.le_refl _)
    · exact .inr (hafter a ha).le
  · intro d hd
    unfold State.apart
    rw [hstopq, stop_congr (hmem d (hdp d hd) (hdq d hd))]
    have := hpD d hd
    omega
  · rw [hstopq, he, covers_append, covers_append, covers_cons, covers_cons, hstopp,
      covers_congr (t := t.setSize q nunits) (s := s) (m := l₁), covers_congr (t := t.setSize q nunits) (s := s) (m := l₂)]
    · have : p ≤ x ∧ x < s.stop p ↔ p ≤ x ∧ x < q ∨ q ≤ x ∧ x < s.stop p := by omega
      grind
    · intro a ha
      have := hafter a ha
      exact stop_congr (hmem a (by omega) (by omega))
    · intro a ha
      have := lt_of_stop_lt (hcross a ha)
      exact stop_congr (hmem a (by omega) (by omega))

structure Taken (s : State) (L D : List Nat) (nunits q : Nat) (t : State) (L' : List Nat) : Prop where
  list : Listed t L' (q :: D)
  same : s.Same t
  mem : ∀ d ∈ D, t.mem d = s.mem d
  size : t.size q = nunits
  covers : ∀ x, t.covers (t.base :: L') x ∨ q ≤ x ∧ x < t.stop q ↔ s.covers (s.base :: L) x

theorem take_spec (h : Inv s L D) (hprev : prevp ∈ s.base :: L) (hp : s.ptr prevp = p) (hn : 0 < nunits)
    (hle : nunits ≤ s.size p) : ∃ L', Taken s L D nunits (take s nunits prevp p).1 (take s nunits prevp p).2 L' := by
  have hpbase : p ≠ s.base := by
    rintro rfl
    rw [h.base0] at hle
    omega
  obtain ⟨l₁, l₂, he⟩ := List.append_of_mem hprev
  obtain ⟨l₃, hl₃⟩ : ∃ l₃, l₂ = p :: l₃ := by
    rcases h.next_of_cut he with ⟨_, hb⟩ | ⟨q, l₃, hl, hq, _⟩
    · exact absurd (hp.symm.trans hb) hpbase
    · exact ⟨l₃, by rw [hl, ← hq, hp]⟩
  subst hl₃
  have hpL : p ∈ L := by
    have hpC : p ∈ s.base :: L := by simp [he]
    exact (List.mem_cons.mp hpC).resolve_left hpbase
  unfold take
  split
  next hexact =>
    obtain ⟨L', hinv, hmem, hcov⟩ := unlink_spec h he
    refine ⟨L', hinv.listed hmem, ⟨rfl, rfl, rfl, rfl⟩, fun d hd => ?_, ?_, fun x => ?_⟩
    · exact setPtr_mem fun hdp => h.not_free hd (hdp ▸ hprev)
    · exact setPtr_size.trans hexact
    · have hstop : (s.setPtr prevp (s.ptr p)).stop p = s.stop p := setPtr_stop
      have := hcov x
      rw [← hstop] at this
      exact this
  next hexact =>
    obtain ⟨hinv, hmem, hstop, hcov⟩ := split_spec h hpL hn (by omega)
    exact ⟨L, hinv.listed hprev, ⟨rfl, rfl, rfl, rfl⟩, hmem, by simp [State.size, State.setSize], hcov⟩

/-- The loop of `malloc` takes the first block that is large enough, or comes to `freep` and finds none.
-/
theorem mallocLoop_scan (nunits : Nat) (answers : List (Option Nat)) (h : Inv s L D) (hf : s.freep = some f)
    (hprev : prevp ∈ s.base :: L) (hk : s.ptr^[k] (s.ptr prevp) = f) (hfuel : k < fuel) :
    (∃ prevq ∈ s.base :: L, nunits ≤ s.size (s.ptr prevq) ∧
      mallocLoop nunits fuel s answers prevp (s.ptr prevp) =
        some (some (take s nunits prevq (s.ptr prevq)).1, (take s nunits prevq (s.ptr prevq)).2)) ∨
    ∃ j fuel', s.ptr^[j] (s.ptr prevp) = f ∧ (∀ i ≤ j, s.size (s.ptr^[i] (s.ptr prevp)) < nunits) ∧
      fuel ≤ fuel' + k + 1 ∧
      (∀ t, morecore s nunits (answers.head?.getD none) = some (none, t) →
        mallocLoop nunits fuel s answers prevp (s.ptr prevp) = some (none, t)) ∧
      ∀ q t, morecore s nunits (answers.head?.getD none) = some (some q, t) →
        mallocLoop nunits fuel s answers prevp (s.ptr prevp) =
          mallocLoop nunits fuel' t answers.tail q (t.ptr q) := by
  obtain ⟨fuel, rfl⟩ := Nat.exists_eq_succ_of_ne_zero (Nat.ne_of_gt (Nat.lt_of_le_of_lt (Nat.zero_le k) hfuel))
  induction k generalizing prevp fuel with
  | zero =>
    have hpf : s.ptr prevp = f := hk
    rw [mallocLoop]
    by_cases hbig : nunits ≤ s.size (s.ptr prevp)
    · exact .inl ⟨prevp, hprev, hbig, if_pos hbig⟩
    · rw [if_neg hbig, if_pos (by rw [hf, hpf])]
      refine .inr ⟨0, fuel, hk, fun i hi => ?_, by omega, fun t ht => by rw [ht]; rfl, fun q t ht => by rw [ht]; rfl⟩
      rw [Nat.le_zero.mp hi]
      exact Nat.not_le.mp hbig
  | succ k ih =>
    rw [mallocLoop]
    by_cases hbig : nunits ≤ s.size (s.ptr prevp)
    · exact .inl ⟨prevp, hprev, hbig, if_pos hbig⟩
    · rw [if_neg hbig]
      by_cases hpf : s.freep = some (s.ptr prevp)
      · rw [if_pos hpf]
        refine .inr ⟨0, fuel, ?_, fun i hi => ?_, by omega, fun t ht => by rw [ht]; rfl, fun q t ht => by rw [ht]; rfl⟩
        · exact Option.some.inj (hpf.symm.trans hf)
        · rw [Nat.le_zero.mp hi]
          exact Nat.not_le.mp hbig
      · rw [if_neg hpf]
        obtain ⟨fuel, rfl⟩ := Nat.exists_eq_succ_of_ne_zero (show fuel ≠ 0 by omega)
        rcases ih (h.circle.next_mem hprev) hk fuel (by omega) with hfound | ⟨j, fuel', hj, hsmall, hle, hmore⟩
        · exact .inl hfound
        · refine .inr ⟨j + 1, fuel', hj, fun i hi => ?_, by omega, hmore⟩
          cases i with
          | zero => exact Nat.not_le.mp hbig
          | succ i => exact hsmall i (by omega)

def coreUnits (nu : Nat) : Nat := if nu < 4096 then 4096 else nu

theorem request_eq (h : n < 134217728) : request n = (n * unit : Nat) := by
  unfold request unit
  exact Int.bmod_eq_of_le (by omega) (by omega)

theorem Inv.grow (h : Inv s L D) {nu : Nat} (hp : s.brk ≤ p) (hnu : 0 < nu) (hsmall : p + nu * unit ≤ 68719476720) :
    Inv ({ s with brk := p + nu * unit, heap := (p, nu * unit) :: s.heap }.setSize p nu) L (p :: D) := by
  generalize ht : ({ s with brk := p + nu * unit, heap := (p, nu * unit) :: s.heap } : State).setSize p nu = t
  have hbase : t.base = s.base := by
    rw [← ht]
    rfl
  have hbrk : t.brk = p + nu * unit := by
    rw [← ht]
    rfl
  have hle : s.brk ≤ t.brk := by omega
  have hC : ∀ a ∈ s.base :: L, a < p := fun a ha => (h.lt_brk ha).trans_le hp
  have hmem : ∀ a, a ≠ p → t.mem a = s.mem a := by
    intro a ha
    rw [← ht, setSize_mem ha]
  have hptr : t.ptr = s.ptr := by
    funext a
    rw [← ht]
    simp only [setSize_ptr]
    rfl
  have hmemC : ∀ a ∈ s.base :: L, t.mem a = s.mem a := fun a ha => hmem a (Nat.ne_of_lt (hC a ha))
  have hmemD : ∀ d ∈ D, t.mem d = s.mem d := fun d hd => hmem d (Nat.ne_of_lt ((h.block_lt hd).trans_le hp))
  have hstopC : ∀ a ∈ s.base :: L, t.stop a = s.stop a := fun a ha => stop_congr (hmemC a ha)
  have hstopD : ∀ d ∈ D, t.stop d = s.stop d := fun d hd => stop_congr (hmemD d hd)
  have hsizep : t.size p = nu := by
    rw [← ht]
    simp
  have hstopp : t.stop p = p + nu * unit := by
    rw [State.stop, hsizep, Nat.mul_comm]
  have hinv : Inv t L D := by
    constructor
    case circle =>
      rw [hbase, hptr]
      exact h.circle
    case order =>
      rw [hbase]
      refine h.order.imp_of_mem ?_
      intro a b ha _ hab
      rwa [hstopC a ha]
    case base0 =>
      rw [hbase, size_congr (hmemC _ List.mem_cons_self)]
      exact h.base0
    case pos =>
      intro a ha
      rw [size_congr (hmemC a (List.mem_cons_of_mem _ ha))]
      exact h.pos a ha
    case bound =>
      intro a ha
      rw [hbase] at ha
      rw [hstopC a ha]
      exact (h.bound a ha).trans hle
    case block =>
      intro d hd
      obtain ⟨h1, h2, h3⟩ := h.block d hd
      rw [hbase, hstopD d hd, size_congr (hmemD d hd)]
      exact ⟨h1, h2, h3.trans hle⟩
    case apart =>
      intro a ha d hd
      rw [hbase] at ha
      unfold State.apart
      rw [hstopC a ha, hstopD d hd]
      exact h.apart a ha d hd
    case apartD =>
      refine h.apartD.imp_of_mem ?_
      intro d d' hd hd' hdd
      unfold State.apart at hdd ⊢
      rwa [hstopD d hd, hstopD d' hd']
    case low =>
      rw [hbase]
      exact h.low.trans_le hle
    case small =>
      rw [hbrk]
      exact hsmall
  refine hinv.addBlock ⟨?_, ?_, ?_⟩ ?_ ?_
  · rw [hbase]
    exact hC _ List.mem_cons_self
  · rw [hsizep]
    exact hnu
  · rw [hstopp, hbrk]
  · intro a ha
    rw [hbase] at ha
    rw [State.apart, hstopC a ha]
    exact .inl ((h.bound a ha).trans hp)
  · intro d hd
    rw [State.apart, hstopD d hd]
    exact .inr ((h.block d hd).2.2.trans hp)

structure Grown (s : State) (L D : List Nat) (p len : Nat) (t : State) (L' : List Nat) : Prop where
  list : Listed t L' D
  length : L'.length ≤ L.length + 1
  base : t.base = s.base
  live : t.live = s.live
  heap : t.heap = (p, len) :: s.heap
  mem : ∀ d ∈ D, t.mem d = s.mem d
  covers : ∀ x, t.covers (t.base :: L') x ↔ p ≤ x ∧ x < p + len ∨ s.covers (s.base :: L) x

theorem morecore_spec (answer : Option Nat) (h : Listed s L D) (hnu : nunits < 134217728)
    (hans : ∀ p, answer = some p → p < 34359738368) : morecore s nunits answer = some (none, s) ∨
    ∃ t L' g p, morecore s nunits answer = some (some g, t) ∧ t.freep = some g ∧
      Grown s L D p (coreUnits nunits * unit) t L' ∧ ∃ b ∈ t.base :: L', nunits ≤ t.size b := by
  have hcore : coreUnits nunits < 134217728 ∧ nunits ≤ coreUnits nunits ∧ 0 < coreUnits nunits := by
    unfold coreUnits
    split <;> omega
  unfold morecore
  dsimp only
  rw [← coreUnits, request_eq hcore.1]
  cases answer with
  | none => exact .inl rfl
  | some p =>
    have hp := hans p rfl
    unfold sbrk
    rw [Option.bind_some]
    split
    next hnone => exact .inl rfl
    next q t ht =>
      split at ht
      next hok =>
        cases ht
        rw [Int.toNat_natCast]
        obtain ⟨hinv, f, hf, hfm⟩ := h
        have hgrow := hinv.grow hok.1 hcore.2.2 (by unfold unit; omega)
        obtain ⟨u, L', hfree, hlist, ⟨hb, _, hheap, hlive⟩, hmem, hlen, ⟨b, hbm, hbp, hbs⟩, hcov⟩ :=
          free_spec ⟨hgrow, f, hf, hfm⟩
        obtain ⟨hinv', g, hg, hgm⟩ := hlist
        rw [hfree]
        have hsizep : ∀ r : State, (r.setSize p (coreUnits nunits)).stop p = p + coreUnits nunits * unit := by
          intro r
          simp [State.stop, Nat.mul_comm]
        refine .inr ⟨u, L', g, p, ?_, hg, ⟨⟨hinv', g, hg, hgm⟩, hlen, hb, hlive, hheap, ?_, ?_⟩, b, hbm, ?_⟩
        · rw [Option.map_some, hg]
        · intro d hd
          rw [hmem d hd, setSize_mem (Nat.ne_of_lt ((hinv.block_lt hd).trans_le hok.1))]
        · intro x
          rw [hcov x, hsizep]
          refine or_congr_right (covers_congr fun a ha => ?_)
          rw [setSize_stop (Nat.ne_of_lt ((hinv.lt_brk ha).trans_le hok.1))]
          rfl
        · rw [hsizep] at hbs
          unfold State.stop unit at hbs
          omega
      next => cases ht

theorem mallocLoop_spec (fuel : Nat) (h : Listed s L D) (hn : 0 < nunits) (hnu : nunits < 134217728)
    (hans : ∀ p, some p ∈ answers → p < 34359738368) (hfuel : 2 * s.brk + 2 ≤ fuel) (hf : s.freep = some f) :
    ∃ u L₁, (u = s ∧ L₁ = L ∨ ∃ p, Grown s L D p (coreUnits nunits * unit) u L₁) ∧
      (mallocLoop nunits fuel s answers f (s.ptr f) = some (none, u) ∨
        ∃ q t L', mallocLoop nunits fuel s answers f (s.ptr f) = some (some q, t) ∧ Taken u L₁ D nunits q t L') := by
  obtain ⟨hinv, g, hg, hfm⟩ := h
  cases hf.symm.trans hg
  have hlen := hinv.length_lt
  rcases mallocLoop_scan nunits answers hinv hf hfm (hinv.circle.around hfm)
    (show L.length < fuel by omega) with ⟨prevq, hq, hbig, heq⟩ | ⟨j, fuel', hj, hsmall, hle, hno, hyes⟩
  · obtain ⟨L', ht⟩ := take_spec hinv hq rfl hn hbig
    exact ⟨s, L, .inl ⟨rfl, rfl⟩, .inr ⟨_, _, L', heq, ht⟩⟩
  · have hans' : ∀ p, answers.head?.getD none = some p → p < 34359738368 := by
      intro p hp
      cases answers with
      | nil => cases hp
      | cons a answers => exact hans p (by rw [← show a = some p from hp]; exact List.mem_cons_self)
    rcases morecore_spec (answers.head?.getD none) ⟨hinv, f, hf, hfm⟩ hnu hans' with
      hfail | ⟨u, L₁, g, p, hok, hg', hgrown, b, hbm, hb⟩
    · exact ⟨s, L, .inl ⟨rfl, rfl⟩, .inl (hno s hfail)⟩
    · -- the second time around a large enough block is met
      obtain ⟨hinv', g', hg'', hgm⟩ := hgrown.list
      cases Option.some.inj (hg'.symm.trans hg'')
      have hlen' := hgrown.length
      rw [hyes g u hok]
      rcases mallocLoop_scan nunits answers.tail hinv' hg' hgm (hinv'.circle.around hgm)
        (show L₁.length < fuel' by omega) with ⟨prevq, hq, hbig, heq⟩ | ⟨j', fuel'', hj', hsmall', _⟩
      · obtain ⟨L', ht⟩ := take_spec hinv' hq rfl hn hbig
        exact ⟨u, L₁, .inr ⟨p, hgrown⟩, .inr ⟨_, _, L', heq, ht⟩⟩
      · obtain ⟨i, hi, hib⟩ := hinv'.circle.meets hgm hbm hj'
        have := hsmall' i hi
        rw [hib] at this
        omega

end TweakedXv6.Malloc

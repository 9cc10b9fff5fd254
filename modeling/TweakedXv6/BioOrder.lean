import TweakedXv6.BioRefs

namespace TweakedXv6.Bio

variable {s t : State} {p : Fin NPROC} {i j : Fin NBUF} {L : List (Fin NBUF)} {a : Act}

/-- The list behind the head is `L`, where buffers without references have the latest release first. -/
structure Order (s : State) (L : List (Fin NBUF)) : Prop where
  listed : Listed s L
  order : L.Pairwise fun i j => (s.buf i).refcnt = 0 → (s.buf j).refcnt = 0 → s.released j ≤ s.released i
  clock : ∀ i, s.released i ≤ s.clock
  fresh : ∀ i, (s.buf i).dev = 0 → s.released i = 0
  used : ∀ i, (s.buf i).dev = ROOTDEV → (s.buf i).refcnt = 0 → 0 < s.released i

theorem Order.keep (h : Order s L) (hlinks : t.links = s.links) (hreleased : t.released = s.released)
    (hclock : t.clock = s.clock) (hdev : ∀ j, (t.buf j).dev = 0 → (s.buf j).dev = 0)
    (hrefcnt : ∀ j, (t.buf j).refcnt = 0 → (s.buf j).refcnt = 0 ∧ (t.buf j).dev = (s.buf j).dev) : Order t L := by
  constructor
  · exact ⟨hlinks ▸ h.listed.linked, h.listed.all⟩
  · rw [hreleased]
    exact h.order.imp fun hij hi hj => hij (hrefcnt _ hi).1 (hrefcnt _ hj).1
  · rw [hreleased, hclock]
    exact h.clock
  · intro j hj
    rw [hreleased]
    exact h.fresh j (hdev j hj)
  · intro j hd h0
    obtain ⟨h0', he⟩ := hrefcnt j h0
    rw [hreleased]
    exact h.used j (he ▸ hd) h0'

theorem Order.keep_at (h : Order s L) (i : Fin NBUF) (hlinks : t.links = s.links) (hreleased : t.released = s.released)
    (hclock : t.clock = s.clock) (hother : ∀ j, j ≠ i → t.buf j = s.buf j) (hdev : (t.buf i).dev = 0 → (s.buf i).dev = 0)
    (hrefcnt : (t.buf i).refcnt = 0 → (s.buf i).refcnt = 0 ∧ (t.buf i).dev = (s.buf i).dev) : Order t L := by
  refine h.keep hlinks hreleased hclock (fun j => ?_) fun j => ?_
  · by_cases hj : j = i
    · rwa [hj]
    · rw [hother j hj]
      exact id
  · by_cases hj : j = i
    · rwa [hj]
    · rw [hother j hj]
      exact fun h0 => ⟨h0, rfl⟩

theorem Listed.front (h : Listed s L) (hlinks : t.links = (s.links.unlink (.buf i)).push .head (.buf i)) :
    Listed t (i :: L.erase i) := by
  have hinj : Function.Injective Node.buf := fun _ _ he => Node.buf.inj he
  refine ⟨?_, fun j => ?_⟩
  · rw [hlinks, List.map_cons, List.map_erase hinj]
    exact h.linked.front (List.mem_map_of_mem (h.all i))
  · by_cases hj : j = i
    · exact hj ▸ List.mem_cons_self
    · exact List.mem_cons_of_mem i ((List.mem_erase_of_ne hj).mpr (h.all j))

theorem Order.drop (ha : Access s) (h : Order s L) (hp : s.pc p = .releasing i) :
    ∃ L', Order ((brelseUnlocked s i).setPc p .user) L' := by
  have hon : (s.pc p).on = some i := by rw [hp, Pc.on]
  have hpos : 0 < (s.buf i).refcnt := by
    have := refs_pos_of_on hon
    have := ha.count i
    omega
  have hdev : (s.buf i).dev = ROOTDEV := by
    rcases ha.dev i with ⟨_, h0⟩ | hd
    · omega
    · exact hd
  generalize ht : (brelseUnlocked s i).setPc p .user = t
  have hother : ∀ j, j ≠ i → t.buf j = s.buf j ∧ t.released j = s.released j := by
    intro j hj
    rw [← ht]
    unfold brelseUnlocked
    dsimp only
    split <;> simp [hj]
  have hself : (t.buf i).dev = ROOTDEV ∧ t.released i = s.clock + 1 ∧ t.clock = s.clock + 1 := by
    rw [← ht]
    unfold brelseUnlocked
    dsimp only
    split <;> simp [hdev]
  have hlist : (t.buf i).refcnt = 0 ∧ t.links = (s.links.unlink (.buf i)).push .head (.buf i) ∨
      (t.buf i).refcnt ≠ 0 ∧ t.links = s.links := by
    rw [← ht]
    unfold brelseUnlocked
    dsimp only
    split
    next h0 => exact .inl ⟨h0, rfl⟩
    next h0 => exact .inr ⟨h0, rfl⟩
  obtain ⟨hd, hrel, hclk⟩ := hself
  have hclock : ∀ j, t.released j ≤ t.clock := by
    intro j
    by_cases hj : j = i
    · rw [hj, hrel, hclk]
    · have := h.clock j
      rw [(hother j hj).2, hclk]
      omega
  have hfresh : ∀ j, (t.buf j).dev = 0 → t.released j = 0 := by
    intro j h0
    have hj : j ≠ i := by
      rintro rfl
      rw [hd] at h0
      cases h0
    rw [(hother j hj).1] at h0
    rw [(hother j hj).2]
    exact h.fresh j h0
  have hused : ∀ j, (t.buf j).dev = ROOTDEV → (t.buf j).refcnt = 0 → 0 < t.released j := by
    intro j hdj h0
    by_cases hj : j = i
    · rw [hj, hrel]
      exact Nat.succ_pos _
    · rw [(hother j hj).1] at hdj h0
      rw [(hother j hj).2]
      exact h.used j hdj h0
  have hnodup := h.listed.nodup
  rcases hlist with ⟨h0, hlinks⟩ | ⟨h0, hlinks⟩
  · refine ⟨i :: L.erase i, h.listed.front hlinks, List.pairwise_cons.mpr ⟨fun j hj _ _ => ?_, ?_⟩, hclock, hfresh,
      hused⟩
    · rw [hrel, ← hclk]
      exact hclock j
    · refine (h.order.sublist List.erase_sublist).imp_of_mem ?_
      intro x y hx hy hxy hx0 hy0
      have hxi : x ≠ i := fun he => hnodup.not_mem_erase (he ▸ hx)
      have hyi : y ≠ i := fun he => hnodup.not_mem_erase (he ▸ hy)
      rw [(hother x hxi).1] at hx0
      rw [(hother y hyi).1] at hy0
      rw [(hother x hxi).2, (hother y hyi).2]
      exact hxy hx0 hy0
  · refine ⟨L, ⟨hlinks ▸ h.listed.linked, h.listed.all⟩, h.order.imp ?_, hclock, hfresh, hused⟩
    intro x y hxy hx0 hy0
    have hxi : x ≠ i := fun he => h0 (he ▸ hx0)
    have hyi : y ≠ i := fun he => h0 (he ▸ hy0)
    rw [(hother x hxi).1] at hx0
    rw [(hother y hyi).1] at hy0
    rw [(hother x hxi).2, (hother y hyi).2]
    exact hxy hx0 hy0

theorem Order.step (ha : Access s) (h : Order s L) (hst : Step s L t) : ∃ L', Order t L' := by
  have hat := ha.step hst
  cases hst with
  | @hit p b i =>
    have hlt := ha.refcnt_lt i
    exact ⟨L, h.keep_at i rfl rfl rfl (fun j hj => by simp [hj]) (by simp) (by simp [uint_succ hlt])⟩
  | @miss p b i =>
    exact ⟨L, h.keep_at i rfl rfl rfl (fun j hj => by simp [hj]) (by simp [ROOTDEV]) (by simp)⟩
  | @acquire p b i =>
    exact ⟨L, h.keep_at i rfl rfl rfl (fun j hj => by simp [hj]) (by simp) (by simp)⟩
  | @got p b i =>
    have hfill := breadFill_same (s := s) (i := i)
    have hrest : (breadFill s i).links = s.links ∧ (breadFill s i).released = s.released ∧
        (breadFill s i).clock = s.clock := by
      unfold breadFill
      split <;> exact ⟨rfl, rfl, rfl⟩
    refine ⟨L, h.keep hrest.1 hrest.2.1 hrest.2.2 (fun j hj => ?_) fun j hj => ?_⟩
    · exact (hfill.buf j).1 ▸ hj
    · exact ⟨(hfill.buf j).2.2.1 ▸ hj, (hfill.buf j).1⟩
  | drop hp => exact h.drop ha hp
  | @store p i k d =>
    exact ⟨L, h.keep_at i rfl rfl rfl (fun j hj => by simp [hj]) (by simp) (by simp)⟩
  | bwrite => exact ⟨L, h.keep rfl rfl rfl (fun _ hj => hj) fun _ hj => ⟨hj, rfl⟩⟩
  | absorb => exact ⟨L, h.keep rfl rfl rfl (fun _ hj => hj) fun _ hj => ⟨hj, rfl⟩⟩
  | @pin p i =>
    have hlt := ha.refcnt_lt i
    exact ⟨L, h.keep_at i rfl rfl rfl (fun j hj => by simp [hj, bpin]) (by simp [bpin])
      (by simp [bpin, uint_succ hlt])⟩
  | @unpin p i k =>
    -- the holder still has its own reference
    have hpos := (hat.held (p := p) (i := i) (k := { k with unpinned := true }) (by simp)).2.2
    exact ⟨L, h.keep_at i rfl rfl rfl (fun j hj => by simp [hj, bunpin]) (by simp [bunpin])
      fun h0 => absurd h0 (Nat.ne_of_gt hpos)⟩
  | @unlock p i =>
    exact ⟨L, h.keep_at i rfl rfl rfl (fun j hj => by simp [hj]) (by simp) (by simp)⟩
  | log => exact ⟨L, h.keep rfl rfl rfl (fun _ hj => hj) fun _ hj => ⟨hj, rfl⟩⟩

theorem linked_binit : binit.Linked .head ((List.finRange NBUF).reverse.map .buf) := by
  have hfold : ∀ (l L : List (Fin NBUF)) (k : Links Node), k.Linked .head (L.map .buf) → (l ++ L).Nodup →
      (l.foldl (fun k i => k.push .head (.buf i)) k).Linked .head ((l.reverse ++ L).map .buf) := by
    intro l
    induction l with
    | nil => exact fun L k hk _ => hk
    | cons i l ih =>
      intro L k hk hnodup
      have hi : i ∉ l ++ L := (List.nodup_cons.mp hnodup).1
      have hpush : (k.push .head (.buf i)).Linked .head ((i :: L).map .buf) := by
        refine hk.push ?_
        simpa using fun hmem => hi (List.mem_append_right l hmem)
      rw [List.foldl_cons, List.reverse_cons, List.append_assoc, List.singleton_append]
      exact ih (i :: L) _ hpush (List.nodup_middle.mpr hnodup)
  have hstart : Links.Linked (⟨fun a => a, fun a => a⟩ : Links Node) .head (([] : List (Fin NBUF)).map .buf) := by
    refine ⟨?_, List.nodup_singleton _⟩
    simp [Links.Adj]
  have := hfold (List.finRange NBUF) [] _ hstart (by simpa using List.nodup_finRange NBUF)
  rwa [List.append_nil] at this

theorem order_boot (disk : Nat → Log.Block) (size : Nat) : Order (boot disk size) (List.finRange NBUF).reverse where
  listed := ⟨linked_binit, by simp⟩
  order := List.pairwise_of_forall fun _ _ _ _ => Nat.le_refl 0
  clock _ := Nat.le_refl 0
  fresh _ _ := rfl
  used _ hd := by cases hd

theorem access_boot (disk : Nat → Log.Block) (size : Nat) : Access (boot disk size) where
  dev _ := .inl ⟨rfl, rfl⟩
  unique _ _ hd := by cases hd
  count i := by
    have h1 : holders (fun p => ((boot disk size).held p i).map fun _ => ()) () = 0 := by simp [holders, boot]
    have h2 : holders (fun p => ((boot disk size).pc p).on) i = 0 := by simp [holders, boot, Pc.on]
    rw [State.refs, h1, h2]
    rfl
  lock _ _ := by simp [boot]
  once _ _ _ hh := by cases hh
  call _ _ _ hc := by simp [boot] at hc
  cached b hb := by simp [State.pinned, boot] at hb
  nodup := List.nodup_nil
  commit := ⟨fun h0 => absurd h0 (Nat.lt_irrefl 0), nofun⟩

def Inv (s : State) : Prop := Access s ∧ ∃ L, Order s L

theorem inv_boot (h : machine.init s) : Inv s := by
  obtain ⟨disk, size, rfl⟩ := h
  exact ⟨access_boot disk size, _, order_boot disk size⟩

theorem inv_act (h : Inv s) (hs : act s a = some t) : Inv t := by
  obtain ⟨ha, L, ho⟩ := h
  have hst := act_step ha ho.listed hs
  exact ⟨ha.step hst, ho.step ha hst⟩

/-- A buffer is given another block only without references, and the one released first is taken. -/
theorem recycled (ha : Access s) (h : Order s L) (hst : Step s L t)
    (hi : (t.buf i).dev ≠ (s.buf i).dev ∨ (t.buf i).blockno ≠ (s.buf i).blockno) :
    (s.buf i).refcnt = 0 ∧ (∀ j, (s.buf j).refcnt = 0 → s.released i ≤ s.released j) ∧
      ∀ j, (s.buf j).dev = 0 → (s.buf i).dev = 0 := by
  cases hst with
  | @miss p b k L₁ L₂ hp hno hk hL hlast =>
    have hik : i = k := by
      by_contra hne
      simp [hne] at hi
    subst hik
    have hleast : ∀ j, (s.buf j).refcnt = 0 → s.released i ≤ s.released j := by
      intro j hj
      have hmem := h.listed.all j
      have horder := h.order
      rw [hL, List.mem_append, List.mem_cons] at hmem
      rw [hL, List.pairwise_append] at horder
      rcases hmem with hmem | rfl | hmem
      · exact horder.2.2 j hmem i List.mem_cons_self hj hk
      · exact Nat.le_refl _
      · exact absurd hj (hlast j hmem)
    refine ⟨hk, hleast, fun j hj => ?_⟩
    have hle := hleast j (ha.unused hj)
    rw [h.fresh j hj] at hle
    rcases ha.dev i with ⟨h0, _⟩ | hd
    · exact h0
    · have := h.used i hd hk
      omega
  | @got p b k =>
    have hfill := breadFill_same (s := s) (i := k)
    simp only [setPc_buf, setHeld_buf, (hfill.buf i).1, (hfill.buf i).2.1, ne_eq, not_true, or_self] at hi
  | @drop p k =>
    have hsame : ((brelseUnlocked s k).buf i).dev = (s.buf i).dev ∧
        ((brelseUnlocked s k).buf i).blockno = (s.buf i).blockno := by
      unfold brelseUnlocked
      dsimp only
      split <;> by_cases hik : i = k <;> simp [hik]
    simp [hsame] at hi
  | @hit p b k => by_cases hik : i = k <;> simp [hik] at hi
  | @acquire p b k => by_cases hik : i = k <;> simp [hik] at hi
  | @store p k => by_cases hik : i = k <;> simp [hik] at hi
  | bwrite => simp [virtioDiskRw] at hi
  | absorb => simp at hi
  | @pin p k => by_cases hik : i = k <;> simp [hik, bpin] at hi
  | @unpin p k => by_cases hik : i = k <;> simp [hik, bunpin] at hi
  | @unlock p k => by_cases hik : i = k <;> simp [hik] at hi
  | log => simp at hi

end TweakedXv6.Bio

import TweakedXv6.BioOrder

namespace TweakedXv6.Bio

variable {s t : State} {p q : Fin NPROC} {i j : Fin NBUF} {k : Hold} {b : Nat} {L : List (Fin NBUF)} {a : Act}

/-- A valid buffer has what was last stored in its block; until the disk has it too, the buffer is pinned
or dirty. -/
structure Fresh (s : State) : Prop where
  unused : ∀ i, (s.buf i).dev = 0 → (s.buf i).valid = false
  held : ∀ p i, (s.held p i).isSome → (s.buf i).valid = true
  pinned : ∀ i, (s.buf i).dev = ROOTDEV → (s.buf i).blockno ∈ s.pinned → (s.buf i).valid = true
  data : ∀ i, (s.buf i).valid = true → (s.buf i).data = s.stored (s.buf i).blockno
  disk : ∀ b, s.disk b = s.stored b ∨ ∃ i, (s.buf i).dev = ROOTDEV ∧ (s.buf i).blockno = b ∧
    (s.buf i).valid = true ∧ (b ∈ s.pinned ∨ ∃ p k, s.held p i = some k ∧ k.dirty = true)
  hold : ∀ p i k, s.held p i = some k →
    (k.logged = true → k.unpinned = false → (s.buf i).blockno ∈ s.pinned) ∧
    (k.written = true → s.disk (s.buf i).blockno = (s.buf i).data ∧ k.dirty = false) ∧
    (k.unpinned = true → k.dirty = false)

def SameBufs (s t : State) : Prop := ∀ j, (t.buf j).dev = (s.buf j).dev ∧ (t.buf j).blockno = (s.buf j).blockno ∧
  (t.buf j).valid = (s.buf j).valid ∧ (t.buf j).data = (s.buf j).data

theorem sameBufs_setBuf {v : Buf} (hv : v.dev = (s.buf i).dev ∧ v.blockno = (s.buf i).blockno ∧
    v.valid = (s.buf i).valid ∧ v.data = (s.buf i).data) : SameBufs s (s.setBuf i v) := by
  intro j
  by_cases hj : j = i <;> simp [hj, hv]

theorem Fresh.keep (h : Fresh s) (hbuf : SameBufs s t) (hheld : t.held = s.held) (hdisk : t.disk = s.disk)
    (hstored : t.stored = s.stored) (hpinned : t.pinned = s.pinned) : Fresh t := by
  constructor
  · intro i
    rw [(hbuf i).1, (hbuf i).2.2.1]
    exact h.unused i
  · intro q j
    rw [hheld, (hbuf j).2.2.1]
    exact h.held q j
  · intro j
    rw [(hbuf j).1, (hbuf j).2.1, (hbuf j).2.2.1, hpinned]
    exact h.pinned j
  · intro j
    rw [(hbuf j).2.1, (hbuf j).2.2.1, (hbuf j).2.2.2, hstored]
    exact h.data j
  · intro b
    rw [hdisk, hstored]
    refine (h.disk b).imp_right ?_
    rintro ⟨j, hd, hb, hv, hw⟩
    rw [hpinned, hheld]
    exact ⟨j, (hbuf j).1.trans hd, (hbuf j).2.1.trans hb, (hbuf j).2.2.1.trans hv, hw⟩
  · intro q j k
    rw [hheld, (hbuf j).2.1, (hbuf j).2.2.2, hpinned, hdisk]
    exact h.hold q j k

theorem Access.holder (ha : Access s) (hh : s.held p i = some k) {k' : Hold} (hq : s.held q i = some k') : q = p := by
  have h1 := (ha.held hh).2.1
  have h2 := (ha.held hq).2.1
  exact Option.some.inj (h2.symm.trans h1)

theorem Fresh.miss (ha : Access s) (h : Fresh s) (hi : (s.buf i).refcnt = 0)
    (hno : ∀ j, (s.buf j).dev = ROOTDEV → (s.buf j).blockno ≠ b) {c : Pc} :
    Fresh ((s.setBuf i { s.buf i with dev := ROOTDEV, blockno := b, valid := false, refcnt := 1 }).setPc p c) := by
  obtain ⟨hfree, _, hpin, _⟩ := ha.free hi
  generalize ht : (s.setBuf i { s.buf i with dev := ROOTDEV, blockno := b, valid := false, refcnt := 1 }).setPc p c = t
  have hother : ∀ j, j ≠ i → t.buf j = s.buf j := by
    intro j hj
    rw [← ht, setPc_buf, setBuf_buf, if_neg hj]
  have hself : (t.buf i).dev = ROOTDEV ∧ (t.buf i).blockno = b ∧ (t.buf i).valid = false := by
    rw [← ht, setPc_buf, setBuf_buf, if_pos rfl]
    exact ⟨rfl, rfl, rfl⟩
  have hheld : t.held = s.held := by rw [← ht]; rfl
  have hpinned : t.pinned = s.pinned := by rw [← ht]; rfl
  have hdisk : t.disk = s.disk := by rw [← ht]; rfl
  have hstored : t.stored = s.stored := by rw [← ht]; rfl
  have hbpin : b ∉ s.pinned := by
    intro hb
    obtain ⟨j, hd, hj⟩ := ha.cached b hb
    exact hno j hd hj
  constructor
  · grind [h.unused]
  · intro q j hq
    have hji : j ≠ i := by
      rintro rfl
      rw [hheld, hfree q] at hq
      cases hq
    rw [hheld] at hq
    rw [hother j hji]
    exact h.held q j hq
  · grind [h.pinned]
  · grind [h.data]
  · intro b'
    rw [hdisk, hstored]
    rcases h.disk b' with hd | ⟨j, hd, hb', hv, hw⟩
    · exact .inl hd
    · -- the buffer was neither pinned nor held, so it is another one
      have hji : j ≠ i := by
        rintro rfl
        rcases hw with hw | ⟨q, k, hq, _⟩
        · rw [State.pin, if_pos ⟨hd, hb' ▸ hw⟩] at hpin
          cases hpin
        · rw [hfree q] at hq
          cases hq
      refine .inr ⟨j, ?_⟩
      rw [hother j hji, hpinned, hheld]
      exact ⟨hd, hb', hv, hw⟩
  · intro q j k hq
    have hji : j ≠ i := by
      rintro rfl
      rw [hheld, hfree q] at hq
      cases hq
    rw [hheld] at hq
    rw [hother j hji, hpinned, hdisk]
    exact h.hold q j k hq

theorem Fresh.got (ha : Access s) (h : Fresh s) (hp : s.pc p = .reading b i) :
    Fresh (((breadFill s i).setHeld p i (some {})).setPc p .user) ∧
      ((breadFill s i).buf i).data = s.stored (s.buf i).blockno := by
  obtain ⟨hd, _⟩ := ha.call p b i (.inr hp)
  have hlock : (s.buf i).lock = some p := (ha.lock p i).mpr (.inr ⟨b, hp⟩)
  have hnone : ∀ q, s.held q i = none := by
    intro q
    by_contra hne
    have hsome : (s.held q i).isSome := Option.isSome_iff_ne_none.mpr hne
    have hq := (ha.lock q i).mpr (.inl hsome)
    cases hlock.symm.trans hq
    exact ha.once p i b hsome hp
  -- an invalid buffer is neither pinned nor held, so the disk is up to date
  have hdisk : (s.buf i).valid = false → s.disk (s.buf i).blockno = s.stored (s.buf i).blockno := by
    intro hv
    rcases h.disk (s.buf i).blockno with he | ⟨j, hdj, hbj, hvj, _⟩
    · exact he
    · rw [ha.unique j i hdj hd hbj, hv] at hvj
      cases hvj
  have hfill : ((breadFill s i).buf i).valid = true ∧ ((breadFill s i).buf i).blockno = (s.buf i).blockno ∧
      ((breadFill s i).buf i).dev = (s.buf i).dev ∧ ((breadFill s i).buf i).data = s.stored (s.buf i).blockno := by
    unfold breadFill
    split
    next hv => exact ⟨hv, rfl, rfl, h.data i hv⟩
    next hv => simp [virtioDiskRw, hdisk (by simpa using hv)]
  have hother : ∀ j, j ≠ i → (breadFill s i).buf j = s.buf j := by
    intro j hj
    unfold breadFill
    split
    next => rfl
    next => simp [virtioDiskRw, hj]
  have hsame : (breadFill s i).disk = s.disk ∧ (breadFill s i).stored = s.stored ∧
      (breadFill s i).pinned = s.pinned ∧ (breadFill s i).held = s.held := by
    unfold breadFill
    split <;> exact ⟨rfl, rfl, rfl, rfl⟩
  refine ⟨?_, hfill.2.2.2⟩
  generalize ht : ((breadFill s i).setHeld p i (some {})).setPc p .user = t
  have hbuf : t.buf = (breadFill s i).buf := by rw [← ht]; rfl
  have hheld : ∀ q j, t.held q j = if q = p ∧ j = i then some {} else s.held q j := by
    intro q j
    rw [← ht, setPc_held, setHeld_held, hsame.2.2.2]
  have htd : t.disk = s.disk := by rw [← ht]; exact hsame.1
  have hts : t.stored = s.stored := by rw [← ht]; exact hsame.2.1
  have htp : t.pinned = s.pinned := by rw [← ht]; exact hsame.2.2.1
  obtain ⟨hv, hbn, hdev, hdata⟩ := hfill
  rw [← hbuf] at hv hbn hdev hdata hother
  constructor
  · grind [h.unused, ROOTDEV]
  · grind [h.held]
  · grind [h.pinned]
  · grind [h.data]
  · intro b'
    rw [htd, hts]
    refine (h.disk b').imp_right ?_
    rintro ⟨j, hdj, hbj, hvj, hw⟩
    by_cases hji : j = i
    · subst hji
      refine ⟨j, by rw [hdev, hd], by rw [hbn, hbj], hv, .inl ?_⟩
      rw [htp]
      rcases hw with hw | ⟨q, k, hq, _⟩
      · exact hw
      · rw [hnone q] at hq
        cases hq
    · refine ⟨j, ?_⟩
      rw [hother j hji, htp]
      refine ⟨hdj, hbj, hvj, hw.imp_right ?_⟩
      rintro ⟨q, k, hq, hk⟩
      exact ⟨q, k, by rw [hheld, if_neg fun he => hji he.2, hq], hk⟩
  · intro q j k hq
    rw [hheld] at hq
    by_cases hji : j = i
    · subst hji
      rw [hnone q] at hq
      split at hq
      next =>
        cases hq
        exact ⟨by simp, by simp, by simp⟩
      next => cases hq
    · rw [if_neg fun he => hji he.2] at hq
      rw [hother j hji, htp, htd]
      exact h.hold q j k hq

theorem Fresh.holder {o : Option Hold} (ha : Access s) (h : Fresh s) (hh : s.held p i = some k)
    (hid : ∀ j, (t.buf j).dev = (s.buf j).dev ∧ (t.buf j).blockno = (s.buf j).blockno ∧
      (t.buf j).valid = (s.buf j).valid)
    (hother : ∀ j, j ≠ i → (t.buf j).data = (s.buf j).data)
    (hheld : ∀ q j, t.held q j = if q = p ∧ j = i then o else s.held q j)
    (hdisk : ∀ b, b ≠ (s.buf i).blockno → t.disk b = s.disk b)
    (hstored : ∀ b, b ≠ (s.buf i).blockno → t.stored b = s.stored b)
    (hpinned : ∀ b, b ≠ (s.buf i).blockno → (b ∈ t.pinned ↔ b ∈ s.pinned))
    (hdata : (t.buf i).data = t.stored (s.buf i).blockno)
    (hkept : t.disk (s.buf i).blockno = t.stored (s.buf i).blockno ∨ (s.buf i).blockno ∈ t.pinned ∨
      ∃ k', o = some k' ∧ k'.dirty = true)
    (hhold : ∀ k', o = some k' → (k'.logged = true → k'.unpinned = false → (s.buf i).blockno ∈ t.pinned) ∧
      (k'.written = true → t.disk (s.buf i).blockno = (t.buf i).data ∧ k'.dirty = false) ∧
      (k'.unpinned = true → k'.dirty = false)) : Fresh t := by
  obtain ⟨hd, _⟩ := ha.held hh
  have hvalid : (s.buf i).valid = true := h.held p i (by rw [hh]; rfl)
  have hne : ∀ j, j ≠ i → (s.buf j).dev = ROOTDEV → (s.buf j).blockno ≠ (s.buf i).blockno :=
    fun j hj hdj he => hj (ha.unique j i hdj hd he)
  have hroot : ∀ j, (s.buf j).valid = true → (s.buf j).dev = ROOTDEV := by
    intro j hv
    rcases ha.dev j with ⟨h0, _⟩ | hdj
    · rw [h.unused j h0] at hv
      cases hv
    · exact hdj
  constructor
  · intro j
    rw [(hid j).1, (hid j).2.2]
    exact h.unused j
  · intro q j hq
    rw [(hid j).2.2]
    by_cases hji : j = i
    · rw [hji, hvalid]
    · rw [hheld, if_neg fun he => hji he.2] at hq
      exact h.held q j hq
  · intro j
    rw [(hid j).1, (hid j).2.1, (hid j).2.2]
    intro hdj hb
    by_cases hji : j = i
    · rw [hji, hvalid]
    · exact h.pinned j hdj ((hpinned _ (hne j hji hdj)).mp hb)
  · intro j
    rw [(hid j).2.1, (hid j).2.2]
    intro hv
    by_cases hji : j = i
    · rw [hji, hdata]
    · rw [hother j hji, hstored _ (hne j hji (hroot j hv)), h.data j hv]
  · intro b
    by_cases hb : b = (s.buf i).blockno
    · subst hb
      refine hkept.imp_right fun hw => ?_
      refine ⟨i, (hid i).1.trans hd, (hid i).2.1, (hid i).2.2.trans hvalid, hw.imp_right ?_⟩
      rintro ⟨k', rfl, hk'⟩
      exact ⟨p, k', by rw [hheld, if_pos ⟨rfl, rfl⟩], hk'⟩
    · rw [hdisk b hb, hstored b hb]
      refine (h.disk b).imp_right ?_
      rintro ⟨j, hdj, hbj, hv, hw⟩
      have hji : j ≠ i := by
        rintro rfl
        exact hb hbj.symm
      refine ⟨j, (hid j).1.trans hdj, (hid j).2.1.trans hbj, (hid j).2.2.trans hv, ?_⟩
      refine hw.imp (hpinned b hb).mpr ?_
      rintro ⟨q, k', hq, hk'⟩
      exact ⟨q, k', by rw [hheld, if_neg fun he => hji he.2, hq], hk'⟩
  · intro q j k' hq
    rw [hheld] at hq
    rw [(hid j).2.1]
    by_cases hji : j = i
    · subst hji
      split at hq
      next => exact hhold k' hq
      next hqp => exact absurd ⟨ha.holder hh hq, rfl⟩ hqp
    · rw [if_neg fun he => hji he.2] at hq
      have hbj := hne j hji (ha.held hq).1
      obtain ⟨h1, h2, h3⟩ := h.hold q j k' hq
      rw [hother j hji, hdisk _ hbj]
      exact ⟨fun hl hu => (hpinned _ hbj).mpr (h1 hl hu), h2, h3⟩

theorem Fresh.mark {k' : Hold} (ha : Access s) (h : Fresh s) (hh : s.held p i = some k) (hbuf : SameBufs s t)
    (hheld : ∀ q j, t.held q j = if q = p ∧ j = i then some k' else s.held q j) (hdisk : t.disk = s.disk)
    (hstored : t.stored = s.stored) (hpinned : ∀ b, b ≠ (s.buf i).blockno → (b ∈ t.pinned ↔ b ∈ s.pinned))
    (hkept : s.disk (s.buf i).blockno = (s.buf i).data ∨ (s.buf i).blockno ∈ t.pinned)
    (hhold : (k'.logged = true → k'.unpinned = false → (s.buf i).blockno ∈ t.pinned) ∧
      (k'.written = true → s.disk (s.buf i).blockno = (s.buf i).data ∧ k'.dirty = false) ∧
      (k'.unpinned = true → k'.dirty = false)) : Fresh t := by
  have hdata := h.data i (h.held p i (by rw [hh]; rfl))
  refine h.holder ha hh (fun j => ⟨(hbuf j).1, (hbuf j).2.1, (hbuf j).2.2.1⟩) (fun j _ => (hbuf j).2.2.2) hheld
    (fun _ _ => by rw [hdisk]) (fun _ _ => by rw [hstored]) hpinned (by rw [(hbuf i).2.2.2, hstored, hdata]) ?_ ?_
  · rw [hdisk, hstored, ← hdata]
    exact hkept.imp_right .inl
  · rintro _ ⟨⟩
    rw [hdisk, (hbuf i).2.2.2]
    exact hhold

theorem Fresh.step (ha : Access s) (h : Fresh s) (hst : Step s L t) : Fresh t := by
  cases hst with
  | hit => exact h.keep (sameBufs_setBuf ⟨rfl, rfl, rfl, rfl⟩) rfl rfl rfl rfl
  | miss hp hno hi => exact h.miss ha hi hno
  | acquire => exact h.keep (sameBufs_setBuf ⟨rfl, rfl, rfl, rfl⟩) rfl rfl rfl rfl
  | got hp => exact (h.got ha hp).1
  | drop =>
    unfold brelseUnlocked
    dsimp only
    split
    next => exact h.keep (sameBufs_setBuf ⟨rfl, rfl, rfl, rfl⟩) rfl rfl rfl rfl
    next => exact h.keep (sameBufs_setBuf ⟨rfl, rfl, rfl, rfl⟩) rfl rfl rfl rfl
  | @store p i k d hh hu =>
    have hk := h.hold p i k hh
    refine h.holder ha hh (o := some { k with dirty := true, written := false }) (fun j => ?_) (fun j hj => ?_)
      (fun q j => setHeld_held) (fun _ _ => rfl) (fun b hb => ?_) (fun _ _ => Iff.rfl) ?_ (.inr (.inr ⟨_, rfl, rfl⟩)) ?_
    · by_cases hj : j = i <;> simp [hj]
    · simp [hj]
    · exact Function.update_of_ne hb ..
    · simp
    · rintro k' hk'
      cases Option.some.inj hk'
      exact ⟨hk.1, by simp, fun hu' => absurd hu' (by simp [hu])⟩
  | @bwrite p i k hh =>
    have hk := h.hold p i k hh
    have hdata := h.data i (h.held p i (by rw [hh]; rfl))
    have hself : ((virtioDiskRw s i true).setHeld p i (some { k with dirty := false, written := true })).disk
        (s.buf i).blockno = (s.buf i).data := Function.update_self ..
    refine h.holder ha hh (o := some { k with dirty := false, written := true }) (fun _ => ⟨rfl, rfl, rfl⟩) (fun _ _ => rfl)
      (fun q j => setHeld_held) (fun b hb => Function.update_of_ne hb ..) (fun _ _ => rfl) (fun _ _ => Iff.rfl) hdata
      (.inl (hself.trans hdata)) ?_
    rintro k' hk'
    cases Option.some.inj hk'
    exact ⟨hk.1, fun _ => ⟨hself, rfl⟩, fun _ => rfl⟩
  | @absorb p i k hh hu hpin =>
    exact h.mark ha hh (fun _ => ⟨rfl, rfl, rfl, rfl⟩) (fun q j => setHeld_held) rfl rfl (fun _ _ => Iff.rfl)
      (.inr hpin) ⟨fun _ _ => hpin, (h.hold p i k hh).2⟩
  | @pin p i k hh hu hnot hlh ho =>
    have htail : s.log.tail = 0 := by
      by_contra hne
      have := ha.commit.2 (ha.commit.1 (Nat.pos_of_ne_zero hne))
      omega
    have htp : ∀ b, b ∈ (s.log.lh ++ [(s.buf i).blockno]).drop s.log.tail ↔ b ∈ s.pinned ∨ b = (s.buf i).blockno := by
      intro b
      rw [hlh, htail, List.drop_zero, List.mem_append, List.mem_singleton]
    have hin := (htp (s.buf i).blockno).mpr (.inr rfl)
    refine h.mark ha hh ?_ (fun q j => setHeld_held) rfl rfl (fun b hb => (htp b).trans (or_iff_left hb)) (.inr hin)
      ⟨fun _ _ => hin, (h.hold p i k hh).2⟩
    exact sameBufs_setBuf ⟨rfl, rfl, rfl, rfl⟩
  | @unpin p i k hh hw hc htail =>
    obtain ⟨_, hwritten, _⟩ := h.hold p i k hh
    refine h.mark ha hh ?_ (fun q j => setHeld_held) rfl rfl (fun b hb => ?_) (.inl (hwritten hw).1)
      ⟨by simp, hwritten, fun _ => (hwritten hw).2⟩
    · exact sameBufs_setBuf ⟨rfl, rfl, rfl, rfl⟩
    · rw [(ha.unpin hh hc htail).1, List.mem_cons]
      exact (or_iff_right hb).symm
  | @unlock p i k hp hh hclean =>
    obtain ⟨hlogged, hwritten, hunpinned⟩ := h.hold p i k hh
    have hdata := h.data i (h.held p i (by rw [hh]; rfl))
    have hd := (ha.held hh).1
    refine h.holder ha hh (o := none) (fun j => ?_) (fun j hj => by simp [hj]) (fun q j => setHeld_held) (fun _ _ => rfl)
      (fun _ _ => rfl) (fun _ _ => Iff.rfl) (by simpa using hdata) ?_ (by simp)
    · by_cases hj : j = i <;> simp [hj]
    · -- a changed buffer was logged, so it is pinned
      rcases h.disk (s.buf i).blockno with he | ⟨j, hdj, hbj, _, hw⟩
      · exact .inl he
      · have hji := ha.unique j i hdj hd hbj
        subst hji
        refine .inr (.inl ?_)
        rcases hw with hw | ⟨q, k', hq, hk'⟩
        · exact hw
        · cases ha.holder hh hq
          cases hh.symm.trans hq
          refine hlogged (hclean.resolve_left (by simp [hk'])) ?_
          by_contra hu
          rw [hunpinned (by simpa using hu)] at hk'
          cases hk'
  | log hnodup hcommit hpinned => exact h.keep (fun _ => ⟨rfl, rfl, rfl, rfl⟩) rfl rfl rfl hpinned

theorem fresh_boot (disk : Nat → Log.Block) (size : Nat) : Fresh (boot disk size) where
  unused _ _ := rfl
  held _ _ hh := by cases hh
  pinned _ hd := by cases hd
  data _ hv := by cases hv
  disk _ := .inl rfl
  hold _ _ _ hh := by cases hh

theorem inv_reach (h : machine.Reachable s) : Inv s ∧ Fresh s := by
  refine Machine.Reach.invariant (I := fun s => Inv s ∧ Fresh s) (fun s hs => ?_) (fun s a t _ hi _ hs => ?_) h
  · obtain ⟨disk, size, rfl⟩ := hs
    exact ⟨inv_boot ⟨disk, size, rfl⟩, fresh_boot disk size⟩
  · obtain ⟨ha, L, ho⟩ := hi.1
    exact ⟨inv_act hi.1 hs, hi.2.step ha (act_step ha ho.listed hs)⟩

def Recycled (s t : State) (i : Fin NBUF) : Prop :=
  (t.buf i).dev ≠ (s.buf i).dev ∨ (t.buf i).blockno ≠ (s.buf i).blockno

/-- One buffer a block, a list of all buffers in both directions, references for what is held or pinned,
recycling least recently released first, and `bread` returns what was last stored. -/
theorem cache_coherent (h : machine.Reachable s) :
    (∀ i j, (s.buf i).dev ≠ 0 → (s.buf j).dev = (s.buf i).dev → (s.buf j).blockno = (s.buf i).blockno → j = i) ∧
    (∃ L : List (Fin NBUF), L.Nodup ∧ (∀ i, i ∈ L) ∧ Circle s.links.next .head (L.map .buf) ∧
      Circle s.links.prev .head (L.map .buf).reverse) ∧
    (∀ i, (∃ p, (s.held p i).isSome) ∨ (s.buf i).dev = ROOTDEV ∧ (s.buf i).blockno ∈ s.pinned →
      0 < (s.buf i).refcnt) ∧
    (∀ a t i, machine.step s a = some t → Recycled s t i → (s.buf i).refcnt = 0 ∧
      (∀ j, (s.buf j).refcnt = 0 → s.released i ≤ s.released j) ∧ ∀ j, (s.buf j).dev = 0 → (s.buf i).dev = 0) ∧
    (∀ p b i t, s.pc p = .reading b i → machine.step s (.step p) = some t → (t.held p i).isSome ∧
      (t.buf i).dev = ROOTDEV ∧ (t.buf i).blockno = b ∧ (t.buf i).data = s.stored b ∧ t.stored = s.stored) ∧
    ∀ p i, (s.held p i).isSome → (s.buf i).data = s.stored (s.buf i).blockno := by
  obtain ⟨⟨ha, L, ho⟩, hf⟩ := inv_reach h
  refine ⟨fun i j hd hdev hb => ?_, ⟨L, ho.listed.nodup, ho.listed.all, ho.listed.linked.next, ho.listed.linked.prev⟩,
    fun i hi => ?_, fun a t i hs hr => recycled ha ho (act_step ha ho.listed hs) hr, fun p b i t hp hs => ?_,
    fun p i hh => hf.data i (hf.held p i hh)⟩
  · have hdi : (s.buf i).dev = ROOTDEV := (ha.dev i).resolve_left fun h0 => hd h0.1
    exact ha.unique j i (hdev.trans hdi) hdi hb
  · have hcount := ha.count i
    rcases hi with ⟨p, hh⟩ | hpin
    · have := refs_pos_of_held hh
      omega
    · rw [State.pin, if_pos hpin] at hcount
      omega
  · have hs' : act s (.step p) = some t := hs
    simp only [act, step, hp] at hs'
    cases Option.some.inj hs'
    obtain ⟨hd, hb⟩ := ha.call p b i (.inr hp)
    have hfill := breadFill_same (s := s) (i := i)
    have hdata := (hf.got ha hp).2
    refine ⟨by simp, (hfill.buf i).1.trans hd, (hfill.buf i).2.1.trans hb, hb ▸ hdata, ?_⟩
    change (breadFill s i).stored = s.stored
    unfold breadFill
    split <;> rfl

def logBlock : List Act :=
  let p : Fin NPROC := ⟨0, zero_lt_NPROC⟩
  let i : Fin NBUF := ⟨0, by decide⟩
  [.beginOp, .bread p 5, .step p, .step p, .store p i fun _ => 7, .logWrite p i, .brelse p i, .step p, .endOp p,
    .bread p 5, .step p, .step p, .store p i fun _ => 7, .bwrite p i, .bunpin p i, .brelse p i, .step p, .commitEnd p]

theorem cache_coherent_logBlock : ∃ s i, machine.Reachable s ∧ (s.buf i).blockno = 5 ∧ (s.buf i).refcnt = 0 ∧
    s.released i = 2 ∧ s.disk 5 0 = 7 ∧ ∀ j, (s.buf j).dev = ROOTDEV → (s.buf j).blockno = 5 → j = i := by
  have hrun : ((machine.run (boot (fun _ _ => 0) 30) logBlock).any fun s =>
      (s.buf ⟨0, by decide⟩).dev = ROOTDEV ∧ (s.buf ⟨0, by decide⟩).blockno = 5 ∧ (s.buf ⟨0, by decide⟩).refcnt = 0 ∧
        s.released ⟨0, by decide⟩ = 2 ∧ s.disk 5 0 = 7) = true := by decide +kernel
  obtain ⟨s, hs, hd, hb, hr, hrel, hdisk⟩ := exists_of_any hrun
  have hreach := Machine.Reachable.of_run (M := machine) ⟨_, _, rfl⟩ hs
  refine ⟨s, _, hreach, hb, hr, hrel, hdisk, fun j hdj hbj => ?_⟩
  exact (cache_coherent hreach).1 _ j (by rw [hd]; decide) (hdj.trans hd.symm) (hbj.trans hb.symm)

end TweakedXv6.Bio

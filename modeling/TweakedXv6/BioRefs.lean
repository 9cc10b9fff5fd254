import TweakedXv6.BioModel
import TweakedXv6.RefCount

namespace TweakedXv6.Bio

open Log (Block)

variable {s t : State} {p q : Fin NPROC} {i j : Fin NBUF} {v : Buf} {c : Pc} {b n : Nat} {o : Option Hold}
  {k : Hold} {a : Act} {L : List (Fin NBUF)} {g : LogState}

@[simp] theorem setBuf_buf : (s.setBuf i v).buf j = if j = i then v else s.buf j := by
  simp [State.setBuf, Function.update_apply]

@[simp] theorem setBuf_links : (s.setBuf i v).links = s.links := rfl

@[simp] theorem setBuf_disk : (s.setBuf i v).disk = s.disk := rfl

@[simp] theorem setBuf_log : (s.setBuf i v).log = s.log := rfl

@[simp] theorem setBuf_pc : (s.setBuf i v).pc = s.pc := rfl

@[simp] theorem setBuf_held : (s.setBuf i v).held = s.held := rfl

@[simp] theorem setBuf_stored : (s.setBuf i v).stored = s.stored := rfl

@[simp] theorem setBuf_clock : (s.setBuf i v).clock = s.clock := rfl

@[simp] theorem setBuf_released : (s.setBuf i v).released = s.released := rfl

@[simp] theorem setPc_pc : (s.setPc p c).pc q = if q = p then c else s.pc q := by
  simp [State.setPc, Function.update_apply]

@[simp] theorem setPc_buf : (s.setPc p c).buf = s.buf := rfl

@[simp] theorem setPc_links : (s.setPc p c).links = s.links := rfl

@[simp] theorem setPc_disk : (s.setPc p c).disk = s.disk := rfl

@[simp] theorem setPc_log : (s.setPc p c).log = s.log := rfl

@[simp] theorem setPc_held : (s.setPc p c).held = s.held := rfl

@[simp] theorem setPc_stored : (s.setPc p c).stored = s.stored := rfl

@[simp] theorem setPc_clock : (s.setPc p c).clock = s.clock := rfl

@[simp] theorem setPc_released : (s.setPc p c).released = s.released := rfl

@[simp] theorem setHeld_held : (s.setHeld p i o).held q j = if q = p ∧ j = i then o else s.held q j := by
  unfold State.setHeld
  dsimp only
  by_cases hq : q = p
  · subst hq
    simp [Function.update_apply]
  · simp [hq]

@[simp] theorem setHeld_buf : (s.setHeld p i o).buf = s.buf := rfl

@[simp] theorem setHeld_links : (s.setHeld p i o).links = s.links := rfl

@[simp] theorem setHeld_disk : (s.setHeld p i o).disk = s.disk := rfl

@[simp] theorem setHeld_log : (s.setHeld p i o).log = s.log := rfl

@[simp] theorem setHeld_pc : (s.setHeld p i o).pc = s.pc := rfl

@[simp] theorem setHeld_stored : (s.setHeld p i o).stored = s.stored := rfl

@[simp] theorem setHeld_clock : (s.setHeld p i o).clock = s.clock := rfl

@[simp] theorem setHeld_released : (s.setHeld p i o).released = s.released := rfl

structure Listed (s : State) (L : List (Fin NBUF)) : Prop where
  linked : s.links.Linked .head (L.map .buf)
  all : ∀ i, i ∈ L

theorem Listed.nodup (h : Listed s L) : L.Nodup := (List.nodup_cons.mp h.linked.nodup).2.of_map

theorem Listed.length_lt (h : Listed s L) : (L.map Node.buf).length < NBUF + 1 := by
  have := h.nodup.length_le_card
  rw [Fintype.card_fin] at this
  rw [List.length_map]
  omega

/-- The block is cached in `i`, or `i` is the last buffer of the list without references. -/
theorem bget_cases {dev : Nat} (h : Listed s L) (hs : bget s dev b = some (i, t)) :
    ((s.buf i).dev = dev ∧ (s.buf i).blockno = b ∧
      t = s.setBuf i { s.buf i with refcnt := uint ((s.buf i).refcnt + 1) }) ∨
    (∀ j, (s.buf j).dev = dev → (s.buf j).blockno ≠ b) ∧ (s.buf i).refcnt = 0 ∧
      (∃ L₁ L₂, L = L₁ ++ i :: L₂ ∧ ∀ j ∈ L₂, (s.buf j).refcnt ≠ 0) ∧
      t = s.setBuf i { s.buf i with dev, blockno := b, valid := false, refcnt := 1 } := by
  unfold bget at hs
  rw [h.linked.search_next h.length_lt, h.linked.search_prev h.length_lt, ← List.map_reverse, List.find?_map,
    List.find?_map] at hs
  cases hfind : L.find? (s.caches dev b ∘ Node.buf) with
  | some j =>
    rw [hfind] at hs
    obtain ⟨rfl, rfl⟩ : j = i ∧ _ = t := by simpa using hs
    have hj : (s.buf j).dev = dev ∧ (s.buf j).blockno = b := by
      simpa [State.caches] using List.find?_some hfind
    exact .inl ⟨hj.1, hj.2, rfl⟩
  | none =>
    have hnot : ∀ j, (s.buf j).dev = dev → (s.buf j).blockno ≠ b := by
      intro j
      simpa [State.caches] using List.find?_eq_none.mp hfind j (h.all j)
    rw [hfind] at hs
    cases hfree : L.reverse.find? (s.unused ∘ Node.buf) with
    | none =>
      rw [hfree] at hs
      cases hs
    | some j =>
      rw [hfree] at hs
      obtain ⟨rfl, rfl⟩ : j = i ∧ _ = t := by simpa using hs
      obtain ⟨hj, L₂, L₁, hL, hbefore⟩ := List.find?_eq_some_iff_append.mp hfree
      refine .inr ⟨hnot, by simpa [State.unused] using hj, ⟨L₁.reverse, L₂.reverse, ?_, fun x hx => ?_⟩, rfl⟩
      · simpa using congrArg List.reverse hL
      · simpa [State.unused] using hbefore x (List.mem_reverse.mp hx)

def Pc.on : Pc → Option (Fin NBUF)
  | .user => none
  | .acquiring _ i | .reading _ i | .releasing i => some i

def State.refs (s : State) (i : Fin NBUF) : Nat :=
  holders (fun p => (s.held p i).map fun _ => ()) () + holders (fun p => (s.pc p).on) i

def State.pinned (s : State) : List Nat := s.log.lh.drop s.log.tail

def State.pin (s : State) (i : Fin NBUF) : Nat :=
  if (s.buf i).dev = ROOTDEV ∧ (s.buf i).blockno ∈ s.pinned then 1 else 0

@[simp] theorem setBuf_refs : (s.setBuf i v).refs = s.refs := rfl

@[simp] theorem setBuf_pinned : (s.setBuf i v).pinned = s.pinned := rfl

@[simp] theorem setPc_pinned : (s.setPc p c).pinned = s.pinned := rfl

@[simp] theorem setHeld_pinned : (s.setHeld p i o).pinned = s.pinned := rfl

theorem refs_congr (hheld : t.held = s.held) (hpc : t.pc = s.pc) : t.refs = s.refs := by
  funext i
  rw [State.refs, State.refs, hheld, hpc]

theorem refs_setPc : (s.setPc p c).refs i + (if (s.pc p).on = some i then 1 else 0) =
    s.refs i + if c.on = some i then 1 else 0 := by
  have hslot : (fun q => ((s.setPc p c).pc q).on) = Function.update (fun q => (s.pc q).on) p c.on := by
    funext q
    by_cases hq : q = p <;> simp [hq]
  have := holders_update (fun q => (s.pc q).on) p c.on i
  unfold State.refs
  rw [hslot, setPc_held]
  omega

theorem refs_setHeld : (s.setHeld p i o).refs j + (if j = i ∧ (s.held p i).isSome then 1 else 0) =
    s.refs j + if j = i ∧ o.isSome then 1 else 0 := by
  unfold State.refs
  rw [setHeld_pc]
  by_cases hj : j = i
  · subst hj
    have hslot : (fun q => ((s.setHeld p j o).held q j).map fun _ => ()) =
        Function.update (fun q => (s.held q j).map fun _ => ()) p (o.map fun _ => ()) := by
      funext q
      by_cases hq : q = p <;> simp [hq]
    have := holders_update (fun q => (s.held q j).map fun _ => ()) p (o.map fun _ => ()) ()
    rw [hslot]
    cases o <;> cases hs : s.held p j <;> simp_all <;> omega
  · simp [hj]

theorem refs_le : s.refs i ≤ 128 := by
  have h1 : holders (fun p => (s.held p i).map fun _ => ()) () ≤ 64 := holders_le
  have h2 : holders (fun p => (s.pc p).on) i ≤ 64 := holders_le
  unfold State.refs
  omega

theorem refs_pos_of_held (h : (s.held p i).isSome) : 0 < s.refs i := by
  have : 0 < holders (fun p => (s.held p i).map fun _ => ()) () := holders_pos.mpr ⟨p, by
    obtain ⟨k, hk⟩ := Option.isSome_iff_exists.mp h
    simp [hk]⟩
  unfold State.refs
  omega

theorem refs_pos_of_on (h : (s.pc p).on = some i) : 0 < s.refs i := by
  have : 0 < holders (fun p => (s.pc p).on) i := holders_pos.mpr ⟨p, h⟩
  unfold State.refs
  omega

/-- Who refers to which buffer. Buffers never used have device 0. -/
structure Access (s : State) : Prop where
  dev : ∀ i, (s.buf i).dev = 0 ∧ (s.buf i).refcnt = 0 ∨ (s.buf i).dev = ROOTDEV
  unique : ∀ i j, (s.buf i).dev = ROOTDEV → (s.buf j).dev = ROOTDEV → (s.buf i).blockno = (s.buf j).blockno → i = j
  count : ∀ i, (s.buf i).refcnt = s.refs i + s.pin i
  lock : ∀ p i, (s.buf i).lock = some p ↔ (s.held p i).isSome ∨ ∃ b, s.pc p = .reading b i
  once : ∀ p i b, (s.held p i).isSome → s.pc p ≠ .reading b i
  call : ∀ p b i, s.pc p = .acquiring b i ∨ s.pc p = .reading b i → (s.buf i).dev = ROOTDEV ∧ (s.buf i).blockno = b
  cached : ∀ b ∈ s.pinned, ∃ i, (s.buf i).dev = ROOTDEV ∧ (s.buf i).blockno = b
  nodup : s.log.lh.Nodup
  commit : (0 < s.log.tail → s.log.committing.isSome) ∧ (s.log.committing.isSome → s.log.outstanding = 0)

theorem pin_le : s.pin i ≤ 1 := by
  unfold State.pin
  split <;> omega

theorem Access.refcnt_lt (h : Access s) (i : Fin NBUF) : (s.buf i).refcnt < 1000 := by
  have hcount := h.count i
  have hrefs := refs_le (s := s) (i := i)
  have hpin := pin_le (s := s) (i := i)
  omega

theorem Access.unused (h : Access s) (hi : (s.buf i).dev = 0) : (s.buf i).refcnt = 0 := by
  rcases h.dev i with ⟨_, h0⟩ | hd
  · exact h0
  · rw [hd] at hi
    cases hi

theorem Access.free (h : Access s) (hi : (s.buf i).refcnt = 0) :
    (∀ p, s.held p i = none) ∧ (∀ p, (s.pc p).on ≠ some i) ∧ s.pin i = 0 ∧ (s.buf i).lock = none := by
  have hcount := h.count i
  have hheld : ∀ p, s.held p i = none := by
    intro p
    by_contra hne
    have := refs_pos_of_held (Option.isSome_iff_ne_none.mpr hne)
    omega
  have hpc : ∀ p, (s.pc p).on ≠ some i := by
    intro p hp
    have := refs_pos_of_on hp
    omega
  refine ⟨hheld, hpc, by omega, ?_⟩
  cases hl : (s.buf i).lock with
  | none => rfl
  | some p =>
    rcases (h.lock p i).mp hl with hh | ⟨b, hb⟩
    · rw [hheld p] at hh
      cases hh
    · exact absurd (by rw [hb, Pc.on]) (hpc p)

theorem Access.held (h : Access s) (hh : s.held p i = some k) :
    (s.buf i).dev = ROOTDEV ∧ (s.buf i).lock = some p ∧ 0 < (s.buf i).refcnt := by
  have hsome : (s.held p i).isSome := by rw [hh]; rfl
  have hpos := refs_pos_of_held hsome
  have hcount := h.count i
  refine ⟨?_, (h.lock p i).mpr (.inl hsome), by omega⟩
  rcases h.dev i with ⟨_, h0⟩ | hd
  · omega
  · exact hd

theorem Access.change (h : Access s) (hid : ∀ j, (t.buf j).dev = (s.buf j).dev ∧ (t.buf j).blockno = (s.buf j).blockno)
    (hlog : t.log = s.log) (hunused : ∀ j, (s.buf j).dev = 0 → (t.buf j).refcnt = 0)
    (hcount : ∀ j, (t.buf j).refcnt + s.refs j = (s.buf j).refcnt + t.refs j)
    (hlock : ∀ q j, (t.buf j).lock = some q ↔ (t.held q j).isSome ∨ ∃ b, t.pc q = .reading b j)
    (honce : ∀ q j b, (t.held q j).isSome → t.pc q ≠ .reading b j)
    (hcall : ∀ q b j, t.pc q = .acquiring b j ∨ t.pc q = .reading b j → (s.buf j).dev = ROOTDEV ∧ (s.buf j).blockno = b) :
    Access t := by
  have hpinned : t.pinned = s.pinned := by rw [State.pinned, hlog, State.pinned]
  constructor
  · intro j
    rw [(hid j).1]
    exact (h.dev j).imp_left fun hj => ⟨hj.1, hunused j hj.1⟩
  · intro i j
    rw [(hid i).1, (hid j).1, (hid i).2, (hid j).2]
    exact h.unique i j
  · intro j
    have hj := hcount j
    have := h.count j
    rw [State.pin, (hid j).1, (hid j).2, hpinned, ← State.pin]
    omega
  · exact hlock
  · exact honce
  · intro q b j
    rw [(hid j).1, (hid j).2]
    exact hcall q b j
  · intro b hb
    rw [hpinned] at hb
    obtain ⟨i, hd, hbn⟩ := h.cached b hb
    exact ⟨i, (hid i).1.trans hd, (hid i).2.trans hbn⟩
  · rw [hlog]
    exact h.nodup
  · rw [hlog]
    exact h.commit

structure SameRefs (s t : State) : Prop where
  buf : ∀ j, (t.buf j).dev = (s.buf j).dev ∧ (t.buf j).blockno = (s.buf j).blockno ∧
    (t.buf j).refcnt = (s.buf j).refcnt ∧ (t.buf j).lock = (s.buf j).lock
  held : ∀ p i, (t.held p i).isSome = (s.held p i).isSome
  pc : t.pc = s.pc
  log : t.log = s.log

theorem SameRefs.refs (hs : SameRefs s t) (i : Fin NBUF) : t.refs i = s.refs i := by
  have hslot : (fun p => (t.held p i).map fun _ => ()) = fun p => (s.held p i).map fun _ => () := by
    funext p
    have := hs.held p i
    cases ht : t.held p i <;> cases hs' : s.held p i <;> simp_all
  rw [State.refs, State.refs, hslot, hs.pc]

theorem Access.same (h : Access s) (hs : SameRefs s t) : Access t := by
  refine h.change (fun j => ⟨(hs.buf j).1, (hs.buf j).2.1⟩) hs.log ?_ ?_ ?_ ?_ ?_
  · intro j hj
    rw [(hs.buf j).2.2.1]
    exact h.unused hj
  · intro j
    rw [(hs.buf j).2.2.1, hs.refs]
  · intro q j
    rw [(hs.buf j).2.2.2, hs.held, hs.pc]
    exact h.lock q j
  · intro q j b
    rw [hs.held, hs.pc]
    exact h.once q j b
  · intro q b j
    rw [hs.pc]
    exact h.call q b j

theorem uint_succ (h : n < 1000) : uint (n + 1) = n + 1 := by
  unfold uint
  omega

theorem usub_one (hpos : 0 < n) (h : n < 1000) : usub n 1 = n - 1 := by
  unfold usub uint
  omega

theorem setHeld_self : s.setHeld p i (s.held p i) = s := by
  simp [State.setHeld]

section Access

variable (h : Access s)

include h

theorem Access.move (hid : v.dev = (s.buf i).dev ∧ v.blockno = (s.buf i).blockno)
    (hd : (s.buf i).dev = ROOTDEV) (hs : ∀ j, (s.pc p).on = some j → j = i) (hc : ∀ j, c.on = some j → j = i)
    (hcount : v.refcnt + ((if (s.held p i).isSome then 1 else 0) + if (s.pc p).on = some i then 1 else 0) =
      (s.buf i).refcnt + ((if o.isSome then 1 else 0) + if c.on = some i then 1 else 0))
    (hother : ∀ q, q ≠ p → (v.lock = some q ↔ (s.buf i).lock = some q))
    (hlock : v.lock = some p ↔ o.isSome ∨ ∃ b, c = .reading b i) (honce : o.isSome → ∀ b, c ≠ .reading b i)
    (hcall : ∀ b, c = .acquiring b i ∨ c = .reading b i → (s.buf i).blockno = b) :
    Access (((s.setBuf i v).setHeld p i o).setPc p c) := by
  have hon : ∀ q b j, c = .acquiring b j ∨ c = .reading b j → q = p → j = i := by
    rintro _ b j (rfl | rfl) - <;> exact hc j rfl
  have hwas : ∀ b j, s.pc p = .reading b j → j = i := fun b j hb => hs j (by rw [hb, Pc.on])
  refine h.change (fun j => ?_) rfl (fun j hj => ?_) (fun j => ?_) (fun q j => ?_) (fun q j b => ?_) fun q b j => ?_
  · by_cases hj : j = i <;> simp [hj, hid]
  · have hji : j ≠ i := by
      rintro rfl
      rw [hd] at hj
      cases hj
    simpa [hji] using h.unused hj
  · have hpc := refs_setPc (s := (s.setBuf i v).setHeld p i o) (p := p) (c := c) (i := j)
    have hheld := refs_setHeld (s := s.setBuf i v) (p := p) (i := i) (o := o) (j := j)
    simp only [setHeld_pc, setBuf_pc, setBuf_held, setBuf_refs] at hpc hheld
    simp only [setPc_buf, setHeld_buf, setBuf_buf]
    grind
  · have hq := h.lock q j
    simp only [setPc_buf, setHeld_buf, setBuf_buf, setPc_held, setHeld_held, setBuf_held, setPc_pc, setHeld_pc,
      setBuf_pc]
    grind
  · have hq := h.once q j b
    simp only [setPc_held, setHeld_held, setBuf_held, setPc_pc, setHeld_pc, setBuf_pc]
    grind
  · have hq := h.call q b j
    simp only [setPc_pc, setHeld_pc, setBuf_pc]
    grind

theorem Access.go (hid : v.dev = (s.buf i).dev ∧ v.blockno = (s.buf i).blockno)
    (hd : (s.buf i).dev = ROOTDEV) (hs : ∀ j, (s.pc p).on = some j → j = i) (hc : ∀ j, c.on = some j → j = i)
    (hcount : v.refcnt + (if (s.pc p).on = some i then 1 else 0) = (s.buf i).refcnt + if c.on = some i then 1 else 0)
    (hother : ∀ q, q ≠ p → (v.lock = some q ↔ (s.buf i).lock = some q))
    (hlock : v.lock = some p ↔ (s.held p i).isSome ∨ ∃ b, c = .reading b i)
    (honce : (s.held p i).isSome → ∀ b, c ≠ .reading b i)
    (hcall : ∀ b, c = .acquiring b i ∨ c = .reading b i → (s.buf i).blockno = b) :
    Access ((s.setBuf i v).setPc p c) := by
  have hmove := h.move (o := s.held p i) hid hd hs hc (by omega) hother hlock honce hcall
  rwa [show s.held p i = (s.setBuf i v).held p i from rfl, setHeld_self] at hmove

theorem Access.on (hp : (s.pc p).on = some i) : (s.buf i).dev = ROOTDEV ∧ 0 < (s.buf i).refcnt := by
  have hpos := refs_pos_of_on hp
  have hcount := h.count i
  have hdev := h.dev i
  refine ⟨hdev.resolve_left fun h0 => ?_, ?_⟩ <;> omega

theorem Access.hit (hp : s.pc p = .user) (hd : (s.buf i).dev = ROOTDEV) (hb : (s.buf i).blockno = b) :
    Access ((s.setBuf i { s.buf i with refcnt := uint ((s.buf i).refcnt + 1) }).setPc p (.acquiring b i)) := by
  rw [uint_succ (h.refcnt_lt i)]
  have hlock := h.lock p i
  refine h.go ⟨rfl, rfl⟩ hd ?_ ?_ ?_ (fun _ _ => Iff.rfl) ?_ ?_ ?_ <;> simp_all [Pc.on]

theorem Access.miss (hp : s.pc p = .user) (hno : ∀ j, (s.buf j).dev = ROOTDEV → (s.buf j).blockno ≠ b)
    (hi : (s.buf i).refcnt = 0) (hv : v.dev = ROOTDEV ∧ v.blockno = b ∧ v.refcnt = 1 ∧ v.lock = (s.buf i).lock) :
    Access ((s.setBuf i v).setPc p (.acquiring b i)) := by
  generalize ht : (s.setBuf i v).setPc p (.acquiring b i) = t
  obtain ⟨hfree, hnone, hpin, hlock⟩ := h.free hi
  rw [hlock] at hv
  have hother : ∀ j, j ≠ i → t.buf j = s.buf j := by
    intro j hj
    rw [← ht, setPc_buf, setBuf_buf, if_neg hj]
  have hself : t.buf i = v := by rw [← ht, setPc_buf, setBuf_buf, if_pos rfl]
  have hpc : ∀ q, t.pc q = if q = p then .acquiring b i else s.pc q := by
    intro q
    rw [← ht, setPc_pc, setBuf_pc]
  have hheld : t.held = s.held := by rw [← ht]; rfl
  have hlog : t.log = s.log := by rw [← ht]; rfl
  have hpinned : t.pinned = s.pinned := by rw [State.pinned, hlog, State.pinned]
  have hbpin : b ∉ s.pinned := by
    intro hb
    obtain ⟨j, hd, hj⟩ := h.cached b hb
    exact hno j hd hj
  have hreading : ∀ q b', s.pc q ≠ .acquiring b' i ∧ s.pc q ≠ .reading b' i := by
    intro q b'
    refine ⟨fun hq => hnone q (by rw [hq, Pc.on]), fun hq => hnone q (by rw [hq, Pc.on])⟩
  constructor
  · grind [h.dev]
  · grind [h.unique]
  · intro j
    have hrefs := refs_setPc (p := p) (c := .acquiring b i) (i := j) (s := s.setBuf i v)
    rw [ht, setBuf_pc, hp, setBuf_refs] at hrefs
    simp only [Pc.on, reduceCtorEq, ↓reduceIte, Option.some.injEq] at hrefs
    have hcount := h.count j
    by_cases hj : j = i
    · subst hj
      rw [State.pin, hpinned, hself, hv.2.1, if_neg fun hb => hbpin hb.2]
      grind
    · rw [State.pin, hother j hj, hpinned, ← State.pin]
      grind
  · grind [h.lock]
  · grind [h.once]
  · grind [h.call]
  · intro b' hb'
    rw [hpinned] at hb'
    obtain ⟨j, hd, hj⟩ := h.cached b' hb'
    have hji : j ≠ i := by
      rintro rfl
      rw [State.pin, if_pos ⟨hd, hj ▸ hb'⟩] at hpin
      cases hpin
    rw [← hother j hji] at hd hj
    exact ⟨j, hd, hj⟩
  · rw [hlog]
    exact h.nodup
  · rw [hlog]
    exact h.commit

theorem Access.acquire (hp : s.pc p = .acquiring b i) (hi : (s.buf i).lock = none) :
    Access ((s.setBuf i { s.buf i with lock := some p }).setPc p (.reading b i)) := by
  have hd := (h.on (show (s.pc p).on = some i by rw [hp, Pc.on])).1
  have hb := (h.call p b i (.inl hp)).2
  -- nobody has the lock, so `p` does not hold the buffer
  have hfree : ¬ (s.held p i).isSome := by
    intro hh
    have := (h.lock p i).mpr (.inl hh)
    rw [hi] at this
    cases this
  refine h.go ⟨rfl, rfl⟩ hd ?_ ?_ ?_ (fun q hq => ?_) ?_ ?_ ?_
  case refine_4 => simp [hi, Ne.symm hq]
  all_goals simp_all [Pc.on]

theorem Access.got (hp : s.pc p = .reading b i) : Access ((s.setHeld p i (some {})).setPc p .user) := by
  have hd := (h.on (show (s.pc p).on = some i by rw [hp, Pc.on])).1
  have hnone : s.held p i = none := by
    by_contra hne
    exact h.once p i b (Option.isSome_iff_ne_none.mpr hne) hp
  have hlock := (h.lock p i).mpr (.inr ⟨b, hp⟩)
  have hsame : s.setBuf i (s.buf i) = s := by simp [State.setBuf]
  have hmove := h.move (p := p) (c := .user) (o := some {}) (v := s.buf i) ⟨rfl, rfl⟩ hd
    (by simp [hp, Pc.on]) (by simp [Pc.on]) (by simp [hp, hnone, Pc.on]) (fun _ _ => Iff.rfl) (by simp [hlock])
    (by simp) (by simp)
  rwa [hsame] at hmove

theorem Access.unlock (hp : s.pc p = .user) (hh : s.held p i = some k) :
    Access (((s.setBuf i { s.buf i with lock := none }).setHeld p i none).setPc p (.releasing i)) := by
  obtain ⟨hd, hlock, _⟩ := h.held hh
  refine h.move ⟨rfl, rfl⟩ hd ?_ ?_ ?_ (fun q hq => ?_) ?_ ?_ ?_
  case refine_4 => simp [hlock, Ne.symm hq]
  all_goals simp_all [Pc.on]

theorem Access.drop (hp : s.pc p = .releasing i) :
    Access ((s.setBuf i { s.buf i with refcnt := usub (s.buf i).refcnt 1 }).setPc p .user) := by
  obtain ⟨hd, hpos⟩ := h.on (show (s.pc p).on = some i by rw [hp, Pc.on])
  rw [usub_one hpos (h.refcnt_lt i)]
  have hlock := h.lock p i
  refine h.go ⟨rfl, rfl⟩ hd ?_ ?_ ?_ (fun _ _ => Iff.rfl) ?_ ?_ ?_
  case refine_3 =>
    simp only [hp, Pc.on, reduceCtorEq, ↓reduceIte]
    omega
  all_goals simp_all [Pc.on]

theorem Access.relog (hd : (s.buf i).dev = ROOTDEV) (hnodup : g.lh.Nodup)
    (hcommit : (0 < g.tail → g.committing.isSome) ∧ (g.committing.isSome → g.outstanding = 0))
    (hpinned : ∀ b, b ≠ (s.buf i).blockno → (b ∈ g.lh.drop g.tail ↔ b ∈ s.pinned))
    (hn : n + s.pin i = (s.buf i).refcnt + if (s.buf i).blockno ∈ g.lh.drop g.tail then 1 else 0) :
    Access { s.setBuf i { s.buf i with refcnt := n } with log := g } := by
  generalize ht : ({ s.setBuf i { s.buf i with refcnt := n } with log := g } : State) = t
  have hbuf : ∀ j, (t.buf j).dev = (s.buf j).dev ∧ (t.buf j).blockno = (s.buf j).blockno ∧
      (t.buf j).lock = (s.buf j).lock ∧ (t.buf j).refcnt = if j = i then n else (s.buf j).refcnt := by
    intro j
    have hj : t.buf j = if j = i then { s.buf i with refcnt := n } else s.buf j := by
      rw [← ht]
      exact setBuf_buf
    rw [hj]
    split
    next hj => simp [hj]
    next => simp
  have hheld : t.held = s.held := by rw [← ht]; rfl
  have hpc : t.pc = s.pc := by rw [← ht]; rfl
  have hrefs : ∀ j, t.refs j = s.refs j := fun j => by rw [refs_congr hheld hpc]
  have htp : t.pinned = g.lh.drop g.tail := by rw [← ht]; rfl
  have hlog : t.log = g := by rw [← ht]
  constructor
  · grind [h.dev, ROOTDEV]
  · grind [h.unique]
  · intro j
    have hcount := h.count j
    rw [hrefs j, State.pin, (hbuf j).1, (hbuf j).2.1, (hbuf j).2.2.2, htp]
    by_cases hj : j = i
    · subst hj
      rw [if_pos rfl]
      simp only [hd, true_and]
      omega
    · have hiff : (s.buf j).dev = ROOTDEV ∧ (s.buf j).blockno ∈ g.lh.drop g.tail ↔
          (s.buf j).dev = ROOTDEV ∧ (s.buf j).blockno ∈ s.pinned :=
        and_congr_right fun hdj => hpinned _ fun he => hj (h.unique j i hdj hd he)
      rw [if_neg hj, hcount, State.pin]
      simp only [hiff]
  · intro q j
    rw [(hbuf j).2.2.1, hheld, hpc]
    exact h.lock q j
  · rw [hheld, hpc]
    exact h.once
  · intro q b j
    rw [hpc, (hbuf j).1, (hbuf j).2.1]
    exact h.call q b j
  · intro b hb
    rw [htp] at hb
    by_cases hbi : b = (s.buf i).blockno
    · exact ⟨i, by rw [(hbuf i).1, hd], by rw [(hbuf i).2.1, hbi]⟩
    · obtain ⟨j, hdj, hj⟩ := h.cached b ((hpinned b hbi).mp hb)
      exact ⟨j, by rw [(hbuf j).1, hdj], by rw [(hbuf j).2.1, hj]⟩
  · rw [hlog]
    exact hnodup
  · rw [hlog]
    exact hcommit

theorem Access.setLog (hnodup : g.lh.Nodup)
    (hcommit : (0 < g.tail → g.committing.isSome) ∧ (g.committing.isSome → g.outstanding = 0))
    (hpinned : g.lh.drop g.tail = s.pinned) : Access { s with log := g } := by
  refine ⟨h.dev, h.unique, fun j => ?_, h.lock, h.once, h.call, ?_, hnodup, hcommit⟩
  · rw [State.pin]
    change (s.buf j).refcnt = s.refs j + if (s.buf j).dev = ROOTDEV ∧ (s.buf j).blockno ∈ g.lh.drop g.tail then 1 else 0
    rw [hpinned, ← State.pin]
    exact h.count j
  · change ∀ b ∈ g.lh.drop g.tail, _
    rw [hpinned]
    exact h.cached

theorem Access.pinned_eq (ho : 0 < s.log.outstanding) : s.pinned = s.log.lh := by
  have htail : s.log.tail = 0 := by
    by_contra hne
    have := h.commit.2 (h.commit.1 (Nat.pos_of_ne_zero hne))
    omega
  rw [State.pinned, htail, List.drop_zero]

theorem logWrite_cases (hs : logWrite s i = some t) :
    (s.buf i).blockno ∈ s.pinned ∧ t = s ∨
    (s.buf i).blockno ∉ s.pinned ∧ s.pinned = s.log.lh ∧ 0 < s.log.outstanding ∧
      t = { bpin s i with log := { s.log with lh := s.log.lh ++ [(s.buf i).blockno] } } := by
  unfold logWrite at hs
  split at hs
  next => cases hs
  next =>
    split at hs
    next => cases hs
    next ho =>
      have ho : 0 < s.log.outstanding := by omega
      rw [h.pinned_eq ho]
      split at hs
      next hmem =>
        cases hs
        exact .inl ⟨hmem, rfl⟩
      next hmem =>
        cases hs
        exact .inr ⟨hmem, rfl, ho, rfl⟩

theorem Access.pinBlock (hd : (s.buf i).dev = ROOTDEV) (hnot : (s.buf i).blockno ∉ s.pinned)
    (hlh : s.pinned = s.log.lh) (ho : 0 < s.log.outstanding) :
    Access { bpin s i with log := { s.log with lh := s.log.lh ++ [(s.buf i).blockno] } } := by
  have htail : s.log.tail = 0 := by
    by_contra hne
    have := h.commit.2 (h.commit.1 (Nat.pos_of_ne_zero hne))
    omega
  have hpin : s.pin i = 0 := if_neg fun hb => hnot hb.2
  rw [bpin, uint_succ (h.refcnt_lt i)]
  refine h.relog hd ?_ h.commit (fun b hb => ?_) ?_
  · rw [← List.concat_eq_append]
    exact h.nodup.concat (hlh ▸ hnot)
  · rw [htail, List.drop_zero, hlh, List.mem_append, List.mem_singleton]
    exact or_iff_left hb
  · rw [htail, List.drop_zero, hpin, if_pos (by simp)]

theorem Access.unpin (hh : s.held p i = some k) (hc : s.log.committing = some p)
    (htail : s.log.lh[s.log.tail]? = some (s.buf i).blockno) :
    s.pinned = (s.buf i).blockno :: s.log.lh.drop (s.log.tail + 1) ∧
      Access { bunpin s i with log := { s.log with tail := s.log.tail + 1 } } := by
  obtain ⟨hd, _, hpos⟩ := h.held hh
  obtain ⟨hlt, he⟩ := List.getElem?_eq_some_iff.mp htail
  have hcons : s.pinned = (s.buf i).blockno :: s.log.lh.drop (s.log.tail + 1) := by
    rw [State.pinned, List.drop_eq_getElem_cons hlt, he]
  have hnodup : s.pinned.Nodup := h.nodup.sublist (List.drop_sublist _ _)
  rw [hcons, List.nodup_cons] at hnodup
  have hpin : s.pin i = 1 := if_pos ⟨hd, by rw [hcons]; exact List.mem_cons_self⟩
  refine ⟨hcons, ?_⟩
  rw [bunpin, usub_one hpos (h.refcnt_lt i)]
  refine h.relog hd h.nodup ⟨fun _ => by rw [hc]; rfl, h.commit.2⟩ (fun b hb => ?_) ?_
  · rw [hcons, List.mem_cons]
    exact (or_iff_right hb).symm
  · rw [hpin, if_neg hnodup.1]
    omega

end Access

inductive Step (s : State) (L : List (Fin NBUF)) : State → Prop
  | hit {p : Fin NPROC} {b : Nat} {i : Fin NBUF} (hp : s.pc p = .user) (hd : (s.buf i).dev = ROOTDEV)
      (hb : (s.buf i).blockno = b) :
      Step s L ((s.setBuf i { s.buf i with refcnt := uint ((s.buf i).refcnt + 1) }).setPc p (.acquiring b i))
  | miss {p : Fin NPROC} {b : Nat} {i : Fin NBUF} {L₁ L₂ : List (Fin NBUF)} (hp : s.pc p = .user)
      (hno : ∀ j, (s.buf j).dev = ROOTDEV → (s.buf j).blockno ≠ b) (hi : (s.buf i).refcnt = 0)
      (hL : L = L₁ ++ i :: L₂) (hlast : ∀ j ∈ L₂, (s.buf j).refcnt ≠ 0) :
      Step s L ((s.setBuf i { s.buf i with dev := ROOTDEV, blockno := b, valid := false, refcnt := 1 }).setPc p
        (.acquiring b i))
  | acquire {p : Fin NPROC} {b : Nat} {i : Fin NBUF} (hp : s.pc p = .acquiring b i) (hi : (s.buf i).lock = none) :
      Step s L ((s.setBuf i { s.buf i with lock := some p }).setPc p (.reading b i))
  | got {p : Fin NPROC} {b : Nat} {i : Fin NBUF} (hp : s.pc p = .reading b i) :
      Step s L (((breadFill s i).setHeld p i (some {})).setPc p .user)
  | drop {p : Fin NPROC} {i : Fin NBUF} (hp : s.pc p = .releasing i) :
      Step s L ((brelseUnlocked s i).setPc p .user)
  | store {p : Fin NPROC} {i : Fin NBUF} {k : Hold} {d : Block} (hh : s.held p i = some k) (hu : k.unpinned = false) :
      Step s L { (s.setBuf i { s.buf i with data := d }).setHeld p i (some { k with dirty := true, written := false })
        with stored := Function.update s.stored (s.buf i).blockno d }
  | bwrite {p : Fin NPROC} {i : Fin NBUF} {k : Hold} (hh : s.held p i = some k) :
      Step s L ((virtioDiskRw s i true).setHeld p i (some { k with dirty := false, written := true }))
  | absorb {p : Fin NPROC} {i : Fin NBUF} {k : Hold} (hh : s.held p i = some k) (hu : k.unpinned = false)
      (hpin : (s.buf i).blockno ∈ s.pinned) :
      Step s L (s.setHeld p i (some { k with logged := true }))
  | pin {p : Fin NPROC} {i : Fin NBUF} {k : Hold} (hh : s.held p i = some k) (hu : k.unpinned = false)
      (hnot : (s.buf i).blockno ∉ s.pinned) (hlh : s.pinned = s.log.lh) (ho : 0 < s.log.outstanding) :
      Step s L (({ bpin s i with log := { s.log with lh := s.log.lh ++ [(s.buf i).blockno] } } : State).setHeld p i
        (some { k with logged := true }))
  | unpin {p : Fin NPROC} {i : Fin NBUF} {k : Hold} (hh : s.held p i = some k) (hw : k.written = true)
      (hc : s.log.committing = some p) (htail : s.log.lh[s.log.tail]? = some (s.buf i).blockno) :
      Step s L (({ bunpin s i with log := { s.log with tail := s.log.tail + 1 } } : State).setHeld p i
        (some { k with unpinned := true }))
  | unlock {p : Fin NPROC} {i : Fin NBUF} {k : Hold} (hp : s.pc p = .user) (hh : s.held p i = some k)
      (hclean : k.dirty = false ∨ k.logged = true) :
      Step s L (((s.setBuf i { s.buf i with lock := none }).setHeld p i none).setPc p (.releasing i))
  | log {g : LogState} (hnodup : g.lh.Nodup)
      (hcommit : (0 < g.tail → g.committing.isSome) ∧ (g.committing.isSome → g.outstanding = 0))
      (hpinned : g.lh.drop g.tail = s.pinned) : Step s L { s with log := g }

theorem act_step (h : Access s) (hl : Listed s L) (hs : act s a = some t) : Step s L t := by
  cases a with
  | bread p b =>
    simp only [act, Option.ite_none_right_eq_some, Option.map_eq_some_iff] at hs
    obtain ⟨hp, ⟨i, u⟩, hget, rfl⟩ := hs
    rcases bget_cases hl hget with ⟨hd, hb, rfl⟩ | ⟨hno, hi, ⟨L₁, L₂, hL, hlast⟩, rfl⟩
    · exact .hit hp hd hb
    · exact .miss hp hno hi hL hlast
  | step p =>
    simp only [act, step] at hs
    cases hp : s.pc p with
    | user =>
      rw [hp] at hs
      cases hs
    | acquiring b i =>
      simp only [hp] at hs
      obtain ⟨hi, rfl⟩ := some_of_guard hs
      exact .acquire hp hi
    | reading b i =>
      simp only [hp] at hs
      cases hs
      exact .got hp
    | releasing i =>
      simp only [hp] at hs
      cases hs
      exact .drop hp
  | store p i d =>
    obtain ⟨k, hh, hs⟩ := Option.bind_eq_some_iff.mp hs
    obtain ⟨⟨_, hu⟩, rfl⟩ := some_of_guard hs
    exact .store hh hu
  | bwrite p i =>
    obtain ⟨k, hh, hs⟩ := Option.bind_eq_some_iff.mp hs
    obtain ⟨_, rfl⟩ := some_of_guard hs
    exact .bwrite hh
  | logWrite p i =>
    obtain ⟨k, hh, hs⟩ := Option.bind_eq_some_iff.mp hs
    rw [Option.ite_none_right_eq_some, Option.map_eq_some_iff] at hs
    obtain ⟨⟨_, hu⟩, u, hlog, rfl⟩ := hs
    rcases logWrite_cases h hlog with ⟨hmem, rfl⟩ | ⟨hnot, hlh, ho, rfl⟩
    · exact .absorb hh hu hmem
    · exact .pin hh hu hnot hlh ho
  | bunpin p i =>
    obtain ⟨k, hh, hs⟩ := Option.bind_eq_some_iff.mp hs
    obtain ⟨⟨_, _, hw, hc, htail⟩, rfl⟩ := some_of_guard hs
    exact .unpin hh hw hc htail
  | brelse p i =>
    obtain ⟨k, hh, hs⟩ := Option.bind_eq_some_iff.mp hs
    obtain ⟨⟨hp, hclean, _⟩, rfl⟩ := some_of_guard hs
    exact .unlock hp hh hclean
  | beginOp =>
    simp only [act, beginOp, Option.ite_none_left_eq_some] at hs
    obtain ⟨hc, _, hs⟩ := hs
    cases hs
    exact .log h.nodup ⟨h.commit.1, fun hsome => absurd hsome hc⟩ rfl
  | endOp p =>
    simp only [act, endOp, Option.ite_none_right_eq_some, Option.ite_none_left_eq_some] at hs
    obtain ⟨_, hc, hs⟩ := hs
    split at hs
    next =>
      cases hs
      exact .log h.nodup ⟨fun _ => rfl, fun _ => rfl⟩ rfl
    next =>
      cases hs
      exact .log h.nodup ⟨h.commit.1, fun hsome => absurd hsome hc⟩ rfl
  | commitEnd p =>
    obtain ⟨⟨_, htail⟩, rfl⟩ := some_of_guard hs
    refine .log List.nodup_nil ⟨fun h0 => absurd h0 (Nat.lt_irrefl 0), nofun⟩ ?_
    rw [State.pinned, htail, List.drop_length, List.drop_nil]

theorem breadFill_same : SameRefs s (breadFill s i) := by
  unfold breadFill virtioDiskRw
  split
  next => exact ⟨fun _ => ⟨rfl, rfl, rfl, rfl⟩, fun _ _ => rfl, rfl, rfl⟩
  next =>
    refine ⟨fun j => ?_, fun _ _ => rfl, rfl, rfl⟩
    by_cases hj : j = i <;> simp [hj]

theorem SameRefs.setHeld (hs : SameRefs s t) (hh : s.held p i = some k) (k' : Hold) :
    SameRefs s (t.setHeld p i (some k')) := by
  refine ⟨hs.buf, fun q j => ?_, hs.pc, hs.log⟩
  rw [setHeld_held]
  split
  next he => rw [he.1, he.2, hh]; rfl
  next => exact hs.held q j

theorem SameRefs.refl (s : State) : SameRefs s s := ⟨fun _ => ⟨rfl, rfl, rfl, rfl⟩, fun _ _ => rfl, rfl, rfl⟩

theorem Access.setHeld (h : Access s) (hh : s.held p i = some k) (k' : Hold) : Access (s.setHeld p i (some k')) :=
  h.same ((SameRefs.refl s).setHeld hh k')

theorem Access.step (h : Access s) (hst : Step s L t) : Access t := by
  cases hst with
  | hit hp hd hb => exact h.hit hp hd hb
  | miss hp hno hi => exact h.miss hp hno hi ⟨rfl, rfl, rfl, rfl⟩
  | acquire hp hi => exact h.acquire hp hi
  | got hp =>
    exact (h.same breadFill_same).got (by rw [breadFill_same.pc, hp])
  | @drop p i hp =>
    refine (h.drop hp).same ⟨fun j => ?_, fun _ _ => ?_, ?_, ?_⟩
    · unfold brelseUnlocked
      dsimp only
      split <;> exact ⟨rfl, rfl, rfl, rfl⟩
    all_goals
      unfold brelseUnlocked
      dsimp only
      split <;> rfl
  | @store p i k d hh =>
    have hbuf : SameRefs s (s.setBuf i { s.buf i with data := d }) :=
      ⟨fun j => by by_cases hj : j = i <;> simp [hj], fun _ _ => rfl, rfl, rfl⟩
    obtain ⟨h1, h2, h3, h4⟩ := hbuf.setHeld hh { k with dirty := true, written := false }
    exact h.same ⟨h1, h2, h3, h4⟩
  | @bwrite p i k hh =>
    have hbuf : SameRefs s (virtioDiskRw s i true) := ⟨fun _ => ⟨rfl, rfl, rfl, rfl⟩, fun _ _ => rfl, rfl, rfl⟩
    exact h.same (hbuf.setHeld hh _)
  | absorb hh => exact h.setHeld hh _
  | pin hh hu hnot hlh ho => exact (h.pinBlock (h.held hh).1 hnot hlh ho).setHeld hh _
  | unpin hh hw hc htail => exact (h.unpin hh hc htail).2.setHeld hh _
  | unlock hp hh => exact h.unlock hp hh
  | log hnodup hcommit hpinned => exact h.setLog hnodup hcommit hpinned

end TweakedXv6.Bio

import TweakedXv6.VirtioCalls
import TweakedXv6.VirtioPending

namespace TweakedXv6.Virtio

open Function (update update_self update_of_ne)

structure Inv (s : State) (A U : List Nat) : Prop where
  noPanic : s.panic = none
  held : Held s.call s.lock s.locked
  filled : Filled s.disk s.call
  pending : Pending s.disk (Sent s.call) s.lastAvail s.taken s.owner s.done A U

structure Sound (s : State) : Prop where
  noPanic : s.panic = none
  chains : Allot NUM s.disk.free (chains s.call)

/-- `alloc3_desc` takes three descriptors or none; only `virtio_disk_intr` clears `b->disk`, for the
request that was sent with that head; a call returns when the device has completed its request. -/
structure StepSound (s : State) (a : Act) (t : State) : Prop where
  alloc : ∀ p c, a = .step p → s.call p = some c → c.stage = .alloc →
    (∃ i0 i1 i2, [i0, i1, i2].Nodup ∧ (∀ i ∈ [i0, i1, i2], i < NUM ∧ s.disk.free i = true) ∧
      chains t.call p = [i0, i1, i2] ∧
      t.disk.free = fun i => if i ∈ [i0, i1, i2] then false else s.disk.free i) ∨
    chains t.call p = [] ∧ t.disk.free = s.disk.free
  clear : a = .intrStep → s.disk.seen ≠ s.disk.usedIdx → ∃ p h b, h = s.disk.usedRing (s.disk.seen % NUM) ∧
    Sent s.call p h b ∧ s.owner h = some p ∧ s.done p = true ∧ s.disk.infoB h = some b ∧
    s.disk.bufDisk b = true ∧ t.disk.bufDisk = update s.disk.bufDisk b false
  only : ∀ b, s.disk.bufDisk b = true → t.disk.bufDisk b = false → a = .intrStep ∧ s.disk.seen ≠ s.disk.usedIdx
  returns : ∀ p c, s.call p = some c → t.call p = none → s.done p = true

/-- With the lock, a call takes its next step; `virtio_disk_intr` takes the next completion and clears
`b->disk` of its request; a call whose `b->disk` is clear returns, with its descriptors free. -/
structure Progress (s : State) : Prop where
  step : ∀ p c, s.lock = some (some p) → s.call p = some c → c.stage.holds = true → ∃ t, act s (.step p) = some t
  intr : s.lock = some none → s.disk.seen ≠ s.disk.usedIdx → ∃ t p h b, act s .intrStep = some t ∧
    h = s.disk.usedRing (s.disk.seen % NUM) ∧ Sent s.call p h b ∧ s.owner h = some p ∧ s.done p = true ∧
    s.disk.infoB h = some b ∧ s.disk.bufDisk b = true ∧ t.disk.bufDisk = update s.disk.bufDisk b false ∧
    t.disk.seen = (s.disk.seen + 1) % 65536
  returns : ∀ p c, s.lock = some (some p) → s.call p = some c → c.stage = .wait → s.disk.bufDisk c.b = false →
    ∃ t, act s (.step p) = some t ∧ t.call p = none ∧ t.lock = none ∧ ∀ i ∈ [c.i0, c.i1, c.i2], t.disk.free i = true

variable {s t : State} {c c' e : Call} {p q b i0 i1 i2 i : Nat} {A U : List Nat} {a : Act}
  {l : Option (Option Nat)}

theorem Inv.sent_lt (h : Inv s A U) (p i b : Nat) (hS : Sent s.call p i b) : i < NUM :=
  h.filled.own.lt p i (sent_mem hS)

theorem Inv.unsent_head (h : Inv s A U) (hp : s.call p = some c) (hown : c.stage.owns = true)
    (hc : c.stage.sent = false) (q b : Nat) : ¬ Sent s.call q c.i0 b := by
  intro hS
  have hq := h.filled.own.apart q p c.i0 (sent_mem hS) (head_mem hp hown)
  obtain ⟨e, he, hs, _⟩ := hS
  cases Option.some.inj (hp.symm.trans (hq ▸ he))
  rw [hc] at hs
  cases hs

theorem Inv.unsent_buf (h : Inv s A U) (hp : s.call p = some c) (hc : c.stage.sent = false) (q i : Nat) :
    ¬ Sent s.call q i c.b := by
  rintro ⟨e, he, hs, _, hb⟩
  have hq := h.held.apart q p e c he hp hb
  cases Option.some.inj (hp.symm.trans (hq ▸ he))
  rw [hc] at hs
  cases hs

theorem Inv.sent_one (h : Inv s A U) {j a b : Nat} (hS : Sent s.call p i a) (hT : Sent s.call q j b) :
    j = i ↔ b = a := by
  have hpq : p = q → j = i ∧ b = a := by
    rintro rfl
    obtain ⟨c, hp, _, rfl, rfl⟩ := hS
    obtain ⟨e, he, _, rfl, rfl⟩ := hT
    cases hp.symm.trans he
    exact ⟨rfl, rfl⟩
  constructor
  · rintro rfl
    exact (hpq (h.filled.own.apart p q j (sent_mem hS) (sent_mem hT))).2
  · intro hb
    obtain ⟨c, hp, _, rfl, rfl⟩ := hS
    obtain ⟨e, he, _, rfl, rfl⟩ := hT
    exact (hpq (h.held.apart p q c e hp he hb.symm)).1

theorem Inv.start (h : Inv s A U) (write : Bool) (hp : s.call p = none) (hb : s.locked b = false) :
    Inv ({ s with locked := update s.locked b true }.setCall p (some { stage := .enter, b, write }))
      A U := by
  have hfresh : ∀ q e, s.call q = some e → e.b ≠ b := by
    rintro q e he rfl
    rw [h.held.buf q e he] at hb
    cases hb
  have hnone : ∀ c, s.call p = some c → c.stage.sent = false := by
    intro c hc
    rw [hp] at hc
    cases hc
  constructor
  case noPanic => exact h.noPanic
  case held =>
    constructor
    case lock =>
      intro q e he hs
      rcases update_some_cases he with ⟨rfl, rfl⟩ | ⟨hq, he⟩
      · cases hs
      · exact h.held.lock q e he hs
    case buf =>
      intro q e he
      rcases update_some_cases he with ⟨rfl, rfl⟩ | ⟨hq, he⟩
      · exact update_self ..
      · exact (update_of_ne (hfresh q e he) ..).trans (h.held.buf q e he)
    case apart =>
      intro q r e f he hf hbuf
      rcases update_some_cases he with ⟨rfl, rfl⟩ | ⟨hq, he'⟩ <;>
        rcases update_some_cases hf with ⟨rfl, rfl⟩ | ⟨hr, hf'⟩
      · rfl
      · exact absurd hbuf.symm (hfresh r f hf')
      · exact absurd hbuf (hfresh q e he')
      · exact h.held.apart q r e f he' hf' hbuf
  case filled => exact h.filled.restage (chains_none hp) (fun hr => by cases hr) (fun hs => by cases hs)
  case pending =>
    have hsent : Sent (update s.call p (some { stage := .enter, b, write })) = Sent s.call :=
      sent_unsent hnone rfl
    exact hsent ▸ h.pending

theorem Inv.restage {g : Stage} (h : Inv s A U) (hp : s.call p = some c)
    (halone : ∀ q, q ≠ p → s.lock ≠ some (some q)) (hlock : g.holds = true → l = some (some p))
    (hown : c.stage.owns = g.owns) (hsent : c.stage.sent = g.sent) (hready : g.ready = g.sent)
    (hpub : g ≠ .publish) : Inv ({ s with lock := l }.setCall p (some { c with stage := g })) A U where
  noPanic := h.noPanic
  held := h.held.restage halone hp rfl hlock
  filled := by
    refine h.filled.restage ?_ (fun hr => ?_) hpub
    · rw [chains_eq hp, Call.chain, Call.chain, hown]
    · rw [hready, ← hsent] at hr
      exact (h.filled.ready p c hp (Stage.ready_of_sent hr)).congr (fun _ _ => rfl) rfl rfl rfl rfl rfl
  pending := by
    have hsame : Sent (update s.call p (some { c with stage := g })) = Sent s.call := by
      cases hs : c.stage.sent with
      | false => exact unsent hp hs (hsent ▸ hs)
      | true => exact sent_resent hp hs (hsent ▸ hs) rfl rfl
    exact hsame ▸ h.pending

theorem acquire_cases (hs : acquire s p c = some t) : s.lock = none ∧
    ((c.stage.owns = false ∧ c.stage.sent = false ∧
        t = { s with lock := some (some p) }.setCall p (some { c with stage := .alloc })) ∨
      c.stage = .asleep ∧ t = { s with lock := some (some p) }.setCall p (some { c with stage := .wait })) := by
  rw [acquire] at hs
  split at hs
  next hlock =>
    refine ⟨hlock, ?_⟩
    split at hs
    case h_1 hc => exact .inl ⟨by rw [hc]; rfl, by rw [hc]; rfl, (Option.some.inj hs).symm⟩
    case h_2 hc => exact .inl ⟨by rw [hc]; rfl, by rw [hc]; rfl, (Option.some.inj hs).symm⟩
    case h_3 hc => exact .inr ⟨hc, (Option.some.inj hs).symm⟩
    case h_4 => cases hs
  next => cases hs

theorem Inv.acquire (h : Inv s A U) (hp : s.call p = some c) (hs : acquire s p c = some t) : Inv t A U := by
  obtain ⟨hlock, hcases⟩ := acquire_cases hs
  have hfree : ∀ q, q ≠ p → s.lock ≠ some (some q) := by
    intro q _ hq
    rw [hlock] at hq
    cases hq
  rcases hcases with ⟨hown, hsent, rfl⟩ | ⟨hc, rfl⟩
  · exact h.restage hp hfree (fun _ => rfl) hown hsent rfl nofun
  · exact h.restage hp hfree (fun _ => rfl) (by rw [hc]; rfl) (by rw [hc]; rfl) rfl nofun

theorem Inv.no_publish (h : Inv s A U) (hl : ∀ q, q ≠ p → s.lock ≠ some (some q)) (hq : q ≠ p)
    (he : s.call q = some e) : e.stage ≠ .publish := by
  intro hs
  have hno := h.held.alone hl hq he
  rw [hs] at hno
  cases hno

section Locked

variable (h : Inv s A U) (hp : s.call p = some c) (hlock : s.lock = some (some p))

include h hp hlock

theorem Inv.give (hc : c.stage = .alloc)
    (hnd : [i0, i1, i2].Nodup) (hl : ∀ i ∈ [i0, i1, i2], i < NUM ∧ s.disk.free i = true) :
    Inv ({ s with disk := { s.disk with free := fun i => if i ∈ [i0, i1, i2] then false else s.disk.free i } }.setCall
      p (some { c with stage := .format, i0, i1, i2 })) A U where
  noPanic := h.noPanic
  held := h.held.restage (mine hlock) hp rfl fun _ => hlock
  filled := by
    refine h.filled.give ?_ hnd hl rfl rfl
    rw [chains_eq hp, Call.chain, hc]
    rfl
  pending := by
    have hsame : Sent (update s.call p (some { c with stage := .format, i0, i1, i2 })) = Sent s.call :=
      unsent hp (by rw [hc]; rfl) rfl
    have hpend := h.pending
    rw [← hsame] at hpend
    exact { hpend with }

theorem Inv.none_free
    (hc : c.stage = .alloc) {desc : Nat → Desc} (hdesc : ∀ i, s.disk.free i = false → desc i = s.disk.desc i) :
    Inv ({ s with disk := { s.disk with desc }, lock := none }.setCall p (some { c with stage := .noDesc }))
      A U := by
  have hframe : Inv { s with disk := { s.disk with desc } } A U :=
    ⟨h.noPanic, h.held, h.filled.frame rfl hdesc rfl h.filled.entry, { h.pending with }⟩
  exact hframe.restage hp (mine hlock) nofun (by rw [hc]; rfl) (by rw [hc]; rfl) rfl nofun

omit hlock in
theorem Inv.room (hown : c.stage.owns = true)
    (hc : c.stage.sent = false) : A.length < NUM :=
  h.pending.room_avail h.sent_lt (h.unsent_head hp hown hc)
    (h.filled.own.lt p c.i0 (head_mem hp hown))

theorem Inv.format
    (hc : c.stage = .format) :
    Inv ({ s with disk := Virtio.format s.disk (s.blockno c.b) c }.setCall p (some { c with stage := .publish }))
      A U := by
  have hown : c.stage.owns = true := by rw [hc]; rfl
  have hunsent : c.stage.sent = false := by rw [hc]; rfl
  constructor
  case noPanic => exact h.noPanic
  case held => exact h.held.restage (mine hlock) hp rfl fun _ => hlock
  case filled =>
    exact h.filled.format hp hc _ fun q e hq he => h.no_publish (mine hlock) hq he
  case pending =>
    have hsame : Sent (update s.call p (some { c with stage := .publish })) = Sent s.call :=
      unsent hp hunsent rfl
    show Pending _ (Sent (update s.call p _)) _ _ _ _ A U
    rw [hsame]
    exact h.pending.format _ (h.room hp hown hunsent) (h.unsent_head hp hown hunsent) (h.unsent_buf hp hunsent)

theorem Inv.publish
    (hc : c.stage = .publish) :
    Inv ({ s with
        disk := { s.disk with availIdx := (s.disk.availIdx + 1) % 65536 }
        owner := update s.owner c.i0 (some p)
        done := update s.done p false }.setCall p (some { c with stage := .wait }))
      (A ++ [c.i0]) U := by
  have hown : c.stage.owns = true := by rw [hc]; rfl
  have hunsent : c.stage.sent = false := by rw [hc]; rfl
  obtain ⟨hdisk, hentry⟩ := h.filled.entry p c hp hc
  constructor
  case noPanic => exact h.noPanic
  case held => exact h.held.restage (mine hlock) hp rfl fun _ => hlock
  case filled =>
    have hwait : Filled s.disk (update s.call p (some { c with stage := .wait })) := by
      refine h.filled.restage ?_ (fun _ => ?_) (fun hs => by cases hs)
      · rw [chains_eq hp, Call.chain, hc]
        rfl
      · exact (h.filled.ready p c hp (by rw [hc]; rfl)).congr (fun _ _ => rfl) rfl rfl rfl rfl rfl
    refine hwait.frame rfl (fun _ _ => rfl) rfl fun q e he hs => ?_
    rcases update_some_cases he with ⟨_, rfl⟩ | ⟨hq, he⟩
    · cases hs
    · exact absurd hs (h.no_publish (mine hlock) hq he)
  case pending =>
    refine h.pending.publish (h.room hp hown hunsent) (h.unsent_head hp hown hunsent) ?_ hdisk hentry ?_
    · rintro i a ⟨e, he, hs, _⟩
      cases hp.symm.trans he
      rw [hunsent] at hs
      cases hs
    · intro q i a
      constructor
      · rintro ⟨e, he, hs, rfl, rfl⟩
        rcases update_some_cases he with ⟨rfl, rfl⟩ | ⟨hq, he⟩
        · exact .inl ⟨rfl, rfl, rfl⟩
        · exact .inr ⟨e, he, hs, rfl, rfl⟩
      · rintro (⟨rfl, rfl, rfl⟩ | ⟨e, he, hs, rfl, rfl⟩)
        · exact ⟨_, update_self .., rfl, rfl, rfl⟩
        · have hq : q ≠ p := by
            rintro rfl
            cases hp.symm.trans he
            rw [hunsent] at hs
            cases hs
          exact ⟨e, (update_of_ne hq ..).trans he, hs, rfl, rfl⟩

theorem Inv.sleep (hc : c.stage = .wait) :
    Inv ({ s with lock := none }.setCall p (some { c with stage := .asleep })) A U :=
  h.restage hp (mine hlock) nofun (by rw [hc]; rfl) (by rw [hc]; rfl) rfl nofun

omit hlock in
theorem Inv.freeChain (hc : c.stage = .wait) :
    freeChain (NUM + 1) { s.disk with infoB := update s.disk.infoB c.i0 none } c.i0 =
      .ok { s.disk with
        infoB := update s.disk.infoB c.i0 none
        desc := fun i => if i ∈ [c.i0, c.i1, c.i2] then {} else s.disk.desc i
        free := fun i => if i ∈ [c.i0, c.i1, c.i2] then true else s.disk.free i } := by
  have hown : c.stage.owns = true := by rw [hc]; rfl
  have hchain : chains s.call p = [c.i0, c.i1, c.i2] := by rw [chains_eq hp, Call.chain_owns hown]
  have hready := h.filled.ready p c hp (by rw [hc]; rfl)
  have hlinked : Linked { s.disk with infoB := update s.disk.infoB c.i0 none } c :=
    ⟨hready.first, hready.second, hready.third⟩
  refine freeChain_eq hlinked (hchain ▸ h.filled.own.nodup p) fun i hi => ?_
  rw [← hchain] at hi
  exact ⟨h.filled.own.lt p i hi, h.filled.own.not_free hi⟩

theorem Inv.back (hc : c.stage = .wait)
    (hb : s.disk.bufDisk c.b = false) :
    Inv ({ s with
        disk := { s.disk with
          infoB := update s.disk.infoB c.i0 none
          desc := fun i => if i ∈ [c.i0, c.i1, c.i2] then {} else s.disk.desc i
          free := fun i => if i ∈ [c.i0, c.i1, c.i2] then true else s.disk.free i }
        lock := none, locked := update s.locked c.b false }.setCall p none) A U := by
  constructor
  case noPanic => exact h.noPanic
  case held =>
    constructor
    case lock =>
      intro q e he hs
      rcases update_cases he with ⟨_, he⟩ | ⟨hq, he⟩
      · cases he
      · rw [h.held.alone (mine hlock) hq he] at hs
        cases hs
    case buf =>
      intro q e he
      rcases update_cases he with ⟨_, he⟩ | ⟨hq, he⟩
      · cases he
      · have hne : e.b ≠ c.b := fun heq => hq (h.held.apart q p e c he hp heq)
        exact (update_of_ne hne ..).trans (h.held.buf q e he)
    case apart =>
      intro q r e f he hf hbuf
      rcases update_cases he with ⟨_, he⟩ | ⟨_, he⟩
      · cases he
      rcases update_cases hf with ⟨_, hf⟩ | ⟨_, hf⟩
      · cases hf
      exact h.held.apart q r e f he hf hbuf
  case filled => exact h.filled.back hp (by rw [hc]; rfl)
  case pending =>
    have hdrop : Pending s.disk (Sent (update s.call p none)) s.lastAvail s.taken s.owner s.done A U := by
      refine h.pending.drop (p := p) ?_ ?_
      · rintro i a ⟨e, he, _, _, rfl⟩
        cases hp.symm.trans he
        exact hb
      · intro q i a
        constructor
        · rintro ⟨e, he, hs⟩
          rcases update_cases he with ⟨_, he⟩ | ⟨hq, he⟩
          · cases he
          · exact ⟨⟨e, he, hs⟩, hq⟩
        · rintro ⟨⟨e, he, hs⟩, hq⟩
          exact ⟨e, (update_of_ne hq ..).trans he, hs⟩
    exact { hdrop with }

end Locked

theorem Inv.relock (h : Inv s A U) (hl : ∀ q, s.lock ≠ some (some q)) :
    Inv { s with lock := l } A U :=
  ⟨h.noPanic, ⟨fun q e he hs => absurd (h.held.lock q e he hs) (hl q), h.held.buf, h.held.apart⟩, h.filled, h.pending⟩

theorem Inv.next_used (h : Inv s A U) (hne : s.disk.seen ≠ s.disk.usedIdx) :
    ∃ p i b U', U = i :: U' ∧ i = s.disk.usedRing (s.disk.seen % NUM) ∧ Sent s.call p i b ∧ s.owner i = some p ∧
      s.done p = true ∧ s.disk.infoB i = some b ∧ s.disk.bufDisk b = true ∧ s.disk.status i = 0 := by
  cases U with
  | nil => exact absurd ((h.pending.used.eq_iff_empty NUM_lt).mpr rfl) hne
  | cons i U' =>
    have hmem : i ∈ A ++ s.taken ++ i :: U' := List.mem_append_right _ List.mem_cons_self
    obtain ⟨p, b, hS, hb⟩ := (h.pending.heads i).mp hmem
    refine ⟨p, i, b, U', rfl, (h.pending.used.pop NUM_dvd).1.symm, hS, h.pending.owner p i b hS,
      h.pending.done p i b hS (.inl List.mem_cons_self), ?_, hb, h.pending.status i List.mem_cons_self⟩
    obtain ⟨c, hp, hc, rfl, rfl⟩ := hS
    exact (h.filled.ready p c hp (Stage.ready_of_sent hc)).info

theorem Inv.clear (h : Inv s A (i :: U)) (hlock : s.lock = some none) (hS : Sent s.call p i b) :
    Inv { s with disk := { s.disk with
        bufDisk := update s.disk.bufDisk b false
        seen := (s.disk.seen + 1) % 65536 } } A U where
  noPanic := h.noPanic
  held := h.held
  filled := by
    refine h.filled.frame rfl (fun _ _ => rfl) rfl fun q e he hs => ?_
    have hq := h.held.lock q e he (by rw [hs]; rfl)
    rw [hlock] at hq
    cases hq
  pending := h.pending.clear fun _ _ _ hT => h.sent_one hS hT

theorem Inv.take (h : Inv s (i :: A) U) :
    Inv { s with taken := i :: s.taken, lastAvail := (s.lastAvail + 1) % 65536 } A U where
  noPanic := h.noPanic
  held := h.held
  filled := h.filled
  pending := h.pending.take

theorem Inv.complete (h : Inv s A U) (hmem : i ∈ s.taken) (hs : complete s i = some t) : Inv t A (U ++ [i]) := by
  obtain ⟨p, b, hS, _⟩ := (h.pending.heads i).mp (List.mem_append_left _ (List.mem_append_right _ hmem))
  have howner := h.pending.owner p i b hS
  have hpend := h.pending.complete h.sent_lt hmem howner
  obtain ⟨c, hp, hc, rfl, rfl⟩ := hS
  have hready := h.filled.ready p c hp (Stage.ready_of_sent hc)
  rw [Virtio.complete, if_pos hmem] at hs
  simp only [howner, hready.first.2, hready.second.2, hready.third.2] at hs
  cases hs
  constructor
  case noPanic => exact h.noPanic
  case held => exact h.held
  case filled => exact h.filled.frame rfl (fun _ _ => rfl) rfl h.filled.entry
  case pending => exact hpend

theorem StepSound.calm (hstep : ∀ p, a ≠ .step p) (hintr : a ≠ .intrStep)
    (hcall : ∀ p c, s.call p = some c → t.call p ≠ none) (hbuf : t.disk.bufDisk = s.disk.bufDisk) :
    StepSound s a t where
  alloc p _ ha := absurd ha (hstep p)
  clear ha := absurd ha hintr
  only b hs ht := by
    rw [hbuf, hs] at ht
    cases ht
  returns p c hp ht := absurd ht (hcall p c hp)

theorem update_ne_none {call : Nat → Option Call} (hp : call p = some c) : update call q (some c') p ≠ none := by
  by_cases hq : p = q
  · rw [hq, update_self]
    exact Option.some_ne_none c'
  · rw [update_of_ne hq, hp]
    exact Option.some_ne_none c

theorem StepSound.goes_on (hcall : t.call = update s.call p (some c'))
    (hbuf : ∀ b, s.disk.bufDisk b = true → t.disk.bufDisk b = true) (hp : s.call p = some c)
    (halloc : c.stage = .alloc → (∃ i0 i1 i2, [i0, i1, i2].Nodup ∧
        (∀ i ∈ [i0, i1, i2], i < NUM ∧ s.disk.free i = true) ∧ c'.chain = [i0, i1, i2] ∧
        t.disk.free = fun i => if i ∈ [i0, i1, i2] then false else s.disk.free i) ∨
      c'.chain = [] ∧ t.disk.free = s.disk.free) : StepSound s (.step p) t where
  alloc q e ha he hs := by
    cases ha
    cases hp.symm.trans he
    have hchain : chains t.call p = c'.chain := chains_eq (by rw [hcall, update_self])
    rw [hchain]
    exact halloc hs
  clear ha := by cases ha
  only b hs ht := by
    rw [hbuf b hs] at ht
    cases ht
  returns q e he ht := by
    rw [hcall] at ht
    exact absurd ht (update_ne_none he)

theorem StepSound.ends (hcall : t.call = update s.call p none) (hbuf : t.disk.bufDisk = s.disk.bufDisk)
    (hp : s.call p = some c) (hc : c.stage = .wait) (hdone : s.done p = true) : StepSound s (.step p) t where
  alloc q e ha he hs := by
    cases ha
    cases hp.symm.trans he
    rw [hc] at hs
    cases hs
  clear ha := by cases ha
  only b hs ht := by
    rw [hbuf, hs] at ht
    cases ht
  returns q e he ht := by
    by_cases hq : q = p
    · rw [hq]
      exact hdone
    · rw [hcall, update_of_ne hq, he] at ht
      cases ht

theorem Inv.done (h : Inv s A U) (hp : s.call p = some c) (hc : c.stage.sent = true)
    (hb : s.disk.bufDisk c.b = false) : s.done p = true :=
  h.pending.done p c.i0 c.b ⟨c, hp, hc, rfl, rfl⟩ (.inr hb)

theorem Inv.rwStep (h : Inv s A U) (hp : s.call p = some c) (hs : rwStep s p c = some t) :
    (∃ A', Inv t A' U) ∧ StepSound s (.step p) t := by
  rw [Virtio.rwStep] at hs
  split at hs
  next hlock =>
    split at hs
    case h_1 hc =>
      rcases alloc3Desc_cases s.disk with ⟨i0, i1, i2, hnd, hl, heq⟩ | ⟨desc, heq, hdesc⟩
      · rw [heq] at hs
        cases hs
        exact ⟨⟨A, h.give hp hlock hc hnd hl⟩,
          .goes_on rfl (fun _ hb => hb) hp fun _ => .inl ⟨i0, i1, i2, hnd, hl, rfl, rfl⟩⟩
      · rw [heq] at hs
        cases hs
        exact ⟨⟨A, h.none_free hp hlock hc hdesc⟩, .goes_on rfl (fun _ hb => hb) hp fun _ => .inr ⟨rfl, rfl⟩⟩
    case h_2 hc =>
      cases hs
      refine ⟨⟨A, h.format hp hlock hc⟩, .goes_on rfl (fun b hb => ?_) hp fun he => ?_⟩
      · by_cases hbc : b = c.b
        · rw [hbc]
          exact update_self ..
        · exact (update_of_ne hbc ..).trans hb
      · rw [hc] at he
        cases he
    case h_3 hc =>
      cases hs
      refine ⟨⟨_, h.publish hp hlock hc⟩, .goes_on rfl (fun _ hb => hb) hp fun he => ?_⟩
      rw [hc] at he
      cases he
    case h_4 hc =>
      split at hs
      next =>
        cases hs
        refine ⟨⟨A, h.sleep hp hlock hc⟩, .goes_on rfl (fun _ hb => hb) hp fun he => ?_⟩
        rw [hc] at he
        cases he
      next hb =>
        rw [h.freeChain hp hc] at hs
        cases hs
        rw [Bool.not_eq_true] at hb
        exact ⟨⟨A, h.back hp hlock hc hb⟩, .ends rfl rfl hp hc (h.done hp (by rw [hc]; rfl) hb)⟩
    case h_5 => cases hs
  next => cases hs

theorem Inv.intrStep (h : Inv s A U) (hs : intrStep s = some t) : (∃ U', Inv t A U') ∧ StepSound s .intrStep t := by
  rw [Virtio.intrStep] at hs
  split at hs
  next hlock =>
    split at hs
    next hne =>
      obtain ⟨p, i, b, U', rfl, hi, hS, howner, hdone, hinfo, hb, hstatus⟩ := h.next_used hne
      rw [← hi] at hs
      simp only [hstatus, hinfo, ne_eq, not_true_eq_false, if_false] at hs
      cases hs
      refine ⟨⟨U', h.clear hlock hS⟩, ?_⟩
      constructor
      case alloc =>
        intro _ _ ha
        cases ha
      case clear => exact fun _ _ => ⟨p, i, b, hi, hS, howner, hdone, hinfo, hb, rfl⟩
      case only => exact fun _ _ _ => ⟨rfl, hne⟩
      case returns =>
        intro q e he ht
        rw [show s.call q = none from ht] at he
        cases he
    next heq =>
      cases hs
      refine ⟨⟨U, h.relock (by simp [hlock])⟩, ?_⟩
      constructor
      case alloc =>
        intro _ _ ha
        cases ha
      case clear => exact fun _ hne => absurd hne heq
      case only =>
        intro b hs ht
        rw [show s.disk.bufDisk b = false from ht] at hs
        cases hs
      case returns =>
        intro q e he ht
        rw [show s.call q = none from ht] at he
        cases he
  next => cases hs

theorem Inv.step (h : Inv s A U) (hs : act s a = some t) : (∃ A' U', Inv t A' U') ∧ StepSound s a t := by
  have hsame : ∀ p c, s.call p = some c → s.call p ≠ none := by
    intro p c hp hnone
    rw [hnone] at hp
    cases hp
  cases a with
  | start p b write =>
    rw [act, if_pos h.noPanic] at hs
    split at hs
    next hfree =>
      cases hs
      exact ⟨⟨A, U, h.start write hfree.1 hfree.2⟩,
        .calm (by simp) (by simp) (fun _ _ hq => update_ne_none hq) rfl⟩
    next => cases hs
  | acquire p =>
    rw [act, if_pos h.noPanic] at hs
    obtain ⟨c, hp, hs⟩ := Option.bind_eq_some_iff.mp hs
    refine ⟨⟨A, U, h.acquire hp hs⟩, ?_⟩
    obtain ⟨_, ⟨_, _, rfl⟩ | ⟨_, rfl⟩⟩ := acquire_cases hs
    · exact .calm (by simp) (by simp) (fun _ _ hq => update_ne_none hq) rfl
    · exact .calm (by simp) (by simp) (fun _ _ hq => update_ne_none hq) rfl
  | step p =>
    rw [act, if_pos h.noPanic] at hs
    obtain ⟨c, hp, hs⟩ := Option.bind_eq_some_iff.mp hs
    obtain ⟨⟨A', hinv⟩, hsound⟩ := h.rwStep hp hs
    exact ⟨⟨A', U, hinv⟩, hsound⟩
  | intr =>
    rw [act, if_pos h.noPanic] at hs
    split at hs
    next hlock =>
      cases hs
      exact ⟨⟨A, U, h.relock (by simp [hlock])⟩, .calm (by simp) (by simp) hsame rfl⟩
    next => cases hs
  | intrStep =>
    rw [act, if_pos h.noPanic] at hs
    obtain ⟨⟨U', hinv⟩, hsound⟩ := h.intrStep hs
    exact ⟨⟨A, U', hinv⟩, hsound⟩
  | take =>
    rw [act, if_pos h.noPanic] at hs
    rw [Virtio.take] at hs
    split at hs
    next hne =>
      cases hs
      refine ⟨?_, .calm (by simp) (by simp) hsame rfl⟩
      cases A with
      | nil => exact absurd ((h.pending.avail.eq_iff_empty NUM_lt).mpr rfl) hne
      | cons i A =>
        rw [(h.pending.avail.pop NUM_dvd).1]
        exact ⟨A, U, h.take⟩
    next => cases hs
  | complete i =>
    rw [act, if_pos h.noPanic] at hs
    have hmem : i ∈ s.taken := by
      by_contra hno
      rw [Virtio.complete, if_neg hno] at hs
      cases hs
    refine ⟨⟨A, U ++ [i], h.complete hmem hs⟩, ?_⟩
    rw [Virtio.complete, if_pos hmem] at hs
    cases hs
    exact .calm (by simp) (by simp) hsame rfl

theorem Inv.act_step (h : Inv s A U) (hp : s.call p = some c) : act s (.step p) = Virtio.rwStep s p c := by
  rw [act, if_pos h.noPanic]
  simp only [hp, Option.bind_some]

theorem Inv.progress (h : Inv s A U) : Progress s where
  step p c hlock hp hc := by
    rw [h.act_step hp, Virtio.rwStep, if_pos hlock]
    cases hs : c.stage with
    | enter | noDesc | asleep =>
      rw [hs] at hc
      cases hc
    | alloc =>
      dsimp only
      split <;> exact ⟨_, rfl⟩
    | format | publish => exact ⟨_, rfl⟩
    | wait =>
      simp only [h.freeChain hp hs]
      split <;> exact ⟨_, rfl⟩
  intr hlock hne := by
    obtain ⟨p, i, b, _, _, hi, hS, howner, hdone, hinfo, hb, hstatus⟩ := h.next_used hne
    have hstep : act s .intrStep = some { s with disk := { s.disk with
        bufDisk := update s.disk.bufDisk b false
        seen := (s.disk.seen + 1) % 65536 } } := by
      rw [act, if_pos h.noPanic]
      simp only [Virtio.intrStep, if_pos hlock, if_pos hne, ← hi, hstatus, hinfo, ne_eq, not_true_eq_false, if_false]
    exact ⟨_, p, i, b, hstep, hi, hS, howner, hdone, hinfo, hb, rfl, rfl⟩
  returns p c hlock hp hc hb := by
    rw [h.act_step hp, Virtio.rwStep, if_pos hlock]
    simp only [hc, hb, Bool.false_eq_true, if_false, h.freeChain hp hc]
    exact ⟨_, rfl, update_self .., rfl, fun i hi => if_pos hi⟩

theorem inv (h : machine.Reachable s) : ∃ A U, Inv s A U := by
  refine Machine.Reach.invariant (I := fun s => ∃ A U, Inv s A U) ?_ ?_ h
  · rintro s ⟨hfree, havail, hused, hseen, hlast, htaken, hcall, hlock, hpanic⟩
    have hno : ∀ p c, s.call p ≠ some c := by
      intro p c hp
      rw [hcall p] at hp
      cases hp
    have hnone : ∀ p i b, ¬ Sent s.call p i b := by
      rintro p i b ⟨c, hp, _⟩
      exact hno p c hp
    have hchains : chains s.call = fun _ => [] := funext fun p => chains_none (hcall p)
    refine ⟨[], [], hpanic, ⟨?_, ?_, ?_⟩, ⟨?_, ?_, ?_⟩, ⟨?_, ?_, ?_, ?_, ?_, ?_, ?_⟩⟩
    · exact fun p c hp => absurd hp (hno p c)
    · exact fun p c hp => absurd hp (hno p c)
    · exact fun p _ c _ hp => absurd hp (hno p c)
    · rw [hchains]
      exact Allot.init hfree
    · exact fun p c hp => absurd hp (hno p c)
    · exact fun p c hp => absurd hp (hno p c)
    · rw [havail, hlast]
      exact Ring.empty (by decide)
    · rw [hused, hseen]
      exact Ring.empty (by decide)
    · rw [htaken]
      exact List.nodup_nil
    · intro i
      rw [htaken]
      exact iff_of_false List.not_mem_nil fun ⟨p, b, hS, _⟩ => hnone p i b hS
    · exact fun i hi => absurd hi List.not_mem_nil
    · exact fun p i b hS => absurd hS (hnone p i b)
    · exact fun p i b hS => absurd hS (hnone p i b)
  · rintro s a t _ ⟨A, U, hinv⟩ _ hs
    exact (hinv.step hs).1

/-- In every run the descriptors are shared out, and every request that completes comes back to the call
that has sent it. -/
theorem disk_sound (h : machine.Reachable s) : Sound s ∧ Progress s ∧ ∀ a t, act s a = some t → StepSound s a t := by
  obtain ⟨A, U, hinv⟩ := inv h
  exact ⟨⟨hinv.noPanic, hinv.filled.own⟩, hinv.progress, fun a t hs => (hinv.step hs).2⟩

def bootState : State where
  disk := { free := fun i => decide (i < NUM), desc := fun _ => {}, ops := fun _ => {}, infoB := fun _ => none,
            status := fun _ => 0, availRing := fun _ => 0, availIdx := 0, usedRing := fun _ => 0, usedIdx := 0,
            seen := 0, bufDisk := fun _ => false }
  blockno := id
  lastAvail := 0
  taken := []
  call := fun _ => none
  lock := none
  locked := fun _ => false
  owner := fun _ => none
  done := fun _ => false
  panic := none

/-- Two requests are sent. The second completes first, and its call returns while the other waits. -/
theorem disk_sound_swapped : ∃ s t u v, machine.Reachable s ∧ s.done 1 = true ∧ s.disk.bufDisk 6 = true ∧
    act s .intrStep = some t ∧ t.disk.bufDisk = update s.disk.bufDisk 6 false ∧
    machine.run t [.intrStep, .acquire 1] = some u ∧ act u (.step 1) = some v ∧ v.call 1 = none ∧
    chains v.call 0 = [0, 1, 2] ∧ v.done 0 = false ∧ v.disk.free 3 = true ∧ Sound v := by
  have hrun : ((machine.run bootState [.start 0 5 false, .acquire 0, .step 0, .step 0, .step 0, .step 0,
      .start 1 6 true, .acquire 1, .step 1, .step 1, .step 1, .step 1, .take, .take, .complete 3, .intr]).any fun s =>
        (s.lock = some none ∧ s.disk.seen ≠ s.disk.usedIdx ∧ s.done 1 = true ∧
          s.disk.infoB (s.disk.usedRing (s.disk.seen % NUM)) = some 6) ∧
        (machine.run s [.intrStep, .intrStep, .acquire 1]).any fun u =>
          u.lock = some (some 1) ∧ u.call 1 = some ⟨.wait, 6, true, 3, 4, 5⟩ ∧ u.disk.bufDisk 6 = false ∧
          (act u (.step 1)).any fun v => chains v.call 0 = [0, 1, 2] ∧ v.done 0 = false) = true := by decide
  obtain ⟨s, hs, ⟨hlock, hne, hdone, hinfo⟩, hlater⟩ := exists_of_any hrun
  obtain ⟨u, hu, hlock', hcall, hclear, hlast⟩ := exists_of_any hlater
  have hreach := Machine.Reachable.of_run (M := machine)
    ⟨fun i hi => decide_eq_true hi, rfl, rfl, rfl, rfl, rfl, fun _ => rfl, rfl, rfl⟩ hs
  obtain ⟨t, _, h, b, ht, hh, _, _, _, hb, hset, hupd, _⟩ := (disk_sound hreach).2.1.intr hlock hne
  obtain rfl : b = 6 := by
    rw [← hh, hb] at hinfo
    exact Option.some.inj hinfo
  obtain ⟨t', ht', hu⟩ := Option.bind_eq_some_iff.mp hu
  obtain rfl : t' = t := Option.some.inj (ht'.symm.trans ht)
  have hreach' : machine.Reachable u := Machine.Reach.of_run (.next hreach trivial ht') (Machine.meets_true _ _) hu
  obtain ⟨v, hv, hnone, _, hfree⟩ := (disk_sound hreach').2.1.returns 1 _ hlock' hcall rfl hclear
  simp only [hv, Option.any_some, decide_eq_true_eq] at hlast
  exact ⟨s, t', u, v, hreach, hdone, hset, ht, hupd, hu, hv, hnone, hlast.1, hlast.2, hfree 3 (by decide),
    (disk_sound (.next (l := .step 1) hreach' trivial hv)).1⟩

end TweakedXv6.Virtio

import TweakedXv6.Allot
import TweakedXv6.VirtioDesc

namespace TweakedXv6.Virtio

open Function (update update_self update_of_ne update_eq_self)

def Stage.owns : Stage → Bool
  | .format | .publish | .wait | .asleep => true
  | _ => false

def Stage.ready : Stage → Bool
  | .publish | .wait | .asleep => true
  | _ => false

def Stage.sent : Stage → Bool
  | .wait | .asleep => true
  | _ => false

def Stage.holds : Stage → Bool
  | .alloc | .format | .publish | .wait => true
  | _ => false

def Call.chain (c : Call) : List Nat :=
  if c.stage.owns then [c.i0, c.i1, c.i2] else []

def chains (call : Nat → Option Call) (p : Nat) : List Nat :=
  (call p).elim [] Call.chain

def Sent (call : Nat → Option Call) (p h b : Nat) : Prop :=
  ∃ c, call p = some c ∧ c.stage.sent = true ∧ c.i0 = h ∧ c.b = b

structure Held (call : Nat → Option Call) (lock : Option (Option Nat)) (locked : Nat → Bool) : Prop where
  lock : ∀ p c, call p = some c → c.stage.holds = true → lock = some (some p)
  buf : ∀ p c, call p = some c → locked c.b = true
  apart : ∀ p q c e, call p = some c → call q = some e → c.b = e.b → p = q

structure Filled (d : Disk) (call : Nat → Option Call) : Prop where
  own : Allot NUM d.free (chains call)
  ready : ∀ p c, call p = some c → c.stage.ready = true → Ready d c
  entry : ∀ p c, call p = some c → c.stage = .publish →
    d.bufDisk c.b = true ∧ d.availRing (d.availIdx % NUM) = c.i0

variable {d d' : Disk} {c c' e : Call} {call : Nat → Option Call} {o : Option Call}
  {lock lock' : Option (Option Nat)} {locked : Nat → Bool} {p q i0 i1 i2 : Nat}

theorem update_cases (hq : update call p o q = some c) : q = p ∧ o = some c ∨ q ≠ p ∧ call q = some c := by
  by_cases hqp : q = p
  · rw [hqp, update_self] at hq
    exact .inl ⟨hqp, hq⟩
  · rw [update_of_ne hqp] at hq
    exact .inr ⟨hqp, hq⟩

theorem update_some_cases (hq : update call p (some c') q = some c) : q = p ∧ c' = c ∨ q ≠ p ∧ call q = some c :=
  (update_cases hq).imp_left fun h => ⟨h.1, Option.some.inj h.2⟩

theorem chains_eq (hp : call p = some c) : chains call p = c.chain := by
  rw [chains, hp]
  rfl

theorem chains_none (hp : call p = none) : chains call p = [] := by
  rw [chains, hp]
  rfl

theorem chains_update : chains (update call p o) = update (chains call) p (o.elim [] Call.chain) := by
  funext q
  by_cases hq : q = p
  · rw [hq, update_self, chains, update_self]
  · rw [update_of_ne hq, chains, update_of_ne hq]
    rfl

theorem Call.chain_owns (h : c.stage.owns = true) : c.chain = [c.i0, c.i1, c.i2] := if_pos h

theorem Stage.owns_of_ready {g : Stage} (h : g.ready = true) : g.owns = true := by
  cases g <;> first | rfl | cases h

theorem Stage.ready_of_sent {g : Stage} (h : g.sent = true) : g.ready = true := by
  cases g <;> first | rfl | cases h

theorem sent_update (hp : ∀ h b, (∃ c, o = some c ∧ c.stage.sent = true ∧ c.i0 = h ∧ c.b = b) ↔ Sent call p h b) :
    Sent (update call p o) = Sent call := by
  funext q h b
  by_cases hq : q = p
  · rw [Sent, hq, update_self]
    exact propext (hp h b)
  · rw [Sent, update_of_ne hq]
    rfl

theorem sent_unsent (hc : ∀ c, call p = some c → c.stage.sent = false) (hc' : c'.stage.sent = false) :
    Sent (update call p (some c')) = Sent call := by
  refine sent_update fun h b => iff_of_false ?_ ?_
  · rintro ⟨e, he, hs, _⟩
    rw [← Option.some.inj he, hc'] at hs
    cases hs
  · rintro ⟨e, he, hs, _⟩
    rw [hc e he] at hs
    cases hs

theorem sent_resent (hp : call p = some c) (hc : c.stage.sent = true) (hc' : c'.stage.sent = true)
    (h0 : c'.i0 = c.i0) (hb : c'.b = c.b) : Sent (update call p (some c')) = Sent call := by
  refine sent_update fun h b => ⟨?_, ?_⟩
  · rintro ⟨e, he, _, rfl, rfl⟩
    cases he
    exact ⟨c, hp, hc, h0.symm, hb.symm⟩
  · rintro ⟨e, he, _, rfl, rfl⟩
    cases hp.symm.trans he
    exact ⟨c', rfl, hc', h0, hb⟩

theorem Held.alone (hh : Held call lock locked) (hl : ∀ q, q ≠ p → lock ≠ some (some q)) (hq : q ≠ p)
    (he : call q = some e) : e.stage.holds = false := by
  cases hs : e.stage.holds with
  | false => rfl
  | true => exact absurd (hh.lock q e he hs) (hl q hq)

theorem Held.restage (hh : Held call lock locked) (hl : ∀ q, q ≠ p → lock ≠ some (some q)) (hp : call p = some c)
    (hb : c'.b = c.b) (hlock : c'.stage.holds = true → lock' = some (some p)) :
    Held (update call p (some c')) lock' locked where
  lock q e he hs := by
    rcases update_some_cases he with ⟨rfl, rfl⟩ | ⟨hq, he⟩
    · exact hlock hs
    · rw [hh.alone hl hq he] at hs
      cases hs
  buf q e he := by
    rcases update_some_cases he with ⟨rfl, rfl⟩ | ⟨hq, he⟩
    · rw [hb]
      exact hh.buf q c hp
    · exact hh.buf q e he
  apart q r e f he hf hbuf := by
    rcases update_some_cases he with ⟨rfl, rfl⟩ | ⟨hq, he'⟩ <;>
      rcases update_some_cases hf with ⟨rfl, rfl⟩ | ⟨hr, hf'⟩
    · rfl
    · exact hh.apart q r c f hp hf' (hb.symm.trans hbuf)
    · exact hh.apart q r e c he' hp (hbuf.trans hb)
    · exact hh.apart q r e f he' hf' hbuf

section Frame

variable (hf : Filled d call)

include hf

theorem Filled.frame (hfree : d'.free = d.free)
    (hdesc : ∀ i, d.free i = false → d'.desc i = d.desc i) (hinfo : d'.infoB = d.infoB)
    (hentry : ∀ p c, call p = some c → c.stage = .publish →
      d'.bufDisk c.b = true ∧ d'.availRing (d'.availIdx % NUM) = c.i0) : Filled d' call where
  own := hfree ▸ hf.own
  ready p c hp hs := by
    refine (hf.ready p c hp hs).congr (fun i hi => hdesc i ?_) (by rw [hinfo]) rfl rfl rfl rfl
    refine hf.own.not_free (p := p) ?_
    rwa [chains_eq hp, Call.chain_owns (Stage.owns_of_ready hs)]
  entry := hentry

theorem Filled.restage (hchain : chains call p = c'.chain)
    (hready : c'.stage.ready = true → Ready d c') (hpub : c'.stage ≠ .publish) :
    Filled d (update call p (some c')) where
  own := by
    rw [chains_update]
    show Allot NUM d.free (update (chains call) p c'.chain)
    rw [← hchain, update_eq_self]
    exact hf.own
  ready q e he hs := by
    rcases update_some_cases he with ⟨rfl, rfl⟩ | ⟨hq, he⟩
    · exact hready hs
    · exact hf.ready q e he hs
  entry q e he hs := by
    rcases update_some_cases he with ⟨rfl, rfl⟩ | ⟨hq, he⟩
    · exact absurd hs hpub
    · exact hf.entry q e he hs

theorem Filled.give (hp : chains call p = []) (hnd : [i0, i1, i2].Nodup)
    (hl : ∀ i ∈ [i0, i1, i2], i < NUM ∧ d.free i = true) (hchain : c'.chain = [i0, i1, i2])
    (hstage : c'.stage.ready = false) :
    Filled { d with free := fun i => if i ∈ [i0, i1, i2] then false else d.free i }
      (update call p (some c')) where
  own := by
    rw [chains_update]
    show Allot NUM _ (update (chains call) p c'.chain)
    rw [hchain]
    exact hf.own.give hp hnd hl
  ready q e he hs := by
    rcases update_some_cases he with ⟨rfl, rfl⟩ | ⟨hq, he⟩
    · rw [hstage] at hs
      cases hs
    · exact (hf.ready q e he hs).congr (fun _ _ => rfl) rfl rfl rfl rfl rfl
  entry q e he hs := by
    rcases update_some_cases he with ⟨rfl, rfl⟩ | ⟨hq, he⟩
    · rw [hs] at hstage
      cases hstage
    · exact hf.entry q e he hs

theorem Filled.other (hp : call p = some c) (hc : c.stage.owns = true) (hq : q ≠ p)
    (he : call q = some e) (hs : e.stage.owns = true) (i : Nat) (hi : i ∈ [e.i0, e.i1, e.i2]) :
    i ∉ [c.i0, c.i1, c.i2] := by
  intro hmem
  refine hq (hf.own.apart q p i ?_ ?_)
  · rwa [chains_eq he, Call.chain_owns hs]
  · rwa [chains_eq hp, Call.chain_owns hc]

theorem Filled.format (hp : call p = some c) (hc : c.stage = .format) (blockno : Nat)
    (halone : ∀ q e, q ≠ p → call q = some e → e.stage ≠ .publish) :
    Filled (format d blockno c) (update call p (some { c with stage := .publish })) := by
  have hown : c.stage.owns = true := by rw [hc]; rfl
  constructor
  case own =>
    rw [chains_update]
    show Allot NUM d.free (update (chains call) p [c.i0, c.i1, c.i2])
    rw [← Call.chain_owns hown, ← chains_eq hp, update_eq_self]
    exact hf.own
  case ready =>
    intro q e he hs
    rcases update_some_cases he with ⟨rfl, rfl⟩ | ⟨hq, he⟩
    · have hnd := hf.own.nodup q
      rw [chains_eq hp, Call.chain_owns hown] at hnd
      exact (ready_format hnd blockno).congr (fun _ _ => rfl) rfl rfl rfl rfl rfl
    · have hother := hf.other hp hown hq he (Stage.owns_of_ready hs)
      refine (hf.ready q e he hs).congr (fun i hi => ?_) ?_ rfl rfl rfl rfl
      · have hi := hother i hi
        simp only [List.mem_cons, List.not_mem_nil, or_false, not_or] at hi
        simp [Virtio.format, hi.1, hi.2.1, hi.2.2]
      · have h0 : e.i0 ≠ c.i0 := fun h0 => hother e.i0 (by simp) (by simp [h0])
        exact update_of_ne h0 ..
  case entry =>
    intro q e he hs
    rcases update_some_cases he with ⟨rfl, rfl⟩ | ⟨hq, he⟩
    · exact ⟨update_self .., update_self ..⟩
    · exact absurd hs (halone q e hq he)

theorem Filled.back (hp : call p = some c) (hc : c.stage.owns = true) :
    Filled { d with
        infoB := update d.infoB c.i0 none
        desc := fun i => if i ∈ [c.i0, c.i1, c.i2] then {} else d.desc i
        free := fun i => if i ∈ [c.i0, c.i1, c.i2] then true else d.free i }
      (update call p none) where
  own := by
    have hback := hf.own.back p
    rw [chains_update]
    rw [chains_eq hp, Call.chain_owns hc] at hback
    exact hback
  ready q e he hs := by
    rcases update_cases he with ⟨_, he⟩ | ⟨hq, he⟩
    · cases he
    · have hother := hf.other hp hc hq he (Stage.owns_of_ready hs)
      refine (hf.ready q e he hs).congr (fun i hi => if_neg (hother i hi)) ?_ rfl rfl rfl rfl
      have h0 : e.i0 ≠ c.i0 := fun h0 => hother e.i0 (by simp) (by simp [h0])
      exact update_of_ne h0 ..
  entry q e he hs := by
    rcases update_cases he with ⟨_, he⟩ | ⟨_, he⟩
    · cases he
    · exact hf.entry q e he hs

end Frame

theorem head_mem (hp : call p = some c) (hc : c.stage.owns = true) : c.i0 ∈ chains call p := by
  rw [chains_eq hp, Call.chain_owns hc]
  exact List.mem_cons_self

theorem sent_mem {i b : Nat} (hS : Sent call p i b) : i ∈ chains call p := by
  obtain ⟨c, hp, hc, rfl, _⟩ := hS
  exact head_mem hp (Stage.owns_of_ready (Stage.ready_of_sent hc))

theorem mine (hlock : lock = some (some p)) (q : Nat) (hq : q ≠ p) : lock ≠ some (some q) := by
  intro he
  rw [hlock] at he
  exact hq (Option.some.inj (Option.some.inj he)).symm

theorem unsent (hp : call p = some c) (hc : c.stage.sent = false) (hc' : c'.stage.sent = false) :
    Sent (update call p (some c')) = Sent call := by
  refine sent_unsent (fun e he => ?_) hc'
  rw [← Option.some.inj (hp.symm.trans he), hc]

end TweakedXv6.Virtio

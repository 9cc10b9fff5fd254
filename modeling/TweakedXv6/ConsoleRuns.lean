import TweakedXv6.ConsoleLine

namespace TweakedXv6.Tty

open Sleep (Console INPUT_BUF)
open Function (update update_self update_of_ne)

def CallOk (got : List UInt8) : Call → Prop
  | .idle => got = []
  | .loop target n | .asleep target n => got.length + n = target ∧ ∀ x ∈ got, x ≠ 4 ∧ x ≠ 10
  | .done target ret => ret = got.length ∧ ret ≤ target ∧ (∀ x ∈ got, x ≠ 4) ∧ ∀ x ∈ got.dropLast, x ≠ 10

structure Sound (s : State) : Prop where
  order : usub s.cons.w s.cons.r ≤ usub s.cons.e s.cons.r ∧ usub s.cons.e s.cons.r ≤ INPUT_BUF
  full : usub s.cons.e s.cons.r = INPUT_BUF → s.cons.w = s.cons.e
  history : ∃ consumed, s.committed = consumed ++ s.unread ∧ s.delivered.map (·.2) = consumed.filter (· ≠ 4)
  calls : ∀ k, CallOk (s.got k) (s.call k)

/-- The handler leaves the committed bytes; a call returns with all its bytes, at a newline or at `^D`; a
`^D` that is next stays for a call without a byte. -/
structure StepSound (s : State) (a : Act) (t : State) : Prop where
  keeps : ∀ ch, a = .intr ch → s.unread <+: t.unread
  ends : ∀ k target ret, s.call k ≠ .done target ret → t.call k = .done target ret →
    ret = target ∨ (t.got k).getLast? = some 10 ∨ s.unread.head? = some 4
  eof : ∀ rest, s.unread = 4 :: rest → t.unread.head? = some 4 ∨
    ∃ k target, a = .turn k ∧ t.call k = .done target 0 ∧ t.got k = [] ∧ t.unread = rest

/-- The buffer holds what is committed and not read, and the calls have delivered the rest without the
`^D`s. -/
structure Inv (s : State) (consumed pending editing : List UInt8) : Prop where
  held : Held s.cons pending editing
  committed : s.committed = consumed ++ pending
  delivered : s.delivered.map (·.2) = consumed.filter (· ≠ 4)
  calls : ∀ k, CallOk (s.got k) (s.call k)

variable {s t : State} {consumed pending editing : List UInt8} {k target n j ret : Nat} {ch : UInt8} {a : Act}
  {c : Console} {v : Call}

theorem Inv.unread (h : Inv s consumed pending editing) : s.unread = pending := h.held.unread

theorem Inv.sound (h : Inv s consumed pending editing) : Sound s where
  order := by
    have hroom := h.held.ring.room
    rw [h.held.dist_w, h.held.dist_e, List.length_append]
    rw [List.length_append] at hroom
    exact ⟨Nat.le_add_right _ _, hroom⟩
  full hfull := by
    rw [h.held.dist_e] at hfull
    exact (h.held.e_eq_w_iff.mpr (h.held.full hfull)).symm
  history := ⟨consumed, by rw [h.unread, h.committed], h.delivered⟩
  calls := h.calls

theorem Inv.intr (h : Inv s consumed pending editing) (hs : act s (.intr ch) = some t) :
    ∃ added editing', Inv t consumed (pending ++ added) editing' ∧ t.call = s.call ∧ t.delivered = s.delivered := by
  rw [act] at hs
  split at hs
  next =>
    cases hs
    obtain ⟨added, editing', hheld, hr⟩ := h.held.intr ch
    refine ⟨added, editing', ⟨hheld, ?_, h.delivered, h.calls⟩, rfl, rfl⟩
    -- the bytes that `w` has passed are the ones added
    have hadd : bytes (Tty.intr s.cons ch) s.cons.w (Tty.intr s.cons ch).w = added := by
      have hbytes := bytes_ring (a := pending.length) (m := added.length) hheld.ring (by simp)
      rw [hr, ← h.held.w] at hbytes
      have hw := hheld.w
      rw [hr, List.length_append] at hw
      rw [← hw, List.append_assoc, List.drop_left, List.take_left] at hbytes
      exact hbytes
    change s.committed ++ bytes (Tty.intr s.cons ch) s.cons.w (Tty.intr s.cons ch).w = _
    rw [hadd, h.committed, List.append_assoc]
  next => cases hs

theorem got_append (j : Nat) : (s.delivered ++ [(k, ch)]).filter (·.1 = j) =
    s.delivered.filter (·.1 = j) ++ if k = j then [(k, ch)] else [] := by
  rw [List.filter_append, List.filter_cons]
  split <;> simp_all

theorem Held.ne_iff (h : Held c pending editing) : c.r = c.w ↔ pending = [] := by
  have hw := h.dist_w
  constructor
  · intro he
    rw [← he] at hw
    have : usub c.r c.r = 0 := by
      unfold usub uint
      omega
    exact List.length_eq_zero_iff.mp (hw.symm.trans this)
  · rintro rfl
    rw [h.w, List.length_nil, Nat.add_zero]
    exact (Nat.mod_eq_of_lt h.ring.low).symm

theorem Held.pop (h : Held c (ch :: pending) editing) :
    c.buf (c.r % INPUT_BUF) = ch ∧ Held { c with r := uint (c.r + 1) } pending editing := by
  obtain ⟨hget, hring⟩ := h.ring.pop INPUT_BUF_dvd
  refine ⟨hget, hring, ?_, fun hfull => ?_⟩
  · have hw := h.w
    rw [List.length_cons] at hw
    change c.w = uint (uint (c.r + 1) + pending.length)
    rw [hw]
    unfold uint
    omega
  · have hroom := h.ring.room
    rw [List.cons_append, List.length_cons] at hroom
    omega

theorem unread_back (h : Held c pending editing) : uint (uint (c.r + 1) + 4294967295) = c.r := by
  have hlow := h.ring.low
  unfold uint
  omega

theorem calls_update (h : ∀ j, CallOk (s.got j) (s.call j)) (k : Nat) (v : Call) (hv : CallOk (s.got k) v) (j : Nat) :
    CallOk (s.got j) (update s.call k v j) := by
  by_cases hj : j = k
  · rw [hj, update_self]
    exact hv
  · rw [update_of_ne hj]
    exact h j

inductive Turn (s : State) (k target n : Nat) (t : State) : Prop
  | full : n = 0 → t.call = update s.call k (.done target target) → t.cons = s.cons →
      t.delivered = s.delivered → Turn s k target n t
  | wait : s.unread = [] → t.call = update s.call k (.asleep target n) → t.cons = s.cons →
      t.delivered = s.delivered → Turn s k target n t
  | kept (rest : List UInt8) : s.unread = 4 :: rest → n < target →
      t.call = update s.call k (.done target (target - n)) → t.cons = s.cons →
      t.delivered = s.delivered → Turn s k target n t
  | eof (rest : List UInt8) : s.unread = 4 :: rest → target ≤ n → 0 < n →
      t.call = update s.call k (.done target (target - n)) →
      t.cons = { s.cons with r := uint (s.cons.r + 1) } → t.delivered = s.delivered → Turn s k target n t
  | byte (x : UInt8) (rest : List UInt8) : s.unread = x :: rest → x ≠ 4 → 0 < n →
      t.call = update s.call k
        (if x = 10 then .done target (target - (n - 1)) else .loop target (n - 1)) →
      t.cons = { s.cons with r := uint (s.cons.r + 1) } → t.delivered = s.delivered ++ [(k, x)] →
      Turn s k target n t

theorem Inv.turn (h : Inv s consumed pending editing) : Turn s k target n (turn s k target n) := by
  have hunread := h.unread
  unfold Tty.turn
  split
  next hn =>
    split
    next he => exact .wait (hunread.trans (h.held.ne_iff.mp he)) rfl rfl rfl
    next hne =>
      cases pending with
      | nil => exact absurd (h.held.ne_iff.mpr rfl) hne
      | cons x rest =>
        obtain ⟨hget, _⟩ := h.held.pop
        dsimp only
        rw [hget]
        split
        next hx =>
          rw [hx] at hunread
          split
          next hlt =>
            rw [unread_back h.held]
            exact .kept rest hunread hlt rfl rfl rfl
          next hge => exact .eof rest hunread (Nat.not_lt.mp hge) hn rfl rfl rfl
        next hx =>
          split
          next hx10 => exact .byte x rest hunread hx hn (by rw [if_pos hx10]; rfl) rfl rfl
          next hx10 => exact .byte x rest hunread hx hn (by rw [if_neg hx10]) rfl rfl
  next hn =>
    have hz : n = 0 := Nat.eq_zero_of_not_pos hn
    exact .full hz (by rw [hz]; rfl) rfl rfl

theorem Inv.next_turn (h : Inv s consumed pending editing) (hk : s.call k = .loop target n) (ht : Turn s k target n t)
    (hcom : t.committed = s.committed) : ∃ consumed' pending', Inv t consumed' pending' editing := by
  have hcall : (s.got k).length + n = target ∧ ∀ x ∈ s.got k, x ≠ 4 ∧ x ≠ 10 := by
    have := h.calls k
    rwa [hk] at this
  have hclean : ∀ x ∈ s.got k, x ≠ 4 := fun x hx => (hcall.2 x hx).1
  have hline : ∀ x ∈ (s.got k).dropLast, x ≠ 10 := fun x hx => (hcall.2 x (List.dropLast_subset _ hx)).2
  have hunread := h.unread
  -- a step that delivers nothing leaves what the calls have got
  have hcalls' : ∀ v, t.call = update s.call k v → t.delivered = s.delivered → CallOk (s.got k) v →
      ∀ j, CallOk (t.got j) (t.call j) := by
    intro v hcalls hd hv j
    rw [State.got, hd, ← State.got, hcalls]
    exact calls_update h.calls k v hv j
  have hidle : ∀ v, t.call = update s.call k v → t.cons = s.cons → t.delivered = s.delivered → CallOk (s.got k) v →
      Inv t consumed pending editing := fun v hcalls hcons hd hv =>
    ⟨hcons ▸ h.held, hcom.trans h.committed, by rw [hd, h.delivered], hcalls' v hcalls hd hv⟩
  cases ht with
  | full hz hcalls hcons hd =>
    exact ⟨_, _, hidle _ hcalls hcons hd ⟨by omega, Nat.le_refl _, hclean, hline⟩⟩
  | wait _ hcalls hcons hd => exact ⟨_, _, hidle _ hcalls hcons hd hcall⟩
  | kept rest _ hlt hcalls hcons hd =>
    exact ⟨_, _, hidle _ hcalls hcons hd ⟨by omega, Nat.sub_le _ _, hclean, hline⟩⟩
  | eof rest hnext _ hn hcalls hcons hd =>
    rw [hunread] at hnext
    subst hnext
    refine ⟨consumed ++ [4], rest, by rw [hcons]; exact h.held.pop.2, ?_, ?_,
      hcalls' _ hcalls hd ⟨by omega, Nat.sub_le _ _, hclean, hline⟩⟩
    · rw [hcom, h.committed, List.append_assoc]
      rfl
    · rw [hd, h.delivered, List.filter_append]
      simp
  | byte x rest hnext hx hn hcalls hcons hd =>
    rw [hunread] at hnext
    subst hnext
    have hgot : ∀ j, t.got j = s.got j ++ if k = j then [x] else [] := by
      intro j
      rw [State.got, hd, got_append, List.map_append, State.got]
      split <;> rfl
    refine ⟨consumed ++ [x], rest, by rw [hcons]; exact h.held.pop.2, ?_, ?_, fun j => ?_⟩
    · rw [hcom, h.committed, List.append_assoc]
      rfl
    · rw [hd, List.map_append, h.delivered, List.filter_append]
      simp [hx]
    · rw [hgot, hcalls]
      by_cases hj : j = k
      · subst hj
        rw [if_pos rfl, update_self]
        have hclean' : ∀ y ∈ s.got j ++ [x], y ≠ 4 := by
          intro y hy
          rcases List.mem_append.mp hy with hy | hy
          · exact hclean y hy
          · rw [List.mem_singleton.mp hy]
            exact hx
        split
        next =>
          refine ⟨?_, Nat.sub_le _ _, hclean', ?_⟩
          · rw [List.length_append, List.length_singleton]
            omega
          · rw [List.dropLast_concat]
            exact fun y hy => (hcall.2 y hy).2
        next hx10 =>
          refine ⟨?_, fun y hy => ⟨hclean' y hy, ?_⟩⟩
          · rw [List.length_append, List.length_singleton]
            omega
          · rcases List.mem_append.mp hy with hy | hy
            · exact (hcall.2 y hy).2
            · rw [List.mem_singleton.mp hy]
              exact hx10
      · rw [if_neg (Ne.symm hj), List.append_nil, update_of_ne hj]
        exact h.calls j

theorem Inv.lock (h : Inv s consumed pending editing) (hv : CallOk (s.got k) v)
    (ht : t = { s with owner := some k, call := update s.call k v }) : Inv t consumed pending editing := by
  subst ht
  exact ⟨h.held, h.committed, h.delivered, calls_update h.calls k v hv⟩

theorem act_enter {n : Int} (h : act s (.enter k n) = some t) : s.owner = none ∧ s.call k = .idle ∧
    t = { s with owner := some k, call := update s.call k (.loop n.toNat n.toNat) } := by
  rw [act] at h
  split at h
  next hc => exact ⟨hc.1, hc.2, (Option.some.inj h).symm⟩
  next => cases h

theorem act_turn (h : act s (.turn k) = some t) : ∃ target n, s.call k = .loop target n ∧ t = turn s k target n := by
  rw [act] at h
  split at h
  next target n hk =>
    split at h
    next => exact ⟨target, n, hk, (Option.some.inj h).symm⟩
    next => cases h
  next => cases h

theorem act_wake (h : act s (.wake k) = some t) : ∃ target n, s.call k = .asleep target n ∧
    t = { s with owner := some k, call := update s.call k (.loop target n) } := by
  rw [act] at h
  split at h
  next target n hk =>
    split at h
    next => exact ⟨target, n, hk, (Option.some.inj h).symm⟩
    next => cases h
  next => cases h

theorem finish_committed : (s.finish k target n).committed = s.committed := rfl

theorem turn_committed : (turn s k target n).committed = s.committed := by
  unfold turn
  split
  · split
    · rfl
    · dsimp only
      split
      · split
        · exact finish_committed
        · exact finish_committed
      · split
        · exact finish_committed
        · rfl
  · exact finish_committed

theorem Inv.step (h : Inv s consumed pending editing) (hs : act s a = some t) :
    ∃ consumed' pending' editing', Inv t consumed' pending' editing' := by
  cases a with
  | intr ch =>
    obtain ⟨added, editing', hinv, _⟩ := h.intr hs
    exact ⟨consumed, pending ++ added, editing', hinv⟩
  | enter k n =>
    obtain ⟨_, hidle, ht⟩ := act_enter hs
    have hgot : s.got k = [] := by
      have := h.calls k
      rwa [hidle] at this
    refine ⟨consumed, pending, editing, h.lock ?_ ht⟩
    rw [hgot]
    exact ⟨Nat.zero_add _, fun x hx => by cases hx⟩
  | turn k =>
    obtain ⟨target, n, hk, rfl⟩ := act_turn hs
    obtain ⟨consumed', pending', hinv⟩ := h.next_turn hk h.turn turn_committed
    exact ⟨consumed', pending', editing, hinv⟩
  | wake k =>
    obtain ⟨target, n, hk, ht⟩ := act_wake hs
    refine ⟨consumed, pending, editing, h.lock ?_ ht⟩
    have := h.calls k
    rwa [hk] at this

theorem Inv.start (h : machine.init s) : Inv s [] [] [] := by
  obtain ⟨hr, hw, he, _, hidle, hcom, hdel⟩ := h
  refine ⟨⟨?_, ?_, fun hfull => rfl⟩, hcom, by rw [hdel]; rfl, fun k => ?_⟩
  · rw [hr, he]
    exact Ring.empty (by decide)
  · rw [hr, hw]
    rfl
  · rw [hidle, State.got, hdel]
    rfl

theorem inv (h : machine.Reachable s) : ∃ consumed pending editing, Inv s consumed pending editing := by
  refine h.invariant (I := fun s => ∃ consumed pending editing, Inv s consumed pending editing)
    (fun s hs => ⟨[], [], [], .start hs⟩) fun s a t _ hi _ hs => ?_
  obtain ⟨consumed, pending, editing, hinv⟩ := hi
  exact hinv.step hs

theorem StepSound.of_quiet (hcons : t.cons = s.cons) (hintr : ∀ ch, a ≠ .intr ch)
    (hends : ∀ k target ret, t.call k = .done target ret → s.call k = .done target ret) : StepSound s a t where
  keeps ch he := absurd he (hintr ch)
  ends k target ret hne hdone := absurd (hends k target ret hdone) hne
  eof rest hnext := by
    left
    rw [State.unread, hcons, ← State.unread, hnext]
    rfl

theorem done_of_update {target : Nat} (hv : ∀ target ret, v ≠ .done target ret)
    (h : update s.call k v j = .done target ret) : s.call j = .done target ret := by
  by_cases hj : j = k
  · rw [hj, update_self] at h
    exact absurd h (hv target ret)
  · rwa [update_of_ne hj] at h

theorem done_turn {target : Nat} (h : update s.call k v j = .done target ret)
    (hne : s.call j ≠ .done target ret) : j = k ∧ v = .done target ret := by
  by_cases hj : j = k
  · rw [hj, update_self] at h
    exact ⟨hj, h⟩
  · rw [update_of_ne hj] at h
    exact absurd h hne

theorem Inv.turn_sound (h : Inv s consumed pending editing) (hk : s.call k = .loop target n)
    (ht : Turn s k target n t) (hcom : t.committed = s.committed) : StepSound s (.turn k) t := by
  obtain ⟨consumed', pending', hinv⟩ := h.next_turn hk ht hcom
  have hkeep : t.cons = s.cons → t.unread = s.unread := by
    intro hc
    rw [State.unread, hc, State.unread]
  have hpop : ∀ x rest, s.unread = x :: rest → t.cons = { s.cons with r := uint (s.cons.r + 1) } →
      t.unread = rest := by
    intro x rest hnext hc
    rw [h.unread] at hnext
    subst hnext
    rw [State.unread, hc]
    exact h.held.pop.2.unread
  refine ⟨fun ch he => (by cases he), fun j target' ret hne hdone => ?_, fun rest hnext => ?_⟩
  · cases ht with
    | full _ hcalls _ _ =>
      rw [hcalls] at hdone
      obtain ⟨_, hv⟩ := done_turn hdone hne
      cases hv
      exact .inl rfl
    | wait _ hcalls _ _ =>
      rw [hcalls] at hdone
      cases (done_turn hdone hne).2
    | kept rest hnext _ _ _ _ => exact .inr (.inr (by rw [hnext]; rfl))
    | eof rest hnext _ _ _ _ _ => exact .inr (.inr (by rw [hnext]; rfl))
    | byte x rest _ _ _ hcalls _ hd =>
      rw [hcalls] at hdone
      obtain ⟨rfl, hv⟩ := done_turn hdone hne
      split at hv
      next hx =>
        refine .inr (.inl ?_)
        rw [State.got, hd, got_append, if_pos rfl, List.map_append, hx]
        exact List.getLast?_concat
      next => cases hv
  · cases ht with
    | full _ _ hcons _ => exact .inl (by rw [hkeep hcons, hnext]; rfl)
    | wait hempty _ _ _ =>
      rw [hempty] at hnext
      cases hnext
    | kept _ _ _ _ hcons _ => exact .inl (by rw [hkeep hcons, hnext]; rfl)
    | eof rest' hnext' hge _ hcalls hcons _ =>
      have hcall := hinv.calls k
      have hret : t.call k = .done target 0 := by
        rw [hcalls, update_self, Nat.sub_eq_zero_of_le hge]
      rw [hret] at hcall
      refine .inr ⟨k, target, rfl, hret, List.length_eq_zero_iff.mp hcall.1.symm, ?_⟩
      exact hpop 4 rest hnext hcons
    | byte x rest' hnext' hx _ _ _ _ =>
      rw [hnext] at hnext'
      exact absurd (List.cons.inj hnext').1.symm hx

theorem Inv.step_sound (h : Inv s consumed pending editing) (hs : act s a = some t) : StepSound s a t := by
  cases a with
  | intr ch =>
    obtain ⟨added, editing', hinv, hcall, _⟩ := h.intr hs
    have hpre : s.unread <+: t.unread := by
      rw [h.unread, hinv.unread]
      exact List.prefix_append pending added
    refine ⟨fun _ _ => hpre, fun k target ret hne hdone => ?_, fun rest hnext => ?_⟩
    · rw [hcall] at hdone
      exact absurd hdone hne
    · obtain ⟨more, hmore⟩ := hpre
      left
      rw [← hmore, hnext]
      rfl
  | enter k n =>
    obtain ⟨_, _, rfl⟩ := act_enter hs
    exact .of_quiet rfl (fun ch he => by cases he) fun j target ret =>
      done_of_update fun target ret he => by cases he
  | turn k =>
    obtain ⟨target, n, hk, rfl⟩ := act_turn hs
    exact h.turn_sound hk h.turn turn_committed
  | wake k =>
    obtain ⟨target, n, hk, rfl⟩ := act_wake hs
    exact .of_quiet rfl (fun ch he => by cases he) fun j target ret =>
      done_of_update fun target ret he => by cases he

theorem Inv.eof_next (h : Inv s consumed pending editing) {rest : List UInt8} (hnext : s.unread = 4 :: rest)
    (hfree : s.owner = none) (hidle : s.call k = .idle) {n : Int} (hn : 0 < n) :
    ∃ u t, act s (.enter k n) = some u ∧ act u (.turn k) = some t ∧ t.call k = .done n.toNat 0 ∧ t.unread = rest := by
  obtain ⟨u, hu⟩ : ∃ u, act s (.enter k n) = some u := ⟨_, if_pos ⟨hfree, hidle⟩⟩
  obtain ⟨_, _, hw⟩ := act_enter hu
  obtain ⟨consumed', pending', editing', hinv⟩ := h.step hu
  have hcall : u.call k = .loop n.toNat n.toNat := by
    rw [hw]
    exact update_self ..
  have hsame : u.unread = 4 :: rest := by rwa [hw]
  have howner : u.owner = some k := by rw [hw]
  have hlast : ∀ v, Turn u k n.toNat n.toNat v → v.call k = .done n.toNat 0 ∧ v.unread = rest := by
    intro v hv
    cases hv with
    | full hz => omega
    | wait hempty =>
      rw [hsame] at hempty
      cases hempty
    | kept _ _ hlt => exact absurd hlt (Nat.lt_irrefl _)
    | eof rest' _ _ _ hcalls hcons _ =>
      refine ⟨by rw [hcalls, update_self, Nat.sub_self], ?_⟩
      rw [h.unread] at hnext
      subst hnext
      rw [State.unread, hcons, hw]
      exact h.held.pop.2.unread
    | byte x rest' hnext' hx =>
      rw [hsame] at hnext'
      exact absurd (List.cons.inj hnext').1.symm hx
  refine ⟨u, Tty.turn u k n.toNat n.toNat, hu, ?_, hlast _ hinv.turn⟩
  rw [act]
  simp only [hcall, howner, if_true]

/-- In every run the console keeps its indices in order and delivers what has been committed. -/
theorem console_sound (h : machine.Reachable s) : Sound s ∧ (∀ a t, act s a = some t → StepSound s a t) ∧
    ∀ rest k (n : Int), s.unread = 4 :: rest → s.owner = none → s.call k = .idle → 0 < n →
      ∃ u t, act s (.enter k n) = some u ∧ act u (.turn k) = some t ∧ t.call k = .done n.toNat 0 ∧
        t.unread = rest := by
  obtain ⟨consumed, pending, editing, hinv⟩ := inv h
  exact ⟨hinv.sound, fun a t hs => hinv.step_sound hs, fun rest k n hnext hfree hidle hn =>
    hinv.eof_next hnext hfree hidle hn⟩

def bootState : State := { cons := {}, owner := none, call := fun _ => .idle, committed := [], delivered := [] }

/-- `a`, `b`, backspace, newline and `^D` are typed: the first read gets the line, the second returns 0.
-/
theorem console_sound_line : ∃ s, machine.Reachable s ∧ Sound s ∧ s.call 0 = .done 9 2 ∧ s.got 0 = [97, 10] ∧
    s.call 1 = .done 9 0 := by
  have hrun : ((machine.run bootState [.intr 97, .intr 98, .intr 127, .intr 10, .enter 0 9, .turn 0, .turn 0,
      .enter 1 9, .turn 1, .intr 4, .wake 1, .turn 1]).any fun s =>
        s.call 0 = .done 9 2 ∧ s.got 0 = [97, 10] ∧ s.call 1 = .done 9 0) = true := by decide
  obtain ⟨s, hs, hfacts⟩ := exists_of_any hrun
  have hreach := Machine.Reachable.of_run (M := machine) ⟨rfl, rfl, rfl, rfl, fun _ => rfl, rfl, rfl⟩ hs
  exact ⟨s, hreach, (console_sound hreach).1, hfacts⟩

end TweakedXv6.Tty

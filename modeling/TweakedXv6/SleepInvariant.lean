import Mathlib.Tactic.Common
import TweakedXv6.SleepModel

namespace TweakedXv6.Sleep

variable {s t u : State} {p q : Fin NPROC} {c e : Loop} {d : Pc} {v : Proc} {l : Lock} {pi x i room : Nat}
  {w : Pipe} {o : Option (Fin NPROC)} {ch : Chan} {r n : Int} {a : Act} {src : List UInt8} {b : UInt8}

@[simp] theorem setProc_proc : (s.setProc p v).proc q = if q = p then v else s.proc q := by
  simp [State.setProc, Function.update_apply]

@[simp] theorem setProc_pc : (s.setProc p v).pc = s.pc := rfl

@[simp] theorem setProc_lock : (s.setProc p v).lock = s.lock := rfl

@[simp] theorem setProc_pipe : (s.setProc p v).pipe = s.pipe := rfl

@[simp] theorem setPc_proc : (s.setPc p d).proc = s.proc := rfl

@[simp] theorem setPc_pc : (s.setPc p d).pc q = if q = p then d else s.pc q := by
  simp [State.setPc, Function.update_apply]

@[simp] theorem setPc_lock : (s.setPc p d).lock = s.lock := rfl

@[simp] theorem setPc_pipe : (s.setPc p d).pipe = s.pipe := rfl

@[simp] theorem setPipe_proc : (s.setPipe pi w).proc = s.proc := rfl

@[simp] theorem setPipe_pc : (s.setPipe pi w).pc = s.pc := rfl

@[simp] theorem setPipe_lock : (s.setPipe pi w).lock = s.lock := rfl

@[simp] theorem setPipe_pipe : (s.setPipe pi w).pipe x = if x = pi then w else s.pipe x := by
  simp [State.setPipe, Function.update_apply]

@[simp] theorem setLock_proc : (s.setLock l o).proc = s.proc := rfl

@[simp] theorem setLock_pc : (s.setLock l o).pc = s.pc := rfl

@[simp] theorem setLock_lock {m : Lock} : (s.setLock l o).lock m = if m = l then o else s.lock m := by
  simp [State.setLock, Function.update_apply]

@[simp] theorem setLock_pipe : (s.setLock l o).pipe = s.pipe := rfl

@[simp] theorem wakeup_pc : (s.wakeup ch).pc = s.pc := rfl

@[simp] theorem wakeup_lock : (s.wakeup ch).lock = s.lock := rfl

@[simp] theorem wakeup_pipe : (s.wakeup ch).pipe = s.pipe := rfl

def SleepsOn (s : State) (q : Fin NPROC) (ch : Chan) : Prop :=
  (s.proc q).state = .sleeping ∧ (s.proc q).chan = some ch

theorem wakeup_proc (s : State) (ch : Chan) (q : Fin NPROC) :
    (s.wakeup ch).proc q = s.proc q ∧ ¬ SleepsOn s q ch ∨
      SleepsOn s q ch ∧ (s.wakeup ch).proc q = { s.proc q with state := .runnable } := by
  unfold State.wakeup SleepsOn
  dsimp only
  split
  next h => exact .inr ⟨h, rfl⟩
  next h => exact .inl ⟨rfl, h⟩

theorem wakeup_killed : ((s.wakeup ch).proc q).killed = (s.proc q).killed := by
  rcases wakeup_proc s ch q with ⟨h, _⟩ | ⟨_, h⟩ <;> rw [h]

theorem wakeup_chan : ((s.wakeup ch).proc q).chan = (s.proc q).chan := by
  rcases wakeup_proc s ch q with ⟨h, _⟩ | ⟨_, h⟩ <;> rw [h]

theorem wakeup_sleeping (h : ((s.wakeup ch).proc q).state = .sleeping) :
    (s.proc q).state = .sleeping ∧ ¬ SleepsOn s q ch := by
  rcases wakeup_proc s ch q with ⟨he, hno⟩ | ⟨_, he⟩
  · exact ⟨he ▸ h, hno⟩
  · rw [he] at h
    cases h

theorem wakeup_running (h : (s.proc q).state = .running) : ((s.wakeup ch).proc q).state = .running := by
  rcases wakeup_proc s ch q with ⟨he, _⟩ | ⟨hs, _⟩
  · rw [he, h]
  · rw [hs.1] at h
    cases h

structure Calm (s t : State) : Prop where
  pc : t.pc = s.pc
  lock : t.lock = s.lock
  killed : ∀ q, (t.proc q).killed = true → (s.proc q).killed = true
  asleep : ∀ q, (t.proc q).state = .sleeping →
    (s.proc q).state = .sleeping ∧ (t.proc q).chan = (s.proc q).chan
  running : ∀ q, (s.proc q).state = .running → (t.proc q).state = .running

theorem Calm.of_proc (hproc : t.proc = s.proc) (hpc : t.pc = s.pc) (hlock : t.lock = s.lock) : Calm s t where
  pc := hpc
  lock := hlock
  killed q h := by rwa [hproc] at h
  asleep q h := by
    rw [hproc] at h ⊢
    exact ⟨h, rfl⟩
  running q h := by rwa [hproc]

theorem Calm.refl (s : State) : Calm s s := .of_proc rfl rfl rfl

theorem Calm.wakeup (h : Calm s t) (ch : Chan) : Calm s (t.wakeup ch) where
  pc := h.pc
  lock := h.lock
  killed q hq := h.killed q (wakeup_killed ▸ hq)
  asleep q hq := by
    obtain ⟨hs, hch⟩ := h.asleep q (wakeup_sleeping hq).1
    exact ⟨hs, wakeup_chan.trans hch⟩
  running q hq := wakeup_running (h.running q hq)

theorem Calm.freeproc (hq : (s.proc q).state = .zombie) : Calm s (s.freeproc q) where
  pc := rfl
  lock := rfl
  killed x hx := by
    unfold State.freeproc at hx
    rw [setProc_proc] at hx
    split at hx
    next => cases hx
    next => exact hx
  asleep x hx := by
    unfold State.freeproc at hx ⊢
    rw [setProc_proc] at hx ⊢
    split at hx
    next => cases hx
    next hne => exact ⟨hx, by rw [if_neg hne]⟩
  running x hx := by
    unfold State.freeproc
    rw [setProc_proc]
    split
    next he =>
      rw [he, hq] at hx
      cases hx
    next => exact hx

def Loop.copies : Loop → Bool
  | .pipereadCopy .. => true
  | _ => false

def Pc.call : Pc → Option Loop
  | .enter c | .loop c | .sleepy c | .asleep c => some c
  | _ => none

inductive Loop.Next : Loop → Loop → Prop
  | same (c : Loop) (h : c.copies = false) : Next c c
  | ticks (n : Nat) (ticks0 : Option Nat) (t : Nat) : Next (.sysSleep n ticks0) (.sysSleep n (some t))
  | nonempty (pi : Nat) (n : Int) (room : Nat) : Next (.piperead pi n room) (.pipereadCopy pi n room 0)
  | taken (pi : Nat) (n : Int) (room i : Nat) : Next (.pipereadCopy pi n room i) (.pipereadCopy pi n room (i + 1))
  | stored (pi : Nat) (src : List UInt8) (n : Int) (i : Nat) :
      Next (.pipewrite pi src n i) (.pipewrite pi src n (i + 1))
  | read (target n room : Nat) : Next (.consoleread target n room) (.consoleread target (n - 1) room)

theorem Loop.Next.lock (h : c.Next e) : e.lock = c.lock := by
  cases h <;> rfl

/-- What `p` does in a loop with the lock of `c` held: it goes on with the lock, calls `sleep` with the
lock when it is not killed, or returns without the lock. -/
structure Turn (p : Fin NPROC) (c : Loop) (s t : State) : Prop where
  others : ∀ q, q ≠ p → t.pc q = s.pc q
  killed : ∀ q, (t.proc q).killed = true → (s.proc q).killed = true
  asleep : ∀ q, (t.proc q).state = .sleeping →
    (s.proc q).state = .sleeping ∧ (t.proc q).chan = (s.proc q).chan
  running : ∀ q, (s.proc q).state = .running → (t.proc q).state = .running
  locks : ∀ l, l ≠ c.lock → t.lock l = s.lock l
  here : (t.pc p).holds = some c.lock ∧ t.lock c.lock = s.lock c.lock ∨
    t.pc p = .user ∧ t.lock c.lock = none
  sleepy : ∀ d, t.pc p = .sleepy d → (s.proc p).killed = false ∧ d.copies = false
  next : ∀ e, (t.pc p).call = some e → c.Next e

theorem Turn.finish (h : Calm s t) (he : e.lock = c.lock) : Turn p c s (t.finish p e r) := by
  have hproc : ∀ q, ((t.finish p e r).proc q).state = (t.proc q).state ∧
      ((t.finish p e r).proc q).killed = (t.proc q).killed ∧
      ((t.finish p e r).proc q).chan = (t.proc q).chan := by
    intro q
    simp only [State.finish, setLock_proc, setPc_proc, setProc_proc]
    split
    next he => simp [he]
    next => simp
  constructor
  case others =>
    intro q hq
    simp [State.finish, hq, h.pc]
  case killed =>
    intro q hq
    rw [(hproc q).2.1] at hq
    exact h.killed q hq
  case asleep =>
    intro q hq
    rw [(hproc q).1] at hq
    rw [(hproc q).2.2]
    exact h.asleep q hq
  case running =>
    intro q hq
    rw [(hproc q).1]
    exact h.running q hq
  case locks =>
    intro l hl
    simp [State.finish, he, hl, h.lock]
  case here => exact .inr (by simp [State.finish, he])
  case sleepy => simp [State.finish]
  case next => simp [State.finish, Pc.call]

theorem Turn.loop (h : Calm s t) (he : c.Next e) : Turn p c s (t.setPc p (.loop e)) where
  others q hq := by simp [hq, h.pc]
  killed := h.killed
  asleep := h.asleep
  running := h.running
  locks l _ := by simp [h.lock]
  here := .inl (by simp [Pc.holds, he.lock, h.lock])
  sleepy d hd := by simp at hd
  next d hd := by
    rw [setPc_pc, if_pos rfl] at hd
    cases hd
    exact he

theorem Turn.sleep (h : Calm s t) (he : c.Next e) (hkilled : (s.proc p).killed = false)
    (hcopies : e.copies = false) : Turn p c s (t.setPc p (.sleepy e)) where
  others q hq := by simp [hq, h.pc]
  killed := h.killed
  asleep := h.asleep
  running := h.running
  locks l _ := by simp [h.lock]
  here := .inl (by simp [Pc.holds, he.lock, h.lock])
  sleepy d hd := by
    rw [setPc_pc, if_pos rfl] at hd
    cases hd
    exact ⟨hkilled, hcopies⟩
  next d hd := by
    rw [setPc_pc, if_pos rfl] at hd
    cases hd
    exact he

theorem Turn.block (he : c.Next e) (hcopies : e.copies = false) : Turn p c s (s.block p e) := by
  unfold State.block
  split
  next => exact .finish (.refl s) he.lock
  next hk => exact .sleep (.refl s) he (by simpa using hk) hcopies

theorem Turn.holds (h : Turn p c s t) : (t.pc p).holds = some c.lock ∧ t.lock c.lock = s.lock c.lock ∨
    (t.pc p).holds = none ∧ t.lock c.lock = none := by
  rcases h.here with h | ⟨hpc, hlock⟩
  · exact .inl h
  · exact .inr ⟨by simp [hpc, Pc.holds], hlock⟩

inductive PipeTurn (pi : Nat) (c : Loop) (s t : State) : Prop
  | same (h : t.pipe pi = s.pipe pi)
  | take (n : Int) (room i : Nat) (hc : c = .pipereadCopy pi n room i) (hi : i < n)
      (hne : (s.pipe pi).nread ≠ (s.pipe pi).nwrite) (h : t.pipe pi = (s.pipe pi).take (i < room))
  | store (src : List UInt8) (n : Int) (i : Nat) (x : UInt8) (hc : c = .pipewrite pi src n i)
      (hne : (s.pipe pi).nwrite ≠ uint ((s.pipe pi).nread + PIPESIZE))
      (h : t.pipe pi = (s.pipe pi).store x)

theorem PipeTurn.congr (h : PipeTurn pi c s t) (hu : u.pipe pi = t.pipe pi) : PipeTurn pi c s u := by
  cases h with
  | same h => exact .same (hu.trans h)
  | take n room i hc hi hne h => exact .take n room i hc hi hne (hu.trans h)
  | store src n i x hc hne h => exact .store src n i x hc hne (hu.trans h)

theorem pipeTurn_take {b : Bool} (h : i < n ∧ (s.pipe pi).nread ≠ (s.pipe pi).nwrite) (hb : b = decide (i < room)) :
    PipeTurn x (.pipereadCopy pi n room i) s (s.setPipe pi ((s.pipe pi).take b)) := by
  by_cases hx : x = pi
  · subst hx
    exact .take n room i rfl h.1 h.2 (by simp [hb])
  · exact .same (by simp [hx])

theorem pipeTurn_store (h : (s.pipe pi).nwrite ≠ uint ((s.pipe pi).nread + PIPESIZE)) :
    PipeTurn x (.pipewrite pi src n i) s (s.setPipe pi ((s.pipe pi).store b)) := by
  by_cases hx : x = pi
  · subst hx
    exact .store src n i b rfl h (by simp)
  · exact .same (by simp [hx])

inductive Ends (p : Fin NPROC) (c : Loop) (s : State) : State → Prop
  | block {e : Loop} (he : c.Next e) (hcopies : e.copies = false) : Ends p c s (s.block p e)
  | finish {t : State} {e : Loop} {r : Int} (h : Calm s t) (he : e.lock = c.lock)
      (hpipe : ∀ pi, PipeTurn pi c s t) : Ends p c s (t.finish p e r)
  | loop {t : State} {e : Loop} (h : Calm s t) (he : c.Next e) (hpipe : ∀ pi, PipeTurn pi c s t) :
      Ends p c s (t.setPc p (.loop e))
  | sleep {t : State} {e : Loop} (h : Calm s t) (he : c.Next e) (hkilled : (s.proc p).killed = false)
      (hcopies : e.copies = false) (hpipe : t.pipe = s.pipe) : Ends p c s (t.setPc p (.sleepy e))

theorem Ends.stop (h : Calm s t) (he : e.lock = c.lock) (hpipe : t.pipe = s.pipe) : Ends p c s (t.finish p e r) :=
  .finish h he fun _ => .same (by rw [hpipe])

theorem Ends.turn (h : Ends p c s t) : Turn p c s t := by
  cases h with
  | block he hcopies => exact .block he hcopies
  | finish h he => exact .finish h he
  | loop h he => exact .loop h he
  | sleep h he hkilled hcopies => exact .sleep h he hkilled hcopies

theorem Ends.pipe (h : Ends p c s t) (pi : Nat) : PipeTurn pi c s t := by
  cases h with
  | block =>
    unfold State.block
    split
    next => exact .same rfl
    next => exact .same rfl
  | finish _ _ hpipe => exact (hpipe pi).congr rfl
  | loop _ _ hpipe => exact (hpipe pi).congr rfl
  | sleep _ _ _ _ hpipe => exact .same (by rw [setPc_pipe, hpipe])

theorem wait_ends {copied : Bool} : Ends p (.wait copied) s (wait s p copied) := by
  unfold wait
  split
  next np hfind =>
    have hz : (s.proc np).state = .zombie := by
      have := List.find?_some hfind
      simp only [decide_eq_true_eq] at this
      exact this.2
    split
    next => exact .stop (.freeproc hz) rfl rfl
    next => exact .stop (.refl s) rfl rfl
  next =>
    split
    next => exact .block (.same _ rfl) rfl
    next => exact .stop (.refl s) rfl rfl

theorem sysSleep_ends {n : Nat} {ticks0 : Option Nat} : Ends p (.sysSleep n ticks0) s (sysSleep s p n ticks0) := by
  unfold sysSleep
  dsimp only
  split
  next => exact .block (.ticks n ticks0 _) rfl
  next => exact .stop (.refl s) rfl rfl

theorem piperead_ends : Ends p (.piperead pi n room) s (piperead s p pi n room) := by
  unfold piperead
  split
  next => exact .block (.same _ rfl) rfl
  next => exact .loop (.refl s) (.nonempty pi n room) fun _ => .same rfl

theorem pipereadCopy_ends : Ends p (.pipereadCopy pi n room i) s (pipereadCopy s p pi n room i) := by
  unfold pipereadCopy
  dsimp only
  split
  next hcond =>
    split
    next hroom =>
      exact .loop (.of_proc rfl rfl rfl) (.taken pi n room i) fun _ => pipeTurn_take hcond (by simp [hroom])
    next hroom =>
      refine .finish ((Calm.of_proc (s := s) (t := s.setPipe pi _) rfl rfl rfl).wakeup _) rfl fun _ => ?_
      exact (pipeTurn_take (b := false) hcond (by simp [hroom])).congr rfl
  next => exact .stop ((Calm.refl s).wakeup _) rfl rfl

theorem pipewrite_ends : Ends p (.pipewrite pi src n i) s (pipewrite s p pi src n i) := by
  unfold pipewrite
  dsimp only
  split
  next =>
    split
    next => exact .stop (.refl s) rfl rfl
    next hopen =>
      split
      next => exact .sleep ((Calm.refl s).wakeup _) (.same _ rfl) (by simpa using (not_or.mp hopen).2) rfl rfl
      next hfull =>
        split
        next => exact .loop (.of_proc rfl rfl rfl) (.stored pi src n i) fun _ => pipeTurn_store hfull
        next => exact .stop ((Calm.refl s).wakeup _) rfl rfl
  next => exact .stop ((Calm.refl s).wakeup _) rfl rfl

theorem consoleread_ends {target n : Nat} :
    Ends p (.consoleread target n room) s (consoleread s p target n room) := by
  unfold consoleread
  dsimp only
  split
  next =>
    split
    next => exact .block (.same _ rfl) rfl
    next =>
      split
      next =>
        split
        next => exact .stop (.refl s) rfl rfl
        next => exact .stop (.of_proc rfl rfl rfl) rfl rfl
      next =>
        split
        next => exact .stop (.of_proc rfl rfl rfl) rfl rfl
        next =>
          split
          next => exact .stop (.of_proc rfl rfl rfl) rfl rfl
          next => exact .loop (.of_proc rfl rfl rfl) (.read target n room) fun _ => .same rfl
  next => exact .stop (.refl s) rfl rfl

theorem body_ends (s : State) (p : Fin NPROC) (c : Loop) : Ends p c s (body s p c) := by
  cases c with
  | wait copied => exact wait_ends
  | sysSleep n ticks0 => exact sysSleep_ends
  | piperead pi n room => exact piperead_ends
  | pipereadCopy pi n room i => exact pipereadCopy_ends
  | pipewrite pi src n i => exact pipewrite_ends
  | consoleread target n room => exact consoleread_ends

theorem body_turn (s : State) (p : Fin NPROC) (c : Loop) : Turn p c s (body s p c) := (body_ends s p c).turn

theorem body_pipe (s : State) (p : Fin NPROC) (c : Loop) (pi : Nat) : PipeTurn pi c s (body s p c) :=
  (body_ends s p c).pipe pi

/-- The locks are held by the processes that stand where they hold them, these run, and the processes
asleep are in `sleep`. -/
structure Inv (s : State) : Prop where
  lock : ∀ l p, s.lock l = some p ↔ (s.pc p).holds = some l
  run : ∀ p, (s.pc p).holds ≠ none → (s.proc p).state = .running
  asleep : ∀ p, (s.proc p).state = .sleeping → ∃ c, s.pc p = .asleep c ∧ (s.proc p).chan = some (c.chan p)

theorem Boot.inv (h : Boot s) : Inv s where
  lock l p := by simp [h.lock, h.pc, Pc.holds]
  run p hp := absurd (by simp [h.pc, Pc.holds]) hp
  asleep p hp := by
    rw [h.proc p] at hp
    split at hp <;> cases hp

section Fields

variable (h : Inv s)

include h

theorem Inv.one (hp : (s.pc p).holds = some l) (hq : (s.pc q).holds = some l) : p = q :=
  Option.some.inj (((h.lock l p).mpr hp).symm.trans ((h.lock l q).mpr hq))

theorem Inv.lock_step (hfree : s.lock l = none ∨ s.lock l = some p)
    (hp : ∀ m, (s.pc p).holds = some m → m = l) (hothers : ∀ q, q ≠ p → t.pc q = s.pc q)
    (hlocks : ∀ m, m ≠ l → t.lock m = s.lock m)
    (hat : (t.pc p).holds = some l ∧ t.lock l = some p ∨ (t.pc p).holds = none ∧ t.lock l = none) (m : Lock)
    (q : Fin NPROC) : t.lock m = some q ↔ (t.pc q).holds = some m := by
  by_cases hq : q = p
  · subst hq
    by_cases hm : m = l
    · subst hm
      rcases hat with ⟨h1, h2⟩ | ⟨h1, h2⟩ <;> simp [h1, h2]
    · have hno : s.lock m ≠ some q := fun he => hm (hp m ((h.lock m q).mp he))
      rw [hlocks m hm]
      rcases hat with ⟨h1, _⟩ | ⟨h1, _⟩ <;> simp [h1, hno, Ne.symm hm]
  · rw [hothers q hq]
    by_cases hm : m = l
    · subst hm
      have hno : (s.pc q).holds ≠ some m := by
        rw [Ne, ← h.lock]
        rcases hfree with h1 | h1 <;> simp [h1, Ne.symm hq]
      rcases hat with ⟨_, h2⟩ | ⟨_, h2⟩ <;> simp [h2, hno, Ne.symm hq]
    · rw [hlocks m hm]
      exact h.lock m q

theorem Inv.turn (hpc : s.pc p = .loop c) (ht : Turn p c s t) : Inv t := by
  have hhold : (s.pc p).holds = some c.lock := by rw [hpc, Pc.holds]
  have hlock : s.lock c.lock = some p := (h.lock _ _).mpr hhold
  constructor
  case lock =>
    refine h.lock_step (.inr hlock) (fun m hm => ?_) ht.others ht.locks (ht.holds.imp_left ?_)
    · rw [hhold] at hm
      exact (Option.some.inj hm).symm
    · exact fun hkeep => ⟨hkeep.1, hkeep.2.trans hlock⟩
  case run =>
    intro q hq
    by_cases hqp : q = p
    · subst hqp
      exact ht.running q (h.run q (by simp [hhold]))
    · rw [ht.others q hqp] at hq
      exact ht.running q (h.run q hq)
  case asleep =>
    intro q hq
    obtain ⟨hs, hch⟩ := ht.asleep q hq
    obtain ⟨d, hd, hdc⟩ := h.asleep q hs
    have hqp : q ≠ p := by
      rintro rfl
      rw [hpc] at hd
      cases hd
    exact ⟨d, by rw [ht.others q hqp, hd], by rw [hch, hdc]⟩

theorem Inv.calm (hlock : t.lock = s.lock)
    (hpc : ∀ q, t.pc q = s.pc q ∨ (s.pc q).holds = none ∧ (t.pc q).holds = none ∧ (t.proc q).state ≠ .sleeping)
    (hasleep : ∀ q, (t.proc q).state = .sleeping →
      (s.proc q).state = .sleeping ∧ (t.proc q).chan = (s.proc q).chan)
    (hrun : ∀ q, (s.pc q).holds ≠ none → (t.proc q).state = .running) : Inv t where
  lock l q := by
    rw [hlock, h.lock]
    rcases hpc q with he | ⟨h1, h2, _⟩
    · rw [he]
    · simp [h1, h2]
  run q hq := by
    rcases hpc q with he | ⟨_, h2, _⟩
    · exact hrun q (he ▸ hq)
    · exact absurd h2 hq
  asleep q hq := by
    obtain ⟨hs, hch⟩ := hasleep q hq
    rcases hpc q with he | ⟨_, _, hno⟩
    · rw [he, hch]
      exact h.asleep q hs
    · exact absurd hq hno

theorem Inv.of_calm (ht : Calm s t) : Inv t :=
  h.calm ht.lock (fun q => .inl (by rw [ht.pc])) ht.asleep fun q hq => ht.running q (h.run q hq)

theorem Inv.move (hrun : (s.proc p).state = .running) (hp : (s.pc p).holds = none)
    (hd : d.holds = none) : Inv (s.setPc p d) := by
  refine h.calm rfl (fun q => ?_) (fun q hq => ⟨hq, rfl⟩) h.run
  by_cases hq : q = p
  · subst hq
    exact .inr ⟨hp, by simpa using hd, by simp [hrun]⟩
  · exact .inl (by simp [hq])

theorem inv_enter (hrun : (s.proc p).state = .running) (hpc : s.pc p = .enter c)
    (hfree : s.lock c.lock = none) : Inv ((s.setPc p (.loop c)).setLock c.lock (some p)) := by
  constructor
  case lock =>
    refine h.lock_step (p := p) (l := c.lock) (.inl hfree) (fun m hm => ?_) (fun q hq => by simp [hq])
      (fun m hm => by simp [hm]) (.inl (by simp [Pc.holds]))
    simp [hpc, Pc.holds] at hm
  case run =>
    intro q hq
    by_cases hqp : q = p
    · simpa [hqp] using hrun
    · exact h.run q (by simpa [hqp] using hq)
  case asleep =>
    intro q hq
    have hqp : q ≠ p := by
      rintro rfl
      simp [hrun] at hq
    simpa [hqp] using h.asleep q hq

theorem inv_sleep (hpc : s.pc p = .sleepy c) : Inv (sleep s p c) := by
  have hhold : (s.pc p).holds = some c.lock := by rw [hpc, Pc.holds]
  constructor
  case lock =>
    refine h.lock_step (l := c.lock) (.inr ((h.lock _ _).mpr hhold)) (fun m hm => ?_)
      (fun q hq => by simp [sleep, hq]) (fun m hm => by simp [sleep, hm]) (.inr (by simp [sleep, Pc.holds]))
    rw [hhold] at hm
    exact (Option.some.inj hm).symm
  case run =>
    intro q hq
    by_cases hqp : q = p
    · subst hqp
      simp [sleep, Pc.holds] at hq
    · simpa [sleep, hqp] using h.run q (by simpa [sleep, hqp] using hq)
  case asleep =>
    intro q hq
    by_cases hqp : q = p
    · subst hqp
      exact ⟨c, by simp [sleep], by simp [sleep]⟩
    · have hs : (s.proc q).state = .sleeping := by simpa [sleep, hqp] using hq
      simpa [sleep, hqp] using h.asleep q hs

theorem inv_wake (hrun : (s.proc p).state = .running) (hpc : s.pc p = .asleep c) :
    Inv ((s.setProc p { s.proc p with chan := none }).setPc p (.enter c)) := by
  refine h.calm rfl (fun q => ?_) (fun q hq => ?_) fun q hq => ?_
  · by_cases hq : q = p
    · subst hq
      exact .inr ⟨by simp [hpc, Pc.holds], by simp [Pc.holds], by simp [hrun]⟩
    · exact .inl (by simp [hq])
  · by_cases hqp : q = p
    · subst hqp
      simp [hrun] at hq
    · simpa [hqp] using hq
  · by_cases hqp : q = p
    · simpa [hqp] using hrun
    · simpa [hqp] using h.run q hq

end Fields

def State.kill (s : State) (q : Fin NPROC) : State :=
  s.setProc q { s.proc q with
    killed := true
    state := if (s.proc q).state = .sleeping then .runnable else (s.proc q).state }

theorem kill_state {x : Fin NPROC} (h : ((s.kill q).proc x).state = .sleeping) :
    x ≠ q ∧ (s.proc x).state = .sleeping := by
  unfold State.kill at h
  rw [setProc_proc] at h
  split at h
  next =>
    dsimp only at h
    split at h
    next => cases h
    next hno => exact absurd h hno
  next hne => exact ⟨hne, h⟩

theorem inv_kill (h : Inv s) : Inv (s.kill q) := by
  refine h.calm rfl (fun x => .inl rfl) (fun x hx => ?_) fun x hx => ?_
  · obtain ⟨hne, hs⟩ := kill_state hx
    exact ⟨hs, by simp [State.kill, hne]⟩
  · have hr := h.run x hx
    by_cases hxq : x = q
    · subst hxq
      simp [State.kill, hr]
    · simpa [State.kill, hxq] using hr

theorem calm_a0 : Calm s (s.setProc p { s.proc p with a0 := r }) := by
  refine ⟨rfl, rfl, fun q hq => ?_, fun q hq => ?_, fun q hq => ?_⟩
  · by_cases hqp : q = p <;> simpa [hqp] using hq
  · by_cases hqp : q = p <;> simp_all
  · by_cases hqp : q = p <;> simp_all

theorem inv_killSlot {pid : Int} {rest : List (Fin NPROC)} (h : Inv s) (hrun : (s.proc p).state = .running)
    (hpc : s.pc p = .kill pid rest) : Inv (killSlot s p pid rest) := by
  have hno : (s.pc p).holds = none := by simp [hpc, Pc.holds]
  cases rest with
  | nil => exact (h.of_calm calm_a0).move (d := .user) (by simpa using hrun) hno rfl
  | cons q rest =>
    rw [killSlot]
    split
    next =>
      have hk : Inv (s.kill q) := inv_kill h
      refine (hk.of_calm (calm_a0 (p := p))).move (d := .user) ?_ hno rfl
      by_cases hpq : p = q
      · subst hpq
        simp [State.kill, hrun]
      · simp [State.kill, hpq, hrun]
    next => exact h.move (d := .kill pid rest) hrun hno rfl

theorem Inv.setProc (h : Inv s) (hq : (s.pc q).holds = none) (hv : v.state ≠ .sleeping) : Inv (s.setProc q v) := by
  refine h.calm rfl (fun x => .inl rfl) (fun x hx => ?_) fun x hx => ?_
  · by_cases hxq : x = q
    · simp [hxq, hv] at hx
    · simpa [hxq] using hx
  · have hxq : x ≠ q := by
      rintro rfl
      exact hx hq
    simpa [hxq] using h.run x hx

theorem calm_pipeclose (s : State) (pi : Nat) (writable : Bool) : Calm s (pipeclose s pi writable) := by
  unfold pipeclose
  split
  next => exact (Calm.of_proc (s := s) (t := s.setPipe pi _) rfl rfl rfl).wakeup _
  next => exact (Calm.of_proc (s := s) (t := s.setPipe pi _) rfl rfl rfl).wakeup _

theorem calm_clockintr : Calm s (clockintr s) :=
  (Calm.of_proc (s := s) (t := { s with ticks := uint (s.ticks + 1) }) rfl rfl rfl).wakeup _

theorem consoleintr_cases (s : State) (b : UInt8) :
    ∃ k, consoleintr s b = { s with cons := k } ∨ consoleintr s b = { s with cons := k }.wakeup .cons := by
  unfold consoleintr
  dsimp only
  split
  next => exact ⟨_, .inl rfl⟩
  next =>
    split
    next => exact ⟨_, .inl rfl⟩
    next =>
      split
      next =>
        split
        next => exact ⟨_, .inl rfl⟩
        next => exact ⟨_, .inl rfl⟩
      next =>
        split
        next =>
          generalize (if b = 13 then 10 else b) = x
          split
          next => exact ⟨_, .inr rfl⟩
          next => exact ⟨_, .inl rfl⟩
        next => exact ⟨_, .inl rfl⟩

theorem calm_consoleintr : Calm s (consoleintr s b) ∧ (consoleintr s b).pipe = s.pipe := by
  have hcons : ∀ k, Calm s { s with cons := k } := fun k => .of_proc rfl rfl rfl
  obtain ⟨k, he | he⟩ := consoleintr_cases s b
  · rw [he]
    exact ⟨hcons k, rfl⟩
  · rw [he]
    exact ⟨(hcons k).wakeup _, rfl⟩

theorem fork_cases (s : State) (p : Fin NPROC) : fork s p = s.setProc p { s.proc p with a0 := -1 } ∨
    ∃ np v n, (s.proc np).state = .unused ∧ v.state = .runnable ∧
      (v.killed = (s.proc np).killed ∧ v.chan = (s.proc np).chan ∨ np = p) ∧
      fork s p = { ((s.setProc p { s.proc p with a0 := s.nextpid }).setProc np v).setPc np .user with
        nextpid := n } := by
  unfold fork
  split
  next => exact .inl rfl
  next np hfind =>
    have hnp : (s.proc np).state = .unused := by simpa using List.find?_some hfind
    refine .inr ⟨np, _, _, hnp, rfl, ?_, rfl⟩
    by_cases hne : np = p
    · exact .inr hne
    · exact .inl (by simp [hne])

theorem Inv.unused (h : Inv s) (hp : (s.proc p).state ≠ .running) : (s.pc p).holds = none := by
  by_contra hno
  exact hp (h.run p hno)

theorem inv_fork (h : Inv s) (hrun : (s.proc p).state = .running) (hpc : s.pc p = .user) : Inv (fork s p) := by
  rcases fork_cases s p with he | ⟨np, v, n, hnp, hv, _, he⟩
  · rw [he]
    exact h.of_calm calm_a0
  · rw [he]
    have hne : np ≠ p := by
      rintro rfl
      simp [hrun] at hnp
    have hno : (s.pc np).holds = none := h.unused (by simp [hnp])
    have h1 : Inv ((s.setProc p { s.proc p with a0 := s.nextpid }).setProc np v) :=
      (h.of_calm calm_a0).setProc hno (by simp [hv])
    refine Inv.calm h1 rfl (fun q => ?_) (fun q hq => ⟨hq, rfl⟩) h1.run
    by_cases hq : q = np
    · subst hq
      exact .inr ⟨hno, by simp [Pc.holds], by simp [hv]⟩
    · exact .inl (by simp [hq])

theorem exit_cases (s : State) (p : Fin NPROC) :
    ∃ t, Calm s t ∧ exit s p = t.setProc p { t.proc p with state := .zombie } := by
  have hparent : Calm s { s with proc := fun q =>
      if (s.proc q).parent = some p then { s.proc q with parent := some s.initproc } else s.proc q } := by
    refine ⟨rfl, rfl, fun q hq => ?_, fun q hq => ?_, fun q hq => ?_⟩
    · dsimp only at hq
      split at hq <;> exact hq
    · dsimp only at hq ⊢
      split at hq
      next hc => exact ⟨hq, by rw [if_pos hc]⟩
      next hc => exact ⟨hq, by rw [if_neg hc]⟩
    · dsimp only
      split <;> exact hq
  unfold exit
  dsimp only
  refine ⟨_, ?_, rfl⟩
  split
  next =>
    split
    next => exact (hparent.wakeup _).wakeup _
    next => exact hparent.wakeup _
  next =>
    split
    next => exact hparent.wakeup _
    next => exact hparent

theorem inv_exit (h : Inv s) (hpc : s.pc p = .user) : Inv (exit s p) := by
  obtain ⟨t, ht, he⟩ := exit_cases s p
  rw [he]
  refine (h.of_calm ht).setProc ?_ (by simp)
  rw [ht.pc, hpc, Pc.holds] <;> simp

inductive Trans (s : State) : Act → State → Prop
  | call (p : Fin NPROC) (c : Loop) (hrun : (s.proc p).state = .running) (hpc : s.pc p = .user)
      (hstart : c.start = true) : Trans s (.call p c) (s.setPc p (.enter c))
  | killCall (p : Fin NPROC) (pid : Int) (hrun : (s.proc p).state = .running) (hpc : s.pc p = .user) :
      Trans s (.killCall p pid) (s.setPc p (.kill pid (List.finRange NPROC)))
  | enter (p : Fin NPROC) (c : Loop) (hrun : (s.proc p).state = .running) (hpc : s.pc p = .enter c)
      (hfree : s.lock c.lock = none) : Trans s (.step p) ((s.setPc p (.loop c)).setLock c.lock (some p))
  | turn (p : Fin NPROC) (c : Loop) (hpc : s.pc p = .loop c) : Trans s (.step p) (body s p c)
  | sleep (p : Fin NPROC) (c : Loop) (hpc : s.pc p = .sleepy c) : Trans s (.step p) (sleep s p c)
  | wake (p : Fin NPROC) (c : Loop) (hrun : (s.proc p).state = .running) (hpc : s.pc p = .asleep c) :
      Trans s (.step p) ((s.setProc p { s.proc p with chan := none }).setPc p (.enter c))
  | kill (p : Fin NPROC) (pid : Int) (rest : List (Fin NPROC)) (hrun : (s.proc p).state = .running)
      (hpc : s.pc p = .kill pid rest) : Trans s (.step p) (killSlot s p pid rest)
  | pipeclose (p : Fin NPROC) (pi : Nat) (w : Bool) (hlock : s.lock (.pipe pi) = none) :
      Trans s (.pipeclose p pi w) (pipeclose s pi w)
  | fork (p : Fin NPROC) (hrun : (s.proc p).state = .running) (hpc : s.pc p = .user) :
      Trans s (.fork p) (fork s p)
  | exit (p : Fin NPROC) (hpc : s.pc p = .user) : Trans s (.exit p) (exit s p)
  | dispatch (p : Fin NPROC) (hst : (s.proc p).state = .runnable) :
      Trans s (.dispatch p) (s.setProc p { s.proc p with state := .running })
  | yield (p : Fin NPROC) (hno : (s.pc p).holds = none) :
      Trans s (.yield p) (s.setProc p { s.proc p with state := .runnable })
  | clockintr : Trans s .clockintr (clockintr s)
  | consoleintr (b : UInt8) : Trans s (.consoleintr b) (consoleintr s b)

theorem next_trans (hrun : (s.proc p).state = .running) (hs : next s p = some t) : Trans s (.step p) t := by
  unfold next at hs
  split at hs
  next => cases hs
  next c hpc =>
    obtain ⟨hfree, rfl⟩ := some_of_guard hs
    exact .enter p c hrun hpc hfree
  next c hpc =>
    cases hs
    exact .turn p c hpc
  next c hpc =>
    cases hs
    exact .sleep p c hpc
  next c hpc =>
    cases hs
    exact .wake p c hrun hpc
  next pid rest hpc =>
    cases hs
    exact .kill p pid rest hrun hpc

theorem act_trans (hs : act s a = some t) : Trans s a t := by
  cases a with
  | step p =>
    obtain ⟨hrun, hs⟩ := Option.ite_none_right_eq_some.mp hs
    exact next_trans hrun hs
  | _ =>
    obtain ⟨hguard, rfl⟩ := some_of_guard hs
    constructor <;> simp [hguard]

theorem inv_act (h : Inv s) (hs : act s a = some t) : Inv t := by
  cases act_trans hs with
  | call p c hrun hpc => exact h.move hrun (by simp [hpc, Pc.holds]) rfl
  | killCall p pid hrun hpc => exact h.move hrun (by simp [hpc, Pc.holds]) rfl
  | enter p c hrun hpc hfree => exact inv_enter h hrun hpc hfree
  | turn p c hpc => exact h.turn hpc (body_turn s p c)
  | sleep p c hpc => exact inv_sleep h hpc
  | wake p c hrun hpc => exact inv_wake h hrun hpc
  | kill p pid rest hrun hpc => exact inv_killSlot h hrun hpc
  | pipeclose p pi w => exact h.of_calm (calm_pipeclose _ _ _)
  | fork p hrun hpc => exact inv_fork h hrun hpc
  | exit p hpc => exact inv_exit h hpc
  | dispatch p hst => exact h.setProc (h.unused (by simp [hst])) (by simp)
  | yield p hno => exact h.setProc hno (by simp)
  | clockintr => exact h.of_calm calm_clockintr
  | consoleintr b => exact h.of_calm calm_consoleintr.1

theorem inv_reach {C : State → Act → Prop} (h : machine.Reach C s) : Inv s :=
  h.invariant (fun _ hs => Boot.inv hs) fun _ _ _ _ hi _ hs => inv_act hi hs

end TweakedXv6.Sleep

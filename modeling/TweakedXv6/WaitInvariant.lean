import Mathlib.Tactic.Common
import TweakedXv6.WaitModel

namespace TweakedXv6.Wait

variable {s t : State} {p q i j k np : Nat} {c : Pc} {v : Proc} {l : Option Nat}

@[simp] theorem setPc_pc : (s.setPc p c).pc k = if k = p then c else s.pc k := by
  simp [State.setPc, Function.update_apply]

@[simp] theorem setPc_proc : (s.setPc p c).proc = s.proc := rfl

@[simp] theorem setPc_initproc : (s.setPc p c).initproc = s.initproc := rfl

@[simp] theorem setProc_proc : (s.setProc p v).proc k = if k = p then v else s.proc k := by
  simp [State.setProc, Function.update_apply]

@[simp] theorem setProc_pc : (s.setProc p v).pc = s.pc := rfl

@[simp] theorem setProc_waitLock : (s.setProc p v).waitLock = s.waitLock := rfl

@[simp] theorem setProc_initproc : (s.setProc p v).initproc = s.initproc := rfl

@[simp] theorem move_pc : (s.move p c l).pc k = if k = p then c else s.pc k := setPc_pc

@[simp] theorem move_proc : (s.move p c l).proc = s.proc := rfl

@[simp] theorem move_waitLock : (s.move p c l).waitLock = l := rfl

@[simp] theorem move_initproc : (s.move p c l).initproc = s.initproc := rfl

def Pc.forkee : Pc → Option Nat
  | .forkParent np | .forkRunnable np => some np
  | _ => none

def Pc.exiting : Pc → Bool
  | .exitLock .. | .reparent .. | .reparentWakeup .. | .exitWakeup .. | .exitZombie .. => true
  | _ => false

def Pc.reparented : Pc → Nat
  | .reparent _ i => i
  | .reparentWakeup _ i _ => i + 1
  | .exitWakeup .. | .exitZombie .. => NPROC
  | _ => 0

/-- What holds of the whole table between any two critical sections. -/
structure Inv (s : State) : Prop where
  lock : ∀ p, s.waitLock = some p ↔ (s.pc p).holdsWaitLock = true
  holder : ∀ p, (s.pc p).holdsWaitLock = true → (s.proc p).state = .running
  range : ∀ p, NPROC ≤ p → (s.proc p).state = .unused
  quiet : ∀ p, (s.proc p).state.live = false → s.pc p = .user
  forkee : ∀ p np, (s.pc p).forkee = some np → (s.proc np).state = .used
  forkeeParent : ∀ p np, s.pc p = .forkRunnable np → (s.proc np).parent = some p
  forkeeUnique : ∀ p q np, (s.pc p).forkee = some np → (s.pc q).forkee = some np → p = q
  unusedParent : ∀ p, (s.proc p).state = .unused → (s.proc p).parent = none
  parentLive : ∀ p q, (s.proc p).parent = some q → (s.proc q).state.live = true
  parentNe : ∀ p, (s.proc p).parent ≠ some p
  orphan : ∀ p, p ≠ s.initproc → (s.proc p).state.live = true ∨ (s.proc p).state = .zombie →
    (s.proc p).parent ≠ none
  initParent : (s.proc s.initproc).parent = none
  initLive : (s.proc s.initproc).state.live = true
  exiting : ∀ p, (s.pc p).exiting = true → p ≠ s.initproc
  reparented : ∀ p k, k < (s.pc p).reparented → (s.proc k).parent ≠ some p

theorem Inv.congr (h : Inv s) (hproc : t.proc = s.proc) (hpc : t.pc = s.pc)
    (hlock : t.waitLock = s.waitLock) (hinit : t.initproc = s.initproc) : Inv t := by
  obtain ⟨proc, pc, lock, _, init, _, _⟩ := s
  obtain ⟨proc', pc', lock', _, init', _, _⟩ := t
  cases hproc
  cases hpc
  cases hlock
  cases hinit
  exact { h with }

def lockAfter (s : State) (p : Nat) (c : Pc) : Option Nat :=
  if c.holdsWaitLock then some p else if (s.pc p).holdsWaitLock then none else s.waitLock

theorem inv_move (h : Inv s) (hp : (s.proc p).state = .running) (hl : l = lockAfter s p c)
    (hfree : c.holdsWaitLock = true → s.waitLock = none ∨ s.waitLock = some p)
    (hfork : ∀ np, c.forkee = some np → (s.proc np).state = .used ∧
      ∀ q, q ≠ p → (s.pc q).forkee ≠ some np)
    (hpar : ∀ np, c = .forkRunnable np → (s.proc np).parent = some p)
    (hexit : c.exiting = true → p ≠ s.initproc)
    (hrep : ∀ k, k < c.reparented → (s.proc k).parent ≠ some p) : Inv (s.move p c l) where
  lock q := by
    have hq := h.lock q
    have hp := h.lock p
    rw [move_waitLock, move_pc, hl, lockAfter]
    grind
  holder q := by
    have := h.holder q
    rw [move_pc, move_proc]
    grind
  range := h.range
  quiet q := by
    have := h.quiet q
    rw [move_pc, move_proc]
    grind [ProcState.live]
  forkee q np := by
    have := h.forkee q np
    rw [move_pc, move_proc]
    grind
  forkeeParent q np := by
    have := h.forkeeParent q np
    rw [move_pc, move_proc]
    grind
  forkeeUnique q q' np := by
    have := h.forkeeUnique q q' np
    rw [move_pc, move_pc]
    grind
  unusedParent := h.unusedParent
  parentLive := h.parentLive
  parentNe := h.parentNe
  orphan := h.orphan
  initParent := h.initParent
  initLive := h.initLive
  exiting q := by
    have := h.exiting q
    rw [move_pc, move_initproc]
    grind
  reparented q k := by
    have := h.reparented q k
    rw [move_pc, move_proc]
    grind

structure SlotOk (s : State) (j : Nat) (v : Proc) : Prop where
  holder : (s.pc j).holdsWaitLock = true → v.state = .running
  range : NPROC ≤ j → v.state = .unused
  quiet : v.state.live = false → s.pc j = .user
  forkee : ∀ p, (s.pc p).forkee = some j → v.state = .used
  forkeeParent : ∀ p, s.pc p = .forkRunnable j → v.parent = some p
  unusedParent : v.state = .unused → v.parent = none
  parent : ∀ q, v.parent = some q →
    (s.proc q).state.live = true ∧ q ≠ j ∧ (s.pc q).reparented ≤ j
  childless : v.state.live = false → ∀ k, (s.proc k).parent ≠ some j
  orphan : j ≠ s.initproc → v.state.live = true ∨ v.state = .zombie → v.parent ≠ none
  init : j = s.initproc → v.parent = none ∧ v.state.live = true

theorem inv_setProc (h : Inv s) (hv : SlotOk s j v) : Inv (s.setProc j v) where
  lock := h.lock
  holder q := by
    have := h.holder q
    have := hv.holder
    rw [setProc_proc, setProc_pc]
    grind
  range q := by
    have := h.range q
    have := hv.range
    rw [setProc_proc]
    grind
  quiet q := by
    have := h.quiet q
    have := hv.quiet
    rw [setProc_proc, setProc_pc]
    grind
  forkee q np := by
    have := h.forkee q np
    have := hv.forkee q
    rw [setProc_proc, setProc_pc]
    grind
  forkeeParent q np := by
    have := h.forkeeParent q np
    have := hv.forkeeParent q
    rw [setProc_proc, setProc_pc]
    grind
  forkeeUnique := h.forkeeUnique
  unusedParent q := by
    have := h.unusedParent q
    have := hv.unusedParent
    rw [setProc_proc]
    grind
  parentLive q q' := by
    have := h.parentLive q q'
    have := hv.parent q'
    have := hv.childless
    rw [setProc_proc, setProc_proc]
    grind
  parentNe q := by
    have := h.parentNe q
    have := hv.parent q
    rw [setProc_proc]
    grind
  orphan q := by
    have := h.orphan q
    have := hv.orphan
    rw [setProc_proc, setProc_initproc]
    grind
  initParent := by
    have := h.initParent
    have := hv.init
    rw [setProc_proc, setProc_initproc]
    grind
  initLive := by
    have := h.initLive
    have := hv.init
    rw [setProc_proc, setProc_initproc]
    grind
  exiting := h.exiting
  reparented q k := by
    have := h.reparented q k
    have := hv.parent q
    rw [setProc_proc, setProc_pc]
    grind

theorem slotOk_live (h : Inv s) (hj : (s.proc j).state.live = true) (hv : v.state.live = true)
    (hpar : v.parent = (s.proc j).parent)
    (hhold : (s.pc j).holdsWaitLock = true → v.state = .running) : SlotOk s j v where
  holder := hhold
  range hr := by simp [h.range j hr, ProcState.live] at hj
  quiet hq := by simp [hv] at hq
  forkee q hq := by simp [h.forkee q j hq, ProcState.live] at hj
  forkeeParent q hq := hpar.trans (h.forkeeParent q j hq)
  unusedParent hu := by simp [hu, ProcState.live] at hv
  parent q hq := by
    rw [hpar] at hq
    refine ⟨h.parentLive j q hq, ?_, ?_⟩
    · rintro rfl
      exact h.parentNe q hq
    · by_contra hlt
      exact h.reparented q j (by omega) hq
  childless hq := by simp [hv] at hq
  orphan hi _ := hpar ▸ h.orphan j hi (.inl hj)
  init hi := ⟨by rw [hpar, hi, h.initParent], hv⟩

theorem inv_setState_live {st : ProcState} (h : Inv s) (hj : (s.proc j).state.live = true) (hst : st.live = true)
    (hhold : (s.pc j).holdsWaitLock = false ∨ st = .running) : Inv (s.setState j st) := by
  refine inv_setProc h (slotOk_live h hj hst rfl ?_)
  intro hh
  rcases hhold with hhold | hhold
  · simp [hhold] at hh
  · exact hhold

theorem inv_setPc (h : Inv s) (hp : (s.proc p).state = .running) (hold : c.holdsWaitLock = (s.pc p).holdsWaitLock)
    (hfork : c.forkee = none) (hexit : c.exiting = true → p ≠ s.initproc)
    (hrep : ∀ k, k < c.reparented → (s.proc k).parent ≠ some p) : Inv (s.setPc p c) := by
  have hl : s.waitLock = lockAfter s p c := by
    have := h.lock p
    rw [lockAfter, hold]
    grind
  refine inv_move (l := s.waitLock) h hp hl ?_ (by simp [hfork]) ?_ hexit hrep
  · intro hh
    exact .inr ((h.lock p).mpr (hold ▸ hh))
  · rintro np rfl
    simp [Pc.forkee] at hfork

theorem inv_userinit : Inv userinit := by
  have hproc : ∀ k, userinit.proc k = if k = 0 then { state := .runnable, pid := 1 } else {} := by
    intro k
    simp [userinit, Function.update_apply]
  have hpc : ∀ k, userinit.pc k = .user := fun _ => rfl
  have hi : userinit.initproc = 0 := rfl
  constructor <;>
    grind [Pc.holdsWaitLock, Pc.forkee, Pc.exiting, Pc.reparented, ProcState.live, NPROC,
      userinit]

end TweakedXv6.Wait

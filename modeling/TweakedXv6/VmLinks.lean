import TweakedXv6.RefCount
import TweakedXv6.VmSystem
import TweakedXv6.VmUser

namespace TweakedXv6.Vm

open Prog Files
open Function (update update_self update_of_ne)

/-- The memory of a process, the trapframe and the trampoline, and one page at most that is closed to the
user below the trapframe. -/
structure ProcMap (lay : Layout) (tf sz : Nat) (T : Table) : Prop where
  kernel : KernelMap lay tf T
  user : ∃ g, UserMap T (pages sz) (· = g)

inductive Role
  | kernel
  | trapframe (p : Fin NPROC)
  | pipe
  deriving DecidableEq

def RoleAt (s : State) : Role → Nat → Prop
  | .kernel, q => q ∈ s.kernel
  | .trapframe p, q => (s.proc p).trapframe = some q
  | .pipe, q => s.ft.pipe q ≠ none

/-- The processes, the pipes and the kernel hold the pages and page tables that are in use, each of them
once. -/
structure Linked (lay : Layout) (G : Ghost) (s : State) : Prop where
  roles : Partition G.used (RoleAt s)
  owners : Partition (fun d => G.table d ≠ none) fun p d => (s.proc p).pagetable = some d
  unused : ∀ p, (s.proc p).state = .unused → s.proc p = {}
  proc : ∀ p, (s.proc p).state ≠ .unused → ∃ d tf T, (s.proc p).pagetable = some d ∧
    (s.proc p).trapframe = some tf ∧ G.table d = some T ∧ ProcMap lay tf (s.proc p).sz T

variable {lay : Layout} {G : Ghost} {s t : State} {T S : Table} {p q : Fin NPROC} {d e tf x : Nat}
  {v w : Proc}

def SameUse (v w : Proc) : Prop :=
  w = v ∨ v.state ≠ .unused ∧ w.state ≠ .unused ∧ w.pagetable = v.pagetable ∧
    w.trapframe = v.trapframe ∧ w.sz = v.sz

theorem SameUse.pagetable {v : Proc} (h : SameUse v w) : w.pagetable = v.pagetable := by
  rcases h with rfl | ⟨_, _, h, _⟩
  · rfl
  · exact h

theorem SameUse.trapframe {v : Proc} (h : SameUse v w) : w.trapframe = v.trapframe := by
  rcases h with rfl | ⟨_, _, _, h, _⟩
  · rfl
  · exact h

theorem Linked.congr (h : Linked lay G s) (hkernel : t.kernel = s.kernel)
    (hpipe : ∀ x, t.ft.pipe x ≠ none ↔ s.ft.pipe x ≠ none)
    (hproc : ∀ p, SameUse (s.proc p) (t.proc p)) : Linked lay G t where
  roles := by
    refine h.roles.congr fun r x => ?_
    cases r with
    | kernel => simp [RoleAt, hkernel]
    | trapframe p => simp [RoleAt, (hproc p).trapframe]
    | pipe => exact hpipe x
  owners := h.owners.congr fun p d => by rw [(hproc p).pagetable]
  unused p hp := by
    rcases hproc p with heq | ⟨_, hno, _⟩
    · rw [heq] at hp ⊢
      exact h.unused p hp
    · exact absurd hp hno
  proc p hp := by
    rcases hproc p with heq | ⟨hno, _, hd, htf, hsz⟩
    · rw [heq] at hp ⊢
      exact h.proc p hp
    · rw [hd, htf, hsz]
      exact h.proc p hno

theorem Linked.table (h : Linked lay G s) (hd : (s.proc p).pagetable = some d) :
    ∃ tf T, (s.proc p).trapframe = some tf ∧ G.table d = some T ∧ ProcMap lay tf (s.proc p).sz T := by
  have hp : (s.proc p).state ≠ .unused := by
    intro hz
    simp [h.unused p hz] at hd
  obtain ⟨d', tf, T, hd', htf, hT, hmap⟩ := h.proc p hp
  cases hd.symm.trans hd'
  exact ⟨tf, T, htf, hT, hmap⟩

theorem Linked.other (h : Linked lay G s) (hd : (s.proc p).pagetable = some d)
    (hpq : q ≠ p) : (s.proc q).pagetable ≠ some d := fun hq => hpq (h.owners.unique q p d hq hd)

structure Puts (s : State) (p : Fin NPROC) (v : Proc) (t : State) : Prop where
  kernel : t.kernel = s.kernel
  pipe : ∀ x, t.ft.pipe x ≠ none ↔ s.ft.pipe x ≠ none
  proc : t.proc = update s.proc p v

theorem Puts.self (ht : Puts s p v t) : t.proc p = v := by rw [ht.proc, update_self]

theorem Puts.other (ht : Puts s p v t) (hq : q ≠ p) : t.proc q = s.proc q := by
  rw [ht.proc, update_of_ne hq]

theorem Puts.pagetable (ht : Puts s p v t) (q : Fin NPROC) :
    (t.proc q).pagetable = update (fun q => (s.proc q).pagetable) p v.pagetable q := by
  by_cases hq : q = p
  · rw [hq, ht.self, update_self]
  · rw [ht.other hq, update_of_ne hq]

section Upkeep

variable (h : Linked lay G s)

include h

theorem Linked.put {G' : Ghost} (ht : Puts s p v t)
    (hroles : Partition G'.used (RoleAt t))
    (howners : Partition (fun d => G'.table d ≠ none)
      fun q d => update (fun q => (s.proc q).pagetable) p v.pagetable q = some d)
    (hkeep : ∀ q d, q ≠ p → (s.proc q).pagetable = some d → G'.table d = G.table d)
    (hv : v = {} ∨ v.state ≠ .unused ∧ ∃ d tf T, v.pagetable = some d ∧ v.trapframe = some tf ∧
      G'.table d = some T ∧ ProcMap lay tf v.sz T) : Linked lay G' t where
  roles := hroles
  owners := howners.congr fun q d => by rw [ht.pagetable]
  unused q hq := by
    by_cases hqp : q = p
    · rw [hqp, ht.self] at hq ⊢
      exact hv.resolve_right fun hno => hno.1 hq
    · rw [ht.other hqp] at hq ⊢
      exact h.unused q hq
  proc q hq := by
    by_cases hqp : q = p
    · rw [hqp, ht.self] at hq ⊢
      rcases hv with rfl | ⟨_, hmap⟩
      · exact absurd rfl hq
      · exact hmap
    · rw [ht.other hqp] at hq ⊢
      obtain ⟨d, tf, T, hd, htf, hT, hmap⟩ := h.proc q hq
      exact ⟨d, tf, T, hd, htf, (hkeep q d hqp hd).trans hT, hmap⟩

theorem Linked.put_roles (ht : Puts s p v t)
    (htf : v.trapframe = (s.proc p).trapframe) : Partition G.used (RoleAt t) := by
  refine h.roles.congr fun r x => ?_
  cases r with
  | kernel => simp [RoleAt, ht.kernel]
  | trapframe q =>
    by_cases hq : q = p
    · simp [RoleAt, hq, ht.self, htf]
    · simp [RoleAt, ht.other hq]
  | pipe => exact ht.pipe x

theorem Linked.resize (hd : (s.proc p).pagetable = some d) (htf : (s.proc p).trapframe = some tf)
    (hmap : ProcMap lay tf v.sz S) (ht : Puts s p v t) (hstate : v.state ≠ .unused) (hvd : v.pagetable = some d)
    (hvtf : v.trapframe = some tf) : Linked lay (G.setTable d (some S)) t := by
  obtain ⟨_, T, _, hT, _⟩ := h.table hd
  refine h.put ht (h.put_roles ht (hvtf.trans htf.symm)) ?_ ?_
    (.inr ⟨hstate, d, tf, S, hvd, hvtf, setTable_self, hmap⟩)
  · rw [hvd, ← hd, Function.update_eq_self]
    refine h.owners.on fun x => ?_
    by_cases hx : x = d
    · simp [hx, hT]
    · rw [setTable_other hx]
  · exact fun q d' hq hd' => setTable_other fun he => h.other hd hq (he ▸ hd')

theorem Linked.add (hp : (s.proc p).state = .unused) (htf : ¬ G.used tf) (hd : G.table d = none)
    (hmap : ProcMap lay tf v.sz S) (ht : Puts s p v t) (hstate : v.state ≠ .unused) (hvd : v.pagetable = some d)
    (hvtf : v.trapframe = some tf) : Linked lay ((G.use tf).setTable d (some S)) t := by
  have hz := h.unused p hp
  refine h.put ht ?_ ?_ ?_ (.inr ⟨hstate, d, tf, S, hvd, hvtf, setTable_self, hmap⟩)
  · refine h.roles.add (a := .trapframe p) htf (fun y => Iff.rfl) fun r y => ?_
    cases r with
    | kernel => simp [RoleAt, ht.kernel]
    | trapframe q =>
      by_cases hq : q = p
      · simp [RoleAt, hq, ht.self, hvtf, hz, eq_comm]
      · simp [RoleAt, ht.other hq, hq]
    | pipe => simpa [RoleAt] using ht.pipe y
  · rw [hvd]
    refine h.owners.give (by rw [hz]) (not_not_intro hd) fun y => ?_
    by_cases hy : y = d
    · simp [hy]
    · simp [setTable_other hy, hy]
  · exact fun q d' _ hd' => setTable_other fun he => h.owners.within q d' hd' (he ▸ hd)

theorem Linked.remove (hd : (s.proc p).pagetable = some d) (htf : (s.proc p).trapframe = some tf)
    (ht : Puts s p {} t) : Linked lay ((G.unuse tf).setTable d none) t := by
  refine h.put ht ?_ ?_ ?_ (.inl rfl)
  · refine h.roles.remove (a := Role.trapframe p) (x := tf) htf (fun y => Iff.rfl) fun r y => ?_
    cases r with
    | kernel => simp [RoleAt, ht.kernel]
    | trapframe q =>
      by_cases hq : q = p
      · simp [RoleAt, hq, ht.self, htf, eq_comm]
      · simp [RoleAt, ht.other hq, hq]
    | pipe => simpa [RoleAt] using ht.pipe y
  · refine h.owners.drop hd fun y => ?_
    by_cases hy : y = d
    · simp [hy]
    · simp [setTable_other hy, hy]
  · exact fun q d' hq hd' => setTable_other fun he => h.other hd hq (he ▸ hd')

theorem Linked.replace (hd : (s.proc p).pagetable = some d)
    (htf : (s.proc p).trapframe = some tf) (he : G.table e = none) (hmap : ProcMap lay tf v.sz S)
    (ht : Puts s p v t) (hstate : v.state ≠ .unused) (hve : v.pagetable = some e)
    (hvtf : v.trapframe = some tf) : Linked lay ((G.setTable e (some S)).setTable d none) t := by
  have hed : e ≠ d := fun heq => h.owners.within p d hd (heq ▸ he)
  have hself : ((G.setTable e (some S)).setTable d none).table e = some S := by
    rw [setTable_other hed, setTable_self]
  refine h.put ht (h.put_roles ht (hvtf.trans htf.symm)) ?_ ?_
    (.inr ⟨hstate, e, tf, S, hve, hvtf, hself, hmap⟩)
  · -- the old table is given up, then the new one is taken
    have hdrop := (h.owners.drop (V := fun y => y ≠ d ∧ G.table y ≠ none) hd fun y => Iff.rfl).give
      (a := p) (x := e) (update_self ..) (fun hno => hno.2 he) fun y => Iff.rfl
    rw [Function.update_idem, ← hve] at hdrop
    refine hdrop.on fun y => ?_
    by_cases hyd : y = d
    · simp [hyd, Ne.symm hed]
    · by_cases hye : y = e
      · simp [hye, hself]
      · simp [setTable_other hyd, setTable_other hye, hyd, hye]
  · intro q d' hq hd'
    have hne : d' ≠ d := fun heq => h.other hd hq (heq ▸ hd')
    have hne' : d' ≠ e := fun heq => h.owners.within q d' hd' (heq ▸ he)
    rw [setTable_other hne, setTable_other hne']

theorem Linked.addPipe (hx : ¬ G.used x) (hkernel : t.kernel = s.kernel)
    (hproc : t.proc = s.proc) (hpipe : ∀ y, t.ft.pipe y ≠ none ↔ y = x ∨ s.ft.pipe y ≠ none) :
    Linked lay (G.use x) t where
  roles := by
    refine h.roles.add (a := .pipe) hx (fun y => Iff.rfl) fun r y => ?_
    cases r with
    | kernel => simp [RoleAt, hkernel]
    | trapframe q => simp [RoleAt, hproc]
    | pipe => simpa [RoleAt] using hpipe y
  owners := h.owners.congr fun q y => by rw [hproc]
  unused q hq := by
    rw [hproc] at hq ⊢
    exact h.unused q hq
  proc q hq := by
    rw [hproc] at hq ⊢
    exact h.proc q hq

theorem Linked.removePipe (hx : s.ft.pipe x ≠ none) (hkernel : t.kernel = s.kernel)
    (hproc : t.proc = s.proc) (hpipe : ∀ y, t.ft.pipe y ≠ none ↔ s.ft.pipe y ≠ none ∧ y ≠ x) :
    Linked lay (G.unuse x) t where
  roles := by
    refine h.roles.remove (a := Role.pipe) (x := x) hx (fun y => Iff.rfl) fun r y => ?_
    cases r with
    | kernel => simp [RoleAt, hkernel]
    | trapframe q => simp [RoleAt, hproc]
    | pipe => simpa [RoleAt] using hpipe y
  owners := h.owners.congr fun q y => by rw [hproc]
  unused q hq := by
    rw [hproc] at hq ⊢
    exact h.unused q hq
  proc q hq := by
    rw [hproc] at hq ⊢
    exact h.proc q hq

end Upkeep

end TweakedXv6.Vm

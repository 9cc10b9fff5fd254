import TweakedXv6.VmFiles

namespace TweakedXv6.Vm

open Prog Files

variable {lay : Layout} {G : Ghost} {s t : State} {m : Mem} {T S : Table} {p np : Fin NPROC}
  {d e tf sz x g : Nat} {v : Proc} {n : Fin NFILE → Nat} {guard : Nat → Prop}

@[simp]
theorem setProc_self : (s.setProc p v).proc p = v := Function.update_self ..

theorem setProc_other (h : np ≠ p) : (s.setProc p v).proc np = s.proc np := Function.update_of_ne h ..

theorem freeproc_spec (h : Good lay G s.mem) (hd : (s.proc p).pagetable = some d)
    (htf : (s.proc p).trapframe = some tf) (hused : G.used tf) (hT : G.table d = some T)
    (hK : KernelMap lay x T) (hsz : (s.proc p).sz = sz) (hU : UserMap T (pages sz) guard) :
    Returns (freeproc lay p) s fun _ t => Good lay ((G.unuse tf).setTable d none) t.mem ∧
      t = { s with mem := t.mem }.setProc p {} := by
  rw [Returns, freeproc, post_read_bind, hd, htf, hsz]
  refine bind_onMem (kfree_spec h hused) fun _ u hu => ?_
  refine bind_onMem (procFreepagetable_spec (G := G.unuse tf) hu hT hK hU) fun _ w hw => ?_
  exact ⟨hw, rfl⟩

theorem freeproc_empty (h : Good lay G s.mem) (hd : (s.proc p).pagetable = none)
    (htf : (s.proc p).trapframe = none) : Returns (freeproc lay p) s fun _ t =>
      Good lay G t.mem ∧ t = { s with mem := t.mem }.setProc p {} := by
  rw [Returns, freeproc, post_read_bind, hd, htf]
  exact ⟨h, rfl⟩

theorem freeproc_trapframe (h : Good lay (G.use tf) s.mem) (hnew : ¬ G.used tf)
    (hd : (s.proc p).pagetable = none) (htf : (s.proc p).trapframe = some tf) :
    Returns (freeproc lay p) s fun _ t => Good lay G t.mem ∧ t = { s with mem := t.mem }.setProc p {} := by
  rw [Returns, freeproc, post_read_bind, hd, htf]
  refine bind_onMem (kfree_spec h (.inl rfl)) fun _ u hu => ?_
  rw [unuse_use hnew] at hu
  exact ⟨hu, rfl⟩

def freshProc (tf d : Nat) : Proc := { state := .used, pagetable := some d, trapframe := some tf }

theorem allocproc_spec (h : Good lay G s.mem) (hL : Linked lay G s) :
    Returns (allocproc lay) s fun r t =>
      r = none ∧ Good lay G t.mem ∧ t = { s with mem := t.mem } ∨
      ∃ np tf d S, r = some np ∧ (s.proc np).state = .unused ∧ ¬ G.used tf ∧ G.table d = none ∧
        Good lay ((G.use tf).setTable d (some S)) t.mem ∧ KernelMap lay tf S ∧
        UserMap S 0 (fun _ => False) ∧ t = { s with mem := t.mem }.setProc np (freshProc tf d) := by
  rw [Returns, allocproc, post_read_bind]
  cases hfind : (List.finRange NPROC).find? fun p => (s.proc p).state = .unused with
  | none => exact .inl ⟨rfl, h, rfl⟩
  | some np =>
    have hunused : (s.proc np).state = .unused := by simpa using List.find?_some hfind
    have hz := hL.unused np hunused
    -- an unused slot is all zero, so freeing it again restores it
    have hkeep : Function.update s.proc np {} = s.proc := by rw [← hz, Function.update_eq_self]
    dsimp only
    rw [post_change_bind]
    refine bind_onMem (kalloc_spec h) ?_
    rintro r u (⟨rfl, hu⟩ | ⟨tf, rfl, hu, htf, _⟩)
    · refine Post.bind (freeproc_empty hu (by simp [hz]) (by simp [hz])) ?_
      rintro _ t ⟨ht, heq⟩
      refine .inl ⟨rfl, ht, heq.trans ?_⟩
      simp [State.setProc, hkeep]
    dsimp only
    rw [post_change_bind]
    refine bind_onMem (procPagetable_spec hu) ?_
    rintro r w (⟨rfl, hw⟩ | ⟨d, S, rfl, hd, hw, hK, hU⟩)
    · refine Post.bind (freeproc_trapframe hw htf (by simp [State.setProc, hz]) (by simp [State.setProc])) ?_
      rintro _ t ⟨ht, heq⟩
      refine .inl ⟨rfl, ht, heq.trans ?_⟩
      simp [State.setProc, hkeep]
    · refine .inr ⟨np, tf, d, S, rfl, hunused, htf, hd, hw, hK, hU, ?_⟩
      simp [State.setProc, freshProc, hz]

def FdsClosed (s : State) : Prop := ∀ p fd, (s.proc p).state.live = false → s.ofile (p, fd) = none

theorem UserMap.weaken {guard' : Nat → Prop} {k : Nat} (h : UserMap T k guard)
    (hg : ∀ i, guard i → guard' i) : UserMap T k guard' where
  mapped i hi := by
    obtain ⟨e, he, hu⟩ := h.mapped i hi
    exact ⟨e, he, hu.imp_right (hg i)⟩
  rest := h.rest

theorem live_ne_unused {st : ProcState} (h : st.live = true) : st ≠ .unused := by
  rintro rfl
  cases h

theorem Sys.pagetable (h : Sys lay n s) (hlive : (s.proc p).state.live = true) :
    ∃ d, (s.proc p).pagetable = some d := by
  obtain ⟨G, _, hL, _⟩ := h
  obtain ⟨d, _, _, hd, _⟩ := hL.proc p (live_ne_unused hlive)
  exact ⟨d, hd⟩

structure Done (lay : Layout) (s t : State) : Prop where
  sys : Sys lay (holders t.ofile) t
  closed : FdsClosed t
  initproc : t.initproc = s.initproc

section Calls

variable (h : Sys lay (holders s.ofile) s) (hc : FdsClosed s) (hlive : (s.proc p).state.live = true)

include h hc hlive in
theorem fork_spec : Returns (fork lay p) s fun _ t => Done lay s t := by
  obtain ⟨G, hG, hL, hok⟩ := h
  obtain ⟨d0, tf0, T0, hd0, htf0, hT0, hmap0⟩ := hL.proc p (live_ne_unused hlive)
  obtain ⟨g, hU0⟩ := hmap0.user
  refine Post.bind (allocproc_spec hG hL) ?_
  rintro r t (⟨rfl, ht, heq⟩ | ⟨np, tf, d, S, rfl, hnp, htf, hd, ht, hK, hU, heq⟩)
  · rw [heq]
    exact ⟨⟨G, ht, hL.same ⟨rfl, rfl, rfl⟩ fun _ => Iff.rfl, hok⟩, hc, rfl⟩
  generalize t.mem = m at ht heq
  subst heq
  have hpnp : p ≠ np := by
    rintro rfl
    exact live_ne_unused hlive hnp
  have hdd : d0 ≠ d := fun he => by simp [← he, hT0] at hd
  have hp : ({ s with mem := m }.setProc np (freshProc tf d)).proc p = s.proc p := setProc_other hpnp
  dsimp only
  rw [post_read_bind, post_read_bind, hp, setProc_self, hd0]
  have hT0' : ((G.use tf).setTable d (some S)).table d0 = some T0 := by rw [setTable_other hdd]; exact hT0
  refine bind_onMem (uvmcopy_spec ht hT0' hU0 setTable_self (hU.weaken fun _ hf => hf.elim) hdd) ?_
  rintro ok u (⟨rfl, R, hR, hRU, hRK⟩ | ⟨rfl, R, hR, hRU, hRK⟩)
  · rw [setTable_setTable] at hR
    rw [if_neg (by simp)]
    have hfree : Returns (freeproc lay np) ({ ({ s with mem := m } : State).setProc np (freshProc tf d) with
        mem := u }) fun _ w => Good lay G w.mem ∧ w = { s with mem := w.mem } := by
      have hused : ((G.use tf).setTable d (some R)).used tf := .inl rfl
      have hsize : UserMap R (pages 0) (· = g) := hRU
      refine (freeproc_spec (d := d) hR (by simp [State.setProc, freshProc])
        (by simp [State.setProc, freshProc]) hused setTable_self (hRK.kernelMap hK)
        (by simp [State.setProc, freshProc]) hsize).mono ?_
      rintro _ w ⟨hw, heq⟩
      have hG' : (((G.use tf).setTable d (some R)).unuse tf).setTable d none = G := by
        change (((G.use tf).unuse tf).setTable d (some R)).setTable d none = G
        rw [unuse_use htf, setTable_setTable, setTable_none hd]
      refine ⟨hG' ▸ hw, heq.trans ?_⟩
      simp [State.setProc, ← hL.unused np hnp]
    refine Post.bind hfree ?_
    rintro _ w ⟨hw, heq⟩
    rw [heq]
    exact ⟨⟨G, hw, hL.same ⟨rfl, rfl, rfl⟩ fun _ => Iff.rfl, hok⟩, hc, rfl⟩
  · rw [setTable_setTable] at hR
    rw [if_pos rfl, post_change_bind]
    have hnone : ∀ fd, s.ofile (np, fd) = none := fun fd => hc np fd (by rw [hnp]; rfl)
    -- the child is complete up to its state and its parent
    have hadd : Linked lay ((G.use tf).setTable d (some R))
        ({ ({ s with mem := m } : State).setProc np (freshProc tf d) with mem := u }.setProc np
          { freshProc tf d with sz := (s.proc p).sz }) := by
      refine hL.add (p := np) (v := { freshProc tf d with sz := (s.proc p).sz }) hnp htf hd
        ⟨hRK.kernelMap hK, g, hRU⟩ ⟨rfl, fun _ => Iff.rfl, ?_⟩ (by simp [freshProc]) rfl rfl
      simp [State.setProc]
    have hself : { ({ s with mem := m } : State).setProc np (freshProc tf d) with mem := u }.proc np =
        freshProc tf d := setProc_self
    rw [hself]
    refine Post.bind (dupFds_spec (rules lay) ⟨_, hR, hadd, hok⟩ hnone) ?_
    rintro _ w ⟨⟨G', hG', hL', hok'⟩, hsame, hothers⟩
    have hnew : w.proc np = { freshProc tf d with sz := (s.proc p).sz } := by
      rw [hsame.proc, setProc_self]
    rw [post_change_bind]
    refine ⟨⟨G', hG', hL'.congr rfl (fun _ => Iff.rfl) fun q => ?_, hok'⟩, fun q fd hq => ?_, hsame.initproc⟩
    · by_cases hqn : q = np
      · subst hqn
        refine .inr ⟨by simp [hnew, freshProc], by simp [State.setProc], ?_, ?_, ?_⟩ <;>
          simp [State.setProc]
      · exact .inl (setProc_other hqn)
    · by_cases hqn : q = np
      · subst hqn
        simp [State.setProc, ProcState.live] at hq
      · refine (hothers q fd hqn).trans (hc q fd ?_)
        rw [setProc_other hqn, hsame.proc, setProc_other hqn] at hq
        simpa [State.setProc, hqn] using hq

theorem Sys.resize (hL : Linked lay G s) (hok : Ok n s.ft)
    (hd : (s.proc p).pagetable = some d) (htf : (s.proc p).trapframe = some tf) (hK : KernelMap lay tf T)
    (hS : Sized lay G d T (· = g) (pages sz) m) (hst : (s.proc p).state ≠ .unused) :
    Sys lay n ({ s with mem := m }.setProc p { s.proc p with sz := sz }) := by
  obtain ⟨S, hS, hU, hSK⟩ := hS
  refine ⟨G.setTable d (some S), hS, ?_, hok⟩
  exact hL.resize (v := { s.proc p with sz := sz }) hd htf ⟨hSK.kernelMap hK, g, hU⟩
    ⟨rfl, fun _ => Iff.rfl, rfl⟩ hst hd htf

theorem setProc_eq : s.setProc p (s.proc p) = s := by
  simp [State.setProc]

include h hc hlive in
theorem growproc_spec {i : Int} : Returns (growproc lay p i) s fun _ t => Done lay s t := by
  obtain ⟨G, hG, hL, hok⟩ := h
  have hst := live_ne_unused hlive
  obtain ⟨d, tf, T, hd, htf, hT, hmap⟩ := hL.proc p hst
  obtain ⟨g, hU⟩ := hmap.user
  -- sizes are those of mapped memory, so they fit an `uint`
  have hsmall : ∀ {m : Mem} {sz : Nat}, Sized lay G d T (· = g) (pages sz) m → sz % 4294967296 = sz := by
    rintro m sz ⟨S, hS, hSU, _⟩
    have hle := hS.pages_le setTable_self hSU
    unfold pages at hle
    omega
  have hdone : ∀ {m : Mem} {sz : Nat}, Sized lay G d T (· = g) (pages sz) m →
      Done lay s ({ s with mem := m }.setProc p { s.proc p with sz := sz }) := by
    intro m sz hS
    refine ⟨Sys.resize hL hok hd htf hmap.kernel hS hst, fun q fd hq => hc q fd ?_, rfl⟩
    by_cases hqp : q = p
    · subst hqp
      simpa using hq
    · simpa [State.setProc, hqp] using hq
  have hself : Sized lay G d T (· = g) (pages (s.proc p).sz) s.mem :=
    ⟨T, (setTable_eq hT).symm ▸ hG, hU, fun _ _ => rfl⟩
  rw [Returns, growproc, post_read_bind, hd]
  dsimp only
  rw [hsmall hself]
  split
  next hpos =>
    refine bind_onMem (uvmalloc_spec hG hT hU) ?_
    rintro r u (⟨rfl, hu⟩ | ⟨hr, hu⟩)
    · have hsame := hdone hu
      rw [show ({ s with mem := u } : State).setProc p { s.proc p with sz := (s.proc p).sz } =
        { s with mem := u } from setProc_eq] at hsame
      exact hsame
    · rw [hsmall hu]
      split
      next hzero =>
        have hsame := hdone hu
        have hsz : (s.proc p).sz = r := by omega
        rw [← hsz, show ({ s with mem := u } : State).setProc p { s.proc p with sz := (s.proc p).sz } =
          { s with mem := u } from setProc_eq] at hsame
        exact hsame
      next => exact hdone hu
  next hpos =>
    split
    next hneg =>
      refine bind_onMem (uvmdealloc_spec hG hT hU) ?_
      rintro r u ⟨_, hu⟩
      rw [hsmall hu]
      exact hdone hu
    next => exact hdone hself

theorem sameUse_zombie (hL : Linked lay G s) (hp : (s.proc p).state ≠ .unused) (q : Fin NPROC) :
    SameUse (s.proc q) ((s.zombie p).proc q) := by
  by_cases hq : (s.proc q).state = .unused
  · have hne : q ≠ p := by
      rintro rfl
      exact hp hq
    refine .inl ?_
    simp [State.zombie, hne, hL.unused q hq]
  · refine .inr ⟨hq, ?_, ?_, ?_, ?_⟩ <;> simp only [State.zombie] <;> split <;> (try split) <;> simp_all

include h hc hlive in
theorem exit_spec : Post (· = "init exiting") (exit lay p) s fun _ t => Done lay s t := by
  rw [exit, post_read_bind]
  split
  next => exact rfl
  next =>
    refine Post.bind ((closeFds_spec (rules lay) h).mono_panic fun _ hf => hf.elim) ?_
    rintro _ t ⟨⟨⟨G, hG, hL, hok⟩, hsame, hothers⟩, hnone⟩
    have hst : (t.proc p).state ≠ .unused := by
      rw [hsame.proc]
      exact live_ne_unused hlive
    refine ⟨⟨G, hG, hL.congr rfl (fun _ => Iff.rfl) (sameUse_zombie hL hst), hok⟩, fun q fd hq => ?_,
      hsame.initproc⟩
    by_cases hqp : q = p
    · exact hqp ▸ hnone fd
    · refine (hothers q fd hqp).trans (hc q fd ?_)
      rw [← hsame.proc]
      simp only [State.zombie, hqp, if_false] at hq
      split at hq <;> exact hq

include h hc hlive in
theorem wait_spec {addr : Nat} {xstate : Nat → Pte} : Returns (wait lay p addr xstate) s fun _ t => Done lay s t := by
  rw [Returns, wait, post_read_bind]
  cases hfind : (List.finRange NPROC).find? fun np =>
      (s.proc np).parent = some p ∧ (s.proc np).state = .zombie with
  | none => exact ⟨h, hc, rfl⟩
  | some np =>
    have hnp : (s.proc np).state = .zombie := by
      have := List.find?_some hfind
      simp only [decide_eq_true_eq] at this
      exact this.2
    -- the child is freed whatever was copied out before
    have hfree : ∀ m, Sys lay (holders s.ofile) { s with mem := m } →
        Returns (freeproc lay np >>= fun _ => ret (some np)) { s with mem := m } fun _ t => Done lay s t := by
      rintro m ⟨G, hG, hL, hok⟩
      obtain ⟨d, tf, T, hd, htf, hT, hmap⟩ := hL.proc np (by rw [hnp]; simp)
      obtain ⟨g, hU⟩ := hmap.user
      refine Post.bind (freeproc_spec hG hd htf (hL.roles.within (.trapframe np) tf htf) hT hmap.kernel rfl hU) ?_
      rintro _ t ⟨ht, heq⟩
      generalize t.mem = m' at ht heq
      subst heq
      refine ⟨⟨_, ht, hL.remove hd htf ⟨rfl, fun _ => Iff.rfl, rfl⟩, hok⟩, fun q fd hq => ?_, rfl⟩
      refine hc q fd ?_
      by_cases hqn : q = np
      · rw [hqn, hnp]
        rfl
      · simpa [State.setProc, hqn] using hq
    dsimp only
    split
    next => exact hfree s.mem h
    next =>
      obtain ⟨d, hd⟩ := h.pagetable hlive
      refine Post.bind (copyoutTo_spec h hd) ?_
      rintro ok _ ⟨m, rfl, hm⟩
      cases ok with
      | true => exact hfree m hm
      | false => exact ⟨hm, hc, rfl⟩

end Calls

end TweakedXv6.Vm

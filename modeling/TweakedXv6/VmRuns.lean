import TweakedXv6.Machine
import TweakedXv6.VmBoot

namespace TweakedXv6.Vm

open Prog Files

def machine (lay : Layout) : Machine State Act := ⟨Boot lay, step lay⟩

structure Inv (lay : Layout) (s : State) : Prop where
  sys : Sys lay (holders s.ofile) s
  closed : FdsClosed s
  boot : s.initproc = none → Boot lay s

variable {lay : Layout} {s t : State} {a : Act} {p : Fin NPROC}

theorem Boot.inv (h : Boot lay s) : Inv lay s := ⟨⟨_, h.good, h.linked, h.ok⟩, fun p fd _ => h.ofile (p, fd), fun _ => h⟩

theorem Inv.initproc (h : Inv lay s) (hlive : (s.proc p).state.live = true) : s.initproc ≠ none := by
  intro hnone
  rw [(h.boot hnone).proc p] at hlive
  cases hlive

theorem Done.inv (h : Done lay s t) (hi : s.initproc ≠ none) : Inv lay t :=
  ⟨h.sys, h.closed, fun hnone => absurd (h.initproc ▸ hnone) hi⟩

theorem fds_done (h : Fds lay p s t) (hc : FdsClosed s) (hlive : (s.proc p).state.live = true) : Done lay s t := by
  refine ⟨h.inv, fun q fd hq => ?_, h.same.initproc⟩
  rw [h.same.proc] at hq
  by_cases hqp : q = p
  · subst hqp
    cases hlive.symm.trans hq
  · exact (h.others q fd hqp).trans (hc q fd hq)

theorem call_spec (h : Inv lay s) (he : a.enabled s = true) :
    Post (· = "init exiting") (call lay a) s fun _ t => Inv lay t := by
  -- the result of a call does not matter here
  have hdrop : ∀ {α : Type} {c : Kernel α} {p : Fin NPROC}, (s.proc p).state.live = true →
      Returns c s (fun _ t => Done lay s t) →
      Post (· = "init exiting") (c >>= fun _ => ret ()) s fun _ t => Inv lay t := by
    intro α c p hlive hc
    refine Post.bind (hc.mono_panic fun _ hf => hf.elim) fun _ t ht => ?_
    exact ht.inv (h.initproc hlive)
  cases a with
  | userinit initcode =>
    have hboot := h.boot (Option.isNone_iff_eq_none.mp he)
    refine ((userinit_spec hboot).mono_panic fun _ hf => hf.elim).mono ?_
    rintro _ t ⟨hsys, hclosed, hinit⟩
    exact ⟨hsys, hclosed, fun hnone => absurd hnone hinit⟩
  | fork p => exact hdrop he (fork_spec h.sys h.closed he)
  | exec p arg img => exact hdrop he (sysExec_spec h.sys h.closed he)
  | exit p => exact (exit_spec h.sys h.closed he).mono fun _ t ht => ht.inv (h.initproc he)
  | wait p addr xstate => exact hdrop he (wait_spec h.sys h.closed he)
  | sbrk p i => exact hdrop he (growproc_spec h.sys h.closed he)
  | pipe p fdarray fds =>
    obtain ⟨d, hd⟩ := h.sys.pagetable he
    exact hdrop he ((sysPipe_spec h.sys hd).mono fun _ t ht => fds_done ht h.closed he)
  | dup p fd => exact hdrop he ((sysDup_spec (rules lay) h.sys).mono fun _ t ht => fds_done ht h.closed he)
  | close p fd => exact hdrop he ((sysClose_spec (rules lay) h.sys).mono fun _ t ht => fds_done ht h.closed he)
  | openInode p ip => exact hdrop he ((openInode_spec h.sys).mono fun _ t ht => fds_done ht h.closed he)

theorem inv_step (h : Inv lay s) (hs : step lay s a = some t) : Inv lay t := by
  unfold step at hs
  split at hs
  next he =>
    cases hc : call lay a s with
    | ok r =>
      rw [hc] at hs
      cases hs
      exact (call_spec h he).of_eq hc
    | error e =>
      rw [hc] at hs
      cases hs
  next => cases hs

theorem inv_reachable (h : (machine lay).Reachable s) : Inv lay s :=
  h.invariant (fun _ hs => Boot.inv hs) fun _ _ _ _ hi _ hs => inv_step hi hs

theorem Inv.panic {msg : String} (h : Inv lay s) (he : a.enabled s = true)
    (hc : call lay a s = .error msg) : msg = "init exiting" := by
  have hspec := call_spec h he
  unfold Post at hspec
  rwa [hc] at hspec

end TweakedXv6.Vm

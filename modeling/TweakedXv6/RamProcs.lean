import TweakedXv6.RamAccess
import TweakedXv6.RamSystem

namespace TweakedXv6.Phys

open Prog Files
open Vm (Layout Ghost Table UserMap KernelMap Linked pages freshProc)

variable {lay : Layout} {G : Ghost} {s t : State} {r : Ram} {T S : Table} {p np : Fin NPROC}
  {d e tf sz x : Nat} {α β : Type} {E : String → Prop} {guard : Nat → Prop}

theorem bind_onRam {c : Kmem α} {k : α → Kernel β} {P : α → Ram → Prop} {R : β → State → Prop}
    (h : Post E c s.ram P) (hk : ∀ a u, P a u → Post E (k a) { s with ram := u } R) : Post E (onRam c >>= k) s R :=
  post_bind.mpr (Post.lift h hk)

theorem used_small (h : Sound lay G r) (hx : G.used x) : x < 4503599627370496 := by
  obtain ⟨_, hlt⟩ := h.part.within .used x hx
  unfold Vm.phystopPage at hlt
  omega

theorem freeproc_spec (h : Sound lay G s.ram) (hd : (s.proc p).pagetable = some d) (htf : (s.proc p).trapframe = some tf)
    (hused : G.used tf) (hT : G.table d = some T) (hK : KernelMap lay x T) (hsz : (s.proc p).sz = sz)
    (hU : UserMap T (pages sz) guard) :
    Returns (freeproc lay p) s fun _ t => Sound lay ((G.unuse tf).setTable d none) t.ram ∧
      Kept (fun y => y ≠ tf ∧ Other lay (G.unuse tf) d y) s.ram t.ram ∧
      t = ({ s with ram := t.ram }.setProc p {}).setName p [] := by
  rw [Returns, freeproc, post_read_bind, hd, htf, hsz]
  refine bind_onRam (kfree_spec h hused) ?_
  rintro _ u ⟨hu, hku⟩
  refine bind_onRam (procFreepagetable_spec (G := G.unuse tf) hu hT hK hU) ?_
  rintro _ w ⟨hw, hkw⟩
  exact ⟨hw, (hku.mono fun y hy => hy.1).trans (hkw.mono fun y hy => hy.2), rfl⟩

theorem freeproc_empty (hd : (s.proc p).pagetable = none) (htf : (s.proc p).trapframe = none) :
    Returns (freeproc lay p) s fun _ t => t = (s.setProc p {}).setName p [] := by
  rw [Returns, freeproc, post_read_bind, hd, htf]
  exact rfl

theorem freeproc_trapframe (h : Sound lay (G.use tf) s.ram) (hnew : ¬ G.used tf) (hd : (s.proc p).pagetable = none)
    (htf : (s.proc p).trapframe = some tf) : Returns (freeproc lay p) s fun _ t => Sound lay G t.ram ∧
      Kept (· ≠ tf) s.ram t.ram ∧ t = ({ s with ram := t.ram }.setProc p {}).setName p [] := by
  rw [Returns, freeproc, post_read_bind, hd, htf]
  refine bind_onRam (kfree_spec h (.inl rfl)) ?_
  rintro _ u ⟨hu, hku⟩
  rw [Vm.unuse_use hnew] at hu
  exact ⟨hu, hku, rfl⟩

theorem Busy.use (hb : Busy lay G x) : Busy lay (G.use e) x := by
  rcases hb with hm | hu | ht
  · exact .inl hm
  · exact .inr (.inl (.inr hu))
  · exact .inr (.inr ht)

theorem allocproc_spec (h : Sound lay G s.ram) (hL : Linked lay G s.view) :
    Returns (allocproc lay) s fun o t => Kept (Busy lay G) s.ram t.ram ∧
      (o = none ∧ Sound lay G t.ram ∧ t = { s with ram := t.ram, name := t.name } ∨
      ∃ np tf d S, o = some np ∧ (s.proc np).state = .unused ∧ ¬ G.used tf ∧ G.table d = none ∧
        Sound lay ((G.use tf).setTable d (some S)) t.ram ∧ KernelMap lay tf S ∧
        UserMap S 0 (fun _ => False) ∧ t = { s with ram := t.ram }.setProc np (freshProc tf d)) := by
  rw [Returns, allocproc, post_read_bind]
  cases hfind : (List.finRange NPROC).find? fun p => (s.proc p).state = .unused with
  | none => exact ⟨Kept.refl, .inl ⟨rfl, h, rfl⟩⟩
  | some np =>
    have hunused : (s.proc np).state = .unused := by simpa using List.find?_some hfind
    have hz : s.proc np = {} := hL.unused np hunused
    -- an unused slot is all zero, so freeing it again restores it
    have hkeep : Function.update s.proc np {} = s.proc := by rw [← hz, Function.update_eq_self]
    dsimp only
    rw [post_change_bind]
    refine bind_onRam (kalloc_spec h) ?_
    rintro o u (⟨rfl, hu, hbyte⟩ | ⟨tf, rfl, hu, htf, _, hfree, hku⟩)
    · refine Post.bind (freeproc_empty (by simp [State.setProc, hz]) (by simp [State.setProc, hz])) ?_
      rintro _ t rfl
      refine ⟨fun a _ => by simp [State.setProc, State.setName, hbyte], .inl ⟨rfl, hu, ?_⟩⟩
      simp [State.setProc, State.setName, hkeep]
    have hku' : Kept (Busy lay G) s.ram u := hku.mono fun y hy hyt => hy.not_free h (hyt ▸ hfree)
    dsimp only
    rw [post_change_bind]
    refine bind_onRam (procPagetable_spec (used_small hu (.inl rfl)) hu) ?_
    rintro o w ⟨hkw, ⟨rfl, hw⟩ | ⟨d, S, rfl, hd, hw, hK, hU⟩⟩
    · refine Post.bind (freeproc_trapframe hw htf (by simp [State.setProc, hz]) (by simp [State.setProc])) ?_
      rintro _ t ⟨ht, hkt, heq⟩
      generalize t.ram = m at ht hkt heq
      subst heq
      have hkm : Kept (Busy lay G) w m := hkt.mono fun y hy hyt => hy.not_free h (hyt ▸ hfree)
      refine ⟨(hku'.trans (hkw.mono fun y hy => hy.use)).trans hkm, .inl ⟨rfl, ht, ?_⟩⟩
      simp [State.setProc, State.setName, hkeep]
    · refine ⟨hku'.trans (hkw.mono fun y hy => hy.use), ?_⟩
      refine .inr ⟨np, tf, d, S, rfl, hunused, htf, hd, hw, hK, hU, ?_⟩
      simp [State.setProc, freshProc, hz]

end TweakedXv6.Phys

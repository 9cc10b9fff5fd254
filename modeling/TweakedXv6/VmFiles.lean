import TweakedXv6.VmLinks

namespace TweakedXv6.Vm

open Prog Files

def Sys (lay : Layout) (n : Fin NFILE → Nat) (s : State) : Prop :=
  ∃ G, Good lay G s.mem ∧ Linked lay G s ∧ Ok n s.ft

structure SameProcs (s t : State) : Prop where
  proc : t.proc = s.proc
  initproc : t.initproc = s.initproc
  kernel : t.kernel = s.kernel

variable {lay : Layout} {G : Ghost} {s t : State} {m : Mem} {T : Table} {p : Fin NPROC} {d tf x : Nat}
  {n n' : Fin NFILE → Nat} {f : Fin NFILE} {α β : Type} {E : String → Prop} {c : VM α} {P : α → Mem → Prop}

theorem post_onMem {Q : α → State → Prop} (h : Post E c s.mem P)
    (hpq : ∀ a u, P a u → Q a { s with mem := u }) : Post E (onMem c) s Q := Post.lift h hpq

theorem bind_onMem {k : α → Kernel β} {R : β → State → Prop}
    (h : Post E c s.mem P) (hk : ∀ a u, P a u → Post E (k a) { s with mem := u } R) :
    Post E (onMem c >>= k) s R :=
  post_bind.mpr (Post.lift h hk)

theorem SameProcs.refl (s : State) : SameProcs s s := ⟨rfl, rfl, rfl⟩

theorem SameProcs.trans {u : State} (h : SameProcs s t) (h' : SameProcs t u) : SameProcs s u :=
  ⟨h'.proc.trans h.proc, h'.initproc.trans h.initproc, h'.kernel.trans h.kernel⟩

theorem Linked.same (h : Linked lay G s) (hs : SameProcs s t)
    (hpipe : ∀ x, t.ft.pipe x ≠ none ↔ s.ft.pipe x ≠ none) : Linked lay G t :=
  h.congr hs.kernel hpipe fun p => .inl (by rw [hs.proc])

theorem copyoutTo_spec {src : Nat → Pte} {a len : Nat} (h : Sys lay n s)
    (hd : (s.proc p).pagetable = some d) :
    Returns (copyoutTo p src a len) s fun _ t => ∃ m, t = { s with mem := m } ∧ Sys lay n t := by
  obtain ⟨G, hG, hL, hok⟩ := h
  obtain ⟨tf, T, _, hT, hmap⟩ := hL.table hd
  rw [Returns, copyoutTo, post_read_bind, hd]
  refine post_onMem (copyout_spec hG hT hmap.kernel) fun _ u hu => ⟨u, rfl, G, hu, ?_, hok⟩
  exact hL.same ⟨rfl, rfl, rfl⟩ fun _ => Iff.rfl

theorem release_spec {u : Ftable} {r : Release} (h : Sys lay n s) (hok' : Ok n' u)
    (hclosed : Closed n s.ft u f r) :
    Returns ((host lay).release r) { s with ft := u } fun _ t =>
      Sys lay n' t ∧ SameProcs s t ∧ t.ofile = s.ofile := by
  obtain ⟨G, hG, hL, _⟩ := h
  have hkeep : (∀ pi, r ≠ .page pi) → Sys lay n' { s with ft := u } := by
    intro hr
    refine ⟨G, hG, hL.same ⟨rfl, rfl, rfl⟩ fun x => ?_, hok'⟩
    rw [hclosed.pipe x]
    exact and_iff_left (hr x)
  cases r with
  | nothing => exact ⟨hkeep (by simp), ⟨rfl, rfl, rfl⟩, rfl⟩
  | inode i => exact ⟨hkeep (by simp), ⟨rfl, rfl, rfl⟩, rfl⟩
  | page pi =>
    have hpipe := hclosed.page pi rfl
    refine post_onMem (s := { s with ft := u })
      (kfree_spec hG (hL.roles.within .pipe pi hpipe)) fun _ w hw => ?_
    refine ⟨⟨G.unuse pi, hw, hL.removePipe hpipe rfl rfl fun y => ?_, hok'⟩, ⟨rfl, rfl, rfl⟩, rfl⟩
    rw [hclosed.pipe y]
    simp [eq_comm]

theorem rules (lay : Layout) : (host lay).Rules (fun _ => False) (Sys lay) SameProcs where
  ft_setFt _ _ := rfl
  setFt_ft _ := rfl
  ofile_setFt _ _ := rfl
  ft_setOfile _ _ := rfl
  ofile_setOfile _ _ := rfl
  refl := SameProcs.refl
  trans _ _ _ := SameProcs.trans
  same_setFt _ _ := ⟨rfl, rfl, rfl⟩
  same_setOfile _ _ := ⟨rfl, rfl, rfl⟩
  ok n s h := by
    obtain ⟨_, _, _, hok⟩ := h
    exact hok
  files n n' s u h hok' hpipe _ := by
    obtain ⟨G, hG, hL, _⟩ := h
    exact ⟨G, hG, hL.same ⟨rfl, rfl, rfl⟩ hpipe, hok'⟩
  ofile n s o h := by
    obtain ⟨G, hG, hL, hok⟩ := h
    exact ⟨G, hG, hL.same ⟨rfl, rfl, rfl⟩ fun _ => Iff.rfl, hok⟩
  release n n' s u f r h _ hok' hclosed := release_spec h hok' hclosed
  kalloc n s h := by
    obtain ⟨G, hG, hL, hok⟩ := h
    refine post_onMem (kalloc_spec hG) ?_
    rintro r m (⟨rfl, hm⟩ | ⟨pi, rfl, hm, hpi, _⟩)
    · refine ⟨⟨rfl, rfl, rfl⟩, rfl, rfl, .inl ⟨rfl, G, hm, ?_, hok⟩⟩
      exact hL.same ⟨rfl, rfl, rfl⟩ fun _ => Iff.rfl
    · refine ⟨⟨rfl, rfl, rfl⟩, rfl, rfl, .inr ⟨pi, rfl, ?_, fun u hu _ hpipe => ?_⟩⟩
      · by_contra hno
        exact hpi (hL.roles.within .pipe pi hno)
      · exact ⟨G.use pi, hm, hL.addPipe hpi rfl rfl hpipe, hu⟩

abbrev Fds (lay : Layout) : Fin NPROC → State → State → Prop := Files.Fds (host lay) (Sys lay) SameProcs

theorem sysPipe_spec {fdarray : Nat} {fds : Nat → Pte} (h : Sys lay (holders s.ofile) s)
    (hd : (s.proc p).pagetable = some d) : Returns (sysPipe lay p fdarray fds) s fun _ t => Fds lay p s t := by
  have hcopy : ∀ a n u, Sys lay n u → SameProcs s u → Returns (copyoutTo p fds a 4) u fun _ t =>
      Sys lay n t ∧ SameProcs u t ∧ t.ofile = u.ofile := by
    intro a n u hu hsame
    refine (copyoutTo_spec hu (by rw [hsame.proc, hd])).mono ?_
    rintro _ _ ⟨m, rfl, hm⟩
    exact ⟨hm, ⟨rfl, rfl, rfl⟩, rfl⟩
  refine Files.sysPipe_spec (rules lay) h ?_
  rintro c (rfl | rfl)
  · exact hcopy _
  · exact hcopy _

theorem openInode_spec {ip : Fin NINODE} (h : Sys lay (holders s.ofile) s) :
    Returns (openInode lay p ip) s fun _ t => Fds lay p s t := by
  refine Post.bind (openFd_spec (rules lay) h) ?_
  rintro r t ⟨ht, hr⟩
  cases r with
  | none => exact ht
  | some f =>
    obtain ⟨htype, hf⟩ := hr f rfl
    obtain ⟨G, hG, hL, hok⟩ := ht.inv
    refine ⟨⟨G, hG, hL.same ⟨rfl, rfl, rfl⟩ fun _ => Iff.rfl, ?_⟩, ?_, ht.others⟩
    · exact hok.setNode hf htype rfl (by simp)
    · exact ⟨ht.same.proc, ht.same.initproc, ht.same.kernel⟩

end TweakedXv6.Vm

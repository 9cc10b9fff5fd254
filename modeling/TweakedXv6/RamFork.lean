import TweakedXv6.RamSbrk

namespace TweakedXv6.Phys

open Prog Files
open Function (update update_idem update_self update_of_ne update_eq_self)
open Vm (PGSIZE Layout Pte Ghost Table UserMap KernelMap Linked pages freshProc leafAt tfVpn trampVpn
  smallLayout init)

variable {lay : Layout} {G : Ghost} {s t : State} {r r' : Ram} {T S R : Table} {p np : Fin NPROC} {d d' e tf tf' sz x g i : Nat}
  {v : Vm.Proc} {guard : Nat → Prop}

def FilesSeen (r : Ram) (k : Fin NPROC → Nat) (s : State) (w : Vm.State) : Prop := s.view = w ∧ s.ram = r ∧ s.kstack = k

theorem dupFds_refines {k : Fin NPROC → Nat} : Refines (FilesSeen r k) (each (List.finRange NOFILE) ((host lay).dupFd p np))
    (each (List.finRange NOFILE) ((Vm.host lay).dupFd p np)) := by
  refine Refines.each fun fd _ => refines_read_bind ?_
  rintro s w ⟨rfl, hr⟩
  change ∀ b w', whenSome (s.ofile (p, fd)) _ s.view = .ok (b, w') → _
  change ∀ b w', _ → ∃ s', whenSome (s.ofile (p, fd)) _ s = .ok (b, s') ∧ _
  cases s.ofile (p, fd) with
  | none => exact refines_ret s s.view ⟨rfl, hr⟩
  | some f =>
    refine Refines.bind (refines_lift ?_ ?_) (fun _ => refines_change ?_) s s.view ⟨rfl, hr⟩
    · rintro s w ⟨rfl, _⟩
      rfl
    · rintro s w u ⟨rfl, hr⟩
      exact ⟨rfl, hr⟩
    · rintro s w ⟨rfl, hr⟩
      exact ⟨rfl, hr⟩

theorem dupFds_spec (h : Vm.Sys lay (holders s.ofile) s.view) (hnone : ∀ fd, s.ofile (np, fd) = none) :
    Returns (each (List.finRange NOFILE) ((host lay).dupFd p np)) s fun _ t =>
      t.ram = s.ram ∧ t.kstack = s.kstack ∧ Vm.Fds lay np s.view t.view := by
  refine ((dupFds_refines (r := s.ram)).returns ⟨rfl, rfl, rfl⟩ (Files.dupFds_spec (Vm.rules lay) h hnone)).mono ?_
  rintro _ t ⟨w, ⟨rfl, hr, hk⟩, hw⟩
  exact ⟨hr, hk, hw⟩

theorem Busy.ne_new (hb : Busy lay G x) (h : Sound lay ((G.use tf).setTable d (some S)) r) (htf : ¬ G.used tf)
    (hd : G.table d = none) : x ≠ tf := by
  rintro rfl
  have hused : ((G.use x).setTable d (some S)).used x := .inl rfl
  rcases hb with hm | hu | ⟨d', T', s', hT', hs'⟩
  · exact hm (h.part.within .used x hused)
  · exact htf hu
  · have hne : d' ≠ d := by
      rintro rfl
      simp [hd] at hT'
    have hspot : ((G.use x).setTable d (some S)).table d' = some T' := by
      rw [Vm.setTable_other hne]
      exact hT'
    cases h.part.unique .used (.spot d' s') x hused ⟨T', hspot, hs'⟩

theorem Busy.fresh (hb : Busy lay G x) (hd : G.table d = none) : Other lay ((G.use tf).setTable d (some S)) d x :=
  (hb.other hd).use.setTable

theorem setTrapframe_used {v : Nat} (h : Sound lay G r) (hx : G.used x) (hi : i < 512) :
    Returns (setTrapframe x i v) r fun _ r' => Sound lay G r' ∧ Kept (· ≠ x) r r' :=
  ⟨h.write (fun _ _ hS => h.used_not_page hx hS) (setPte_kept hi) rfl, setPte_kept hi⟩

theorem Copied.trans {r₀ r₁ : Ram} {j n : Nat} {P Q : Nat → Prop} (h : Copied r r' R S j n) (h₀ : Kept P r₀ r)
    (h₁ : Kept Q r' r₁) (hP : ∀ i e, j ≤ i → i < j + n → R.leaf i = some e → P e.ppn)
    (hQ : ∀ i e, j ≤ i → i < j + n → S.leaf i = some e → Q e.ppn) : Copied r₀ r₁ R S j n := by
  intro i hi hlt
  obtain ⟨e, q, he, hq, hbytes⟩ := h i hi hlt
  refine ⟨e, q, he, hq, fun o ho => ?_⟩
  have hsame : r₁.byte (q * 4096 + o) = r'.byte (q * 4096 + o) := h₁.page (hQ i _ hi hlt hq) ho
  rw [hsame, hbytes o ho, h₀.page (hP i e hi hlt he) ho]

theorem Copied.userMap {k : Nat} (h : Copied r r' R S 0 k) (hR : UserMap R k guard) (hT : UserMap T 0 guard)
    (hrest : ∀ i, k ≤ i → S.leaf i = T.leaf i) : UserMap S k guard where
  mapped i hi := by
    obtain ⟨e, q, he, hq, _⟩ := h i (Nat.zero_le i) (by omega)
    obtain ⟨f, hf, hfu⟩ := hR.mapped i hi
    cases he.symm.trans hf
    exact ⟨_, hq, hfu⟩
  rest i hi hlt := by
    rw [hrest i hi]
    exact hT.rest i (Nat.zero_le i) hlt

def State.started (s : State) (p np : Fin NPROC) : State :=
  (s.setName np (safestrcpy (s.name p) 16)).setProc np { s.proc np with parent := some p, state := .runnable }

theorem started_self : (s.started p np).proc np = { s.proc np with parent := some p, state := .runnable } :=
  update_self ..

theorem started_other {q : Fin NPROC} (hq : q ≠ np) : (s.started p np).proc q = s.proc q := update_of_ne hq ..

theorem Sys.started {n : Fin NFILE → Nat} (h : Vm.Sys lay n s.view) (hst : (s.proc np).state ≠ .unused) :
    Vm.Sys lay n (s.started p np).view := by
  obtain ⟨G, hG, hL, hok⟩ := h
  refine ⟨G, hG, hL.congr rfl (fun _ => Iff.rfl) fun q => ?_, hok⟩
  by_cases hq : q = np
  · subst hq
    refine .inr ⟨hst, ?_⟩
    rw [show (s.started p q).view.proc q = _ from started_self]
    exact ⟨by simp, rfl, rfl, rfl⟩
  · exact .inl (started_other hq)

theorem fork_spec (h : Inv lay s) (hG : Sound lay G s.ram) (hL : Linked lay G s.view)
    (hlive : (s.proc p).state.live = true) (hd : (s.proc p).pagetable = some d) (hT : G.table d = some T) :
    Returns (fork lay p) s fun o t => Inv lay t ∧ Kept (Busy lay G) s.ram t.ram ∧
      (o = none ∧ Sound lay G t.ram ∧ t.proc = s.proc ∨
      ∃ np tf d' R, o = some np ∧ np ≠ p ∧ d' ≠ d ∧ Sound lay ((G.use tf).setTable d' (some R)) t.ram ∧
        (∀ q, q ≠ np → t.proc q = s.proc q) ∧ (t.proc np).pagetable = some d' ∧ (t.proc np).sz = (s.proc p).sz ∧
        Copied s.ram t.ram T R 0 (pages (s.proc p).sz)) := by
  obtain ⟨tf0, T', htf0, hT', hK0, g, hU0⟩ := hL.table hd
  cases hT.symm.trans hT'
  obtain ⟨_, _, _, hok⟩ := h.sys
  refine Post.bind (allocproc_spec hG hL) ?_
  rintro o t ⟨hkt, ⟨rfl, ht, heq⟩ | ⟨np, tf, d', S, rfl, hnp, htf, hd', ht, hK, hU, heq⟩⟩
  · rw [heq] at ht hkt ⊢
    exact ⟨⟨⟨G, ht, hL.same ⟨rfl, rfl, rfl⟩ fun _ => Iff.rfl, hok⟩, h.closed, h.kstack⟩, hkt, .inl ⟨rfl, ht, rfl⟩⟩
  generalize t.ram = m at ht hkt heq
  subst heq
  have hpnp : p ≠ np := by
    rintro rfl
    exact Vm.live_ne_unused hlive hnp
  have hdd : d ≠ d' := fun he => by simp [← he, hT] at hd'
  have hp : ({ s with ram := m }.setProc np (freshProc tf d')).proc p = s.proc p := update_of_ne hpnp ..
  have hself : ({ s with ram := m }.setProc np (freshProc tf d')).proc np = freshProc tf d' := update_self ..
  dsimp only
  rw [post_read_bind, post_read_bind, hp, hself, hd, show (s.proc p).trapframe = some tf0 from htf0]
  have hT0 : ((G.use tf).setTable d' (some S)).table d = some T := by
    rw [Vm.setTable_other hdd]
    exact hT
  refine bind_onRam (uvmcopy_spec ht hT0 hU0 Vm.setTable_self (hU.weaken fun _ hf => hf.elim) hdd) ?_
  rintro ok u (⟨rfl, R, hR, hRleaf, hku⟩ | ⟨rfl, R, hR, hrest, hcopied, hku⟩)
  · rw [Vm.setTable_setTable] at hR
    rw [if_neg Bool.false_ne_true]
    have hused : ((G.use tf).setTable d' (some R)).used tf := .inl rfl
    have hRU : UserMap R (pages 0) fun _ => False := hU.congr hRleaf
    have hRK : KernelMap lay tf R := (Vm.sameKernel_of_leaf hRleaf).kernelMap hK
    refine (freeproc_spec (s := { ({ s with ram := m } : State).setProc np (freshProc tf d') with ram := u })
      hR (by rw [hself]; rfl) (by rw [hself]; rfl) hused Vm.setTable_self hRK (by rw [hself]; rfl) hRU).bind ?_
    rintro _ w ⟨hw, hkw, heq⟩
    generalize w.ram = m' at hw hkw heq
    subst heq
    have hG' : (((G.use tf).setTable d' (some R)).unuse tf).setTable d' none = G := by
      change (((G.use tf).unuse tf).setTable d' (some R)).setTable d' none = G
      rw [Vm.unuse_use htf, Vm.setTable_setTable, Vm.setTable_none hd']
    have hkeep : update s.proc np {} = s.proc := by
      rw [← show s.proc np = {} from hL.unused np hnp, update_eq_self]
    rw [hG'] at hw
    have hkm : Kept (Busy lay G) u m' := by
      refine hkw.mono fun x hx => ⟨hx.ne_new ht htf hd', ?_⟩
      change Other lay (((G.use tf).unuse tf).setTable d' (some R)) d' x
      rw [Vm.unuse_use htf]
      exact (hx.other hd').setTable
    have hprocs : update (update s.proc np (freshProc tf d')) np {} = s.proc := by
      rw [update_idem, hkeep]
    refine ⟨⟨⟨G, hw, hL.same ⟨hprocs, rfl, rfl⟩ fun _ => Iff.rfl, hok⟩, fun q fd hq => h.closed q fd ?_, h.kstack⟩,
      hkt.trans ((hku.mono fun x hx => hx.fresh hd').trans hkm), .inl ⟨rfl, hw, hprocs⟩⟩
    change (update (update s.proc np (freshProc tf d')) np {} q).state.live = false at hq
    rwa [hprocs] at hq
  · rw [Vm.setTable_setTable] at hR
    have hle : pages (s.proc p).sz ≤ 32768 := hG.pages_le hT hU0
    have hused : ((G.use tf).setTable d' (some R)).used tf := .inl rfl
    have hRU : UserMap R (pages (s.proc p).sz) (· = g) := hcopied.userMap hU0 (hU.weaken fun _ hf => hf.elim) hrest
    have hRK : KernelMap lay tf R :=
      Vm.SameKernel.kernelMap (fun i hi => hrest i (by unfold tfVpn at hi; omega)) hK
    have hown : ∀ i, i < pages (s.proc p).sz → ¬ (i = trampVpn ∨ i = tfVpn) := by
      intro i hi
      unfold trampVpn tfVpn
      omega
    rw [if_pos rfl, post_change_bind, hself]
    refine bind_onRam (memmove_used hR hused (by decide)) ?_
    rintro _ u1 ⟨hu1, hku1, _⟩
    refine bind_onRam (setTrapframe_used hu1 hused (by decide)) ?_
    rintro _ u2 ⟨hu2, hku2⟩
    have hku2' : Kept (· ≠ tf) u u2 := hku1.trans hku2
    have hnone : ∀ fd, s.ofile (np, fd) = none := fun fd =>
      h.closed np fd (by rw [show s.view.proc np = s.proc np from rfl, hnp]; rfl)
    -- the child is complete up to its state and its parent
    have hsys : Vm.Sys lay (holders s.ofile) ({ s with ram := u2 }.setProc np
        { freshProc tf d' with sz := (s.proc p).sz }).view := by
      refine ⟨_, hu2, ?_, hok⟩
      exact hL.add (p := np) (v := { freshProc tf d' with sz := (s.proc p).sz }) hnp htf hd' ⟨hRK, g, hRU⟩
        ⟨rfl, fun _ => Iff.rfl, rfl⟩ (by simp [freshProc]) rfl rfl
    have hstate : ∀ {a b : Vm.Proc} {m₁ m₂ m₃ : Ram}, ({ ({ ({ ({ s with ram := m₁ } : State).setProc np a with
        ram := m₂ } : State).setProc np b with ram := m₃ } : State) with ram := u2 } : State) =
        { s with ram := u2 }.setProc np b := by
      intro a b m₁ m₂ m₃
      simp [State.setProc]
    rw [hstate]
    refine Post.bind (dupFds_spec hsys hnone) ?_
    rintro _ w ⟨hwram, hwstack, hsys', hsame, hothers⟩
    have hwram' : w.ram = u2 := hwram
    have hwproc : w.proc = update s.proc np { freshProc tf d' with sz := (s.proc p).sz } := hsame.proc
    have hnew : w.proc np = { freshProc tf d' with sz := (s.proc p).sz } := by rw [hwproc, update_self]
    rw [post_change_bind, post_change_bind, post_ret]
    change Inv lay (w.started p np) ∧ Kept (Busy lay G) s.ram w.ram ∧ _
    have hcopies : Copied s.ram u2 T R 0 (pages (s.proc p).sz) := by
      refine hcopied.trans hkt hku2' (fun i e _ hi he => ?_) fun i e _ hi he heq => ?_
      · exact .inr (.inr ⟨d, T, .leaf i, hT, by simp [Table.at, hown i (by omega), he]⟩)
      · have hspot : ((G.use tf).setTable d' (some R)).table d' = some R := Vm.setTable_self
        cases hR.part.unique .used (.spot d' (.leaf i)) tf hused
          ⟨R, hspot, by simp [Table.at, hown i (by omega), he, heq]⟩
    have hstack : ∀ q, (w.started p np).kstack q ∈ (w.started p np).kernel := by
      intro q
      change w.kstack q ∈ w.view.kernel
      rw [hwstack, hsame.kernel]
      exact h.kstack q
    have hrest' : ∀ q, q ≠ np → (w.started p np).proc q = s.proc q := by
      intro q hq
      rw [started_other hq, hwproc, update_of_ne hq]
    refine ⟨⟨Sys.started hsys' (by simp [hnew, freshProc]), fun q fd hq => ?_, hstack⟩, ?_,
      .inr ⟨np, tf, d', R, rfl, hpnp.symm, hdd.symm, ?_, hrest', ?_, ?_, ?_⟩⟩
    · by_cases hqn : q = np
      · subst hqn
        rw [show (w.started p q).view.proc q = _ from started_self] at hq
        cases hq
      · refine (hothers q fd hqn).trans (h.closed q fd ?_)
        rwa [show (w.started p np).view.proc q = s.view.proc q from hrest' q hqn] at hq
    · rw [hwram']
      exact hkt.trans ((hku.mono fun x hx => .inl (hx.fresh hd')).trans (hku2'.mono fun x hx => hx.ne_new ht htf hd'))
    · exact hwram' ▸ hu2
    · change ((w.started p np).proc np).pagetable = _
      rw [started_self, hnew]
      rfl
    · change ((w.started p np).proc np).sz = _
      rw [started_self, hnew]
    · exact hwram' ▸ hcopies

/-- Calls of `copyout` through one page table, each with a virtual address, a source and a length. -/
def writes (d : Nat) (l : List (Nat × Nat × Nat)) : Kmem Unit :=
  each l fun w => copyout d w.1 w.2.1 w.2.2 >>= fun _ => ret ()

theorem writes_kept {l : List (Nat × Nat × Nat)} (h : Sound lay G r) (hT : G.table d = some T) (hK : KernelMap lay tf T) :
    Returns (writes d l) r fun _ r' => Sound lay G r' ∧ Kept (Closed r d) r r' := by
  induction l generalizing r with
  | nil => exact ⟨h, Kept.refl⟩
  | cons w l ih =>
    have hone : Returns (copyout d w.1 w.2.1 w.2.2 >>= fun _ => ret ()) r fun _ t => Sound lay G t ∧ Kept (Closed r d) r t :=
      (copyout_kept h hT hK).bind fun _ t ht => ht
    refine hone.bind ?_
    rintro _ t ⟨ht, hkt⟩
    have hsame : userPage t d = userPage r d := h.userPage_kept hT hkt fun x hx => Closed.of_page h hT hK hT hx
    refine (ih ht).mono ?_
    rintro _ u ⟨hu, hku⟩
    refine ⟨hu, hkt.trans (hku.mono fun x hx va => ?_)⟩
    rw [hsame]
    exact hx va

/-- No sequence of writes through the page table of one process changes what another one can read. -/
def Isolated (s : State) : Prop :=
  ∀ a b da db, a ≠ b → (s.proc a).pagetable = some da → (s.proc b).pagetable = some db →
    ∀ l, ∃ r, writes da l s.ram = .ok ((), r) ∧
      ∀ va, Accessible s.ram db va → Accessible r db va ∧ userByte r db va = userByte s.ram db va

theorem Inv.isolated (h : Inv lay s) : Isolated s := by
  obtain ⟨G, hG, hL, _⟩ := h.sys
  have hS : Sound lay G s.ram := hG
  intro a b da db hab hda hdb l
  obtain ⟨tfa, Ta, _, hTa, hKa, _⟩ := hL.table hda
  obtain ⟨tfb, Tb, _, hTb, hKb, _⟩ := hL.table hdb
  have hdd : db ≠ da := by
    rintro rfl
    exact hL.other hda hab.symm hdb
  obtain ⟨_, r, hrun, hr, hkept⟩ := (writes_kept (l := l) hS hTa hKa).exists
  refine ⟨r, hrun, fun va hacc => ?_⟩
  have hsame : userPage r db = userPage s.ram db :=
    hS.userPage_kept hTb hkept fun x hx => Closed.of_page hS hTa hKa hTb hx
  refine ⟨by rwa [Accessible, hsame], userByte_kept hsame hkept (fun q hq => ?_) hacc⟩
  exact Closed.of_leaf hS hTa hKa hTb hdd (hS.userPage_at hTb hKb hq)

/-- Below `sz` the page tables map the same pages with the same flags, and the same bytes are there. -/
def Unchanged (r r' : Ram) (d sz : Nat) : Prop :=
  ∀ i, leafAt (view r') d i = leafAt (view r) d i ∧
    ∀ e, i < pages sz → leafAt (view r) d i = some e → ∀ o < 4096, r'.byte (e.ppn * 4096 + o) = r.byte (e.ppn * 4096 + o)

/-- The child maps copies of its parent's pages below `sz`, with the same `PTE_FLAGS` in the entries that
`walk` finds. -/
def SameImage (r : Ram) (d d' sz : Nat) : Prop :=
  ∀ i < pages sz, ∃ e q, leafAt (view r) d i = some e ∧ leafAt (view r) d' i = some { e with ppn := q } ∧
    (∀ o < 4096, r.byte (q * 4096 + o) = r.byte (e.ppn * 4096 + o)) ∧
    ∃ x y, walk d (i * 4096) false r = .ok (some x, r) ∧ walk d' (i * 4096) false r = .ok (some y, r) ∧
      pteFlags (r.pte y.1 y.2) = pteFlags (r.pte x.1 x.2)

def Separate (s : State) (p : Fin NPROC) : Prop :=
  ∀ q d d', q ≠ p → (s.proc p).pagetable = some d → (s.proc q).pagetable = some d' →
    ∀ i j e f, i < pages (s.proc p).sz → j < pages (s.proc q).sz → leafAt (view s.ram) d i = some e →
      leafAt (view s.ram) d' j = some f → e.ppn ≠ f.ppn

theorem leaf_spot (h : Sound lay G r) (hT : G.table d = some T) (hU : UserMap T sz guard) (hi : i < sz) {e : Pte}
    (he : T.leaf i = some e) : T.at (.leaf i) = some e.ppn := by
  have hle := h.pages_le hT hU
  exact Vm.Table.at_user (by unfold tfVpn; omega) he

theorem Inv.separate (h : Inv lay s) (p : Fin NPROC) : Separate s p := by
  obtain ⟨G, hG, hL, _⟩ := h.sys
  have hS : Sound lay G s.ram := hG
  intro q d d' hqp hd hd' i j e f hi hj he hf heq
  obtain ⟨_, T, _, hT, _, g, hU⟩ := hL.table hd
  obtain ⟨_, T', _, hT', _, g', hU'⟩ := hL.table hd'
  rw [hS.leafAt hT] at he
  rw [hS.leafAt hT'] at hf
  cases hS.part.unique (.spot d (.leaf i)) (.spot d' (.leaf j)) e.ppn ⟨T, hT, leaf_spot hS hT hU hi he⟩
    ⟨T', hT', heq ▸ leaf_spot hS hT' hU' hj hf⟩
  exact hL.other hd hqp hd'

theorem Unchanged.of_kept {G' : Ghost} {P : Nat → Prop} (h : Sound lay G r) (hT : G.table d = some T)
    (hU : UserMap T (pages sz) guard) (h' : Sound lay G' r') (hT' : G'.table d = some T) (hk : Kept P r r')
    (hP : ∀ n x, T.at (.leaf n) = some x → P x) : Unchanged r r' d sz := by
  intro i
  rw [h.leafAt hT, h'.leafAt hT']
  exact ⟨rfl, fun e hi he o ho => hk.page (hP i _ (leaf_spot h hT hU hi he)) ho⟩

theorem run_onRam {α : Type} {c : Kmem α} {a : α} (h : c s.ram = .ok (a, r)) :
    onRam c s = .ok (a, { s with ram := r }) := by
  unfold onRam Prog.lift
  rw [h]

theorem fork_uvmcopy_fails {u : State} (hG : Sound lay G s.ram) (hL : Linked lay G s.view)
    (hlive : (s.proc p).state.live = true) (hd : (s.proc p).pagetable = some d)
    (halloc : allocproc lay s = .ok (some np, u)) (hd' : (u.proc np).pagetable = some d')
    (hcopy : uvmcopy lay d d' (s.proc p).sz u.ram = .ok (false, r)) :
    (∀ i < tfVpn, leafAt (view r) d' i = none) ∧ Unchanged u.ram r d (s.proc p).sz ∧
      ∀ o t, fork lay p s = .ok (o, t) → o = none := by
  obtain ⟨tf, T, htf, hT, hK, g, hU⟩ := hL.table hd
  change (s.proc p).trapframe = some tf at htf
  obtain ⟨hku, ⟨ho, _⟩ | ⟨np', tf', e, S, ho, hnp, htf', he, hu, hSK, hSU, heq⟩⟩ := (allocproc_spec hG hL).of_eq halloc
  · cases ho
  cases ho
  have hself : u.proc np = freshProc tf' e := by
    rw [heq]
    exact update_self ..
  rw [hself] at hd'
  cases Option.some.inj hd'
  have hne : p ≠ np := by
    rintro rfl
    exact Vm.live_ne_unused hlive hnp
  have hp : u.proc p = s.proc p := by
    rw [heq]
    exact update_of_ne hne ..
  have hdd : d ≠ d' := fun heq => by simp [← heq, hT] at he
  have hT0 : ∀ S : Table, ((G.use tf').setTable d' (some S)).table d = some T := by
    intro S
    rw [Vm.setTable_other hdd]
    exact hT
  have hspec := (uvmcopy_spec hu (hT0 S) hU Vm.setTable_self (Vm.UserMap.weaken hSU fun _ hf => hf.elim) hdd).of_eq hcopy
  obtain ⟨_, R, hR, hRleaf, hkr⟩ | ⟨hok, _⟩ := hspec
  · refine ⟨fun i hi => ?_, ?_, fun o t hrun => ?_⟩
    · rw [hR.leafAt Vm.setTable_self, hRleaf]
      exact hSU.rest i (Nat.zero_le i) hi
    · rw [Vm.setTable_setTable] at hR
      refine Unchanged.of_kept hu (hT0 S) hU hR (hT0 R) hkr fun n x hx => ?_
      exact .inr (.inr ⟨d, T, .leaf n, hdd, hT0 S, hx⟩)
    · rw [fork, run_bind halloc] at hrun
      dsimp only at hrun
      rw [run_bind run_read, run_bind run_read, hp, hself, hd, htf] at hrun
      change (onRam (uvmcopy lay d d' (s.proc p).sz) >>= _) u = _ at hrun
      rw [run_bind (run_onRam hcopy), if_neg Bool.false_ne_true] at hrun
      obtain ⟨_, _, _, hret⟩ := bind_eq_ok hrun
      exact (Prod.mk.inj (Except.ok.inj hret)).1.symm
  · cases hok

/-- The child maps copies of its parent's pages in pages of its own, and what is written through one page
table changes nothing that can be read through another one. When `uvmcopy` fails, all processes are as
they were. -/
theorem fork_isolated (h : Inv lay s) (hlive : (s.proc p).state.live = true) :
    ∃ d o t, (s.proc p).pagetable = some d ∧ fork lay p s = .ok (o, t) ∧ Isolated t ∧ t.proc p = s.proc p ∧
      Unchanged s.ram t.ram d (s.proc p).sz ∧
      (∀ np, o = some np → ∃ d', (t.proc np).pagetable = some d' ∧ (t.proc np).sz = (s.proc p).sz ∧
        SameImage t.ram d d' (s.proc p).sz ∧ Separate t np) ∧
      (o = none → t.proc = s.proc) ∧
      ∀ np u d' r, allocproc lay s = .ok (some np, u) → (u.proc np).pagetable = some d' →
        uvmcopy lay d d' (s.proc p).sz u.ram = .ok (false, r) →
        o = none ∧ (∀ i < tfVpn, leafAt (view r) d' i = none) ∧ Unchanged u.ram r d (s.proc p).sz := by
  obtain ⟨G, hG, hL, _⟩ := h.sys
  have hS : Sound lay G s.ram := hG
  obtain ⟨d, hd⟩ := h.sys.pagetable hlive
  change (s.proc p).pagetable = some d at hd
  obtain ⟨tf, T, _, hT, hK, g, hU⟩ := hL.table hd
  change UserMap T (pages (s.proc p).sz) (· = g) at hU
  obtain ⟨o, t, hrun, ht, hkept, hcase⟩ := (fork_spec h hS hL hlive hd hT).exists
  have hbusy : ∀ n x, T.at (.leaf n) = some x → Busy lay G x := fun n x hx => .inr (.inr ⟨d, T, .leaf n, hT, hx⟩)
  have hfail : ∀ np u d' r, allocproc lay s = .ok (some np, u) → (u.proc np).pagetable = some d' →
      uvmcopy lay d d' (s.proc p).sz u.ram = .ok (false, r) →
      o = none ∧ (∀ i < tfVpn, leafAt (view r) d' i = none) ∧ Unchanged u.ram r d (s.proc p).sz := by
    intro np u d' r halloc hd' hcopy
    obtain ⟨hnone, hsame, ho⟩ := fork_uvmcopy_fails hS hL hlive hd halloc hd' hcopy
    exact ⟨ho o t hrun, hnone, hsame⟩
  refine ⟨d, o, t, hd, hrun, ht.isolated, ?_⟩
  rcases hcase with ⟨rfl, htS, hprocs⟩ | ⟨np, tf', d', R, rfl, hnp, hdd, htS, hothers, hnpd, hnpsz, hcopied⟩
  · refine ⟨by rw [hprocs], .of_kept hS hT hU htS hT hkept hbusy, fun np ho => (by cases ho), fun _ => hprocs, hfail⟩
  · have hT0 : ((G.use tf').setTable d' (some R)).table d = some T := by
      rw [Vm.setTable_other hdd.symm]
      exact hT
    refine ⟨hothers p hnp.symm, .of_kept hS hT hU htS hT0 hkept hbusy, fun np' ho => ?_, fun ho => (by cases ho), hfail⟩
    cases ho
    refine ⟨d', hnpd, hnpsz, fun i hi => ?_, ht.separate np⟩
    obtain ⟨e, q, he, hq, hbytes⟩ := hcopied i (Nat.zero_le i) (by omega)
    have hlt : i < trampVpn + 1 := by
      have := hS.pages_le hT hU
      unfold trampVpn
      omega
    obtain ⟨a, _, ha, hv, _, hwalk⟩ := walk_leaf htS hT0 he hlt
    obtain ⟨b, _, hb, _, _, hwalk'⟩ := walk_leaf htS Vm.setTable_self hq hlt
    refine ⟨e, q, by rw [htS.leafAt hT0, he], ?_, fun o ho => ?_, _, _, hwalk, hwalk', ?_⟩
    · rw [htS.leafAt Vm.setTable_self, hq]
      simp [Pte.mapped, hv]
    · rw [hbytes o ho, hkept.page (hbusy i _ (leaf_spot hS hT hU hi he)) ho]
    · exact pteFlags_mapped (hb.trans (by rw [ha])) (by rw [ha, hv])

def result {σ α : Type} (m : Prog σ α) (s : σ) : Option α :=
  match m s with
  | .ok x => some x.1
  | .error _ => none

theorem fork_isolated_first : Inv smallLayout firstGrown ∧ (firstGrown.proc init).state.live = true ∧
    ∃ d d' t, (firstGrown.proc init).pagetable = some d ∧ fork smallLayout init firstGrown = .ok (some Vm.child, t) ∧
      Isolated t ∧ (t.proc Vm.child).pagetable = some d' ∧ SameImage t.ram d d' 4096 ∧ Separate t Vm.child := by
  obtain ⟨hlive, hsz⟩ := firstGrown_live
  obtain ⟨d, o, t, hd, hrun, hiso, _, _, hchild, _⟩ := fork_isolated firstGrown_inv hlive
  have ho : result (fork smallLayout init) firstGrown = some (some Vm.child) := by decide +kernel
  unfold result at ho
  rw [hrun] at ho
  cases ho
  obtain ⟨d', hd', _, himage, hsep⟩ := hchild Vm.child rfl
  rw [hsz] at himage
  exact ⟨firstGrown_inv, hlive, d, d', t, hd, hrun, hiso, hd', himage, hsep⟩

end TweakedXv6.Phys

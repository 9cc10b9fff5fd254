import TweakedXv6.ExecArgs
import TweakedXv6.RamFork

namespace TweakedXv6.Phys

open Prog Files
open Vm (PGSIZE MAXARG Layout Pte Ghost Table Linked ProcMap Spare tfVpn smallLayout init)

def userWord (r : Ram) (d va : Nat) : Nat := Bytes.dword (fun j => userByte r d (va + j)) 0

/-- From `sp` on the pointers and the null pointer, each to one string, all in the last page below `sz`
and apart from each other. -/
structure HasArgs (r : Ram) (d sz sp : Nat) (args : List (List UInt8)) (ptrs : List Nat) : Prop where
  length : ptrs.length = args.length
  aligned : sp % 16 = 0
  mapped : ∀ va, sz - PGSIZE ≤ va → va < sz → Accessible r d va
  base : sz - PGSIZE ≤ sp
  words : ∀ i ≤ args.length, userWord r d (sp + 8 * i) = ptrs.getD i 0
  strings : ∀ i < args.length, ∀ j ≤ (args.getD i []).length, userByte r d (ptrs.getD i 0 + j) = (args.getD i []).getD j 0
  above : ∀ i < args.length, sp + 8 * (args.length + 1) ≤ ptrs.getD i 0
  apart : ∀ i j, i < j → j < args.length → ptrs.getD j 0 + (args.getD j []).length + 1 ≤ ptrs.getD i 0
  top : sp + 8 * (args.length + 1) ≤ sz ∧ ∀ i < args.length, ptrs.getD i 0 + (args.getD i []).length + 1 ≤ sz

variable {lay : Layout} {G : Ghost} {s t : State} {r r' m : Ram} {T S : Table}
  {d q k a sp tf us ustack sz base i x : Nat} {e : Pte} {p : Fin NPROC} {arg : List UInt8}
  {args : List (List UInt8)} {argv : List Nat} {fs : List UInt8 → Option File} {path : List UInt8}
  {P : Nat → Prop} {α : Type}

theorem Pushed.kept (h : Pushed r q base sp args) (hk : Kept P r r') (hq : P q)
    (hroom : argsRoom args ≤ 4096) (hsp : sp = base + 4096 - argsRoom args) : Pushed r' q base sp args where
  words i hi := by
    have hup : (args.length + 1) * 8 ≤ up16 ((args.length + 1) * 8) := le_up16
    have hlow : argsRoom args = room args + up16 ((args.length + 1) * 8) := rfl
    rw [← h.words i hi]
    refine Bytes.dword_congr fun j hj => hk _ ?_
    rwa [show (8 * (q * 512 + (sp - base) / 8 + i) + j) / 4096 = q by omega]
  copies := by
    have hlow : argsRoom args = room args + up16 ((args.length + 1) * 8) := rfl
    exact h.copies.kept (by omega) fun j _ hj => hk.page hq hj

theorem byte_offset (h : base ≤ a) : q + (a + i - base) = q + (a - base) + i := by
  omega

theorem word_offset {j : Nat} (h : base ≤ sp) (h8 : (sp - base) % 8 = 0) :
    q * 4096 + (sp + 8 * i + (8 * 0 + j) - base) = 8 * (q * 512 + (sp - base) / 8 + i) + j := by
  omega

theorem Pushed.hasArgs (h : Pushed r e.ppn (k * 4096) sp args) (hp : StackPage lay G d k T e tf) (hr : Sound lay G r)
    (hroom : argsRoom args ≤ 4096) (hsp : sp = k * 4096 + 4096 - argsRoom args) :
    HasArgs r d (k * 4096 + 4096) sp args (pointers (k * 4096 + 4096) args) := by
  have hup : (args.length + 1) * 8 ≤ up16 ((args.length + 1) * 8) := le_up16
  have hlow : argsRoom args = room args + up16 ((args.length + 1) * 8) := rfl
  have hmod : room args % 16 = 0 := room_mod
  have hupmod : up16 ((args.length + 1) * 8) % 16 = 0 := up16_mod
  have hbase : k * 4096 + 4096 - PGSIZE = k * 4096 := by unfold PGSIZE; omega
  have hbounds := fun i (hi : i < args.length) => pointers_bounds (k * 4096 + 4096) (by omega) hi
  refine ⟨pointers_length .., by omega, fun va hlo hhi => ?_, by omega, fun i hi => ?_, fun i hi j hj => ?_, fun i hi => ?_,
    fun i j hij hj => pointers_below (by omega) hij hj, by omega, fun i hi => (hbounds i hi).2⟩
  · rw [Accessible, hp.userPage hr (by omega) hhi]
    rfl
  · rw [userWord, ← h.words i hi]
    refine Bytes.dword_shift fun j hj => ?_
    rw [hp.userByte hr (by omega) (by omega)]
    exact congrArg r.byte (word_offset (by omega) (by omega))
  · obtain ⟨hlo, hhi⟩ := hbounds i hi
    rw [hp.userByte hr (by omega) (by omega), ← h.copies i hi j hj]
    exact congrArg r.byte (byte_offset (by omega))
  · obtain ⟨hlo, _⟩ := hbounds i hi
    omega

theorem setTrapframe_spec {v : Nat} (h : Sound lay G r) (hx : G.used x) (hi : i < 512) (hv : v < 18446744073709551616) :
    Returns (setTrapframe x i v) r fun _ r' => Sound lay G r' ∧ Kept (· ≠ x) r r' ∧ r'.pte x i = v ∧
      ∀ j < 512, j ≠ i → r'.pte x j = r.pte x j := by
  obtain ⟨_, r', hrun, hr', hk⟩ := (setTrapframe_used (v := v) h hx hi).exists
  cases hrun
  exact ⟨hr', hk, pte_setPte_self hv, fun j hj hne => pte_setPte_other hi hj fun heq => hne heq.2⟩

theorem Kept.pte (h : Kept P r r') (hq : P q) (hi : i < 512) : r'.pte q i = r.pte q i :=
  Bytes.dword_congr fun j hj => h _ (by rwa [show (8 * (512 * q + i) + j) / 4096 = q by omega])

theorem bind_run_onRam {β : Type} {c : Kmem α} {k : α → Kernel β} {x : α} {Q : β → State → Prop} (h : c s.ram = .ok (x, r))
    (hk : Returns (k x) { s with ram := r } Q) : Returns (onRam c >>= k) s Q := (post_run_bind (run_onRam h)).mpr hk

def Prepared (lay : Layout) (fs : List UInt8 → Option File) (p : Fin NPROC) (path : List UInt8) (s : State) (d sz : Nat)
    (m : Ram) : Prop :=
  ∃ f tf sz₀ r, fs path = some f ∧ (s.proc p).trapframe = some tf ∧ execFile lay tf f s.ram = .ok (some (d, sz₀), r) ∧
    execStack lay d sz₀ r = .ok (some sz, m)

theorem Prepared.page (hprep : Prepared lay fs p path s d sz m) (h : Sound lay G s.ram) (htf : (s.proc p).trapframe = some tf)
    (htu : G.used tf) : ∃ k S e, 0 < k ∧ sz = k * 4096 + 4096 ∧ G.table d = none ∧ Kept (Busy lay G) s.ram m ∧
      Sound lay (G.setTable d (some S)) m ∧ ProcMap lay tf sz S ∧ StackPage lay (G.setTable d (some S)) d k S e tf := by
  obtain ⟨f, tf', sz₀, r, _, htf', hfile, hstack⟩ := hprep
  cases htf.symm.trans htf'
  obtain ⟨hkr, ⟨ho, _⟩ | ⟨d', sz', R, ho, hd, hr, hRK, hRU⟩⟩ := (execFile_spec (used_small h htu) h).of_eq hfile
  · cases ho
  cases ho
  obtain ⟨hkm, ⟨ho, _⟩ | ⟨k, S, e, ho, hm, hK, hU, he, hu⟩⟩ := (execStack_spec hr hd hRK hRU).of_eq hstack
  · cases ho
  cases ho
  refine ⟨k + 1, S, e, Nat.succ_pos k, by omega, hd, hkr.trans hkm, hm, ⟨hK, k, ?_⟩, Vm.setTable_self, hK, he, hu⟩
  rwa [Vm.pages_mul]

structure Failed (lay : Layout) (G : Ghost) (us : Nat) (s t : State) : Prop where
  sound : Sound lay G t.ram
  kept : Kept (fun x => Busy lay G x ∧ x ≠ us) s.ram t.ram
  same : t = { s with ram := t.ram, begun := s.begun + 1, ended := s.ended + 1 }

structure Replaced (lay : Layout) (G : Ghost) (p : Fin NPROC) (d tf e k : Nat) (S : Table) (g : Pte) (path : List UInt8)
    (args : List (List UInt8)) (s t : State) : Prop where
  new : G.table e = none
  sound : Sound lay ((G.setTable e (some S)).setTable d none) t.ram
  map : ProcMap lay tf (k * 4096 + 4096) S
  leaf : S.leaf k = some g
  user : g.u = true
  pushed : Pushed t.ram g.ppn (k * 4096) (k * 4096 + 4096 - argsRoom args) args
  a1 : t.ram.pte tf A1 = k * 4096 + 4096 - argsRoom args
  sp : t.ram.pte tf SP = k * 4096 + 4096 - argsRoom args
  same : t = ({ s with ram := t.ram, begun := s.begun + 1, ended := s.ended + 1 }.setName p
    (safestrcpy (lastName path path) 16)).setProc p { s.proc p with pagetable := some e, sz := k * 4096 + 4096 }

theorem exec_spec (fs : List UInt8 → Option File) (path : List UInt8) (h : Sound lay G s.ram)
    (hd : (s.proc p).pagetable = some d) (htf : (s.proc p).trapframe = some tf)
    (htu : G.used tf) (hT : G.table d = some T) (hmap : ProcMap lay tf (s.proc p).sz T) (hs : Ustack G us ustack)
    (hargs : List.Forall₂ (HasString s.ram) argv args) (hargv : ∀ x ∈ argv, G.used x ∧ x ≠ us)
    (hlen : args.length < 32) :
    Returns (exec lay fs p path argv ustack) s fun v t =>
      v = -1 ∧ ((¬ ∃ e sz m, Prepared lay fs p path s e sz m) ∨ 4096 < argsRoom args) ∧ Failed lay G us s t ∨
      v = args.length ∧ argsRoom args ≤ 4096 ∧ ∃ e k S g m, Prepared lay fs p path s e (k * 4096 + 4096) m ∧
        Replaced lay G p d tf e k S g path args s t := by
  rw [Returns, exec, beginOp, post_change_bind]
  cases hf : fs path with
  | none =>
    dsimp only
    rw [endOp, post_change_bind, post_ret]
    refine .inl ⟨rfl, .inl ?_, h, Kept.refl, rfl⟩
    rintro ⟨_, _, _, f, _, _, _, hf', _⟩
    rw [hf] at hf'
    cases hf'
  | some f =>
    dsimp only
    rw [post_read_bind, htf]
    obtain ⟨o, r₁, hrun₁, hk₁, hcase₁⟩ := (execFile_spec (f := f) (used_small h htu) h).exists
    dsimp only
    refine bind_run_onRam hrun₁ ?_
    -- a stage that fails leaves nothing prepared
    have hfile : ∀ {e sz m}, Prepared lay fs p path s e sz m → ∃ sz₀, o = some (e, sz₀) ∧
        execStack lay e sz₀ r₁ = .ok (some sz, m) := by
      rintro e sz m ⟨f', tf', sz₀, r', hf', htf', hrun', hstack⟩
      rw [hf] at hf'
      cases hf'
      rw [htf] at htf'
      cases htf'
      rw [hrun₁] at hrun'
      cases hrun'
      exact ⟨sz₀, rfl, hstack⟩
    rcases hcase₁ with ⟨rfl, h₁⟩ | ⟨e, sz₀, S₁, rfl, he, h₁, hK₁, hU₁⟩
    · dsimp only
      rw [endOp, Returns, post_change_bind, post_ret]
      refine .inl ⟨rfl, .inl ?_, h₁, hk₁.mono fun x hx => hx.1, rfl⟩
      rintro ⟨_, _, _, hprep⟩
      obtain ⟨_, hno, _⟩ := hfile hprep
      cases hno
    dsimp only
    rw [endOp, Returns, post_change_bind]
    obtain ⟨o₂, r₂, hrun₂, hk₂, hcase₂⟩ := (execStack_spec h₁ he hK₁ hU₁).exists
    refine bind_run_onRam hrun₂ ?_
    rcases hcase₂ with ⟨rfl, h₂⟩ | ⟨_, _, _, rfl, _⟩
    · refine .inl ⟨rfl, .inl ?_, h₂, (hk₁.trans hk₂).mono fun x hx => hx.1, rfl⟩
      rintro ⟨_, _, _, hprep⟩
      obtain ⟨_, ho, hstack⟩ := hfile hprep
      cases ho
      rw [hrun₂] at hstack
      cases hstack
    have hprep : Prepared lay fs p path s e _ r₂ := ⟨f, tf, sz₀, r₁, hf, htf, hrun₁, hrun₂⟩
    obtain ⟨k, S, g, hk, hsz, he, hkept₂, h₂, ⟨hK, guard, hU⟩, hpage⟩ := hprep.page h htf htu
    rw [hsz] at hprep hU
    have hspot := (userPage_spot hK hpage.leaf hpage.user).2
    have hargs₂ : List.Forall₂ (HasString r₂) argv args :=
      (forall₂_mem hargs).imp fun x arg hx => hx.2.kept hkept₂ (.inr (.inl (hargv x hx.1).1))
    dsimp only
    rw [hsz]
    obtain ⟨o₃, r₃, hrun₃, h₃, hk₃, hcase₃⟩ := (execArgs_spec hpage ⟨hs.used, hs.lo, hs.hi⟩ h₂
      hk hargs₂ hargv hlen).exists
    refine bind_run_onRam hrun₃ ?_
    have hbusy : ∀ x, Busy lay G x → x ≠ g.ppn := by
      rintro _ hx rfl
      exact (Other.apart h₃ (hx.other he).setTable).2 S _ Vm.setTable_self hspot
    have hkept₃ : Kept (fun x => Busy lay G x ∧ x ≠ us) s.ram r₃ :=
      (hkept₂.mono fun x hx => hx.1).trans (hk₃.mono fun x hx => ⟨hbusy x hx.1, hx.2⟩)
    rcases hcase₃ with ⟨rfl, hno⟩ | ⟨rfl, hroom, hpushed⟩
    · refine bind_onRam (procFreepagetable_spec h₃ Vm.setTable_self hK hU) ?_
      rintro _ r₄ ⟨h₄, hk₄⟩
      rw [Vm.setTable_setTable, Vm.setTable_none he] at h₄
      exact .inl ⟨rfl, .inr hno, h₄, hkept₃.trans (hk₄.mono fun x hx => (hx.1.other he).setTable), rfl⟩
    have hklt := hK.user_lt hpage.leaf hpage.user
    unfold tfVpn at hklt
    refine bind_onRam (setTrapframe_spec (v := k * 4096 + 4096 - argsRoom args) h₃ htu (by decide) (by omega)) ?_
    rintro _ r₄ ⟨h₄, hk₄, ha1, _⟩
    rw [post_change_bind, post_change_bind]
    refine bind_onRam (setTrapframe_spec h₄ htu (by decide) Bytes.dword_lt) ?_
    rintro _ r₅ ⟨h₅, hk₅, _, hsame₅⟩
    refine bind_onRam (setTrapframe_spec (v := k * 4096 + 4096 - argsRoom args) h₅ htu (by decide) (by omega)) ?_
    rintro _ r₆ ⟨h₆, hk₆, hsp, hsame₆⟩
    have hed : d ≠ e := fun heq => by simp [← heq, hT] at he
    have hold : (G.setTable e (some S)).table d = some T := by rw [Vm.setTable_other hed, hT]
    obtain ⟨hKold, _, hUold⟩ := hmap
    rw [hd]
    refine bind_onRam (procFreepagetable_spec h₆ hold hKold hUold) ?_
    rintro _ r₇ ⟨h₇, hk₇⟩
    have htfo : Other lay (G.setTable e (some S)) d tf := .inr (.inl htu)
    have hgo : Other lay (G.setTable e (some S)) d g.ppn := .inr (.inr ⟨e, S, _, hed.symm, Vm.setTable_self, hspot⟩)
    have hgtf : g.ppn ≠ tf := (hbusy tf (.inr (.inl htu))).symm
    have hkept : Kept (fun x => x ≠ tf ∧ Other lay (G.setTable e (some S)) d x) r₃ r₇ :=
      ((hk₄.trans (hk₅.trans hk₆)).mono fun x hx => hx.1).trans (hk₇.mono fun x hx => hx.2)
    rw [post_ret]
    refine .inr ⟨rfl, hroom, e, k, S, g, r₂, hprep, he, h₇, ⟨hK, guard, hU⟩, hpage.leaf, hpage.user, ?_, ?_, ?_, ?_⟩
    · exact hpushed.kept hkept ⟨hgtf, hgo⟩ hroom rfl
    · have hlater : r₆.pte tf A1 = r₄.pte tf A1 :=
        (hsame₆ A1 (by decide) (by decide)).trans (hsame₅ A1 (by decide) (by decide))
      exact (hk₇.pte htfo (by decide)).trans (hlater.trans ha1)
    · exact (hk₇.pte htfo (by decide)).trans hsp
    · rfl

structure Fetched (lay : Layout) (G : Ghost) (argv : List Nat) (args : List (List UInt8)) (r : Ram) : Prop where
  sound : Sound lay (G.useAll argv) r
  spare : Spare G argv
  strings : List.Forall₂ (HasString r) argv args

theorem Fetched.nil (h : Sound lay G r) : Fetched lay G [] [] r :=
  ⟨by rwa [Vm.useAll_nil], ⟨List.nodup_nil, fun x hx => by cases hx⟩, .nil⟩

theorem Fetched.mem (h : Fetched lay G argv args r) (hx : x ∈ argv) (hu : G.used us) : x ≠ us := by
  rintro rfl
  exact h.spare.fresh x hx hu

theorem Fetched.push (h : Fetched lay G argv args r) (hr' : Sound lay ((G.useAll argv).use q) r')
    (hq : ¬ (G.useAll argv).used q) (hk : Kept (· ≠ q) r r') (harg : HasString r' q arg) :
    Fetched lay G (argv ++ [q]) (args ++ [arg]) r' where
  sound := by rwa [← Vm.useAll_append]
  spare := h.spare.push hq
  strings := by
    refine List.rel_append ((forall₂_mem h.strings).imp fun x arg hx => hx.2.kept hk ?_) (.cons harg .nil)
    rintro rfl
    exact hq (.inl hx.1)

structure Ready (lay : Layout) (p : Fin NPROC) (argv : List Nat) (args : List (List UInt8)) (s : State) : Prop where
  fetched : ∃ G, Fetched lay G argv args s.ram ∧ Linked lay G s.view
  live : (s.proc p).state.live = true
  kstack : s.kstack p ∈ s.kernel

/-- `exec` of fewer than `MAXARG` strings fails exactly if memory cannot be prepared or they do not fit
in the stack page; otherwise the program can read them back from `a1`, where its stack begins. -/
theorem exec_vector (fs : List UInt8 → Option File) (path : List UInt8) (h : Ready lay p argv args s)
    (hlen : args.length < MAXARG) :
    ∃ v t, exec lay fs p path argv (512 * s.kstack p + 64) s = .ok (v, t) ∧
      (v = -1 ↔ (¬ ∃ d sz m, Prepared lay fs p path s d sz m) ∨ PGSIZE < argsRoom args) ∧
      (v ≠ -1 → v = args.length ∧ ∃ d tf ptrs, (t.proc p).pagetable = some d ∧ (t.proc p).trapframe = some tf ∧
        t.ram.pte tf SP = t.ram.pte tf A1 ∧ HasArgs t.ram d (t.proc p).sz (t.ram.pte tf A1) args ptrs) ∧
      ∀ d sz m, Prepared lay fs p path s d sz m → ∃ x m',
        execArgs d sz (512 * s.kstack p + 64) argv m = .ok (x, m') ∧ (x = none ↔ v = -1) ∧
          Kept (fun q => userPage m d (sz - PGSIZE) ≠ some q ∧ q ≠ s.kstack p) m m' := by
  obtain ⟨G, hG, hL⟩ := h.fetched
  obtain ⟨d, tf, T, hd, htf, hT, hmap⟩ := hL.proc p (Vm.live_ne_unused h.live)
  have htu : G.used tf := hL.roles.within (.trapframe p) tf htf
  have hku : G.used (s.kstack p) := hL.roles.within .kernel _ h.kstack
  have hs : Ustack (G.useAll argv) (s.kstack p) (512 * s.kstack p + 64) := ⟨.inr hku, by omega, by omega⟩
  have hargv : ∀ x ∈ argv, (G.useAll argv).used x ∧ x ≠ s.kstack p := fun x hx => ⟨.inl hx, hG.mem hx hku⟩
  obtain ⟨v, t, hrun, hcase⟩ := (exec_spec fs path hG.sound hd htf (.inr htu) hT hmap hs hG.strings hargv
    hlen).exists
  have hiff : v = -1 ↔ (¬ ∃ d sz m, Prepared lay fs p path s d sz m) ∨ 4096 < argsRoom args := by
    rcases hcase with ⟨hv, hbad, _⟩ | ⟨hv, hroom, e, k, S, g, m, hprep, _⟩
    · exact ⟨fun _ => hbad, fun _ => hv⟩
    · refine ⟨fun hneg => by omega, fun hbad => ?_⟩
      rcases hbad with hno | hbig
      · exact absurd ⟨e, _, m, hprep⟩ hno
      · omega
  refine ⟨v, t, hrun, hiff, fun hv => ?_, fun e sz m hprep => ?_⟩
  · obtain ⟨hneg, _⟩ | ⟨hv, hroom, e, k, S, g, m, _, hrep⟩ := hcase
    · exact absurd hneg hv
    have hed : e ≠ d := by
      rintro rfl
      exact absurd (hT.symm.trans hrep.new) (by simp)
    have hpage : StackPage lay (((G.useAll argv).setTable e (some S)).setTable d none) e k S g tf :=
      ⟨by rw [Vm.setTable_other hed, Vm.setTable_self], hrep.map.kernel, hrep.leaf, hrep.user⟩
    have hproc : t.proc p = { s.proc p with pagetable := some e, sz := k * 4096 + 4096 } := by
      rw [hrep.same]
      exact Function.update_self ..
    rw [hproc]
    refine ⟨hv, e, tf, pointers (k * 4096 + 4096) args, rfl, htf, hrep.sp.trans hrep.a1.symm, ?_⟩
    rw [hrep.a1]
    exact hrep.pushed.hasArgs hpage hrep.sound hroom rfl
  · obtain ⟨k, S, g, hk, rfl, _, hkept, hm, _, hpage⟩ := hprep.page hG.sound htf (.inr htu)
    have hargs : List.Forall₂ (HasString m) argv args :=
      (forall₂_mem hG.strings).imp fun x arg hx => hx.2.kept hkept (.inr (.inl (.inl hx.1)))
    obtain ⟨x, m', hrun', _, hkept', hcase'⟩ := (execArgs_spec hpage ⟨hs.used, hs.lo, hs.hi⟩ hm hk hargs hargv hlen).exists
    refine ⟨x, m', hrun', ?_, hkept'.mono fun q hq => ⟨fun heq => hq.1 ?_, hq.2⟩⟩
    · have hex : ∃ d sz m, Prepared lay fs p path s d sz m := ⟨e, _, m, hprep⟩
      rw [hiff]
      rcases hcase' with ⟨rfl, hbig⟩ | ⟨rfl, hfits, _⟩
      · exact ⟨fun _ => .inr hbig, fun _ => rfl⟩
      · refine ⟨fun hno => (by cases hno), fun hbad => ?_⟩
        rcases hbad with hno | hbig
        · exact absurd hex hno
        · omega
    · rw [show k * 4096 + 4096 - PGSIZE = k * 4096 by unfold PGSIZE; omega, heq]
      exact hpage.userPage hm (Nat.le_refl _) (by omega)

def prepare (lay : Layout) (trapframe : Nat) (f : File) : Kmem (Option Nat) := do
  match ← execFile lay trapframe f with
  | none => ret none
  | some (pagetable, sz) => execStack lay pagetable sz

theorem result_eq {σ : Type} {c : Prog σ α} {s : σ} {a : α} (h : result c s = some a) : ∃ t, c s = .ok (a, t) := by
  unfold result at h
  cases hrun : c s with
  | error e => simp [hrun] at h
  | ok x =>
    obtain ⟨b, t⟩ := x
    simp only [hrun, Option.some.injEq] at h
    exact ⟨t, by rw [h]⟩

theorem Prepared.of_run {f : File} (hf : fs path = some f) (htf : (s.proc p).trapframe = some tf)
    (h : result (prepare lay tf f) s.ram = some (some sz)) : ∃ d m, Prepared lay fs p path s d sz m := by
  obtain ⟨m, hrun⟩ := result_eq h
  obtain ⟨o, r, hfile, hstack⟩ := bind_eq_ok hrun
  cases o with
  | none => cases hstack
  | some x => exact ⟨x.1, m, f, tf, x.2, r, hf, htf, hfile, hstack⟩

def argPage : Nat := ((result kalloc firstGrown.ram).join).getD 0

def oneArg : State :=
  { firstGrown with ram := (after kalloc firstGrown.ram).setPte argPage 0 97 }

def tinyElf : File := ⟨64, fun i => [127, 69, 76, 70].getD i 0⟩

theorem oneArg_ready : Ready smallLayout init [argPage] [[97]] oneArg := by
  obtain ⟨G, hG, hL, _⟩ := firstGrown_inv.sys
  have hS : Sound smallLayout G firstGrown.ram := hG
  obtain ⟨o, hrun, hcase⟩ := after_spec (kalloc_spec hS)
  have hres : result kalloc firstGrown.ram = some o := by simp [result, hrun]
  have hsome : (result kalloc firstGrown.ram).join.isSome = true := by decide +kernel
  obtain ⟨rfl, _⟩ | ⟨q, rfl, hq, hnew, _, _, hk⟩ := hcase
  · rw [hres] at hsome
    cases hsome
  have hpage : argPage = q := by simp [argPage, hres]
  have hwrite : Kept (· ≠ q) (after kalloc firstGrown.ram) oneArg.ram := by
    rw [← hpage]
    exact setPte_kept (by decide)
  have hempty := Fetched.nil hS
  refine ⟨⟨G, ?_, hL.same ⟨rfl, rfl, rfl⟩ fun _ => Iff.rfl⟩, firstGrown_live.1, firstGrown_inv.kstack init⟩
  rw [hpage]
  refine hempty.push ?_ (by rwa [Vm.useAll_nil]) (hk.trans hwrite) ⟨by decide, by decide, fun i hi => ?_⟩
  · rw [Vm.useAll_nil]
    exact hq.write (fun _ _ hT => hq.used_not_page (.inl rfl) hT) hwrite rfl
  · have hbytes : ∀ i < 2, oneArg.ram.byte (argPage * 4096 + i) = [97].getD i 0 := by decide +kernel
    rw [← hpage]
    exact hbytes i (Nat.lt_succ_of_le hi)

theorem oneArg_prepared : ∃ d m, Prepared smallLayout (fun _ => some tinyElf) init [] oneArg d 8192 m := by
  have htf : (oneArg.proc init).trapframe = some (((oneArg.proc init).trapframe).getD 0) := by decide +kernel
  refine Prepared.of_run rfl htf ?_
  decide +kernel

theorem exec_vector_one : Ready smallLayout init [argPage] [[97]] oneArg ∧
    ∃ t d tf ptrs, exec smallLayout (fun _ => some tinyElf) init [] [argPage] (512 * oneArg.kstack init + 64) oneArg =
        .ok (1, t) ∧ (t.proc init).pagetable = some d ∧ (t.proc init).trapframe = some tf ∧
      t.ram.pte tf SP = t.ram.pte tf A1 ∧ HasArgs t.ram d (t.proc init).sz (t.ram.pte tf A1) [[97]] ptrs := by
  obtain ⟨v, t, hrun, hiff, hargs, _⟩ := exec_vector (fun _ => some tinyElf) [] oneArg_ready (by decide)
  obtain ⟨d, m, hprep⟩ := oneArg_prepared
  have hv : v ≠ -1 := fun hneg => by
    rcases hiff.mp hneg with hno | hbig
    · exact hno ⟨d, _, m, hprep⟩
    · exact absurd hbig (by decide)
  obtain ⟨rfl, d, tf, ptrs, hd, htf, hsp, hhas⟩ := hargs hv
  exact ⟨oneArg_ready, t, d, tf, ptrs, hrun, hd, htf, hsp, hhas⟩

end TweakedXv6.Phys

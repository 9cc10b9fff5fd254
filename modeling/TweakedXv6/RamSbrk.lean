import TweakedXv6.RamProcs
import TweakedXv6.VmPages

namespace TweakedXv6.Phys

open Prog Files
open Vm (Layout Ghost Table UserMap KernelMap Linked pages freshProc leafAt tfVpn smallLayout init)

/-- `sbrk(n)` returns -1 and leaves the size and all mappings; or it returns the old size, the new size
is the sum, exactly the pages below it are mapped, and the new ones are zero. -/
def SbrkOk (s t : State) (p : Fin NPROC) (n v : Int) : Prop :=
  ∃ d, (s.proc p).pagetable = some d ∧ (t.proc p).pagetable = some d ∧
    (v = -1 ∧ (t.proc p).sz = (s.proc p).sz ∧ (∀ i, leafAt (view t.ram) d i = leafAt (view s.ram) d i) ∨
    v = (s.proc p).sz ∧ ((t.proc p).sz : Int) = (s.proc p).sz + n ∧
      (∀ i, pages (t.proc p).sz ≤ i → i < tfVpn → leafAt (view t.ram) d i = none) ∧
      (∀ i < pages (t.proc p).sz, leafAt (view t.ram) d i ≠ none) ∧
      ∀ i, pages (s.proc p).sz ≤ i → i < pages (t.proc p).sz →
        ∃ e, leafAt (view t.ram) d i = some e ∧ ZeroPage t.ram e.ppn)

variable {lay : Layout} {G : Ghost} {s t : State} {r : Ram} {T S : Table} {p : Fin NPROC} {d tf sz g i k : Nat} {n v : Int}
  {guard : Nat → Prop}

theorem Sound.leafAt (h : Sound lay G r) (hT : G.table d = some T) : Vm.leafAt (view r) d i = T.leaf i := by
  rw [← h.root d T hT]
  exact (h.rep d T hT).leafAt

theorem Grown.userMap {j : Nat} (hG : Grown r T S k j) (hU : UserMap T k guard) : UserMap S (k + j) guard where
  mapped i hi := by
    rcases Nat.lt_or_ge i k with hik | hik
    · rw [hG.old i (.inl hik)]
      exact hU.mapped i hik
    · obtain ⟨q, hq, _⟩ := hG.fresh i hik hi
      exact ⟨_, hq, .inl rfl⟩
  rest i hi hlt := by
    rw [hG.old i (.inr hi)]
    exact hU.rest i (by omega) hlt

theorem Grown.sameKernel {j : Nat} (hG : Grown r T S k j) (hle : k + j ≤ tfVpn) : Vm.SameKernel T S :=
  fun i hi => hG.old i (.inr (by omega))

theorem Inv.resize (h : Inv lay s) (hL : Linked lay G s.view) (hd : (s.proc p).pagetable = some d)
    (htf : (s.proc p).trapframe = some tf) (hK : KernelMap lay tf S) (hU : UserMap S (pages sz) (· = g))
    (hS : Sound lay (G.setTable d (some S)) r) (hst : (s.proc p).state ≠ .unused) :
    Inv lay ({ s with ram := r }.setProc p { s.proc p with sz := sz }) := by
  obtain ⟨_, _, _, hok⟩ := h.sys
  refine ⟨⟨G.setTable d (some S), hS, ?_, hok⟩, fun q fd hq => h.closed q fd ?_, h.kstack⟩
  · exact hL.resize (v := { s.proc p with sz := sz }) hd htf ⟨hK, g, hU⟩
      ⟨rfl, fun _ => Iff.rfl, rfl⟩ hst hd htf
  · by_cases hqp : q = p
    · subst hqp
      simpa [State.view, State.setProc] using hq
    · simpa [State.view, State.setProc, hqp] using hq

theorem setProc_size : { s with ram := r }.setProc p { s.proc p with sz := (s.proc p).sz } = { s with ram := r } := by
  simp [State.setProc]

theorem Inv.size_le (h : Inv lay s) (hlive : (s.proc p).state.live = true) : (s.proc p).sz ≤ 134217728 := by
  obtain ⟨G, hG, hL, _⟩ := h.sys
  obtain ⟨d, tf, T, _, _, hT, _, g, hU⟩ := hL.proc p (Vm.live_ne_unused hlive)
  have hle : pages (s.proc p).sz ≤ 32768 := hG.pages_le hT hU
  unfold pages at hle
  omega

theorem int_size (h : sz ≤ 134217728) : Int.bmod sz 4294967296 = sz := by
  rw [Int.bmod_def]
  omega

theorem growproc_spec (h : Inv lay s) (hlive : (s.proc p).state.live = true) (hlo : -2147483648 ≤ n) (hhi : n < 2147483648) :
    Returns (growproc lay p n) s fun ok t => Inv lay t ∧
      (0 ≤ (s.proc p).sz + n → SbrkOk s t p n (if ok then (s.proc p).sz else -1)) ∧
      ((s.proc p).sz + n < 0 → ok = true ∧ (t.proc p).sz = (s.proc p).sz) := by
  obtain ⟨G, hG, hL, _⟩ := h.sys
  have hst := Vm.live_ne_unused hlive
  obtain ⟨d, tf, T, hd, htf, hT, hK, g, hU⟩ := hL.proc p hst
  have hS : Sound lay G s.ram := hG
  change (s.proc p).pagetable = some d at hd
  change (s.proc p).trapframe = some tf at htf
  change UserMap T (pages (s.proc p).sz) (· = g) at hU
  have hle := hS.pages_le hT hU
  have hsz := h.size_le hlive
  have hresize : ∀ {R : Table} {r : Ram} {sz' : Nat}, KernelMap lay tf R → UserMap R (pages sz') (· = g) →
      Sound lay (G.setTable d (some R)) r → Inv lay ({ s with ram := r }.setProc p { s.proc p with sz := sz' }) :=
    fun hRK hRU hR => h.resize hL hd htf hRK hRU hR hst
  have hdone : ∀ {R : Table} {r : Ram} {sz' : Nat}, Sound lay (G.setTable d (some R)) r → UserMap R (pages sz') (· = g) →
      (sz' : Int) = (s.proc p).sz + n →
      (∀ i, pages (s.proc p).sz ≤ i → i < pages sz' → ∃ e, R.leaf i = some e ∧ ZeroPage r e.ppn) →
      SbrkOk s ({ s with ram := r }.setProc p { s.proc p with sz := sz' }) p n (s.proc p).sz := by
    intro R r sz' hR hRU hsum hnew
    have hself : ({ s with ram := r }.setProc p { s.proc p with sz := sz' }).proc p = { s.proc p with sz := sz' } :=
      Function.update_self ..
    refine ⟨d, hd, by rw [hself]; exact hd, .inr ⟨rfl, by rw [hself]; exact hsum, ?_, ?_, ?_⟩⟩
    all_goals rw [hself]
    · intro i hi hlt
      rw [← hRU.rest i hi hlt]
      exact hR.leafAt Vm.setTable_self
    · intro i hi
      have hne := hRU.ne_none hi
      rwa [← hR.leafAt Vm.setTable_self] at hne
    · intro i hi hlt
      obtain ⟨e, he, hz⟩ := hnew i hi hlt
      exact ⟨e, (hR.leafAt Vm.setTable_self).trans he, hz⟩
  rw [Returns, growproc, post_read_bind, hd]
  dsimp only
  rw [Nat.mod_eq_of_lt (by omega : (s.proc p).sz < 4294967296)]
  split
  next hpos =>
    have hsum : (((s.proc p).sz + n) % 4294967296).toNat = ((s.proc p).sz + n : Int) := by omega
    generalize (((s.proc p).sz + n) % 4294967296).toNat = new at hsum
    refine bind_onRam (uvmalloc_spec hS hT hU) ?_
    rintro v u (⟨rfl, R, hR, hRleaf, _⟩ | ⟨hv, R, hR, hgrown, _⟩)
    · have hsame := hresize ((Vm.sameKernel_of_leaf hRleaf).kernelMap hK) (hU.congr hRleaf) hR
      rw [setProc_size] at hsame
      rw [Nat.zero_mod, if_pos rfl, post_ret]
      refine ⟨hsame, fun _ => ⟨d, hd, hd, .inl ⟨rfl, rfl, fun i => ?_⟩⟩, fun hneg => absurd hneg (by omega)⟩
      exact (hR.leafAt Vm.setTable_self).trans (hRleaf ▸ (hS.leafAt hT).symm)
    · rw [Nat.max_eq_right (by omega)] at hv
      subst hv
      have hpages : pages (s.proc p).sz ≤ pages v := by
        unfold pages
        omega
      have hRU := hgrown.userMap hU
      rw [Nat.add_sub_cancel' hpages] at hRU
      have hvle := hR.pages_le Vm.setTable_self hRU
      have hvsz : v ≤ 134217728 := by
        unfold pages at hvle
        omega
      have hRK : KernelMap lay tf R := (hgrown.sameKernel (by unfold tfVpn; omega)).kernelMap hK
      rw [Nat.mod_eq_of_lt (by omega), if_neg (by omega), post_change_bind, post_ret]
      refine ⟨hresize hRK hRU hR, fun _ => hdone hR hRU hsum fun i hi hlt => ?_, fun hneg => absurd hneg (by omega)⟩
      obtain ⟨q, hq, hz⟩ := hgrown.fresh i hi (by omega)
      exact ⟨_, hq, hz⟩
  next hpos =>
    split
    next hneg =>
      refine bind_onRam (uvmdealloc_spec hS hT hU) ?_
      rintro v u ⟨hv, hR, _⟩
      have hvsz : v ≤ (s.proc p).sz := by omega
      have hpages : pages v ≤ pages (s.proc p).sz := by
        unfold pages
        omega
      have hRU : UserMap (T.clear (pages v) (pages (s.proc p).sz - pages v)) (pages v) (· = g) := by
        refine UserMap.clear ?_
        rwa [Nat.add_sub_cancel' hpages]
      have hRK : KernelMap lay tf (T.clear (pages v) (pages (s.proc p).sz - pages v)) :=
        (Vm.sameKernel_clear (by unfold tfVpn; omega)).kernelMap hK
      rw [Nat.mod_eq_of_lt (by omega), post_change_bind, post_ret]
      refine ⟨hresize hRK hRU hR, fun hsum => ?_, fun hsum => ⟨rfl, ?_⟩⟩
      · exact hdone hR hRU (by omega) fun i hi hlt => absurd hlt (by omega)
      · rw [show v = (s.proc p).sz by omega]
        exact congrArg Vm.Proc.sz (Function.update_self ..)
    next hneg =>
      have hsame : Sound lay (G.setTable d (some T)) s.ram := by rwa [Vm.setTable_eq hT]
      refine ⟨hresize hK hU hsame, fun _ => ?_, fun hsum => absurd hsum (by omega)⟩
      exact hdone hsame hU (by omega) fun i hi hlt => absurd hlt (by omega)

theorem sysSbrk_spec (h : Inv lay s) (hlive : (s.proc p).state.live = true) (n : Int32) :
    Returns (sysSbrk lay p n) s fun v t => Inv lay t ∧ (0 ≤ (s.proc p).sz + n.toInt → SbrkOk s t p n.toInt v) ∧
      ((s.proc p).sz + n.toInt < 0 → v = (s.proc p).sz ∧ (t.proc p).sz = (s.proc p).sz) := by
  rw [Returns, sysSbrk, post_read_bind, int_size (h.size_le hlive)]
  refine (growproc_spec h hlive n.le_toInt n.toInt_lt).bind ?_
  rintro ok t ⟨ht, hgood, hbad⟩
  cases ok with
  | false => exact ⟨ht, hgood, fun hneg => absurd (hbad hneg).1 (by simp)⟩
  | true => exact ⟨ht, hgood, fun hneg => ⟨rfl, (hbad hneg).2⟩⟩

def spawn (lay : Layout) : Kernel (Option (Fin NPROC)) := do
  match ← allocproc lay with
  | none => ret none
  | some p => do
    change fun s => s.setProc p { s.proc p with state := .runnable }
    ret (some p)

theorem spawn_spec (h : Inv lay s) : Returns (spawn lay) s fun _ t => Inv lay t := by
  obtain ⟨G, hG, hL, hok⟩ := h.sys
  refine (allocproc_spec hG hL).bind ?_
  rintro o t ⟨_, ⟨rfl, ht, heq⟩ | ⟨np, tf, d, S, rfl, hnp, htf, hd, ht, hK, hU, heq⟩⟩
  · rw [heq]
    exact ⟨⟨G, ht, hL.same ⟨rfl, rfl, rfl⟩ fun _ => Iff.rfl, hok⟩, h.closed, h.kstack⟩
  generalize t.ram = m at ht heq
  subst heq
  have hrun : ({ s with ram := m }.setProc np (freshProc tf d)).proc np = freshProc tf d := Function.update_self ..
  have hU' : UserMap S (pages 0) (· = 0) := Vm.UserMap.weaken hU fun _ hf => hf.elim
  dsimp only
  rw [post_change_bind, post_ret, hrun]
  refine ⟨⟨_, ht, ?_, hok⟩, fun q fd hq => ?_, h.kstack⟩
  · refine hL.add (p := np) (v := { freshProc tf d with state := .runnable }) hnp htf hd ⟨hK, 0, hU'⟩
      ⟨rfl, fun _ => Iff.rfl, ?_⟩ (by simp) rfl rfl
    simp [State.view, State.setProc]
  · by_cases hqn : q = np
    · subst hqn
      simp [State.view, State.setProc, ProcState.live] at hq
    · refine h.closed q fd ?_
      simpa [State.view, State.setProc, hqn] using hq

def after {σ α : Type} (m : Prog σ α) (s : σ) : σ :=
  match m s with
  | .ok x => x.2
  | .error _ => s

theorem after_spec {σ α : Type} {m : Prog σ α} {s : σ} {Q : α → σ → Prop} (h : Returns m s Q) :
    ∃ a, m s = .ok (a, after m s) ∧ Q a (after m s) := by
  obtain ⟨a, t, hrun, hQ⟩ := h.exists
  have ht : after m s = t := by simp [after, hrun]
  exact ⟨a, by rw [ht, hrun], by rwa [ht]⟩

def smallBoot : State where
  ram := ⟨Vm.smallBoot.mem.free, zeroBytes, Vm.smallBoot.mem.fails⟩
  proc := Vm.smallBoot.proc
  name _ := []
  ofile := Vm.smallBoot.ofile
  ft := Vm.smallBoot.ft
  initproc := Vm.smallBoot.initproc
  kernel := Vm.smallBoot.kernel
  kstack _ := 0x87fff
  begun := 0
  ended := 0

theorem smallBoot_inv : Inv smallLayout smallBoot := by
  have hboot : Vm.Boot smallLayout smallBoot.view := { Vm.smallBoot_boot with }
  exact ⟨hboot.inv.sys, hboot.inv.closed, fun _ => List.mem_singleton_self _⟩

def first : State := after (spawn smallLayout) smallBoot

def firstGrown : State := after (sysSbrk smallLayout init 4096) first

theorem first_inv : Inv smallLayout first := by
  obtain ⟨_, _, h⟩ := after_spec (spawn_spec smallBoot_inv)
  exact h

theorem first_live : (first.proc init).state.live = true := by decide +kernel

theorem firstGrown_inv : Inv smallLayout firstGrown := by
  obtain ⟨_, _, h, _⟩ := after_spec (sysSbrk_spec first_inv first_live 4096)
  exact h

theorem firstGrown_live : (firstGrown.proc init).state.live = true ∧ (firstGrown.proc init).sz = 4096 := by
  decide +kernel

/-- `sbrk(n)` does what it owes, for any process and any 32-bit `n`, exactly if the new size is not below
zero. -/
theorem sbrk_exact_iff (h : Inv lay s) (hlive : (s.proc p).state.live = true) (n : Int32) :
    ∃ v t, sysSbrk lay p n s = .ok (v, t) ∧ (SbrkOk s t p n.toInt v ↔ 0 ≤ (s.proc p).sz + n.toInt) := by
  obtain ⟨v, t, hrun, _, hgood, hbad⟩ := (sysSbrk_spec h hlive n).exists
  refine ⟨v, t, hrun, fun hok => ?_, hgood⟩
  by_contra hneg
  obtain ⟨hv, hsz⟩ := hbad (by omega)
  obtain ⟨d, _, _, ⟨hv', _⟩ | ⟨_, hsum, _⟩⟩ := hok
  · omega
  · omega

theorem sbrk_exact_iff_grow : Inv smallLayout firstGrown ∧ (firstGrown.proc init).state.live = true ∧
    ∃ v t, sysSbrk smallLayout init 8192 firstGrown = .ok (v, t) ∧
      (SbrkOk firstGrown t init 8192 v ↔ 0 ≤ (firstGrown.proc init).sz + (8192 : Int)) :=
  ⟨firstGrown_inv, firstGrown_live.1, sbrk_exact_iff firstGrown_inv firstGrown_live.1 8192⟩

/-- A process of one page asks for two pages less: the call succeeds, and its size is what it was. -/
theorem sbrk_below_zero : Inv smallLayout firstGrown ∧ (firstGrown.proc init).state.live = true ∧
    ∃ t, sysSbrk smallLayout init (-8192) firstGrown = .ok (4096, t) ∧ (t.proc init).sz = 4096 ∧
      ¬ SbrkOk firstGrown t init (-8192) 4096 := by
  obtain ⟨hlive, hsz⟩ := firstGrown_live
  obtain ⟨v, t, hrun, _, _, hbad⟩ := (sysSbrk_spec firstGrown_inv hlive (-8192)).exists
  rw [hsz] at hbad
  obtain ⟨hv, ht⟩ := hbad (by decide)
  have hv' : v = 4096 := hv
  subst hv'
  refine ⟨firstGrown_inv, hlive, t, hrun, ht, ?_⟩
  rintro ⟨d, _, _, ⟨hv', _⟩ | ⟨_, hsum, _⟩⟩
  · omega
  · rw [ht, hsz] at hsum
    omega

end TweakedXv6.Phys

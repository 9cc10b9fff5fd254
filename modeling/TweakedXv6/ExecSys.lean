import TweakedXv6.ExecRuns

namespace TweakedXv6.Phys

open Prog Files
open Vm (PGSIZE Layout Pte Ghost Table KernelMap Linked Spare smallLayout init)

variable {lay : Layout} {G : Ghost} {s t : State} {r r' m : Ram} {T S : Table} {d q k o x tf us sz len srcva : Nat} {e : Pte}
  {p : Fin NPROC} {arg : List UInt8} {args : List (List UInt8)} {argv : List Nat}

section Buffer

variable (h : Sound lay G r) (hT : G.table d = some T) (hK : KernelMap lay tf T) (hx : G.used x)
  (hlen : o + len ≤ 4096)

include h hT hK hx hlen

theorem Sound.buffer : Buffer r d (x * 4096 + o) len := by
  have hpage : ∀ i < len, (x * 4096 + o + i) / 4096 = x := fun i hi => by omega
  refine ⟨fun i hi va => ?_, fun i hi htable => ?_⟩
  · rw [hpage i hi]
    exact Closed.of_used h hT hK hx va
  · rw [hpage i hi] at htable
    exact h.used_not_page hx hT (h.isTable hT htable)

theorem copyin_used :
    Returns (copyin d (x * 4096 + o) srcva len) r fun _ r' => Sound lay G r' ∧ Kept (· ≠ x) r r' := by
  obtain ⟨j, hreach, hrun⟩ : ∃ j, Reached r d srcva len j ∧ copyinLoop d (len + 1) (x * 4096 + o) srcva len r = _ :=
    copyinLoop_run (h.userTable hT hK) (h.buffer hT hK hx hlen) (Nat.lt_succ_self len)
  have hle := hreach.le
  obtain ⟨hr', hk, _⟩ := transfer_page o j (fun i => userByte r d (srcva + i)) (by omega) h
    fun _ _ hS => h.used_not_page hx hS
  rw [Returns, Post, copyin, hrun]
  exact ⟨hr', hk⟩

theorem copyinstr_used : Returns (copyinstr d (x * 4096 + o) srcva len) r fun ok r' =>
      Sound lay G r' ∧ Kept (· ≠ x) r r' ∧ (ok = true → o = 0 → ∃ arg, HasString r' x arg) := by
  have hwrite := fun n (hn : o + n ≤ 4096) => transfer_page o n (fun i => userByte r d (srcva + i)) hn h
    fun _ _ hS => h.used_not_page hx hS
  rw [Returns, Post, copyinstr]
  have hloop : (∃ j < len, StringAt r d srcva j ∧ _) ∨ _ :=
    copyinstrLoop_run (h.userTable hT hK) (h.buffer hT hK hx hlen) (Nat.lt_succ_self len)
  obtain ⟨j, hj, hstr, hrun⟩ | ⟨j, hreach, _, hrun⟩ := hloop
  · obtain ⟨hr', hk, hin, _⟩ := hwrite (j + 1) (by omega)
    rw [hrun]
    refine ⟨hr', hk, fun _ ho => ⟨(List.range j).map fun i => userByte r d (srcva + i), ?_, ?_, fun i hi => ?_⟩⟩
    · simp
      omega
    · intro hz
      obtain ⟨i, hi, hzero⟩ := List.mem_map.mp hz
      exact hstr.before i (List.mem_range.mp hi) hzero
    · subst ho
      rw [List.length_map, List.length_range] at hi
      simp only [Nat.add_zero] at hin ⊢
      rw [hin i (Nat.lt_succ_of_le hi)]
      rcases Nat.lt_or_eq_of_le hi with hlt | rfl
      · simp [List.getD_eq_getElem?_getD, List.getElem?_range hlt]
      · simp [List.getD_eq_getElem?_getD, hstr.nul]
  · have hle := hreach.le
    obtain ⟨hr', hk, _⟩ := hwrite j (by omega)
    rw [hrun]
    exact ⟨hr', hk, fun hno => by cases hno⟩

end Buffer

theorem Busy.useAll (hb : Busy lay G x) : Busy lay (G.useAll argv) x := by
  rcases hb with hm | hu | ht
  · exact .inl hm
  · exact .inr (.inl (.inr hu))
  · exact .inr (.inr ht)

theorem Busy.not_mem (hb : Busy lay G x) (h : Sound lay (G.useAll argv) r) (hl : Spare G argv) : x ∉ argv := by
  intro hx
  have hused : (G.useAll argv).used x := .inl hx
  rcases hb with hm | hu | ⟨d, T, s, hT, hs⟩
  · exact hm (h.part.within .used x hused)
  · exact hl.fresh x hx hu
  · cases h.part.unique .used (.spot d s) x hused ⟨T, hT, hs⟩

theorem fetchArgs_spec {fuel i uargv : Nat} (h : Fetched lay G argv args r) (hT : G.table d = some T) (hK : KernelMap lay tf T)
    (hu : G.used us) (hfuel : args.length + fuel = 32) :
    Returns (fetchArgs d sz (512 * us) uargv fuel i argv) r fun x r' => Sound lay (G.useAll x.2) r' ∧ Spare G x.2 ∧
      Kept (fun y => Busy lay G y ∧ y ≠ us) r r' ∧
      (x.1 = true → ∃ args, Fetched lay G x.2 args r' ∧ args.length < 32) := by
  induction fuel generalizing r i argv args with
  | zero => exact ⟨h.sound, h.spare, Kept.refl, fun hno => by cases hno⟩
  | succ fuel ih =>
    have hstay : ∀ {m : Ram}, Sound lay (G.useAll argv) m → Kept (fun y => Busy lay G y ∧ y ≠ us) r m →
        Sound lay (G.useAll argv) m ∧ Spare G argv ∧ Kept (fun y => Busy lay G y ∧ y ≠ us) r m ∧
          (false = true → ∃ args, Fetched lay G argv args m ∧ args.length < 32) :=
      fun hm hkm => ⟨hm, h.spare, hkm, fun hno => by cases hno⟩
    rw [Returns, fetchArgs]
    split
    next => exact hstay h.sound Kept.refl
    next =>
    rw [show 8 * (512 * us) = us * 4096 + 0 by omega]
    refine Post.bind (copyin_used h.sound hT hK (.inr hu) (by omega)) ?_
    rintro ok m ⟨hm, hkm⟩
    have hkm' : Kept (fun y => Busy lay G y ∧ y ≠ us) r m := hkm.mono fun y hy => hy.2
    cases ok with
    | false => exact hstay hm hkm'
    | true =>
    have hfetched : Fetched lay G argv args m :=
      ⟨hm, h.spare, (forall₂_mem h.strings).imp fun y arg hy => hy.2.kept hkm (h.mem hy.1 hu)⟩
    rw [if_pos rfl, post_read_bind]
    split
    next => exact ⟨hm, h.spare, hkm', fun _ => ⟨args, hfetched, by omega⟩⟩
    next =>
    refine Post.bind (kalloc_spec hm) ?_
    rintro o w (⟨rfl, hw, hbyte⟩ | ⟨q, rfl, hw, hq, _, hfree, hkw⟩)
    · exact hstay hw (hkm'.trans fun a _ => by rw [hbyte])
    dsimp only
    rw [show q * PGSIZE = q * 4096 + 0 by unfold PGSIZE; omega]
    refine Post.bind (copyinstr_used (G := (G.useAll argv).use q) hw hT hK (.inl rfl) (Nat.le_refl _)) ?_
    rintro ok z ⟨hz, hkz, hstr⟩
    have hkq : Kept (· ≠ q) m z := hkw.trans hkz
    have hkz' : Kept (fun y => Busy lay G y ∧ y ≠ us) r z :=
      hkm'.trans (hkq.mono fun y hy hyq => hy.1.useAll.not_free hm (hyq ▸ hfree))
    cases ok with
    | false => exact ⟨by rwa [← Vm.useAll_append], h.spare.push hq, hkz', fun hno => by cases hno⟩
    | true =>
      obtain ⟨arg, harg⟩ := hstr rfl rfl
      have hlen : (args ++ [arg]).length + fuel = 32 := by
        rw [List.length_append, List.length_singleton]
        omega
      refine (ih (hfetched.push hz hq hkq harg) hlen).mono ?_
      rintro x w' ⟨hw', hspare, hkw', hall⟩
      exact ⟨hw', hspare, hkz'.trans hkw', hall⟩

theorem freeArgs_spec (h : Sound lay (G.useAll argv) r) (hl : Spare G argv) :
    Returns (each argv fun q => kfree lay q) r fun _ r' => Sound lay G r' ∧ Kept (· ∉ argv) r r' := by
  induction argv generalizing r with
  | nil => exact ⟨by rwa [Vm.useAll_nil] at h, Kept.refl⟩
  | cons q argv ih =>
    obtain ⟨hq, hnd⟩ := List.nodup_cons.mp hl.nodup
    refine (kfree_spec h (.inl List.mem_cons_self)).bind ?_
    rintro _ m ⟨hm, hkm⟩
    rw [Vm.useAll_cons hq (hl.fresh q List.mem_cons_self)] at hm
    refine (ih hm ⟨hnd, fun x hx => hl.fresh x (List.mem_cons_of_mem q hx)⟩).mono ?_
    rintro _ r' ⟨hr', hk⟩
    refine ⟨hr', (hkm.mono fun x hx hxq => hx (hxq ▸ List.mem_cons_self)).trans (hk.mono fun x hx hmem => ?_)⟩
    exact hx (List.mem_cons_of_mem q hmem)

/-- `end_op` was called once for each `begin_op`, and if the result is -1, nothing in use has changed
apart from the kernel stack. -/
def ExecDone (lay : Layout) (G : Ghost) (p : Fin NPROC) (s : State) (v : Int) (t : State) : Prop :=
  Inv lay t ∧ (∃ n, n ≤ 1 ∧ t.begun = s.begun + n ∧ t.ended = s.ended + n) ∧
    (v = -1 → Sound lay G t.ram ∧ t.proc = s.proc ∧ t.name = s.name ∧
      Kept (fun x => Busy lay G x ∧ x ≠ s.kstack p) s.ram t.ram)

theorem sysExec_spec (fs : List UInt8 → Option File) (h : Inv lay s) (hG : Sound lay G s.ram) (hL : Linked lay G s.view)
    (hlive : (s.proc p).state.live = true) : Returns (sysExec lay fs p) s (ExecDone lay G p s) := by
  obtain ⟨d, tf, T, hd, htf, hT, hmap⟩ := hL.proc p (Vm.live_ne_unused hlive)
  obtain ⟨_, _, _, hok⟩ := h.sys
  have htu : G.used tf := hL.roles.within (.trapframe p) tf htf
  have hku : G.used (s.kstack p) := hL.roles.within .kernel _ (h.kstack p)
  change (s.proc p).pagetable = some d at hd
  change (s.proc p).trapframe = some tf at htf
  -- the state when no call of `exec` has succeeded
  have hfail : ∀ {m : Ram} {n : Nat}, n ≤ 1 → Sound lay G m → Kept (fun x => Busy lay G x ∧ x ≠ s.kstack p) s.ram m →
      ExecDone lay G p s (-1) { s with ram := m, begun := s.begun + n, ended := s.ended + n } :=
    fun hn hm hk => ⟨⟨⟨G, hm, hL.same ⟨rfl, rfl, rfl⟩ fun _ => Iff.rfl, hok⟩, h.closed, h.kstack⟩, ⟨_, hn, rfl, rfl⟩,
      fun _ => ⟨hm, rfl, rfl, hk⟩⟩
  rw [Returns, sysExec, post_read_bind, post_read_bind, hd, htf]
  dsimp only
  refine bind_run_onRam rfl (bind_onRam (copyinstr_used hG hT hmap.kernel hku (by decide)) ?_)
  rintro ok r₁ ⟨h₁, hk₁, _⟩
  have hk₁' : Kept (fun x => Busy lay G x ∧ x ≠ s.kstack p) s.ram r₁ := hk₁.mono fun x hx => hx.2
  cases ok with
  | false => exact hfail (Nat.zero_le 1) h₁ hk₁'
  | true =>
  refine bind_run_onRam rfl (bind_run_onRam rfl (bind_onRam (fetchArgs_spec (.nil h₁) hT hmap.kernel hku rfl) ?_))
  rintro ⟨ok, argv⟩ r₂ ⟨h₂, hspare, hk₂, hall⟩
  have hbusy : ∀ x, Busy lay G x ∧ x ≠ s.kstack p → x ∉ argv := fun x hx => hx.1.not_mem h₂ hspare
  have hk₂' : Kept (fun x => Busy lay G x ∧ x ≠ s.kstack p) s.ram r₂ := hk₁'.trans hk₂
  cases ok with
  | false =>
    refine bind_onRam (freeArgs_spec h₂ hspare) ?_
    rintro _ r₃ ⟨h₃, hk₃⟩
    exact hfail (Nat.zero_le 1) h₃ (hk₂'.trans (hk₃.mono hbusy))
  | true =>
    obtain ⟨args, hargs, hlen⟩ := hall rfl
    have hs : Ustack (G.useAll argv) (s.kstack p) (512 * s.kstack p + 64) := ⟨.inr hku, by omega, by omega⟩
    have hargv : ∀ x ∈ argv, (G.useAll argv).used x ∧ x ≠ s.kstack p := fun x hx => ⟨.inl hx, hargs.mem hx hku⟩
    rw [if_pos rfl]
    refine Post.bind (exec_spec fs _ (s := { s with ram := r₂ }) hargs.sound hd htf (.inr htu) hT hmap hs hargs.strings hargv
      hlen) ?_
    rintro v t (⟨rfl, _, hf⟩ | ⟨rfl, _, e, k, S, g, _, _, hrep⟩)
    · obtain ⟨h₃, hk₃, heq⟩ := hf
      generalize t.ram = m at h₃ hk₃ heq
      subst heq
      refine bind_onRam (freeArgs_spec h₃ hspare) ?_
      rintro _ r₄ ⟨h₄, hk₄⟩
      exact hfail (Nat.le_refl 1) h₄ (hk₂'.trans ((hk₃.mono fun x hx => ⟨hx.1.useAll, hx.2⟩).trans (hk₄.mono hbusy)))
    · obtain ⟨he, h₃, hSmap, _, _, _, _, _, heq⟩ := hrep
      generalize t.ram = m at h₃ heq
      subst heq
      refine bind_onRam (freeArgs_spec (G := (G.setTable e (some S)).setTable d none) h₃ ⟨hspare.nodup, hspare.fresh⟩) ?_
      rintro _ r₄ ⟨h₄, _⟩
      refine ⟨⟨⟨_, h₄, ?_, hok⟩, fun q fd hq => h.closed q fd ?_, h.kstack⟩, ⟨1, Nat.le_refl 1, rfl, rfl⟩, fun hneg => by omega⟩
      · exact hL.replace (v := { s.proc p with pagetable := some e, sz := k * 4096 + 4096 }) hd htf he hSmap
          ⟨rfl, fun _ => Iff.rfl, rfl⟩ (Vm.live_ne_unused hlive) rfl htf
      · by_cases hqp : q = p
        · subst hqp
          simpa [State.view, State.setProc, State.setName] using hq
        · simpa [State.view, State.setProc, State.setName, hqp] using hq

/-- For any file, process and arguments, and whenever `kalloc` fails: `end_op` is called once for each
`begin_op`, and with -1 the process is as before. -/
theorem exec_atomic (fs : List UInt8 → Option File) (h : Inv lay s) (hlive : (s.proc p).state.live = true) :
    ∃ v t d tf, sysExec lay fs p s = .ok (v, t) ∧
    (s.proc p).pagetable = some d ∧ (s.proc p).trapframe = some tf ∧ Inv lay t ∧
    (∃ n, n ≤ 1 ∧ t.begun = s.begun + n ∧ t.ended = s.ended + n) ∧
    (v = -1 → t.proc p = s.proc p ∧ t.name p = s.name p ∧
      (∀ o < 4096, t.ram.byte (tf * 4096 + o) = s.ram.byte (tf * 4096 + o)) ∧ Unchanged s.ram t.ram d (s.proc p).sz) := by
  obtain ⟨G, hG, hL, _⟩ := h.sys
  have hS : Sound lay G s.ram := hG
  obtain ⟨d, tf, T, hd, htf, hT, _, g, hU⟩ := hL.proc p (Vm.live_ne_unused hlive)
  have htu : G.used tf := hL.roles.within (.trapframe p) tf htf
  have hku : G.used (s.kstack p) := hL.roles.within .kernel _ (h.kstack p)
  obtain ⟨v, t, hrun, ht, hcount, hneg⟩ := (sysExec_spec fs h hS hL hlive).exists
  refine ⟨v, t, d, tf, hrun, hd, htf, ht, hcount, fun hv => ?_⟩
  obtain ⟨htS, hproc, hname, hkept⟩ := hneg hv
  refine ⟨by rw [hproc], by rw [hname], fun o ho => hkept.page ⟨.inr (.inl htu), ?_⟩ ho, ?_⟩
  · rintro rfl
    cases hL.roles.unique (.trapframe p) .kernel _ htf (h.kstack p)
  · refine Unchanged.of_kept hS hT hU htS hT hkept fun n x hx => ⟨.inr (.inr ⟨d, T, .leaf n, hT, hx⟩), ?_⟩
    rintro rfl
    cases hS.part.unique .used (.spot d (.leaf n)) _ hku ⟨T, hT, hx⟩

def firstFrame : Nat := ((firstGrown.proc init).trapframe).getD 0

def firstPage : Nat := (userPage firstGrown.ram (((firstGrown.proc init).pagetable).getD 0) 0).getD 0

/-- The process has the string `x` at address 16, which is its path and, by the vector at address 0, its
only argument. -/
def calling : State :=
  let regs := (firstGrown.ram.setPte firstFrame A0 16).setPte firstFrame A1 0
  { firstGrown with ram := (regs.setPte firstPage 0 16).setPte firstPage 2 120 }

theorem calling_inv : Inv smallLayout calling := by
  obtain ⟨G, hG, hL, hok⟩ := firstGrown_inv.sys
  have hS : Sound smallLayout G firstGrown.ram := hG
  obtain ⟨d, tf, T, hd, htf, hT, hmap⟩ := hL.proc init (Vm.live_ne_unused firstGrown_live.1)
  have htu : G.used tf := hL.roles.within (.trapframe init) tf htf
  change (firstGrown.proc init).pagetable = some d at hd
  change (firstGrown.proc init).trapframe = some tf at htf
  have hframe : firstFrame = tf := by simp [firstFrame, htf]
  have huser : userPage firstGrown.ram d 0 = some firstPage := by
    have hsome : (userPage firstGrown.ram (((firstGrown.proc init).pagetable).getD 0) 0).isSome = true := by decide +kernel
    obtain ⟨q, hq⟩ := Option.isSome_iff_exists.mp hsome
    rw [hd] at hq
    simp only [Option.getD_some] at hq
    simp [firstPage, hd, hq]
  have htable : ∀ d T, G.table d = some T → ¬ T.Page firstPage :=
    fun _ _ hT' => hS.leaf_not_page hT (hS.userPage_at hT hmap.kernel huser) hT'
  have hmem : Sound smallLayout G calling.ram := by
    rw [← hframe] at htu
    have hused : ∀ d T, G.table d = some T → ¬ T.Page firstFrame := fun _ _ hT' => hS.used_not_page htu hT'
    refine Sound.write ?_ htable (setPte_kept (by decide)) rfl
    refine Sound.write ?_ htable (setPte_kept (by decide)) rfl
    refine Sound.write ?_ hused (setPte_kept (by decide)) rfl
    exact Sound.write hS hused (setPte_kept (by decide)) rfl
  exact ⟨⟨G, hmem, hL.same ⟨rfl, rfl, rfl⟩ fun _ => Iff.rfl, hok⟩, firstGrown_inv.closed, firstGrown_inv.kstack⟩

/-- An executable that ends before its only program header. -/
def cutElf : File := ⟨64, fun i => if i = 32 then 64 else if i = 56 then 1 else [127, 69, 76, 70].getD i 0⟩

def oneFile (path : List UInt8) : Option File := if path = [120] then some cutElf else none

/-- The first process calls `exec`, which makes a page table, finds no program header and gives all
back. -/
theorem exec_atomic_first : Inv smallLayout calling ∧ (calling.proc init).state.live = true ∧
    ∃ t d tf, sysExec smallLayout oneFile init calling = .ok (-1, t) ∧
      (calling.proc init).pagetable = some d ∧ (calling.proc init).trapframe = some tf ∧
      t.begun = calling.begun + 1 ∧ t.ended = calling.ended + 1 ∧ t.proc init = calling.proc init ∧
      Unchanged calling.ram t.ram d 4096 := by
  obtain ⟨hlive, hsz⟩ : (calling.proc init).state.live = true ∧ (calling.proc init).sz = 4096 := firstGrown_live
  obtain ⟨v, t, d, tf, hrun, hd, htf, _, ⟨n, _, hbegun, hended⟩, hsame⟩ := exec_atomic oneFile calling_inv hlive
  have hv : (sysExec smallLayout oneFile init calling).toOption.map (fun x => (x.1, x.2.begun)) =
      some (-1, calling.begun + 1) := by
    decide +kernel
  rw [hrun] at hv
  obtain ⟨rfl, hone⟩ : v = -1 ∧ t.begun = calling.begun + 1 := by simpa [Except.toOption] using hv
  obtain ⟨hproc, _, _, hmem⟩ := hsame rfl
  rw [hsz] at hmem
  exact ⟨calling_inv, hlive, t, d, tf, hrun, hd, htf, hone, by omega, hproc, hmem⟩

end TweakedXv6.Phys

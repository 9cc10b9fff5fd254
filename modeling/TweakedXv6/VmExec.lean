import TweakedXv6.VmProcs

namespace TweakedXv6.Vm

open Prog Files

variable {lay : Layout} {G : Ghost} {s t : State} {m : Mem} {T S : Table} {p : Fin NPROC}
  {d e tf sz x g q : Nat} {guard : Nat → Prop} {data : Nat → Pte} {l lens : List Nat} {img : Image}
  {arg : Nat → Arg} {argv : List (Nat × Nat)}

theorem segment_end {a b : UInt64} (h : ¬ a + b < a) : (a + b).toNat = a.toNat + b.toNat := by
  rw [UInt64.lt_iff_toNat_lt, UInt64.toNat_add] at h
  rw [UInt64.toNat_add]
  have ha := a.toNat_lt
  have hb := b.toNat_lt
  omega

section Image

variable (h : Good lay G m) (hT : G.table d = some T) (hK : KernelMap lay tf T)

include h hT hK

theorem execLoad_spec {phs : List Phdr} (hU : UserMap T (pages sz) fun _ => False) :
    Returns (execLoad lay d phs sz) m fun r t => Sized lay G d T (fun _ => False) (pages r.2) t := by
  induction phs generalizing G m T sz with
  | nil => exact ⟨T, (setTable_eq hT).symm ▸ h, hU, fun _ _ => rfl⟩
  | cons ph rest ih =>
    have hself : Sized lay G d T (fun _ => False) (pages sz) m :=
      ⟨T, (setTable_eq hT).symm ▸ h, hU, fun _ _ => rfl⟩
    rw [execLoad]
    split
    next => exact hself
    split
    next => exact ih h hT hK hU
    split
    next => exact hself
    next hfile =>
    split
    next => exact hself
    next hwrap =>
    refine Post.bind (uvmalloc_spec h hT hU) ?_
    rintro r u hr
    -- the size after a failure is the old one, and the new one after success
    have hsized : r = 0 ∧ Sized lay G d T (fun _ => False) (pages sz) u ∨
        r ≠ 0 ∧ r = max sz (ph.vaddr + ph.memsz).toNat ∧ Sized lay G d T (fun _ => False) (pages r) u := by
      by_cases hzero : r = 0
      · rcases hr with ⟨_, hu⟩ | ⟨hmax, hu⟩
        · exact .inl ⟨hzero, hu⟩
        · have hsz : sz = r := by omega
          exact .inl ⟨hzero, hsz.symm ▸ hu⟩
      · exact .inr ⟨hzero, hr.resolve_left fun hno => hzero hno.1⟩
    rcases hsized with ⟨rfl, hu⟩ | ⟨hne, hmax, hu⟩
    · rw [if_pos rfl]
      exact hu
    rw [if_neg hne]
    split
    next => exact hu
    next haligned =>
    obtain ⟨S, hS, hSU, hSK⟩ := hu
    have hfile' : ph.filesz.toNat ≤ ph.memsz.toNat := by
      rw [UInt64.lt_iff_toNat_lt] at hfile
      omega
    have htop : ph.vaddr.toNat + ph.memsz.toNat ≤ r := by
      rw [hmax, segment_end hwrap]
      exact Nat.le_max_right ..
    have hal : ph.vaddr.toNat % 4096 = 0 := by simpa [PGSIZE] using haligned
    have hend : ph.vaddr.toNat + ph.filesz.toNat ≤ pages r * 4096 := by
      unfold pages
      omega
    refine Post.bind (loadseg_spec hS setTable_self (hSK.kernelMap hK) hSU hal hend) fun ok w hw => ?_
    cases ok with
    | false => exact ⟨S, hw, hSU, hSK⟩
    | true =>
      refine (ih hw setTable_self (hSK.kernelMap hK) hSU).mono fun r v hv => ?_
      exact hv.trans hSK

theorem execArgs_spec {base : UInt64} {argc : Nat} {sp : UInt64} :
    Returns (execArgs d base data lens argc sp) m fun _ t => Good lay G t := by
  induction lens generalizing m argc sp with
  | nil =>
    rw [execArgs]
    split
    next => exact h
    next => exact copyout_spec h hT hK
  | cons len rest ih =>
    rw [execArgs]
    split
    next => exact h
    dsimp only
    split
    next => exact h
    next =>
    refine Post.bind (copyout_spec h hT hK) fun ok u hu => ?_
    cases ok with
    | false => exact hu
    | true => exact ih hu

theorem execStack_spec (hU : UserMap T (pages sz) fun _ => False) :
    Returns (execStack lay d sz lens data) m fun r t => Sized lay G d T (· = pages sz) (pages r.2) t := by
  have hle := h.pages_le hT hU
  have hsz : sz ≤ 134217728 := by
    unfold pages at hle
    omega
  have hU' : UserMap T (pages (pages sz * 4096)) fun _ => False := by rwa [pages_mul]
  rw [Returns, execStack, pgroundup_eq hsz]
  refine Post.bind (uvmalloc_spec h hT hU') ?_
  rintro r u hr
  by_cases hzero : r = 0
  · have hu : Sized lay G d T (fun _ => False) (pages (pages sz * 4096)) u := by
      rcases hr with ⟨_, hu⟩ | ⟨hmax, hu⟩
      · exact hu
      · unfold PGSIZE at hmax
        omega
    obtain ⟨S, hS, hSU, hSK⟩ := hu
    rw [if_pos hzero]
    exact ⟨S, hS, hSU.weaken fun _ hf => hf.elim, hSK⟩
  · obtain ⟨hmax, S, hS, hSU, hSK⟩ := hr.resolve_left fun hno => hzero hno.1
    have hr2 : r = (pages sz + 2) * 4096 := by
      unfold PGSIZE at hmax
      omega
    have hpages : pages r = pages sz + 2 := by rw [hr2, pages_mul]
    have hguard : r - 2 * PGSIZE = pages sz * 4096 := by
      unfold PGSIZE
      omega
    rw [if_neg hzero, hguard]
    refine Post.bind (uvmclear_spec hS setTable_self hSU (by omega)) ?_
    rintro _ w ⟨R, hR, hRU, hRK⟩
    rw [setTable_setTable] at hR
    have hRK' : SameKernel T R := hSK.trans hRK
    refine Post.bind (execArgs_spec hR setTable_self (hRK'.kernelMap hK)) fun ok v hv => ?_
    exact ⟨R, hv, hRU.weaken fun i hi => hi.resolve_left id, hRK'⟩

end Image

theorem exec_spec (h : Good lay G s.mem)
    (hd : (s.proc p).pagetable = some d) (htf : (s.proc p).trapframe = some tf)
    (hT : G.table d = some T) (hmap : ProcMap lay tf (s.proc p).sz T) :
    Returns (exec lay p img lens) s fun _ t =>
      Good lay G t.mem ∧ t = { s with mem := t.mem } ∨
      ∃ e S sz, G.table e = none ∧ ProcMap lay tf sz S ∧
        Good lay ((G.setTable e (some S)).setTable d none) t.mem ∧
        t = { s with mem := t.mem }.setProc p { s.proc p with pagetable := some e, sz := sz } := by
  rw [Returns, exec]
  split
  next => exact .inl ⟨h, rfl⟩
  next =>
  rw [post_read_bind, htf, hd]
  refine bind_onMem (procPagetable_spec h) ?_
  rintro r u (⟨rfl, hu⟩ | ⟨e, S, rfl, he, hu, hK, hU⟩)
  · exact .inl ⟨hu, rfl⟩
  have hed : d ≠ e := fun heq => by simp [← heq, hT] at he
  -- the new table is freed when something fails
  have hbad : ∀ {m : Mem} {guard : Nat → Prop} {sz : Nat}, Sized lay G e S guard (pages sz) m →
      Returns (onMem (procFreepagetable lay e sz) >>= fun _ => ret false) { s with mem := m } fun _ t =>
        Good lay G t.mem ∧ t = { s with mem := t.mem } ∨
        ∃ e S sz, G.table e = none ∧ ProcMap lay tf sz S ∧
          Good lay ((G.setTable e (some S)).setTable d none) t.mem ∧
          t = { s with mem := t.mem }.setProc p { s.proc p with pagetable := some e, sz := sz } := by
    rintro m guard sz ⟨R, hR, hRU, hRK⟩
    refine bind_onMem (procFreepagetable_spec hR setTable_self (hRK.kernelMap hK) hRU) fun _ w hw => ?_
    rw [setTable_setTable, setTable_none he] at hw
    exact .inl ⟨hw, rfl⟩
  have hU0 : UserMap S (pages 0) fun _ => False := hU
  refine bind_onMem (execLoad_spec hu setTable_self hK hU0) ?_
  rintro ⟨ok, sz⟩ w hload
  have hload' : Sized lay G e S (fun _ => False) (pages sz) w := hload.trans fun _ _ => rfl
  cases ok with
  | false => exact hbad hload'
  | true =>
    obtain ⟨R, hR, hRU, hRK⟩ := hload'
    refine bind_onMem (execStack_spec hR setTable_self (hRK.kernelMap hK) hRU) ?_
    rintro ⟨ok, sz'⟩ v hstack
    have hstack' : Sized lay G e S (· = pages sz) (pages sz') v := hstack.trans hRK
    cases ok with
    | false => exact hbad hstack'
    | true =>
      obtain ⟨Q, hQ, hQU, hQK⟩ := hstack'
      obtain ⟨g, hUold⟩ := hmap.user
      have hold : (G.setTable e (some Q)).table d = some T := by rw [setTable_other hed, hT]
      dsimp only
      rw [if_pos rfl, post_change_bind]
      refine bind_onMem (procFreepagetable_spec hQ hold hmap.kernel hUold) fun _ y hy => ?_
      exact .inr ⟨e, Q, sz', he, ⟨hQK.kernelMap hK, _, hQU⟩, hy, rfl⟩

def Ghost.useAll (G : Ghost) (l : List Nat) : Ghost := { G with used := fun x => x ∈ l ∨ G.used x }

theorem useAll_nil : G.useAll [] = G := by
  simp [Ghost.useAll]

theorem useAll_append : (G.useAll l).use q = G.useAll (l ++ [q]) := by
  simp only [Ghost.useAll, Ghost.use, List.mem_append, List.mem_singleton, Ghost.mk.injEq, and_true]
  funext x
  exact propext ⟨fun h => by tauto, fun h => by tauto⟩

theorem useAll_cons (hq : q ∉ l) (hu : ¬ G.used q) : (G.useAll (q :: l)).unuse q = G.useAll l := by
  simp only [Ghost.useAll, Ghost.unuse, List.mem_cons, Ghost.mk.injEq, and_true]
  funext x
  by_cases hx : x = q
  · simp [hx, hq, hu]
  · simp [hx]

structure Spare (G : Ghost) (l : List Nat) : Prop where
  nodup : l.Nodup
  fresh : ∀ x ∈ l, ¬ G.used x

theorem Spare.push (h : Spare G l) (hq : ¬ (G.useAll l).used q) : Spare G (l ++ [q]) := by
  obtain ⟨hmem, hu⟩ := not_or.mp hq
  refine ⟨List.nodup_append.mpr ⟨h.nodup, by simp, fun a ha b hb => ?_⟩, fun x hx => ?_⟩
  · rw [List.mem_singleton.mp hb]
    rintro rfl
    exact hmem ha
  · rcases List.mem_append.mp hx with hx | hx
    · exact h.fresh x hx
    · rwa [List.mem_singleton.mp hx]

theorem fetchArgs_spec {fuel i : Nat} (h : Good lay (G.useAll (argv.map Prod.fst)) m)
    (hl : Spare G (argv.map Prod.fst)) : Returns (fetchArgs arg fuel i argv) m fun r t =>
      Good lay (G.useAll (r.2.map Prod.fst)) t ∧ Spare G (r.2.map Prod.fst) := by
  induction fuel generalizing m i argv with
  | zero => exact ⟨h, hl⟩
  | succ fuel ih =>
    rw [fetchArgs]
    cases arg i with
    | invalid => exact ⟨h, hl⟩
    | null => exact ⟨h, hl⟩
    | string ok len data =>
      refine Post.bind (kalloc_spec h) ?_
      rintro r u (⟨rfl, hu⟩ | ⟨q, rfl, hu, hq, _⟩)
      · exact ⟨hu, hl⟩
      have hu' := hu.setPage (q := q) (c := data) fun d S hS => hu.used_not_page (.inl rfl) hS
      have hmap : (argv ++ [(q, len)]).map Prod.fst = argv.map Prod.fst ++ [q] := by simp
      have hgood : Good lay (G.useAll ((argv ++ [(q, len)]).map Prod.fst)) (u.setPage q data) := by
        rw [hmap, ← useAll_append]
        exact hu'
      have hspare : Spare G ((argv ++ [(q, len)]).map Prod.fst) := by
        rw [hmap]
        exact hl.push hq
      dsimp only
      rw [writePage, post_change_bind]
      split
      next => exact ih hgood hspare
      next => exact ⟨hgood, hspare⟩

theorem freeArgs_spec (h : Good lay (G.useAll (argv.map Prod.fst)) m) (hl : Spare G (argv.map Prod.fst)) :
    Returns (each argv fun a => kfree lay a.1) m fun _ t => Good lay G t := by
  refine (Post.each (I := fun l t => Good lay (G.useAll (l.map Prod.fst)) t ∧ Spare G (l.map Prod.fst))
    ⟨h, hl⟩ ?_).mono ?_
  · rintro ⟨q, len⟩ l t ⟨ht, hspare⟩
    obtain ⟨hnodup, hfresh⟩ := hspare
    rw [List.map_cons] at ht hnodup hfresh
    obtain ⟨hq, hnd⟩ := List.nodup_cons.mp hnodup
    refine (kfree_spec ht (.inl List.mem_cons_self)).mono fun _ u hu => ?_
    rw [useAll_cons hq (hfresh q List.mem_cons_self)] at hu
    exact ⟨hu, hnd, fun x hx => hfresh x (List.mem_cons_of_mem q hx)⟩
  · rintro _ t ⟨ht, _⟩
    rwa [List.map_nil, useAll_nil] at ht

theorem sysExec_spec (h : Sys lay (holders s.ofile) s) (hc : FdsClosed s) (hlive : (s.proc p).state.live = true) :
    Returns (sysExec lay p arg img) s fun _ t => Done lay s t := by
  obtain ⟨G, hG, hL, hok⟩ := h
  have hst := live_ne_unused hlive
  obtain ⟨d, tf, T, hd, htf, hT, hmap⟩ := hL.proc p hst
  have hnil : Good lay (G.useAll (([] : List (Nat × Nat)).map Prod.fst)) s.mem := by
    rwa [List.map_nil, useAll_nil]
  refine bind_onMem (fetchArgs_spec hnil ⟨List.nodup_nil, fun x hx => by cases hx⟩) ?_
  rintro ⟨ok, argv⟩ u ⟨hu, hspare⟩
  cases ok with
  | false =>
    refine bind_onMem (freeArgs_spec hu hspare) fun _ w hw => ?_
    exact ⟨⟨G, hw, hL.same ⟨rfl, rfl, rfl⟩ fun _ => Iff.rfl, hok⟩, hc, rfl⟩
  | true =>
    refine Post.bind (exec_spec (s := { s with mem := u }) hu hd htf hT hmap) ?_
    rintro r t (⟨ht, heq⟩ | ⟨e, S, sz, he, hSmap, ht, heq⟩)
    · generalize t.mem = m at ht heq
      subst heq
      refine bind_onMem (freeArgs_spec ht hspare) fun _ w hw => ?_
      exact ⟨⟨G, hw, hL.same ⟨rfl, rfl, rfl⟩ fun _ => Iff.rfl, hok⟩, hc, rfl⟩
    · generalize t.mem = m at ht heq
      subst heq
      refine bind_onMem (freeArgs_spec (G := (G.setTable e (some S)).setTable d none) ht
        ⟨hspare.nodup, hspare.fresh⟩) fun _ w hw => ?_
      refine ⟨⟨_, hw, ?_, hok⟩, fun q fd hq => hc q fd ?_, rfl⟩
      · exact hL.replace (v := { s.proc p with pagetable := some e, sz := sz }) hd htf he hSmap
          ⟨rfl, fun _ => Iff.rfl, rfl⟩ hst rfl htf
      · by_cases hqp : q = p
        · subst hqp
          simpa [State.setProc] using hq
        · simpa [State.setProc, hqp] using hq

end TweakedXv6.Vm

import TweakedXv6.VmRuns

namespace TweakedXv6.Vm

open Prog Files

variable {lay : Layout} {G : Ghost} {s : State} {m : Mem} {T : Table} {p : Fin NPROC} {d q n l i : Nat}

def childAt (m : Mem) (q j : Nat) : Option Nat :=
  let e := m.pte q j
  if e.v ∧ (e.r || e.w || e.x) = false then some e.ppn else none

/-- The page-table pages that the hardware reaches from a root: level 2 is the root itself, and those of
a level are numbered by the bits of the virtual page number above it. -/
def tableAt (m : Mem) (root l a : Nat) : Option Nat :=
  let dir a := if a < 512 then childAt m root a else none
  match l with
  | 0 => (dir (a / 512)).bind fun q => childAt m q (a % 512)
  | 1 => dir a
  | 2 => if a = 0 then some root else none
  | _ => none

def leafAt (m : Mem) (root n : Nat) : Option Pte :=
  (tableAt m root 0 (n / 512)).bind fun q => if (m.pte q (n % 512)).v then some (m.pte q (n % 512)) else none

theorem childAt_entry {o : Option Nat} {j : Nat} (h : Entry (m.pte q j) o) : childAt m q j = o := by
  unfold childAt
  cases o with
  | none => simp [show (m.pte q j).v = false from h]
  | some p => simp [show m.pte q j = .table p from h, Pte.table]

theorem Represents.tableAt (h : Represents m.pte T) : Vm.tableAt m T.root l i = T.node l i := by
  have hdir : ∀ a, (if a < 512 then childAt m T.root a else none) = T.node 1 a := by
    intro a
    split
    next ha =>
      have := childAt_entry (h.inner 1 0 T.root h.top a ha)
      rwa [Nat.mul_zero, Nat.zero_add] at this
    next ha =>
      by_contra hne
      have := h.single _ (h.parent 1 a (by decide) (Ne.symm hne))
      omega
  have hl : l = 0 ∨ l = 1 ∨ l = 2 ∨ 2 < l := by omega
  rcases hl with rfl | rfl | rfl | hl
  · simp only [Vm.tableAt, hdir]
    cases hq : T.node 1 (i / 512) with
    | none =>
      by_contra hne
      exact h.parent 0 i (by decide) (fun hn => hne hn.symm) hq
    | some q =>
      have := childAt_entry (h.inner 0 (i / 512) q hq (i % 512) (Nat.mod_lt _ (by decide)))
      rwa [show 512 * (i / 512) + i % 512 = i by omega] at this
  · exact hdir i
  · change (if i = 0 then some T.root else none) = T.node 2 i
    split
    next hi => rw [hi, h.top]
    next hi =>
      by_contra hne
      exact hi (h.single i (Ne.symm hne))
  · rw [h.high l i hl]
    unfold Vm.tableAt
    split <;> first | omega | rfl

theorem Represents.leafAt (h : Represents m.pte T) : Vm.leafAt m T.root n = T.leaf n := by
  unfold Vm.leafAt
  rw [h.tableAt]
  cases hq : T.node 0 (n / 512) with
  | none =>
    by_contra hne
    exact h.leaf_parent n (fun hn => hne hn.symm) hq
  | some q =>
    have hent := h.bottom (n / 512) q hq (n % 512) (Nat.mod_lt _ (by decide))
    rw [show 512 * (n / 512) + n % 512 = n by omega] at hent
    dsimp only [Option.bind_some]
    cases hleaf : T.leaf n with
    | none =>
      have hv : (m.pte q (n % 512)).v = false := by simpa [hleaf, LeafEntry] using hent
      rw [if_neg (by simp [hv])]
    | some e =>
      obtain ⟨he, hv, _⟩ : m.pte q (n % 512) = e ∧ e.v = true ∧ _ := by simpa [hleaf, LeafEntry] using hent
      rw [he, if_pos hv]

inductive Owner
  | free
  | leaf (p : Fin NPROC) (n : Nat)
  | table (p : Fin NPROC) (l i : Nat)
  | trapframe (p : Fin NPROC)
  | pipe
  | kernel

/-- A page is on the free list; at virtual page `n` of a process; part of a page table; a trapframe; a
pipe that some descriptor refers to; or in the kernel page table or the kernel stacks. -/
def Owns (s : State) : Owner → Nat → Prop
  | .free, q => q ∈ s.mem.free
  | .leaf p n, q => n < tfVpn ∧ ∃ d e, (s.proc p).pagetable = some d ∧ leafAt s.mem d n = some e ∧ e.ppn = q
  | .table p l i, q => ∃ d, (s.proc p).pagetable = some d ∧ tableAt s.mem d l i = some q
  | .trapframe p, q => (s.proc p).trapframe = some q
  | .pipe, q => ∃ h f, s.ofile h = some f ∧ (s.ft.file f).type = .pipe q
  | .kernel, q => q ∈ s.kernel

theorem pipe_iff {x : Nat} (hok : Ok (holders s.ofile) s.ft) :
    s.ft.pipe x ≠ none ↔ ∃ h f, s.ofile h = some f ∧ (s.ft.file f).type = .pipe x := by
  constructor
  · intro hx
    obtain ⟨w, hw⟩ := hok.live x hx
    obtain ⟨f, hf, _⟩ := (hok.ends x w).mp hw
    have hpos : 0 < holders s.ofile f := by
      by_contra hno
      have := hok.idle f (by omega)
      simp [hf] at this
    obtain ⟨h, hh⟩ := holders_pos.mp hpos
    exact ⟨h, f, hh, hf⟩
  · rintro ⟨_, f, _, hf⟩ hnone
    have := (hok.ends x _).mpr ⟨f, hf, rfl⟩
    simp [Ftable.isOpen, hnone] at this

def Owner.place (s : State) : Owner → Option Place
  | .free => some .free
  | .leaf p n => (s.proc p).pagetable.map fun d => .spot d (.leaf n)
  | .table p l i => (s.proc p).pagetable.map fun d => .spot d (.node l i)
  | .trapframe _ | .pipe | .kernel => some .used

section Owners

variable {o o' : Owner}

theorem owns_at (hG : Good lay G s.mem) (hL : Linked lay G s) (hok : Ok (holders s.ofile) s.ft)
    (h : Owns s o q) : ∃ w, o.place s = some w ∧ At G s.mem w q := by
  cases o with
  | free => exact ⟨.free, rfl, h⟩
  | leaf p n =>
    obtain ⟨hn, d, e, hd, hleaf, rfl⟩ := h
    obtain ⟨tf, T, _, hT, _⟩ := hL.table hd
    rw [← hG.root d T hT, (hG.rep d T hT).leafAt] at hleaf
    exact ⟨.spot d (.leaf n), by simp [Owner.place, hd], T, hT, Table.at_user hn hleaf⟩
  | table p l i =>
    obtain ⟨d, hd, hnode⟩ := h
    obtain ⟨tf, T, _, hT, _⟩ := hL.table hd
    rw [← hG.root d T hT, (hG.rep d T hT).tableAt] at hnode
    exact ⟨.spot d (.node l i), by simp [Owner.place, hd], T, hT, hnode⟩
  | trapframe p => exact ⟨.used, rfl, hL.roles.within (.trapframe p) q h⟩
  | pipe => exact ⟨.used, rfl, hL.roles.within .pipe q ((pipe_iff hok).mpr h)⟩
  | kernel => exact ⟨.used, rfl, hL.roles.within .kernel q h⟩

theorem owns_role (hok : Ok (holders s.ofile) s.ft) (h : Owns s o q) (hp : o.place s = some .used) :
    ∃ r, RoleAt s r q ∧ (r = .kernel → o = .kernel) ∧ (r = .pipe → o = .pipe) ∧
      ∀ p, r = .trapframe p → o = .trapframe p := by
  cases o with
  | free => cases hp
  | leaf p n => cases hd : (s.proc p).pagetable <;> simp [Owner.place, hd] at hp
  | table p l i => cases hd : (s.proc p).pagetable <;> simp [Owner.place, hd] at hp
  | trapframe p => exact ⟨.trapframe p, h, by simp, by simp, fun p' hp' => by cases hp'; rfl⟩
  | pipe => exact ⟨.pipe, (pipe_iff hok).mpr h, by simp, by simp, by simp⟩
  | kernel => exact ⟨.kernel, h, by simp, by simp, by simp⟩

theorem owner_unique (hG : Good lay G s.mem) (hL : Linked lay G s) (hok : Ok (holders s.ofile) s.ft)
    (h : Owns s o q) (h' : Owns s o' q) : o = o' := by
  obtain ⟨w, hw, hat⟩ := owns_at hG hL hok h
  obtain ⟨w', hw', hat'⟩ := owns_at hG hL hok h'
  cases hG.part.unique w w' q hat hat'
  cases w with
  | used =>
    obtain ⟨r, hr, hk, hpi, htf⟩ := owns_role hok h hw
    obtain ⟨r', hr', hk', hpi', htf'⟩ := owns_role hok h' hw'
    cases hL.roles.unique r r' q hr hr'
    cases r with
    | kernel => rw [hk rfl, hk' rfl]
    | pipe => rw [hpi rfl, hpi' rfl]
    | trapframe p => rw [htf p rfl, htf' p rfl]
  | free =>
    have hfree : ∀ o : Owner, o.place s = some .free → o = .free := by
      intro o ho
      cases o with
      | free => rfl
      | leaf p n => cases hd : (s.proc p).pagetable <;> simp [Owner.place, hd] at ho
      | table p l i => cases hd : (s.proc p).pagetable <;> simp [Owner.place, hd] at ho
      | trapframe p => cases ho
      | pipe => cases ho
      | kernel => cases ho
    rw [hfree o hw, hfree o' hw']
  | spot d a =>
    have hspot : ∀ o : Owner, o.place s = some (.spot d a) → ∃ p, (s.proc p).pagetable = some d ∧
        (∀ n, a = .leaf n → o = .leaf p n) ∧ ∀ l i, a = .node l i → o = .table p l i := by
      intro o ho
      cases o with
      | free => cases ho
      | leaf p n =>
        obtain ⟨d', hd, he⟩ := Option.map_eq_some_iff.mp ho
        cases he
        exact ⟨p, hd, fun n' hn => by cases hn; rfl, by simp⟩
      | table p l i =>
        obtain ⟨d', hd, he⟩ := Option.map_eq_some_iff.mp ho
        cases he
        exact ⟨p, hd, by simp, fun l' i' hn => by cases hn; rfl⟩
      | trapframe p => cases ho
      | pipe => cases ho
      | kernel => cases ho
    obtain ⟨p, hp, hleaf, hnode⟩ := hspot o hw
    obtain ⟨p', hp', hleaf', hnode'⟩ := hspot o' hw'
    cases hL.owners.unique p p' d hp hp'
    cases a with
    | leaf n => rw [hleaf n rfl, hleaf' n rfl]
    | node l i => rw [hnode l i rfl, hnode' l i rfl]

theorem owner_exists (hG : Good lay G s.mem) (hL : Linked lay G s) (hok : Ok (holders s.ofile) s.ft)
    (hq : lay.Managed q) : ∃ o, Owns s o q := by
  obtain ⟨w, hw⟩ := hG.part.total q hq
  cases w with
  | free => exact ⟨.free, hw⟩
  | used =>
    obtain ⟨r, hr⟩ := hL.roles.total q hw
    cases r with
    | kernel => exact ⟨.kernel, hr⟩
    | trapframe p => exact ⟨.trapframe p, hr⟩
    | pipe => exact ⟨.pipe, (pipe_iff hok).mp hr⟩
  | spot d a =>
    obtain ⟨T, hT, hat⟩ := hw
    obtain ⟨p, hp⟩ := hL.owners.total d (by simp [hT])
    have hroot := hG.root d T hT
    have hrep := hG.rep d T hT
    cases a with
    | node l i => exact ⟨.table p l i, d, hp, by rw [← hroot, hrep.tableAt]; exact hat⟩
    | leaf n =>
      obtain ⟨tf, T', _, hT', hmap⟩ := hL.table hp
      cases hT.symm.trans hT'
      simp only [Table.at] at hat
      split at hat
      next => cases hat
      next hown =>
      obtain ⟨e, he, rfl⟩ := Option.map_eq_some_iff.mp hat
      have hn : n < tfVpn := by
        by_contra hge
        have habove := hmap.kernel.above n (by unfold tfVpn trampVpn at *; omega)
        simp [he] at habove
      exact ⟨.leaf p n, hn, d, e, hp, by rw [← hroot, hrep.leafAt, he], rfl⟩

end Owners

def smallLayout : Layout := ⟨0x87fec, 0x80000, by decide, by decide⟩

def smallBoot : State where
  mem := ⟨(List.range 19).map (· + 0x87fec), fun _ _ => .zero, fun _ => false⟩
  proc _ := {}
  ofile _ := none
  ft := ⟨fun _ => {}, fun _ => none⟩
  initproc := none
  kernel := [0x87fff]

theorem smallBoot_boot : Boot smallLayout smallBoot where
  nodup := by decide
  free_or_kernel q := by
    simp only [Layout.Managed, smallLayout, smallBoot, phystopPage, List.mem_map, List.mem_range,
      List.mem_singleton]
    constructor
    · rintro ⟨hlo, hhi⟩
      by_cases hq : q = 0x87fff
      · exact .inr hq
      · exact .inl ⟨q - 0x87fec, by omega, by omega⟩
    · rintro (⟨a, ha, rfl⟩ | rfl) <;> omega
  disjoint := by decide
  proc _ := rfl
  file _ := rfl
  pipe _ := rfl
  ofile _ := rfl
  initproc := rfl
  avail := ⟨by decide, fun _ _ => rfl⟩

def init : Fin NPROC := ⟨0, zero_lt_NPROC⟩

def child : Fin NPROC := ⟨1, one_lt_NPROC⟩

def growPipeFork : List Act :=
  [.userinit fun _ => .zero, .sbrk init 4096, .pipe init 8 fun _ => .zero, .fork init]

def forkExitWait : List Act := growPipeFork ++ [.exit child, .wait init 0 fun _ => .zero]

/-- However the calls succeeded or failed, each managed page is on the free list once or has exactly one
owner, and no call panics except `exit` by the first process. -/
theorem page_owner_unique (lay : Layout) (s : State) (h : (machine lay).Reachable s) :
    s.mem.free.Nodup ∧ (∀ q, lay.Managed q → ∃! o, Owns s o q) ∧
    ∀ a msg, a.enabled s = true → call lay a s = .error msg → msg = "init exiting" := by
  have hinv := inv_reachable h
  obtain ⟨G, hG, hL, hok⟩ := hinv.sys
  refine ⟨hG.nodup, fun q hq => ?_, fun a msg he hc => hinv.panic he hc⟩
  obtain ⟨o, ho⟩ := owner_exists hG hL hok hq
  exact ⟨o, ho, fun o' ho' => owner_unique hG hL hok ho' ho⟩

theorem page_owner_unique_forkExitWait :
    ∃ s, (machine smallLayout).run smallBoot forkExitWait = some s ∧ s.mem.free.Nodup ∧
      (∀ q, smallLayout.Managed q → ∃! o, Owns s o q) ∧
      ∀ a msg, a.enabled s = true → call smallLayout a s = .error msg → msg = "init exiting" := by
  have hrun : ((machine smallLayout).run smallBoot forkExitWait).isSome = true := by decide +kernel
  obtain ⟨s, hs⟩ := Option.isSome_iff_exists.mp hrun
  exact ⟨s, hs, page_owner_unique smallLayout s (.of_run smallBoot_boot hs)⟩

structure Mapped (lay : Layout) (m : Mem) (v : Proc) (d tf : Nat) : Prop where
  exact : ∀ n, leafAt m d n ≠ none ↔ n < pages v.sz ∨ n = tfVpn ∨ n = trampVpn
  tramp : leafAt m d trampVpn = some ⟨true, true, false, true, false, 0, lay.tramp⟩
  trapframe : leafAt m d tfVpn = some ⟨true, true, true, false, false, 0, tf⟩
  distinct : ∀ i j e f, i < pages v.sz → j < pages v.sz → leafAt m d i = some e → leafAt m d j = some f →
    e.ppn = f.ppn → i = j
  guard : ∃ g, ∀ i e, i < pages v.sz → i ≠ g → leafAt m d i = some e → e.u = true

theorem Mapped.of_linked {tf : Nat} (hG : Good lay G s.mem) (hT : G.table d = some T)
    (hmap : ProcMap lay tf (s.proc p).sz T) : Mapped lay s.mem (s.proc p) d tf := by
  obtain ⟨g, hU⟩ := hmap.user
  have hleaf : ∀ n, leafAt s.mem d n = T.leaf n := by
    intro n
    rw [← hG.root d T hT, (hG.rep d T hT).leafAt]
  have hle := hG.pages_le hT hU
  have hown : ∀ i, i < pages (s.proc p).sz → ¬ (i = trampVpn ∨ i = tfVpn) := by
    intro i hi
    unfold trampVpn tfVpn
    omega
  constructor
  case exact =>
    intro n
    rw [hleaf]
    refine ⟨fun hn => ?_, fun hn => ?_⟩
    · by_contra hno
      by_cases hlt : n < tfVpn
      · exact hn (hU.rest n (by omega) hlt)
      · exact hn (hmap.kernel.above n (by unfold tfVpn trampVpn at *; omega))
    · rcases hn with hn | rfl | rfl
      · exact hU.ne_none hn
      · simp [hmap.kernel.trapframe]
      · simp [hmap.kernel.tramp]
  case tramp => rw [hleaf, hmap.kernel.tramp]
  case trapframe => rw [hleaf, hmap.kernel.trapframe]
  case distinct =>
    intro i j e f hi hj he hf heq
    rw [hleaf] at he hf
    have hspot := hG.distinct hT (.leaf i) (.leaf j) e.ppn (by simp [Table.at, hown i hi, he])
      (by simp [Table.at, hown j hj, hf, heq])
    cases hspot
    rfl
  case guard =>
    refine ⟨g, fun i e hi hne he => ?_⟩
    rw [hleaf] at he
    obtain ⟨f, hf, hu⟩ := hU.mapped i hi
    cases he.symm.trans hf
    exact hu.resolve_right hne

/-- The page table of a process in use maps its memory, the trapframe and the trampoline and nothing
else, each page of memory to a physical page of its own and open to the user except one guard page. -/
theorem page_table_exact (lay : Layout) (s : State) (h : (machine lay).Reachable s) :
    (∀ p, (s.proc p).state ≠ .unused → ∃ d tf, (s.proc p).pagetable = some d ∧
      (s.proc p).trapframe = some tf ∧ Mapped lay s.mem (s.proc p) d tf) ∧
    ∀ a msg, a.enabled s = true → call lay a s = .error msg → msg = "init exiting" := by
  have hinv := inv_reachable h
  obtain ⟨G, hG, hL, _⟩ := hinv.sys
  refine ⟨fun p hp => ?_, fun a msg he hc => hinv.panic he hc⟩
  obtain ⟨d, tf, T, hd, htf, hT, hmap⟩ := hL.proc p hp
  exact ⟨d, tf, hd, htf, .of_linked hG hT hmap⟩

theorem page_table_exact_growPipeFork :
    ∃ s, (machine smallLayout).run smallBoot growPipeFork = some s ∧
      (∀ p, (s.proc p).state ≠ .unused → ∃ d tf, (s.proc p).pagetable = some d ∧
        (s.proc p).trapframe = some tf ∧ Mapped smallLayout s.mem (s.proc p) d tf) ∧
      ∀ a msg, a.enabled s = true → call smallLayout a s = .error msg → msg = "init exiting" := by
  have hrun : ((machine smallLayout).run smallBoot growPipeFork).isSome = true := by decide +kernel
  obtain ⟨s, hs⟩ := Option.isSome_iff_exists.mp hrun
  exact ⟨s, hs, page_table_exact smallLayout s (.of_run smallBoot_boot hs)⟩

/-- A page that a process can access is its own at that address: it is not free, and neither another
process nor the kernel uses it for anything. -/
theorem user_pages_private {e : Pte} (h : (machine lay).Reachable s) (hd : (s.proc p).pagetable = some d)
    (he : leafAt s.mem d n = some e) (hu : e.u = true) (o : Owner) : Owns s o e.ppn ↔ o = .leaf p n := by
  obtain ⟨G, hG, hL, hok⟩ := (inv_reachable h).sys
  obtain ⟨tf, T, _, hT, hmap⟩ := hL.table hd
  have hleaf : T.leaf n = some e := by rwa [← (hG.rep d T hT).leafAt, hG.root d T hT]
  have hn : n < tfVpn := by
    by_contra hge
    -- the trapframe and the trampoline are closed to the user
    have hcases : n = tfVpn ∨ n = trampVpn ∨ trampVpn < n := by unfold tfVpn trampVpn at *; omega
    rcases hcases with rfl | rfl | habove
    · cases hleaf.symm.trans hmap.kernel.trapframe
      cases hu
    · cases hleaf.symm.trans hmap.kernel.tramp
      cases hu
    · cases hleaf.symm.trans (hmap.kernel.above n habove)
  have hown : Owns s (.leaf p n) e.ppn := ⟨hn, d, e, hd, he, rfl⟩
  exact ⟨fun ho => owner_unique hG hL hok ho hown, fun ho => ho ▸ hown⟩

theorem user_pages_private_init : ∃ s d e, (machine smallLayout).Reachable s ∧
    leafAt s.mem d 1 = some e ∧ ∀ o, Owns s o e.ppn ↔ o = .leaf init 1 := by
  have hrun : (((machine smallLayout).run smallBoot growPipeFork).any fun s =>
      ((s.proc init).pagetable.bind fun d => leafAt s.mem d 1).any (·.u)) = true := by decide +kernel
  obtain ⟨s, hs, hleaf⟩ := (Option.any_eq_true _ _).mp hrun
  obtain ⟨e, he, hu⟩ := (Option.any_eq_true _ _).mp hleaf
  obtain ⟨d, hd, he⟩ := Option.bind_eq_some_iff.mp he
  have hreach := Machine.Reachable.of_run smallBoot_boot hs
  exact ⟨s, d, e, hreach, he, user_pages_private hreach hd he hu⟩

theorem file_referred {f : Fin NFILE} (hok : Ok (holders s.ofile) s.ft) (hf : (s.ft.file f).type ≠ .none) :
    ∃ x, s.ofile x = some f :=
  holders_pos.mp (Nat.pos_of_ne_zero fun hzero => hf (hok.idle f hzero))

/-- Through all calls, failed ones too, `ref` counts the descriptors of a file, a file without any is
closed, an end of a pipe is open exactly if some descriptor is for it, and only live processes have
descriptors. -/
theorem descriptors_exact (h : (machine lay).Reachable s) :
    (∀ f, (s.ft.file f).ref = holders s.ofile f ∧ ((∀ x, s.ofile x ≠ some f) → (s.ft.file f).type = .none)) ∧
    (∀ pi w, s.ft.isOpen pi w = true ↔ ∃ x f, s.ofile x = some f ∧ IsEnd s.ft pi w f) ∧
    (∀ pi w f g, IsEnd s.ft pi w f → IsEnd s.ft pi w g → f = g) ∧
    ∀ p fd, (s.proc p).state.live = false → s.ofile (p, fd) = none := by
  have hinv := inv_reachable h
  obtain ⟨_, _, _, hok⟩ := hinv.sys
  refine ⟨fun f => ⟨hok.ref f, fun hno => ?_⟩, fun pi w => ?_, hok.one, hinv.closed⟩
  · by_contra hf
    obtain ⟨x, hx⟩ := file_referred hok hf
    exact hno x hx
  · rw [hok.ends]
    constructor
    · rintro ⟨f, hf⟩
      obtain ⟨x, hx⟩ := file_referred (f := f) hok (by simp [hf.1])
      exact ⟨x, f, hx, hf⟩
    · rintro ⟨_, f, _, hf⟩
      exact ⟨f, hf⟩

theorem descriptors_exact_growPipeFork : ∃ s, (machine smallLayout).run smallBoot growPipeFork = some s ∧
    ∀ f, (s.ft.file f).ref = holders s.ofile f := by
  have hrun : ((machine smallLayout).run smallBoot growPipeFork).isSome = true := by decide +kernel
  obtain ⟨s, hs⟩ := Option.isSome_iff_exists.mp hrun
  exact ⟨s, hs, fun f => ((descriptors_exact (.of_run smallBoot_boot hs)).1 f).1⟩

end TweakedXv6.Vm

import TweakedXv6.VmExec

namespace TweakedXv6.Vm

open Prog Files

variable {lay : Layout} {G : Ghost} {s t : State} {m : Mem} {T S : Table} {p : Fin NPROC}
  {d q i k va tf : Nat} {perm : Pte} {guard : Nat → Prop}

def Mem.Avail (m : Mem) (n : Nat) : Prop := n ≤ m.free.length ∧ ∀ i < n, m.fails i = false

abbrev AnyPanic : String → Prop := fun _ => True

theorem Mem.Avail.mono {j : Nat} (h : m.Avail k) (hj : j ≤ k) : m.Avail j :=
  ⟨Nat.le_trans hj h.1, fun i hi => h.2 i (Nat.lt_of_lt_of_le hi hj)⟩

theorem kalloc_avail (h : m.Avail (k + 1)) : Post AnyPanic kalloc m fun r t => r ≠ none ∧ t.Avail k := by
  obtain ⟨hlen, hfails⟩ := h
  cases hfree : m.free with
  | nil => simp [hfree] at hlen
  | cons q rest =>
    unfold Post
    rw [kalloc_some (hfails 0 (by omega)) hfree]
    refine ⟨by simp, ?_, fun i hi => hfails (i + 1) (by omega)⟩
    simpa [hfree] using hlen

theorem walkStep_avail (h : m.Avail (k + 1)) :
    Post AnyPanic (walkStep q i true) m fun r t => r ≠ none ∧ t.Avail k := by
  rw [walkStep, readPte, post_read_bind]
  split
  next => exact ⟨by simp, h.mono (by omega)⟩
  next =>
    rw [if_pos rfl]
    refine Post.bind (kalloc_avail h) ?_
    rintro r t ⟨hr, ht⟩
    cases r with
    | none => exact absurd rfl hr
    | some q => exact ⟨by simp, ht⟩

theorem walk_avail (h : m.Avail (k + 2)) : Post AnyPanic (walk d va true) m fun r t => r ≠ none ∧ t.Avail k := by
  unfold walk
  split
  next => trivial
  next =>
    refine Post.bind (walkStep_avail (k := k + 1) h) ?_
    rintro r t ⟨hr, ht⟩
    cases r with
    | none => exact absurd rfl hr
    | some t1 =>
      refine Post.bind (walkStep_avail ht) ?_
      rintro r u ⟨hr, hu⟩
      cases r with
      | none => exact absurd rfl hr
      | some t0 => exact ⟨by simp, hu⟩

theorem mappages_avail {pa : Nat} (ha : va % 4096 = 0) (hva : va < 18446744073709551616) (h : m.Avail (k + 2)) :
    Post AnyPanic (mappages d va PGSIZE pa perm) m fun ok t => ok = true ∧ t.Avail k := by
  rw [mappages_page ha hva]
  refine Post.bind (walk_avail h) ?_
  rintro r t ⟨hr, ht⟩
  cases r with
  | none => exact absurd rfl hr
  | some r =>
    dsimp only
    rw [readPte, post_read_bind]
    split
    next => trivial
    next => exact ⟨rfl, ht⟩

theorem uvmcreate_avail (h : m.Avail (k + 1)) : Post AnyPanic uvmcreate m fun r t => r ≠ none ∧ t.Avail k := by
  refine Post.bind (kalloc_avail h) ?_
  rintro r t ⟨hr, ht⟩
  cases r with
  | none => exact absurd rfl hr
  | some q => exact ⟨by simp, ht⟩

theorem procPagetable_avail (h : m.Avail (k + 5)) :
    Post AnyPanic (procPagetable lay tf) m fun r t => r ≠ none ∧ t.Avail k := by
  refine Post.bind (uvmcreate_avail (k := k + 4) h) ?_
  rintro r t ⟨hr, ht⟩
  cases r with
  | none => exact absurd rfl hr
  | some d =>
    refine Post.bind (mappages_avail (k := k + 2) (by decide) (by decide) ht) ?_
    rintro ok u ⟨rfl, hu⟩
    refine Post.bind (mappages_avail (by decide) (by decide) hu) ?_
    rintro ok w ⟨rfl, hw⟩
    exact ⟨by simp, hw⟩

theorem allocproc_avail (hp : (s.proc p).state = .unused) (h : s.mem.Avail (k + 6)) :
    Post AnyPanic (allocproc lay) s fun r t => r ≠ none ∧ t.mem.Avail k := by
  rw [allocproc, post_read_bind]
  cases hfind : (List.finRange NPROC).find? fun p => (s.proc p).state = .unused with
  | none =>
    have := List.find?_eq_none.mp hfind p (List.mem_finRange p)
    simp [hp] at this
  | some np =>
    dsimp only
    rw [post_change_bind]
    refine bind_onMem (kalloc_avail (k := k + 5) h) ?_
    rintro r u ⟨hr, hu⟩
    cases r with
    | none => exact absurd rfl hr
    | some tf =>
      dsimp only
      rw [post_change_bind]
      refine bind_onMem (procPagetable_avail hu) ?_
      rintro r w ⟨hr, hw⟩
      cases r with
      | none => exact absurd rfl hr
      | some d => exact ⟨by simp, hw⟩

theorem uvminit_spec {src : Nat → Pte} (h : Good lay G m) (hT : G.table d = some T) (hU : UserMap T 0 guard)
    (hav : m.Avail 3) : Returns (uvminit d 52 src) m fun _ t => Sized lay G d T guard 1 t := by
  rw [Returns, uvminit, if_neg (by decide)]
  refine Post.bind ((kalloc_spec h).and (kalloc_avail (k := 2) hav)) ?_
  rintro r u ⟨⟨rfl, _⟩ | ⟨q, rfl, hu, hq, _⟩, hr, hav'⟩
  · exact absurd rfl hr
  have hfill := hu.setPage (q := q) (c := fun _ => .zero) fun d S hS => hu.used_not_page (.inl rfl) hS
  have hav2 : (u.setPage q fun _ => .zero).Avail (0 + 2) := hav'
  have hmap := mappages_user (n := 0) .user hfill hq hT (by decide) (hU.rest 0 (Nat.le_refl 0) (by decide)) rfl
  rw [Nat.zero_mul] at hmap
  dsimp only
  rw [writePage, post_change_bind]
  refine Post.bind (hmap.and (mappages_avail (by decide) (by decide) hav2)) ?_
  rintro ok w ⟨⟨rfl, _⟩ | ⟨rfl, S, hS, _, hleaf⟩, hok, _⟩
  · cases hok
  -- the page now belongs to the table, as a leaf
  have hat : (S.setLeaf 0 (some (Pte.user.mapped q))).at (.leaf 0) = some q := by
    rw [at_setLeaf, if_pos rfl, if_neg (by decide)]
    rfl
  refine ⟨_, hS.setPage fun _ _ hR => hS.leaf_not_page setTable_self hat hR,
    (hU.congr hleaf).push (.inl rfl), ?_⟩
  exact (sameKernel_of_leaf hleaf).trans (sameKernel_setLeaf (by decide))

/-- When `main` calls `userinit`: the kernel page table and the kernel stacks are there, all other
managed pages are free, and nine of them suffice for the first process. -/
structure Boot (lay : Layout) (s : State) : Prop where
  nodup : s.mem.free.Nodup
  free_or_kernel : ∀ q, lay.Managed q ↔ q ∈ s.mem.free ∨ q ∈ s.kernel
  disjoint : ∀ q ∈ s.kernel, q ∉ s.mem.free
  proc : ∀ p, s.proc p = {}
  file : ∀ f, s.ft.file f = {}
  pipe : ∀ q, s.ft.pipe q = none
  ofile : ∀ h, s.ofile h = none
  initproc : s.initproc = none
  avail : s.mem.Avail 9

theorem holders_none {f : Fin NFILE} (h : ∀ h, s.ofile h = none) : holders s.ofile f = 0 := by
  by_contra hne
  obtain ⟨g, hg⟩ := holders_pos.mp (Nat.pos_of_ne_zero hne)
  simp [h] at hg

def bootGhost (s : State) : Ghost := ⟨fun q => q ∈ s.kernel, fun _ => none⟩

theorem Boot.good (h : Boot lay s) : Good lay (bootGhost s) s.mem where
  part := by
    constructor
    · intro a x ha
      refine (h.free_or_kernel x).mpr ?_
      cases a with
      | free => exact .inl ha
      | used => exact .inr ha
      | spot d a => exact absurd ha (by simp [At, bootGhost])
    · intro a b x ha hb
      cases a <;> cases b <;>
        simp only [At, bootGhost, reduceCtorEq, false_and, exists_false] at ha hb
      · rfl
      · exact absurd ha (h.disjoint x hb)
      · exact absurd hb (h.disjoint x ha)
      · rfl
    · intro x hx
      rcases (h.free_or_kernel x).mp hx with hx | hx
      · exact ⟨.free, hx⟩
      · exact ⟨.used, hx⟩
  nodup := h.nodup
  root d T hT := by cases hT
  rep d T hT := by cases hT

theorem Boot.linked (h : Boot lay s) : Linked lay (bootGhost s) s where
  roles := by
    constructor
    · intro r x hr
      cases r with
      | kernel => exact hr
      | trapframe p => simp [RoleAt, h.proc] at hr
      | pipe => exact absurd (h.pipe x) hr
    · intro a b x ha hb
      cases a <;> cases b <;> simp only [RoleAt, h.proc, h.pipe, reduceCtorEq, ne_eq, not_true] at ha hb
      rfl
    · intro x hx
      exact ⟨.kernel, hx⟩
  owners := by
    constructor
    · intro p d hd
      simp [h.proc] at hd
    · intro p q d hd
      simp [h.proc] at hd
    · intro d hd
      exact absurd rfl hd
  unused p _ := h.proc p
  proc p hp := by
    rw [h.proc p] at hp
    exact absurd rfl hp

theorem Boot.ok (h : Boot lay s) : Ok (holders s.ofile) s.ft where
  ref f := by rw [h.file f, holders_none h.ofile]
  idle f _ := by rw [h.file f]
  ends pi w := by simp [Ftable.isOpen, h.pipe, IsEnd, h.file]
  one pi w f g hf := by simp [IsEnd, h.file] at hf
  live pi hpi := absurd (h.pipe pi) hpi

theorem userinit_spec {initcode : Nat → Pte} (h : Boot lay s) :
    Returns (userinit lay initcode) s fun _ t => Sys lay (holders t.ofile) t ∧ FdsClosed t ∧ t.initproc ≠ none := by
  have hslot : (s.proc ⟨0, by decide⟩).state = .unused := by rw [h.proc]
  refine Post.bind ((allocproc_spec h.good h.linked).and (allocproc_avail (k := 3) hslot h.avail)) ?_
  rintro r t ⟨⟨rfl, _⟩ | ⟨p, tf, d, S, rfl, hp, htf, hd, ht, hK, hU, heq⟩, hr, hav⟩
  · exact absurd rfl hr
  generalize t.mem = m at ht heq hav
  subst heq
  dsimp only
  rw [post_change_bind, post_read_bind]
  simp only [freshProc, State.setProc]
  rw [Function.update_self]
  have hU0 : UserMap S 0 (· = 0) := hU.weaken fun _ hf => hf.elim
  refine bind_onMem (uvminit_spec ht setTable_self hU0 hav) ?_
  rintro _ u ⟨R, hR, hRU, hRK⟩
  rw [setTable_setTable] at hR
  have hone : UserMap R (pages PGSIZE) (· = 0) := by rwa [show pages PGSIZE = 1 by decide]
  refine ⟨⟨_, hR, ?_, h.ok⟩, ?_, by simp⟩
  · refine h.linked.add (p := p) (v := { freshProc tf d with sz := PGSIZE, state := .runnable }) hp htf hd
      ⟨hRK.kernelMap hK, 0, hone⟩ ⟨rfl, fun _ => Iff.rfl, ?_⟩ (by simp) rfl rfl
    simp [freshProc]
  · intro q fd _
    exact h.ofile (q, fd)

end TweakedXv6.Vm

import TweakedXv6.FcfsSelect
import TweakedXv6.Loop
import TweakedXv6.MlfqSelect

namespace TweakedXv6.Locks

/-- On a CPU that holds the process locks `held`; it panics if it holds this one. Each lock held has
turned interrupts off once, so that `noff` is the number of them. -/
def acquire (held : List Nat) (p : Nat) : Option (List Nat) :=
  if p ∈ held then none else some (p :: held)

def release (held : List Nat) (p : Nat) : Option (List Nat) :=
  if p ∈ held then some (held.erase p) else none

/-- From one switch to process `p` to the switch back: `p` comes out of `sched` or `forkret` and releases
its lock, and calls `sched` with it later. -/
def runProc (held : List Nat) (p : Nat) : Option (List Nat) := do
  let held ← release held p
  let held ← acquire held p
  if p ∈ held ∧ held.length = 1 then some held else none

structure Switch where
  proc : Nat
  held : List Nat

/-- No lock is left over an iteration, and at each switch only the one of the process is held. -/
def Neutral (r : Option (List Nat × List Switch)) : Prop :=
  ∃ sws, r = some ([], sws) ∧ ∀ sw ∈ sws, sw.held = [sw.proc]

variable {held held' : List Nat} {p q k n j : Nat} {r : State × List Nat × Option Nat}

theorem acquire_nil : acquire [] p = some [p] := rfl

theorem release_cons : release (p :: held) p = some held := by simp [release]

theorem runProc_eq (hnd : held.Nodup) : runProc held p = if held = [p] then some [p] else none := by
  unfold runProc release
  by_cases hp : p ∈ held
  · have hout : p ∉ held.erase p := hnd.not_mem_erase
    have hlen := List.length_erase_of_mem hp
    have hpos := List.length_pos_of_mem hp
    rw [if_pos hp]
    simp only [Option.bind_eq_bind, Option.bind_some, acquire, if_neg hout, List.mem_cons_self, true_and,
      List.length_cons]
    by_cases hone : held = [p]
    · subst hone
      simp
    · rw [if_neg hone, if_neg]
      intro h
      refine hone ?_
      obtain ⟨x, hx⟩ := List.length_eq_one_iff.mp (show held.length = 1 by omega)
      rw [hx] at hp ⊢
      rw [List.mem_singleton.mp hp]
  · rw [if_neg hp, if_neg]
    · rfl
    · rintro rfl
      exact hp List.mem_cons_self

theorem neutral_none : ¬ Neutral none := by
  rintro ⟨sws, h, _⟩
  cases h

theorem neutral_append {r : Option (List Nat × List Switch)} {sw : List Switch} (hsw : ∀ x ∈ sw, x.held = [x.proc]) :
    Neutral (r.bind fun x => some (x.1, sw ++ x.2)) ↔ Neutral r := by
  cases r with
  | none => exact Iff.rfl
  | some x =>
    constructor
    · rintro ⟨sws, he, hsws⟩
      have he := Option.some.inj he
      have h1 : x.1 = [] := congrArg Prod.fst he
      have h2 : sw ++ x.2 = sws := congrArg Prod.snd he
      refine ⟨x.2, by rw [← h1], fun y hy => hsws y ?_⟩
      rw [← h2]
      exact List.mem_append_right sw hy
    · rintro ⟨sws, he, hsws⟩
      cases he
      refine ⟨sw ++ sws, rfl, fun y hy => ?_⟩
      rcases List.mem_append.mp hy with hy | hy
      · exact hsw y hy
      · exact hsws y hy

section Fcfs

open Fcfs

/-- The locks, the slot at which the loop goes on, and the switch if there is one. The lock taken is the
one of slot `p`, the one released that of the process selected. -/
def fcfsSlot (table : Table) (held : List Nat) (p : Nat) : Option (List Nat × Nat × List Switch) := do
  let held ← acquire held p
  if (table p).state = .runnable then
    let sel := selectProc table p
    let back ← runProc held sel
    let back ← release back sel
    some (back, sel, [⟨sel, held⟩])
  else
    let held ← release held p
    some (held, p, [])

/-- From slot `p` on; `tables i` is the table at the `i`th slot visited. -/
def fcfsPass (tables : Nat → Table) : Nat → Nat → Nat → List Nat → Option (List Nat × List Switch)
  | 0, _, _, _ => none
  | fuel + 1, i, p, held =>
    if p < NPROC then do
      let (held, p, sw) ← fcfsSlot (tables i) held p
      let (held, sws) ← fcfsPass tables fuel (i + 1) (p + 1) held
      some (held, sw ++ sws)
    else some (held, [])

variable {table : Table} {tables : Nat → Table} {fuel : Nat}

theorem fcfsSlot_eq : fcfsSlot table [] p =
    if (table p).state = .runnable then
      if selectProc table p = p then some ([], p, [⟨p, [p]⟩]) else none
    else some ([], p, []) := by
  unfold fcfsSlot
  rw [acquire_nil]
  simp only [Option.bind_eq_bind, Option.bind_some]
  split
  next hst =>
    rw [runProc_eq (by simp)]
    by_cases hsel : selectProc table p = p
    · rw [hsel]
      simp [release]
    · have hne : ¬ [p] = [selectProc table p] := fun he => hsel (List.cons.inj he).1.symm
      rw [if_neg hne, if_neg hsel]
      rfl
  next => simp [release]

theorem fcfsPass_iff (hp : p ≤ NPROC) (hfuel : NPROC < fuel + p) :
    Neutral (fcfsPass tables fuel p p []) ↔ ∀ k, p ≤ k → k < NPROC → (tables k k).state = .runnable →
      ∀ j < NPROC, ¬ Earlier (tables k) k j := by
  induction fuel generalizing p with
  | zero => omega
  | succ fuel ih =>
    rw [fcfsPass]
    by_cases hlt : p < NPROC
    · rw [if_pos hlt, fcfsSlot_eq]
      have hrest := ih (p := p + 1) hlt (by omega)
      -- the slots from `p` on are `p` and the slots from `p + 1` on
      have hsplit : (∀ k, p ≤ k → k < NPROC → (tables k k).state = .runnable →
            ∀ j < NPROC, ¬ Earlier (tables k) k j) ↔
          ((tables p p).state = .runnable → ∀ j < NPROC, ¬ Earlier (tables p) p j) ∧
            ∀ k, p + 1 ≤ k → k < NPROC → (tables k k).state = .runnable → ∀ j < NPROC, ¬ Earlier (tables k) k j := by
        refine ⟨fun h => ⟨h p (Nat.le_refl p) hlt, fun k hk => h k (by omega)⟩, fun h k hk hkn => ?_⟩
        by_cases hkp : k = p
        · rw [hkp]
          exact h.1
        · exact h.2 k (by omega) hkn
      rw [hsplit, ← hrest, ← selectProc_eq_iff]
      by_cases hst : (tables p p).state = .runnable
      · rw [if_pos hst]
        by_cases hsel : selectProc (tables p) p = p
        · rw [if_pos hsel]
          refine (neutral_append fun x hx => ?_).trans ⟨fun h => ⟨fun _ => hsel, h⟩, fun h => h.2⟩
          rw [List.mem_singleton.mp hx]
        · rw [if_neg hsel]
          exact ⟨fun h => absurd h neutral_none, fun h => absurd (h.1 hst) hsel⟩
      · rw [if_neg hst]
        exact (neutral_append fun x hx => by cases hx).trans ⟨fun h => ⟨fun h => absurd h hst, h⟩, fun h => h.2⟩
    · rw [if_neg hlt]
      refine ⟨fun _ k hk hkn => by omega, fun _ => ⟨[], rfl, fun sw hsw => by cases hsw⟩⟩

end Fcfs

section Mlfq

open Mlfq

def purgeSlot (q : Nat) (r : State × List Nat) (j : Nat) : Option (State × List Nat) :=
  if j < r.1.queues.size q then
    match r.1.queues.at q j with
    | none => none
    | some p => do
      let held ← acquire r.2 p
      if (r.1.proc p).state = .zombie ∨ (r.1.proc p).state = .sleeping then
        let held ← release held p
        ((r.1.setProc p { r.1.proc p with cqueue := -1 }).remove p q).map fun s => (s, held)
      else
        let held ← release held p
        some (r.1, held)
  else some r

def purge (r : State × List Nat) : Option (State × List Nat) :=
  (List.range 5).foldlM (fun r q => (List.range (r.1.queues.size q)).foldlM (purgeSlot q) r) r

/-- The lock of the process found stays held. -/
def selectFrom (s : State) (q : Nat) (held : List Nat) : List Nat → Option (State × List Nat × Option Nat)
  | [] => some (s, held, none)
  | j :: js =>
    match s.queues.at q j with
    | none => none
    | some p => do
      let held ← acquire held p
      if (s.proc p).state = .runnable then
        ((s.setProc p { s.proc p with cqueue := -1 }).remove p q).map fun s => (s, held, some p)
      else
        let held ← release held p
        selectFrom s q held js

def select (s : State) (held : List Nat) : Option (State × List Nat × Option Nat) :=
  (List.range 5).foldlM (fun r q =>
    (selectFrom r.1 q r.2.1 (List.range (r.1.queues.size q))).map fun r' =>
      (r'.1, r'.2.1, r'.2.2.orElse fun _ => r.2.2))
    (s, held, none)

/-- The rest of the iteration. Between the last `acquire` and `release` the process is put back into a
queue. -/
def dispatch (s : State) (held : List Nat) : Option Nat → Option (List Nat × List Switch)
  | none => some (held, [])
  | some p =>
    if (s.proc p).state ≠ .runnable then (release held p).map fun held => (held, [])
    else do
      let back ← runProc held p
      let back ← release back p
      let back ← acquire back p
      let back ← release back p
      some (back, [⟨p, held⟩])

def selectAndRun (s : State) : Option (List Nat × List Switch) :=
  (select s []).bind fun r => dispatch r.1 r.2.1 r.2.2

variable {s t : State} {l : List Nat} {o : Option Nat}

theorem purgeSlot_eq (s : State) (j : Nat) : purgeSlot q (s, []) j = (Mlfq.purgeSlot q s j).map fun t => (t, []) := by
  unfold purgeSlot Mlfq.purgeSlot
  split
  next =>
    cases s.queues.at q j with
    | none => rfl
    | some p =>
      simp only [acquire_nil, Option.bind_eq_bind, Option.bind_some, release_cons]
      split <;> rfl
  next => rfl

theorem foldlM_map {f : State → Nat → Option State} {g : State × List Nat → Nat → Option (State × List Nat)}
    (h : ∀ s, ∀ a, g (s, []) a = (f s a).map fun t => (t, [])) :
    l.foldlM g (s, []) = (l.foldlM f s).map fun t => (t, []) := by
  induction l generalizing s with
  | nil => rfl
  | cons a l ih =>
    rw [List.foldlM_cons, List.foldlM_cons, h]
    cases f s a with
    | none => rfl
    | some t => exact ih

theorem purge_eq (s : State) : purge (s, []) = (Mlfq.purge s).map fun t => (t, []) :=
  foldlM_map fun _ _ => foldlM_map purgeSlot_eq

theorem mlfq_selectFrom_cons (h : s.queues.at q j = some p) : Mlfq.selectFrom s q (j :: l) =
    if (s.proc p).state = .runnable then
      ((s.setProc p { s.proc p with cqueue := -1 }).remove p q).map fun s => (s, some p)
    else Mlfq.selectFrom s q l := by
  rw [Mlfq.selectFrom, h]

theorem selectFrom_cons (h : s.queues.at q j = some p) : selectFrom s q held (j :: l) =
    if p ∈ held then none
    else if (s.proc p).state = .runnable then
      ((s.setProc p { s.proc p with cqueue := -1 }).remove p q).map fun s => (s, p :: held, some p)
    else selectFrom s q held l := by
  rw [selectFrom, h]
  by_cases hp : p ∈ held
  · simp [acquire, hp]
  · simp [acquire, hp, release_cons]

theorem selectFrom_of_locked (h : selectFrom s q held l = some (t, held', o)) :
    Mlfq.selectFrom s q l = some (t, o) ∧ held' = o.toList ++ held ∧ (held.Nodup → held'.Nodup) := by
  induction l with
  | nil =>
    cases h
    exact ⟨rfl, rfl, id⟩
  | cons j l ih =>
    cases hat : s.queues.at q j with
    | none =>
      rw [selectFrom, hat] at h
      cases h
    | some p =>
      rw [selectFrom_cons hat] at h
      rw [mlfq_selectFrom_cons hat]
      split at h
      next => cases h
      next hp =>
        split at h
        next hst =>
          obtain ⟨u, hu, he⟩ := Option.map_eq_some_iff.mp h
          cases he
          rw [if_pos hst, hu]
          exact ⟨rfl, rfl, fun hnd => List.nodup_cons.mpr ⟨hp, hnd⟩⟩
        next hst =>
          rw [if_neg hst]
          exact ih h

theorem locked_of_selectFrom (hfree : ∀ j ∈ l, ∀ p, s.queues.at q j = some p → p ∉ held)
    (h : Mlfq.selectFrom s q l = some (t, o)) : selectFrom s q held l = some (t, o.toList ++ held, o) := by
  induction l with
  | nil =>
    cases h
    rfl
  | cons j l ih =>
    cases hat : s.queues.at q j with
    | none =>
      rw [Mlfq.selectFrom, hat] at h
      cases h
    | some p =>
      rw [mlfq_selectFrom_cons hat] at h
      rw [selectFrom_cons hat, if_neg (hfree j List.mem_cons_self p hat)]
      split at h
      next hst =>
        obtain ⟨u, hu, he⟩ := Option.map_eq_some_iff.mp h
        cases he
        rw [if_pos hst, hu]
        rfl
      next hst =>
        rw [if_neg hst]
        exact ih (fun i hi => hfree i (List.mem_cons_of_mem j hi)) h

def busy (s : State) (n : Nat) : Nat := (List.range n).countP fun q => (s.first (s.queues.list q)).isSome

theorem busy_succ : busy s (n + 1) = busy s n + if (s.first (s.queues.list n)).isSome then 1 else 0 := by
  simp [busy, List.range_succ]

structure Selected (s : State) (n : Nat) (r : State × List Nat × Option Nat) : Prop where
  lists : Lists r.1.queues fun q => if q < n then s.rest (s.queues.list q) else s.queues.list q
  same : SameButLevel s r.1
  length : r.2.1.length = busy s n
  nodup : r.2.1.Nodup
  none : busy s n = 0 → r.2.2 = none
  one : ∀ p, r.2.1 = [p] → r.2.2 = some p ∧ (s.proc p).state = .runnable

theorem Selected.next (h : Selected s n r) (hn : n < 5)
    (hr : selectFrom r.1 n r.2.1 (List.range (r.1.queues.size n)) = some (t, held', o)) :
    Selected s (n + 1) (t, held', o.orElse fun _ => r.2.2) := by
  obtain ⟨hfrom, hheld, hnd⟩ := selectFrom_of_locked hr
  obtain ⟨u, hu, hlists, hsame, _, _⟩ := selectFrom_spec h.lists hn
  simp only [Nat.lt_irrefl, if_false, h.same.first, h.same.rest] at hu hlists
  cases hfrom.symm.trans hu
  have hlen : held'.length = busy s (n + 1) := by
    rw [hheld, List.length_append, h.length, busy_succ, Nat.add_comm]
    congr 1
    cases s.first (s.queues.list n) <;> rfl
  refine ⟨hlists.congr fun q _ => ?_, fun k => ?_, hlen, hnd h.nodup, fun hzero => ?_, fun p hp => ?_⟩
  · by_cases hqn : q = n
    · rw [hqn, Function.update_self, if_pos (Nat.lt_succ_self n)]
    · rw [Function.update_of_ne hqn]
      simp only [show q < n + 1 ↔ q < n by omega]
  · obtain ⟨c, hc⟩ := h.same k
    obtain ⟨c', hc'⟩ := hsame k
    exact ⟨c', by rw [hc', hc]⟩
  · rw [busy_succ] at hzero
    cases hf : s.first (s.queues.list n) with
    | none => exact h.none (by omega)
    | some p => simp [hf] at hzero
  · dsimp only at hp ⊢
    cases hf : s.first (s.queues.list n) with
    | none =>
      rw [hheld, hf] at hp
      exact h.one p hp
    | some k =>
      rw [hheld, hf] at hp
      have hkp : k = p := (List.cons.inj hp).1
      subst hkp
      exact ⟨rfl, by simpa using List.find?_some hf⟩

theorem selected (h : s.queues.Ok) (hn : n ≤ 5)
    (hr : (List.range n).foldlM (fun r q =>
      (selectFrom r.1 q r.2.1 (List.range (r.1.queues.size q))).map fun r' =>
        (r'.1, r'.2.1, r'.2.2.orElse fun _ => r.2.2)) (s, [], none) = some r) : Selected s n r := by
  induction n generalizing r with
  | zero =>
    cases hr
    exact ⟨h.lists.congr fun q _ => by simp, fun k => ⟨(s.proc k).cqueue, rfl⟩, rfl, List.nodup_nil, fun _ => rfl,
      fun p hp => by cases hp⟩
  | succ n ih =>
    rw [List.range_succ, List.foldlM_append] at hr
    obtain ⟨r', hr', hr⟩ := Option.bind_eq_some_iff.mp hr
    rw [List.foldlM_cons] at hr
    obtain ⟨r'', hr'', hr⟩ := Option.bind_eq_some_iff.mp hr
    cases hr
    obtain ⟨u, hu, rfl⟩ := Option.map_eq_some_iff.mp hr''
    exact (ih (Nat.le_of_succ_le hn) hr').next hn hu

theorem busy_mono {m : Nat} (h : m ≤ n) : busy s m ≤ busy s n := by
  induction h with
  | refl => exact Nat.le_refl _
  | step _ ih =>
    rw [busy_succ]
    exact Nat.le_add_right_of_le ih

theorem select_returns (h : s.queues.Ok) (hbusy : busy s 5 ≤ 1) (hn : n ≤ 5) : ∃ r, (List.range n).foldlM (fun r q =>
      (selectFrom r.1 q r.2.1 (List.range (r.1.queues.size q))).map fun r' =>
        (r'.1, r'.2.1, r'.2.2.orElse fun _ => r.2.2)) (s, [], none) = some r := by
  induction n with
  | zero => exact ⟨_, rfl⟩
  | succ n ih =>
    obtain ⟨r, hr⟩ := ih (Nat.le_of_succ_le hn)
    have hsel := selected h (Nat.le_of_succ_le hn) hr
    obtain ⟨u, hu, _⟩ := selectFrom_spec hsel.lists hn
    have hfree : ∀ j ∈ List.range (r.1.queues.size n), ∀ p, r.1.queues.at n j = some p → p ∉ r.2.1 := by
      intro j hj p hp hmem
      have hpos := List.length_pos_of_mem hmem
      have hle := busy_mono (s := s) hn
      rw [busy_succ] at hle
      rw [hsel.length] at hpos
      obtain ⟨k, hk⟩ := List.length_eq_one_iff.mp (show r.2.1.length = 1 by rw [hsel.length]; omega)
      rw [hk, List.mem_singleton] at hmem
      -- the process whose lock is held is RUNNABLE, so it is not in this queue
      have hlist := hsel.lists.size n hn
      simp only [Nat.lt_irrefl, if_false] at hlist
      have hentry := hsel.lists.entry n hn j (by simpa [hlist] using List.mem_range.mp hj)
      simp only [Nat.lt_irrefl, if_false] at hentry
      have hin : k ∈ s.queues.list n := by
        rw [← hmem]
        exact List.mem_of_getElem? (hentry.symm.trans hp)
      have hnone : s.first (s.queues.list n) = none := by
        cases hf : s.first (s.queues.list n) with
        | none => rfl
        | some x =>
          rw [hf] at hle
          simp at hle
          omega
      have := List.find?_eq_none.mp hnone k hin
      exact this (by simpa using (hsel.one k hk).2)
    have hlocked := locked_of_selectFrom hfree hu
    rw [List.range_succ, List.foldlM_append, hr]
    exact ⟨_, by simp [hlocked]; rfl⟩

theorem selectAndRun_iff_busy (h : s.queues.Ok) : Neutral (selectAndRun s) ↔ busy s 5 ≤ 1 := by
  constructor
  · intro hneutral
    by_contra hbusy
    unfold selectAndRun at hneutral
    cases hr : select s [] with
    | none =>
      rw [hr] at hneutral
      exact neutral_none hneutral
    | some r =>
      have hsel := selected h (Nat.le_refl 5) hr
      have hlen := hsel.length
      rw [hr] at hneutral
      obtain ⟨sws, he, _⟩ := hneutral
      rw [Option.bind_some] at he
      cases hp : r.2.2 with
      | none =>
        rw [hp, dispatch] at he
        have := congrArg Prod.fst (Option.some.inj he)
        dsimp only at this
        rw [this, List.length_nil] at hlen
        omega
      | some p =>
        rw [hp, dispatch] at he
        split at he
        next =>
          obtain ⟨held, hheld, he⟩ := Option.map_eq_some_iff.mp he
          cases he
          unfold release at hheld
          split at hheld
          next hmem =>
            have := congrArg List.length (Option.some.inj hheld)
            rw [List.length_erase_of_mem hmem, List.length_nil] at this
            omega
          next => cases hheld
        next =>
          obtain ⟨back, hback, _⟩ := Option.bind_eq_some_iff.mp he
          rw [runProc_eq hsel.nodup] at hback
          split at hback
          next hone =>
            rw [hone, List.length_singleton] at hlen
            omega
          next => cases hback
  · intro hbusy
    obtain ⟨r, hr⟩ := select_returns h hbusy (Nat.le_refl 5)
    have hsel := selected h (Nat.le_refl 5) hr
    have hrun : selectAndRun s = dispatch r.1 r.2.1 r.2.2 := by
      rw [selectAndRun, select, hr]
      rfl
    rw [hrun]
    rcases Nat.le_one_iff_eq_zero_or_eq_one.mp hbusy with hzero | hone
    · have hheld : r.2.1 = [] := List.length_eq_zero_iff.mp (hsel.length.trans hzero)
      rw [hsel.none hzero, hheld]
      exact ⟨[], rfl, fun sw hsw => by cases hsw⟩
    · obtain ⟨p, hp⟩ := List.length_eq_one_iff.mp (hsel.length.trans hone)
      obtain ⟨hsome, hst⟩ := hsel.one p hp
      have hst' : (r.1.proc p).state = .runnable := (hsel.same.state p).trans hst
      rw [hsome, hp, dispatch, if_neg (not_not.mpr hst'), runProc_eq (by simp), if_pos rfl]
      refine ⟨[⟨p, [p]⟩], by simp [release, acquire], fun sw hsw => ?_⟩
      rw [List.mem_singleton.mp hsw]

def OneBusy (s : State) : Prop :=
  ∀ q < 5, ∀ q' < 5, s.first (s.queues.list q) ≠ none → s.first (s.queues.list q') ≠ none → q = q'

theorem busy_eq_zero : busy s n = 0 ↔ ∀ q < n, s.first (s.queues.list q) = none := by
  simp [busy, List.countP_eq_zero]

theorem busy_le_one : busy s n ≤ 1 ↔ ∀ q < n, ∀ q' < n, s.first (s.queues.list q) ≠ none →
    s.first (s.queues.list q') ≠ none → q = q' := by
  induction n with
  | zero => exact ⟨fun _ q hq => absurd hq (Nat.not_lt_zero q), fun _ => Nat.zero_le 1⟩
  | succ n ih =>
    rw [busy_succ]
    by_cases hn : s.first (s.queues.list n) = none
    · rw [hn, Option.isSome_none, if_neg (by decide), Nat.add_zero, ih]
      refine ⟨fun h q hq q' hq' hb hb' => ?_, fun h q hq q' hq' => h q (by omega) q' (by omega)⟩
      have hne : q ≠ n := fun he => hb (he ▸ hn)
      have hne' : q' ≠ n := fun he => hb' (he ▸ hn)
      exact h q (by omega) q' (by omega) hb hb'
    · rw [Option.isSome_iff_ne_none.mpr hn, if_pos rfl]
      refine ⟨fun h q hq q' hq' hb hb' => ?_, fun h => ?_⟩
      · have hzero := busy_eq_zero.mp (show busy s n = 0 by omega)
        have hlast : ∀ r < n + 1, s.first (s.queues.list r) ≠ none → r = n := by
          intro r hr hbr
          by_contra hne
          exact hbr (hzero r (by omega))
        rw [hlast q hq hb, hlast q' hq' hb']
      · have hzero : busy s n = 0 := by
          refine busy_eq_zero.mpr fun q hq => ?_
          by_contra hb
          have := h q (by omega) n (by omega) hb hn
          omega
        omega

end Mlfq

open Fcfs Mlfq in
/-- A FCFS pass is neutral exactly if no RUNNABLE process that it meets has an earlier one; the first
MLFQ sweep always is; what follows is if no two queues have a RUNNABLE process. -/
theorem scheduler_locks (tables : Nat → Table) (fuel : Nat) (hfuel : NPROC < fuel) (s : State) (h : s.queues.Ok) :
    (Neutral (fcfsPass tables fuel 0 0 []) ↔
      ∀ k < NPROC, (tables k k).state = .runnable → ∀ j < NPROC, ¬ Earlier (tables k) k j) ∧
    purge (s, []) = (Mlfq.purge s).map (fun t => (t, [])) ∧
    (Neutral (selectAndRun s) ↔ OneBusy s) := by
  refine ⟨?_, purge_eq s, ?_⟩
  · rw [fcfsPass_iff (Nat.zero_le NPROC) hfuel]
    exact forall_congr' fun k => ⟨fun h hk => h (Nat.zero_le k) hk, fun h _ hk => h hk⟩
  · rw [selectAndRun_iff_busy h, busy_le_one]
    rfl

open Fcfs Mlfq in
theorem scheduler_locks_one : queueTwo.queues.Ok ∧ Neutral (selectAndRun queueTwo) ∧
    Neutral (fcfsPass (fun _ => runnables [1]) 65 0 0 []) := by
  have hok : queueTwo.queues.Ok := ⟨by decide, by decide⟩
  obtain ⟨hfcfs, _, hmlfq⟩ := scheduler_locks (fun _ => runnables [1]) 65 (by decide) queueTwo hok
  refine ⟨hok, hmlfq.mpr ?_, hfcfs.mpr ?_⟩
  · have hlow : ∀ q < 5, queueTwo.first (queueTwo.queues.list q) ≠ none → q = 2 := by decide
    intro q hq q' hq' hb hb'
    rw [hlow q hq hb, hlow q' hq' hb']
  · rintro k _ hk j _ ⟨hj, _, hlt⟩
    have hzero : ∀ i, (runnables [1] i).state = .runnable → i = 0 := by
      intro i hi
      by_contra hne
      simp [runnables, show ¬ i < 1 by omega] at hi
    rw [hzero k hk, hzero j hj] at hlt
    exact UInt32.lt_irrefl _ hlt

open Fcfs Mlfq in
/-- FCFS switches to process 1 with the lock of process 0. MLFQ switches with both locks held, and the
process panics in `sched`. -/
theorem scheduler_locks_wrong :
    selectProc (runnables [2, 1]) 0 = 1 ∧ (∀ n, fcfsPass (fun _ => runnables [2, 1]) n 0 0 [] = none) ∧
    twoQueues.queues.Ok ∧ (∃ s, select twoQueues [] = some (s, [1, 0], some 1)) ∧
    selectAndRun twoQueues = none := by
  have hsel : selectProc (runnables [2, 1]) 0 = 1 := by decide +kernel
  have hview : (select twoQueues []).map (fun r => r.2) = some ([1, 0], some 1) := by decide
  obtain ⟨r, hr, hv⟩ := Option.map_eq_some_iff.mp hview
  have hstate : (select twoQueues []).all (fun r => (r.1.proc 1).state = .runnable) = true := by decide
  refine ⟨hsel, fun n => ?_, ⟨by decide, by decide⟩, ⟨r.1, ?_⟩, ?_⟩
  · cases n with
    | zero => rfl
    | succ n =>
      have hrun : (runnables [2, 1] 0).state = .runnable := rfl
      rw [fcfsPass, if_pos zero_lt_NPROC, fcfsSlot_eq, if_pos hrun, hsel, if_neg (by decide)]
      rfl
  · rw [hr, ← hv]
  · rw [selectAndRun, hr]
    rw [hr, Option.all_some, decide_eq_true_eq] at hstate
    rw [Option.bind_some, hv, dispatch, if_neg (not_not.mpr hstate), runProc_eq (by decide), if_neg (by decide)]
    rfl

end TweakedXv6.Locks

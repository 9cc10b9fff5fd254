import TweakedXv6.MlfqArrays

namespace TweakedXv6.Mlfq

/-- With the indices that it reads. -/
def searchLoop (qs : Queues) (pid : Nat → Int) (p q : Nat) : List Nat → Option (Option Nat × List Nat)
  | [] => some (none, [])
  | i :: is =>
    match qs.at q i with
    | none => none
    | some k =>
      if pid k = pid p then some (some i, [i])
      else (searchLoop qs pid p q is).map fun r => (r.1, i :: r.2)

/-- `MLFQ_queue[queue_number][i] = MLFQ_queue[queue_number][i + 1]` for each `i`, with the indices used.
-/
def shiftLoop (qs : Queues) (q : Nat) : List Nat → Queues × List Nat
  | [] => (qs, [])
  | i :: is =>
    let r := shiftLoop { qs with slot := Function.update qs.slot (q * NPROC + i) (qs.at q (i + 1)) } q is
    (r.1, (i + 1) :: i :: r.2)

/-- Round by round: the new arrays, the value returned, and the indices used in the row. -/
def removeRun (qs : Queues) (pid : Nat → Int) (p q : Nat) : Option (Queues × Int × List Nat) :=
  if qs.size q = 0 then some (qs, 0, [])
  else
    match searchLoop qs pid p q (List.range (qs.size q)) with
    | none => none
    | some (none, l) => some (qs, 0, l)
    | some (some i, l) =>
      let r := shiftLoop qs q (List.range' i (qs.size q - i))
      some ({ r.1 with size := Function.update r.1.size q (r.1.size q - 1) }, 1, l ++ r.2)

def HasPid (qs : Queues) (pid : Nat → Int) (p q : Nat) : Prop := ∃ k ∈ qs.list q, pid k = pid p

structure Removes (qs : Queues) (pid : Nat → Int) (p q : Nat) (r : Queues × Int × List Nat) : Prop where
  indices : ∀ i ∈ r.2.2, i < NPROC
  value : r.2.1 = 0 ∨ r.2.1 = 1
  found : r.2.1 = 1 ↔ HasPid qs pid p q
  deleted : r.2.1 = 1 → r.1.list q = (qs.list q).filter fun k => pid k ≠ pid p
  others : ∀ q' < 5, q' ≠ q → r.1.size q' = qs.size q' ∧ ∀ i < NPROC, r.1.at q' i = qs.at q' i
  same : r.2.1 = 0 → r.1 = qs

variable {qs : Queues} {pid : Nat → Int} {p q i j n : Nat} {is l : List Nat}

theorem shiftLoop_eq : (shiftLoop qs q (List.range' i n)).1 = { qs with
    slot := fun a => if q * NPROC + i ≤ a ∧ a < q * NPROC + i + n then qs.slot (a + 1) else qs.slot a } := by
  induction n generalizing qs i with
  | zero =>
    have hslot : (fun a => if q * NPROC + i ≤ a ∧ a < q * NPROC + i + 0 then qs.slot (a + 1) else qs.slot a) = qs.slot := by
      funext a
      exact if_neg (by omega)
    rw [hslot]
    rfl
  | succ n ih =>
    rw [List.range'_succ, shiftLoop, ih]
    congr 1
    funext a
    dsimp only
    by_cases ha : a = q * NPROC + i
    · rw [if_neg (by omega), if_pos (by omega), ha, Function.update_self]
      rfl
    · rw [Function.update_of_ne ha]
      by_cases hin : q * NPROC + i ≤ a ∧ a < q * NPROC + i + (n + 1)
      · rw [if_pos hin, if_pos (by omega), Function.update_of_ne (by omega)]
      · rw [if_neg hin, if_neg (by omega)]

theorem mem_shiftLoop : j ∈ (shiftLoop qs q is).2 ↔ ∃ i ∈ is, j = i ∨ j = i + 1 := by
  induction is generalizing qs with
  | nil => simp [shiftLoop]
  | cons i is ih =>
    rw [shiftLoop]
    simp only [List.mem_cons, ih, exists_eq_or_imp, or_left_comm, or_assoc]

theorem shiftLoop_close (hi : i ≤ qs.size q) : { (shiftLoop qs q (List.range' i (qs.size q - i))).1 with
    size := Function.update (shiftLoop qs q (List.range' i (qs.size q - i))).1.size q
      ((shiftLoop qs q (List.range' i (qs.size q - i))).1.size q - 1) } = qs.close q i := by
  have hend : q * NPROC + i + (qs.size q - i) = q * NPROC + qs.size q := by omega
  rw [shiftLoop_eq, hend]
  rfl

theorem searchLoop_fst : (searchLoop qs pid p q is).map Prod.fst = findIndex qs pid p q is := by
  induction is with
  | nil => rfl
  | cons i is ih =>
    unfold searchLoop findIndex
    cases qs.at q i with
    | none => rfl
    | some k =>
      dsimp only
      split
      next => rfl
      next =>
        rw [← ih, Option.map_map]
        rfl

theorem searchLoop_reads {o : Option Nat} (h : searchLoop qs pid p q is = some (o, l)) :
    (∀ j ∈ l, j ∈ is) ∧ ∀ i, o = some i → i ∈ is := by
  induction is generalizing l with
  | nil =>
    cases h
    simp
  | cons k is ih =>
    unfold searchLoop at h
    split at h
    next => cases h
    next =>
      split at h
      next =>
        cases h
        simp
      next =>
        obtain ⟨⟨o', l'⟩, hrest, hr⟩ := Option.map_eq_some_iff.mp h
        obtain ⟨rfl, rfl⟩ := Prod.mk.inj hr
        obtain ⟨hreads, hfound⟩ := ih hrest
        refine ⟨fun j hj => ?_, fun i hi => List.mem_cons_of_mem k (hfound i hi)⟩
        rcases List.mem_cons.mp hj with rfl | hj
        · exact List.mem_cons_self
        · exact List.mem_cons_of_mem k (hreads j hj)

theorem removeRun_found (hs : searchLoop qs pid p q (List.range (qs.size q)) = some (some i, l)) :
    removeRun qs pid p q = some (qs.close q i, 1, l ++ (shiftLoop qs q (List.range' i (qs.size q - i))).2) := by
  have hi := List.mem_range.mp ((searchLoop_reads hs).2 i rfl)
  unfold removeRun
  rw [if_neg (by omega), hs]
  dsimp only
  rw [shiftLoop_close (by omega)]

theorem removeRun_absent (hs : searchLoop qs pid p q (List.range (qs.size q)) = some (none, l)) :
    removeRun qs pid p q = some (qs, 0, l) := by
  unfold removeRun
  split
  next hzero =>
    rw [hzero] at hs
    cases hs
    rfl
  next => rw [hs]

theorem removeRun_erase : (removeRun qs pid p q).map (fun r => (r.1, r.2.1)) = removeFromQueue qs pid p q := by
  unfold removeFromQueue
  rw [← searchLoop_fst]
  cases hs : searchLoop qs pid p q (List.range (qs.size q)) with
  | none =>
    unfold removeRun
    rw [hs]
    split <;> rfl
  | some r =>
    obtain ⟨o, l⟩ := r
    cases o with
    | none =>
      rw [removeRun_absent hs]
      split <;> rfl
    | some i =>
      have hi := List.mem_range.mp ((searchLoop_reads hs).2 i rfl)
      rw [removeRun_found hs, if_neg (by omega)]
      rfl

theorem eraseP_eq_filter (h : (l.map pid).Nodup) :
    (l.eraseP fun k => pid k = pid p) = l.filter fun k => pid k ≠ pid p := by
  induction l with
  | nil => rfl
  | cons k l ih =>
    obtain ⟨hk, hl⟩ := List.nodup_cons.mp h
    by_cases hp : pid k = pid p
    · rw [List.eraseP_cons_of_pos (by simpa using hp), List.filter_cons_of_neg (by simpa using hp)]
      refine (List.filter_eq_self.mpr fun a ha => ?_).symm
      have hne : pid a ≠ pid p := fun he => hk (List.mem_map.mpr ⟨a, ha, he.trans hp.symm⟩)
      simpa using hne
    · rw [List.eraseP_cons_of_neg (by simpa using hp), List.filter_cons_of_pos (by simpa using hp), ih hl]

theorem searchLoop_finds (pid : Nat → Int) (p : Nat) (h : qs.Ok) (hq : q < 5) :
    ∃ l, searchLoop qs pid p q (List.range (qs.size q)) = some ((qs.list q).findIdx? fun k => pid k = pid p, l) := by
  have hfst : (searchLoop qs pid p q (List.range (qs.size q))).map Prod.fst = _ := searchLoop_fst
  rw [findIndex_eq h.lists hq] at hfst
  obtain ⟨⟨o, l⟩, hs, rfl⟩ := Option.map_eq_some_iff.mp hfst
  exact ⟨l, hs⟩

theorem hasPid_iff : HasPid qs pid p q ↔ ((qs.list q).findIdx? fun k => pid k = pid p).isSome = true := by
  rw [List.findIdx?_isSome]
  simp [HasPid]

theorem close_others (h : qs.Ok) (hq : q < 5) (hne : j ≠ q) (hi : i < NPROC) : (qs.close q n).at j i = qs.at j i := by
  have hle := h.le q hq
  have hout : ¬ (q * NPROC + n ≤ j * NPROC + i ∧ j * NPROC + i < q * NPROC + qs.size q) := by
    simp only [NPROC] at hle hi ⊢
    omega
  rw [Queues.at, close_slot, if_neg hout, Queues.at]

theorem removeRun_spec (pid : Nat → Int) (p : Nat) (h : qs.Ok) (hq : q < 5) (hpid : ((qs.list q).map pid).Nodup) :
    ∃ r, removeRun qs pid p q = some r ∧ (r.2.1 = 0 ∨ r.2.1 = 1) ∧ (r.2.1 = 1 ↔ HasPid qs pid p q) ∧
      (r.2.1 = 1 → r.1.list q = (qs.list q).filter fun k => pid k ≠ pid p) ∧
      (∀ q' < 5, q' ≠ q → r.1.size q' = qs.size q' ∧ ∀ i < NPROC, r.1.at q' i = qs.at q' i) ∧ (r.2.1 = 0 → r.1 = qs) := by
  obtain ⟨l, hs⟩ := searchLoop_finds pid p h hq
  cases hf : (qs.list q).findIdx? fun k => pid k = pid p with
  | none =>
    rw [hf] at hs
    refine ⟨_, removeRun_absent hs, .inl rfl, ?_, ?_, fun _ _ _ => ⟨rfl, fun _ _ => rfl⟩, fun _ => rfl⟩
    · rw [hasPid_iff, hf]
      simp
    · intro hno
      cases hno
  | some i =>
    rw [hf] at hs
    obtain ⟨hi, _⟩ := List.findIdx?_eq_some_iff_getElem.mp hf
    have hlists := h.lists.close hq hi
    refine ⟨_, removeRun_found hs, .inr rfl, ?_, ?_, ?_, ?_⟩
    · rw [hasPid_iff, hf]
      simp
    · intro _
      rw [hlists.list_eq hq, Function.update_self, ← eraseP_eq_filter hpid, List.eraseP_eq_eraseIdx, hf]
    · intro q' _ hne
      exact ⟨Function.update_of_ne hne .., fun i hi => close_others h hq hne hi⟩
    · intro hno
      cases hno

theorem removeRun_indices {r : Queues × Int × List Nat} (h : qs.Ok) (hq : q < 5) (hr : removeRun qs pid p q = some r) :
    (∀ i ∈ r.2.2, i < NPROC) ↔ ¬ (qs.size q = NPROC ∧ HasPid qs pid p q) := by
  have hle := h.le q hq
  obtain ⟨l, hs⟩ := searchLoop_finds pid p h hq
  have hreads : ∀ j ∈ l, j < qs.size q := fun j hj => List.mem_range.mp ((searchLoop_reads hs).1 j hj)
  rw [hasPid_iff]
  cases hf : (qs.list q).findIdx? fun k => pid k = pid p with
  | none =>
    rw [hf] at hs
    rw [removeRun_absent hs] at hr
    cases hr
    refine ⟨fun _ hno => Bool.false_ne_true hno.2, fun _ i hi => ?_⟩
    have := hreads i hi
    omega
  | some i =>
    rw [hf] at hs
    have hi := List.mem_range.mp ((searchLoop_reads hs).2 i rfl)
    rw [removeRun_found hs] at hr
    cases hr
    dsimp only
    constructor
    · intro hall hfull
      have hlast : qs.size q ∈ (shiftLoop qs q (List.range' i (qs.size q - i))).2 :=
        mem_shiftLoop.mpr ⟨qs.size q - 1, List.mem_range'_1.mpr (by omega), .inr (by omega)⟩
      have := hall _ (List.mem_append_right l hlast)
      omega
    · intro hroom j hj
      have hsize : qs.size q ≠ NPROC := fun he => hroom ⟨he, rfl⟩
      rcases List.mem_append.mp hj with hj | hj
      · have := hreads j hj
        omega
      · obtain ⟨k, hk, hjk⟩ := mem_shiftLoop.mp hj
        have := List.mem_range'_1.mp hk
        omega

/-- `remove_from_queue` does as it should exactly if the queue is not full or has no live slot with the
pid: in a full queue the shift loop reads the slot after the row. -/
theorem remove_iff (qs : Queues) (pid : Nat → Int) (p q : Nat) (h : qs.Ok) (hq : q < 5)
    (hpid : ((qs.list q).map pid).Nodup) :
    (∃ r, removeRun qs pid p q = some r ∧ Removes qs pid p q r) ↔ ¬ (qs.size q = NPROC ∧ HasPid qs pid p q) := by
  obtain ⟨r, hr, hvalue, hfound, hdeleted, hothers, hsame⟩ := removeRun_spec pid p h hq hpid
  rw [← removeRun_indices h hq hr]
  constructor
  · rintro ⟨r', hr', hremoves⟩
    cases hr.symm.trans hr'
    exact hremoves.indices
  · intro hindices
    exact ⟨r, hr, hindices, hvalue, hfound, hdeleted, hothers, hsame⟩

def firstQueue (n : Nat) : Queues where
  slot a := if a < n then some a else none
  size q := if q = 0 then n else 0
  sizeBelow := 0

theorem firstQueue_ok (hn : n ≤ NPROC) : (firstQueue n).Ok := by
  constructor
  · intro q _
    unfold firstQueue
    dsimp only
    split <;> omega
  · intro q _ i hi
    by_cases hq : q = 0
    · subst hq
      have hi : i < n := hi
      simp [firstQueue, Queues.at, hi]
    · simp [firstQueue, hq] at hi

theorem remove_iff_two : (firstQueue 2).Ok ∧ ∃ r, removeRun (firstQueue 2) (fun k => k + 1) 0 0 = some r ∧
    Removes (firstQueue 2) (fun k => k + 1) 0 0 r := by
  have hok : (firstQueue 2).Ok := firstQueue_ok (by decide)
  refine ⟨hok, (remove_iff (firstQueue 2) (fun k => k + 1) 0 0 hok (by decide) (by decide)).mpr ?_⟩
  intro hfull
  exact absurd hfull.1 (by decide)

/-- All processes are in queue 0, and one of them is removed: the slot with index 64 is read. -/
theorem remove_full_wrong : (firstQueue NPROC).Ok ∧ (((firstQueue NPROC).list 0).map fun k => (k : Int) + 1).Nodup ∧
    ∃ r, removeRun (firstQueue NPROC) (fun k => k + 1) 0 0 = some r ∧ NPROC ∈ r.2.2 := by
  refine ⟨firstQueue_ok (Nat.le_refl _), ?_, ?_⟩
  · decide +kernel
  · refine ⟨_, removeRun_found (i := 0) (l := [0]) (by decide +kernel), ?_⟩
    exact List.mem_append_right _ (mem_shiftLoop.mpr ⟨63, by decide +kernel, .inr rfl⟩)

end TweakedXv6.Mlfq

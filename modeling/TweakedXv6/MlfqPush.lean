import TweakedXv6.Machine
import TweakedXv6.MlfqArrays

namespace TweakedXv6.Mlfq

open Function (update update_self update_of_ne)

def readSlots (qs : Queues) (pid : Nat → Int) (p : Nat) : List Nat → List Nat
  | [] => []
  | a :: as =>
    match qs.slot a with
    | none => [a]
    | some k => if pid k = pid p then [a] else a :: readSlots qs pid p as

def pushReads (qs : Queues) (pid : Nat → Int) (p q : Nat) : List Nat :=
  if NPROC ≤ qs.size q then [] else readSlots qs pid p (scanned (qs.size q))

def Queues.Live (qs : Queues) (a : Nat) : Prop := ∃ q < 5, ∃ i < qs.size q, a = q * NPROC + i

/-- `push_to_queue` reads live slots only, appends a process that is in no queue to a queue that has
room, and otherwise changes nothing. -/
def PushOk (qs : Queues) (pid : Nat → Int) (p q : Nat) : Prop :=
  (∀ a ∈ pushReads qs pid p q, qs.Live a) ∧ ∃ r, pushToQueue qs pid p q = some r ∧
    ((∀ j < 5, p ∉ qs.list j) ∧ qs.size q < NPROC →
      ∀ j < 5, r.1.list j = if j = q then qs.list q ++ [p] else qs.list j) ∧
    (¬ ((∀ j < 5, p ∉ qs.list j) ∧ qs.size q < NPROC) → r.1 = qs)

/-- The queue is full; or the scan meets the process in rows as long as queue `q`; or the process is in
no queue and no queue is shorter. -/
def ScanFits (qs : Queues) (p q : Nat) : Prop :=
  NPROC ≤ qs.size q ∨
  (∃ j < 5, (∀ j' < j, qs.size q ≤ qs.size j') ∧ p ∈ (qs.list j).take (qs.size q)) ∨
  (∀ j < 5, p ∉ qs.list j) ∧ ∀ j < 5, qs.size q ≤ qs.size j

structure Apart (L : Nat → List Nat) : Prop where
  nodup : ∀ q < 5, (L q).Nodup
  disjoint : ∀ q < 5, ∀ q' < 5, q ≠ q' → ∀ p, p ∈ L q → p ∉ L q'

inductive QueueAct
  | push (p : Nat) (q : Fin 5)
  | remove (p : Nat) (q : Fin 5)

def queueAct (pid : Nat → Int) (qs : Queues) : QueueAct → Option Queues
  | .push p q => (pushToQueue qs pid p q.val).map Prod.fst
  | .remove p q => (removeFromQueue qs pid p q.val).map Prod.fst

def queueMachine (pid : Nat → Int) : Machine Queues QueueAct where
  init qs := (∀ q, qs.size q = 0) ∧ ∀ a, qs.slot a = none
  step := queueAct pid

def QueueAct.Fits (qs : Queues) : QueueAct → Prop
  | .push p q => ScanFits qs p q
  | .remove _ _ => True

variable {qs qs' : Queues} {L : Nat → List Nat} {pid : Nat → Int} {p q i j m n : Nat} {as : List Nat}

theorem Lists.live_iff (h : Lists qs L) (hj : j < 5) (hi : i < NPROC) :
    qs.Live (j * NPROC + i) ↔ i < (L j).length := by
  constructor
  · rintro ⟨q, hq, k, hk, he⟩
    have hle := h.le q hq
    rw [h.size q hq] at hk
    have hqj : q = j ∧ k = i := by
      simp only [NPROC] at hle hi he
      omega
    obtain ⟨rfl, rfl⟩ := hqj
    exact hk
  · intro hlt
    exact ⟨j, hj, i, by rw [h.size j hj]; exact hlt, rfl⟩

/-- The scan of one row finds the process; or the row is long enough and it goes on; or it reads a slot
that is not live. -/
theorem scan_row (p : Nat) (as : List Nat) (hpid : Function.Injective pid) (h : Lists qs L) (hj : j < 5) (hn : n ≤ NPROC)
    (him : i + m = n) (hi : i ≤ (L j).length) :
    (p ∈ ((L j).drop i).take m ∧ findPid qs pid p ((List.range' i m).map (j * NPROC + ·) ++ as) = some true ∧
      ∀ a ∈ readSlots qs pid p ((List.range' i m).map (j * NPROC + ·) ++ as), qs.Live a) ∨
    (p ∉ ((L j).drop i).take m ∧ n ≤ (L j).length ∧
      findPid qs pid p ((List.range' i m).map (j * NPROC + ·) ++ as) = findPid qs pid p as ∧
      ∀ a ∈ readSlots qs pid p ((List.range' i m).map (j * NPROC + ·) ++ as),
        qs.Live a ∨ a ∈ readSlots qs pid p as) ∧
      (∀ a ∈ readSlots qs pid p as, a ∈ readSlots qs pid p ((List.range' i m).map (j * NPROC + ·) ++ as)) ∨
    (p ∉ ((L j).drop i).take m ∧ (L j).length < n ∧
      ∃ a ∈ readSlots qs pid p ((List.range' i m).map (j * NPROC + ·) ++ as), ¬ qs.Live a) := by
  induction m generalizing i with
  | zero =>
    refine .inr (.inl ⟨⟨by simp, by omega, rfl, fun a ha => .inr ha⟩, fun a ha => ha⟩)
  | succ m ih =>
    rw [List.range'_succ, List.map_cons, List.cons_append]
    by_cases hlt : i < (L j).length
    · have hslot : qs.slot (j * NPROC + i) = some (L j)[i] := by
        have := h.entry j hj i hlt
        rw [List.getElem?_eq_getElem hlt] at this
        exact this
      have hlive : qs.Live (j * NPROC + i) := (h.live_iff hj (by omega)).mpr hlt
      rw [List.drop_eq_getElem_cons hlt, List.take_succ_cons, findPid, readSlots, hslot]
      by_cases hp : (L j)[i] = p
      · refine .inl ⟨by rw [hp]; exact List.mem_cons_self, by simp [hp], fun a ha => ?_⟩
        simp only [hp, if_true, List.mem_singleton] at ha
        exact ha ▸ hlive
      · have hne : ¬ pid (L j)[i] = pid p := fun he => hp (hpid he)
        have hmem : p ∈ (L j)[i] :: (((L j).drop (i + 1)).take m) ↔ p ∈ ((L j).drop (i + 1)).take m := by
          simp [Ne.symm hp]
        simp only [hne, if_false, hmem]
        rcases ih (i := i + 1) (by omega) hlt with ⟨h1, h2, h3⟩ | ⟨⟨h1, h2, h3, h4⟩, h5⟩ | ⟨h1, h2, a, ha, hdead⟩
        · refine .inl ⟨h1, h2, fun a ha => ?_⟩
          rcases List.mem_cons.mp ha with rfl | ha
          · exact hlive
          · exact h3 a ha
        · refine .inr (.inl ⟨⟨h1, h2, h3, fun a ha => ?_⟩, fun a ha => List.mem_cons_of_mem _ (h5 a ha)⟩)
          rcases List.mem_cons.mp ha with rfl | ha
          · exact .inl hlive
          · exact h4 a ha
        · exact .inr (.inr ⟨h1, h2, a, List.mem_cons_of_mem _ ha, hdead⟩)
    · refine .inr (.inr ⟨?_, by omega, j * NPROC + i, ?_, ?_⟩)
      · rw [List.drop_eq_nil_of_le (by omega)]
        simp
      · rw [readSlots]
        split
        next => exact List.mem_cons_self
        next => split <;> exact List.mem_cons_self
      · rw [h.live_iff hj (by omega)]
        exact hlt

def rows (j m n : Nat) : List Nat := (List.range' j m).flatMap fun j => (List.range' 0 n).map (j * NPROC + ·)

theorem scan_rows (hpid : Function.Injective pid) (h : Lists qs L) (hn : n ≤ NPROC) (hjm : j + m = 5) :
    ((∃ j', j ≤ j' ∧ j' < 5 ∧ (∀ r, j ≤ r → r < j' → n ≤ (L r).length) ∧ p ∈ (L j').take n) ∧
      findPid qs pid p (rows j m n) = some true ∧ ∀ a ∈ readSlots qs pid p (rows j m n), qs.Live a) ∨
    ((∀ r, j ≤ r → r < 5 → n ≤ (L r).length ∧ p ∉ (L r).take n) ∧
      findPid qs pid p (rows j m n) = some false ∧ ∀ a ∈ readSlots qs pid p (rows j m n), qs.Live a) ∨
    (¬ (∃ j', j ≤ j' ∧ j' < 5 ∧ (∀ r, j ≤ r → r < j' → n ≤ (L r).length) ∧ p ∈ (L j').take n) ∧
      (∃ r, j ≤ r ∧ r < 5 ∧ (L r).length < n) ∧ ∃ a ∈ readSlots qs pid p (rows j m n), ¬ qs.Live a) := by
  induction m generalizing j with
  | zero =>
    refine .inr (.inl ⟨fun r h1 h2 => by omega, rfl, fun a ha => ?_⟩)
    cases ha
  | succ m ih =>
    have hrow := scan_row p (rows (j + 1) m n) hpid h (show j < 5 by omega) hn (Nat.zero_add n)
      (Nat.zero_le _)
    rw [List.drop_zero] at hrow
    have hrows : rows j (m + 1) n = (List.range' 0 n).map (j * NPROC + ·) ++ rows (j + 1) m n := by
      rw [rows, List.range'_succ, List.flatMap_cons]
      rfl
    rw [← hrows] at hrow
    rcases hrow with ⟨h1, h2, h3⟩ | ⟨⟨h1, h2, h3, h4⟩, h5⟩ | ⟨h1, h2, h3⟩
    · exact .inl ⟨⟨j, Nat.le_refl j, by omega, fun r _ _ => by omega, h1⟩, h2, h3⟩
    · -- the row has no slot that stops the scan, so the rest decides
      rcases ih (j := j + 1) (by omega) with ⟨⟨j', g1, g2, g3, g4⟩, g5, g6⟩ | ⟨g1, g2, g3⟩ | ⟨g1, ⟨r, g2, g3, g4⟩, a, g5, g6⟩
      · refine .inl ⟨⟨j', by omega, g2, fun r hr1 hr2 => ?_, g4⟩, h3.trans g5, fun a ha => ?_⟩
        · by_cases hrj : r = j
          · exact hrj ▸ h2
          · exact g3 r (by omega) hr2
        · exact (h4 a ha).elim id (g6 a)
      · refine .inr (.inl ⟨fun r hr1 hr2 => ?_, h3.trans g2, fun a ha => (h4 a ha).elim id (g3 a)⟩)
        by_cases hrj : r = j
        · exact hrj ▸ ⟨h2, h1⟩
        · exact g1 r (by omega) hr2
      · refine .inr (.inr ⟨?_, ⟨r, by omega, g3, g4⟩, a, h5 a g5, g6⟩)
        rintro ⟨j', k1, k2, k3, k4⟩
        by_cases hjj : j' = j
        · exact h1 (hjj ▸ k4)
        · exact g1 ⟨j', by omega, k2, fun r hr1 hr2 => k3 r (by omega) hr2, k4⟩
    · refine .inr (.inr ⟨?_, ⟨j, Nat.le_refl j, by omega, h2⟩, h3⟩)
      rintro ⟨j', k1, k2, k3, k4⟩
      by_cases hjj : j' = j
      · exact h1 (hjj ▸ k4)
      · have := k3 j (Nat.le_refl j) (by omega)
        omega

theorem scanned_eq (n : Nat) : scanned n = rows 0 5 n := by
  unfold scanned rows
  rw [List.range_eq_range', List.range_eq_range']

theorem push_cases (hpid : Function.Injective pid) (h : Lists qs L) (hq : q < 5) (hlt : (L q).length < NPROC) :
    ((∃ j < 5, (∀ j' < j, (L q).length ≤ (L j').length) ∧ p ∈ (L j).take (L q).length) ∧
      pushToQueue qs pid p q = some (qs, 1) ∧ ∀ a ∈ pushReads qs pid p q, qs.Live a) ∨
    ((∀ j < 5, (L q).length ≤ (L j).length ∧ p ∉ (L j).take (L q).length) ∧
      pushToQueue qs pid p q = some (qs.append p q, 1) ∧ ∀ a ∈ pushReads qs pid p q, qs.Live a) ∨
    (¬ (∃ j < 5, (∀ j' < j, (L q).length ≤ (L j').length) ∧ p ∈ (L j).take (L q).length) ∧
      (∃ j < 5, (L j).length < (L q).length) ∧ ∃ a ∈ pushReads qs pid p q, ¬ qs.Live a) := by
  have hsize := h.size q hq
  have hreads : pushReads qs pid p q = readSlots qs pid p (rows 0 5 (L q).length) := by
    rw [pushReads, hsize, if_neg (by omega), scanned_eq]
  have hsizeAt : qs.sizeAt q = ((L q).length : Int) := by
    have hneg : ¬ ((q : Int) < 0) := by omega
    rw [Queues.sizeAt, if_neg hneg, Int.toNat_natCast, hsize]
  have hpush : ∀ b, findPid qs pid p (rows 0 5 (L q).length) = some b →
      pushToQueue qs pid p q = some (if b then qs else qs.append p q, 1) := by
    intro b hb
    unfold pushToQueue
    rw [hsizeAt, if_neg (by omega), Int.toNat_natCast, scanned_eq, hb]
    cases b <;> rfl
  rw [hreads]
  rcases scan_rows (p := p) hpid h (Nat.le_of_lt hlt) (Nat.zero_add 5) with ⟨⟨j, h1, h2, h3, h4⟩, h5, h6⟩ | ⟨h1, h2, h3⟩ |
      ⟨h1, ⟨r, h2, h3, h4⟩, h5⟩
  · exact .inl ⟨⟨j, h2, fun j' hj' => h3 j' (Nat.zero_le _) hj', h4⟩, hpush true h5, h6⟩
  · exact .inr (.inl ⟨fun j hj => h1 j (Nat.zero_le _) hj, hpush false h2, h3⟩)
  · refine .inr (.inr ⟨?_, ⟨r, h3, h4⟩, h5⟩)
    rintro ⟨j, k1, k2, k3⟩
    exact h1 ⟨j, Nat.zero_le _, k1, fun r _ hr => k2 r hr, k3⟩

theorem push_full (pid : Nat → Int) (p : Nat) (h : Lists qs L) (hq : q < 5) (hfull : NPROC ≤ (L q).length) :
    pushToQueue qs pid p q = some (qs, 0) ∧ pushReads qs pid p q = [] := by
  have hsize := h.size q hq
  have hneg : ¬ ((q : Int) < 0) := by omega
  constructor
  · unfold pushToQueue
    rw [Queues.sizeAt, if_neg hneg, Int.toNat_natCast, hsize, if_pos (by omega)]
  · rw [pushReads, hsize, if_pos hfull]

theorem pushOk_iff (hpid : Function.Injective pid) (h : qs.Ok) (hq : q < 5) : PushOk qs pid p q ↔ ScanFits qs p q := by
  have hL := h.lists
  have hsize : ∀ j < 5, (qs.list j).length = qs.size j := fun j hj => (hL.size j hj).symm
  by_cases hfull : NPROC ≤ qs.size q
  · obtain ⟨hpush, hreads⟩ := push_full pid p hL hq (by rw [hsize q hq]; exact hfull)
    refine ⟨fun _ => .inl hfull, fun _ => ⟨by rw [hreads]; simp, _, hpush, fun hr => by omega, fun _ => rfl⟩⟩
  · have hcases := push_cases (p := p) hpid hL hq (by rw [hsize q hq]; omega)
    rw [hsize q hq] at hcases
    rcases hcases with ⟨⟨j, hj, hlong, hp⟩, hpush, hlive⟩ | ⟨hall, hpush, hlive⟩ | ⟨hno, ⟨j, hj, hshort⟩, a, ha, hdead⟩
    · refine ⟨fun _ => .inr (.inl ⟨j, hj, fun j' hj' => hsize j' (by omega) ▸ hlong j' hj', hp⟩), fun _ => ?_⟩
      refine ⟨hlive, _, hpush, fun hr => absurd (List.mem_of_mem_take hp) (hr.1 j hj), fun _ => rfl⟩
    · have hlong : ∀ j < 5, qs.size q ≤ qs.size j := fun j hj => hsize j hj ▸ (hall j hj).1
      constructor
      · rintro ⟨_, r, hr, _, hsame⟩
        cases hpush.symm.trans hr
        refine .inr (.inr ⟨?_, hlong⟩)
        by_contra hin
        -- appending changes the size, so it was right only for a process in no queue
        have hlists := (hL.append hq (by rw [hsize q hq]; omega) p).size q hq
        have heq : qs.append p q = qs := hsame fun hr => hin hr.1
        rw [heq, update_self, List.length_append, hsize q hq] at hlists
        simp at hlists
      · rintro (hf | ⟨j, hj, _, hp⟩ | ⟨hin, _⟩)
        · exact absurd hf hfull
        · exact absurd hp (hall j hj).2
        · refine ⟨hlive, _, hpush, fun _ j hj => ?_, fun hr => absurd ⟨hin, by omega⟩ hr⟩
          rw [(hL.append hq (by rw [hsize q hq]; omega) p).list_eq hj]
          by_cases hjq : j = q
          · rw [hjq, update_self, if_pos rfl]
          · rw [update_of_ne hjq, if_neg hjq]
    · constructor
      · rintro ⟨hlive, _⟩
        exact absurd (hlive a ha) hdead
      · rintro (hf | ⟨j', hj', hlong, hp⟩ | ⟨_, hlong⟩)
        · exact absurd hf hfull
        · refine absurd ⟨j', hj', fun r hr => ?_, hp⟩ hno
          rw [hsize r (by omega)]
          exact hlong r hr
        · have := hlong j hj
          rw [hsize j hj] at hshort
          omega

theorem ok_init (h : (queueMachine pid).init qs) : qs.Ok := by
  obtain ⟨hsize, _⟩ := h
  refine ⟨fun q _ => by rw [hsize]; exact Nat.zero_le _, fun q _ i hi => ?_⟩
  rw [hsize] at hi
  omega

theorem Apart.sublist {L' : Nat → List Nat} (h : Apart L) (hs : ∀ q < 5, (L' q).Sublist (L q)) : Apart L' where
  nodup q hq := (h.nodup q hq).sublist (hs q hq)
  disjoint q hq q' hq' hne p hp hp' :=
    h.disjoint q hq q' hq' hne p ((hs q hq).subset hp) ((hs q' hq').subset hp')

theorem Apart.append (h : Apart L) (hp : ∀ j < 5, p ∉ L j) : Apart (update L q (L q ++ [p])) := by
  have hmem : ∀ j x, x ∈ update L q (L q ++ [p]) j → x ∈ L j ∨ x = p ∧ j = q := by
    intro j x hx
    by_cases hj : j = q
    · subst hj
      rw [update_self, List.mem_append, List.mem_singleton] at hx
      exact hx.imp_right fun he => ⟨he, rfl⟩
    · rw [update_of_ne hj] at hx
      exact .inl hx
  refine ⟨fun j hj => ?_, fun j hj j' hj' hne x hx hx' => ?_⟩
  · by_cases hjq : j = q
    · subst hjq
      rw [update_self, List.nodup_append]
      refine ⟨h.nodup j hj, by simp, fun x hx y hy => ?_⟩
      rw [List.mem_singleton.mp hy]
      exact fun he => hp j hj (he ▸ hx)
    · rw [update_of_ne hjq]
      exact h.nodup j hj
  · rcases hmem j x hx with h1 | ⟨rfl, rfl⟩ <;> rcases hmem j' x hx' with h2 | ⟨h2, h3⟩
    · exact h.disjoint j hj j' hj' hne x h1 h2
    · exact hp j hj (h2 ▸ h1)
    · exact hp j' hj' h2
    · exact hne h3.symm

theorem queueAct_lists {a : QueueAct} (hpid : Function.Injective pid) (h : Lists qs L)
    (ha : queueAct pid qs a = some qs') : qs'.Ok ∧ (Apart L → a.Fits qs → ∃ L', Lists qs' L' ∧ Apart L') := by
  cases a with
  | remove p q =>
    obtain ⟨r, hr, hlists⟩ := remove_lists pid p h q.isLt
    obtain ⟨r', hr', rfl⟩ := Option.map_eq_some_iff.mp ha
    cases hr.symm.trans hr'
    refine ⟨hlists.ok, fun hapart _ => ⟨_, hlists, hapart.sublist fun j _ => ?_⟩⟩
    by_cases hj : j = q.val
    · rw [hj, update_self]
      exact List.eraseP_sublist
    · rw [update_of_ne hj]
  | push p q =>
    obtain ⟨r, hr, rfl⟩ := Option.map_eq_some_iff.mp ha
    by_cases hfull : NPROC ≤ (L q.val).length
    · cases Option.some.inj ((push_full pid p h q.isLt hfull).1.symm.trans hr)
      exact ⟨h.ok, fun hapart _ => ⟨L, h, hapart⟩⟩
    · have happend := h.append q.isLt (by omega) p
      have hok : r.1.Ok := by
        unfold pushToQueue at hr
        dsimp only at hr
        split at hr
        next => exact Option.some.inj hr ▸ h.ok
        next =>
          split at hr
          next => cases hr
          next => exact Option.some.inj hr ▸ h.ok
          next => exact Option.some.inj hr ▸ happend.ok
      refine ⟨hok, fun hapart hfits => ?_⟩
      obtain ⟨_, r', hr', happ, hsame⟩ := (pushOk_iff hpid h.ok q.isLt).mpr hfits
      cases hr.symm.trans hr'
      by_cases hin : (∀ j < 5, p ∉ qs.list j) ∧ qs.size q.val < NPROC
      · refine ⟨_, hok.lists.congr fun j hj => ?_, hapart.append (p := p) (q := q.val) fun j hj => ?_⟩
        · rw [happ hin j hj]
          by_cases hjq : j = q.val
          · rw [hjq, update_self, if_pos rfl, h.list_eq q.isLt]
          · rw [update_of_ne hjq, if_neg hjq, h.list_eq hj]
        · rw [← h.list_eq hj]
          exact hin.1 j hj
      · exact ⟨L, by rw [hsame hin]; exact h, hapart⟩

/-- `push_to_queue` does what it is for exactly when the scan fits; if it always does, no process is ever
in two slots. -/
theorem push_exact (hpid : Function.Injective pid) :
    (∀ qs, (queueMachine pid).Reachable qs → ∀ p q, q < 5 → (PushOk qs pid p q ↔ ScanFits qs p q)) ∧
    ∀ qs, (queueMachine pid).Reach (fun qs a => a.Fits qs) qs → Apart qs.list := by
  constructor
  · intro qs hreach p q hq
    have hok : qs.Ok := hreach.invariant (fun _ hi => ok_init hi) fun _ _ _ _ hi _ hs =>
      (queueAct_lists hpid hi.lists hs).1
    exact pushOk_iff hpid hok hq
  · intro qs hreach
    have hinv : ∃ L, Lists qs L ∧ Apart L := by
      refine hreach.invariant (I := fun qs => ∃ L, Lists qs L ∧ Apart L) (fun qs hi => ?_) ?_
      · refine ⟨qs.list, (ok_init hi).lists, ?_⟩
        have hempty : ∀ q, qs.list q = [] := by
          intro q
          rw [Queues.list, hi.1]
          rfl
        constructor
        · intro q _
          rw [hempty]
          exact List.nodup_nil
        · intro q _ _ _ _ p hp
          rw [hempty] at hp
          cases hp
      · rintro qs a qs' _ ⟨L, hL, hapart⟩ hfits hs
        exact (queueAct_lists hpid hL hs).2 hapart hfits
    obtain ⟨L, hL, hapart⟩ := hinv
    exact hapart.sublist fun q hq => by rw [hL.list_eq hq]

def emptyQueues : Queues := { slot := fun _ => none, size := fun _ => 0, sizeBelow := 0 }

instance : Decidable (ScanFits qs p q) :=
  inferInstanceAs (Decidable (_ ∨ (∃ j < 5, (∀ j' < j, _) ∧ _) ∨ (∀ j < 5, _) ∧ ∀ j < 5, _))

instance (qs : Queues) (a : QueueAct) : Decidable (a.Fits qs) :=
  match a with
  | .push p q => inferInstanceAs (Decidable (ScanFits qs p q))
  | .remove _ _ => isTrue trivial

/-- A process for each queue, a second one for queue 0, and one that is queued already. -/
def sixPushes : List QueueAct := [.push 1 0, .push 2 1, .push 3 2, .push 4 3, .push 5 4, .push 6 0, .push 2 3]

theorem push_exact_six : ∃ qs, (queueMachine Int.ofNat).Reachable qs ∧
    (List.range 5).map qs.list = [[1, 6], [2], [3], [4], [5]] ∧ Apart qs.list ∧
    PushOk qs Int.ofNat 7 1 ∧ PushOk qs Int.ofNat 2 3 ∧ ¬ PushOk qs Int.ofNat 7 0 := by
  have hrun : (((queueMachine Int.ofNat).run emptyQueues sixPushes).any fun qs =>
      (List.range 5).map qs.list = [[1, 6], [2], [3], [4], [5]] ∧ ScanFits qs 7 1 ∧ ScanFits qs 2 3 ∧
        ¬ ScanFits qs 7 0) = true := by decide +kernel
  obtain ⟨qs, hqs, hlists, hnew, hold, hno⟩ := exists_of_any hrun
  have hmeets : (queueMachine Int.ofNat).Meets (fun qs a => a.Fits qs) emptyQueues sixPushes := by decide +kernel
  have hinit : (queueMachine Int.ofNat).init emptyQueues := ⟨fun _ => rfl, fun _ => rfl⟩
  have hreach := Machine.Reach.of_run (.start hinit) hmeets hqs
  have hinj : Function.Injective Int.ofNat := fun _ _ he => Int.ofNat.inj he
  have hany : (queueMachine Int.ofNat).Reachable qs := hreach.mono fun _ _ _ => trivial
  have hiff := fun p q hq => (push_exact hinj).1 qs hany p q hq
  exact ⟨qs, hany, hlists, (push_exact hinj).2 qs hreach, (hiff 7 1 (by decide)).mpr hnew,
    (hiff 2 3 (by decide)).mpr hold, fun hok => hno ((hiff 7 0 (by decide)).mp hok)⟩

/-- A push of the process in queue 0 to queue 1 puts it there too, and a push of another one reads the
unset first slot of queue 1. -/
theorem push_overlooks : ∃ qs qs', (queueMachine Int.ofNat).Reachable qs ∧
    queueAct Int.ofNat qs (.push 1 1) = some qs' ∧ qs'.list 0 = [1] ∧ qs'.list 1 = [1] ∧
    ¬ PushOk qs Int.ofNat 1 1 ∧ ¬ PushOk qs Int.ofNat 2 0 := by
  have hrun : (((queueMachine Int.ofNat).run emptyQueues [.push 1 0]).any fun qs =>
      qs.list 0 = [1] ∧ qs.size 0 = 1 ∧ qs.size 1 = 0 ∧ 64 ∈ pushReads qs Int.ofNat 2 0 ∧
        (queueAct Int.ofNat qs (.push 1 1)).any fun qs' => qs'.list 0 = [1] ∧ qs'.list 1 = [1]) = true := by decide
  obtain ⟨qs, hqs, h0, hsize, hsize', hread, hpush⟩ := exists_of_any hrun
  obtain ⟨qs', hqs', hboth⟩ := exists_of_any hpush
  have hreach := Machine.Reachable.of_run (M := queueMachine Int.ofNat) ⟨fun _ => rfl, fun _ => rfl⟩ hqs
  refine ⟨qs, qs', hreach, hqs', hboth.1, hboth.2, ?_, ?_⟩
  · rintro ⟨_, r, hr, _, hsame⟩
    have hin : ¬ ((∀ j < 5, 1 ∉ qs.list j) ∧ qs.size 1 < NPROC) := by
      rintro ⟨hno, _⟩
      exact hno 0 (by decide) (by rw [h0]; exact List.mem_cons_self)
    obtain ⟨r', hr', hq'⟩ := Option.map_eq_some_iff.mp hqs'
    cases hr.symm.trans hr'
    have hlist := hboth.2
    rw [← hq', hsame hin, Queues.list, hsize'] at hlist
    cases hlist
  · rintro ⟨hlive, _⟩
    obtain ⟨q, hq, i, hi, he⟩ := hlive 64 hread
    -- slot 64 is slot 0 of queue 1, which is empty
    have hcase : q = 1 ∧ i = 0 ∨ q = 0 ∧ i = 64 := by
      simp only [NPROC] at he
      omega
    rcases hcase with ⟨rfl, rfl⟩ | ⟨rfl, rfl⟩ <;> omega

end TweakedXv6.Mlfq

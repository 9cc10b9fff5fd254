import Mathlib.Logic.Function.Basic
import TweakedXv6.Basic

namespace TweakedXv6.Mlfq

/-- `MLFQ_queue[q][i]` is word `q * NPROC + i`, so that an index past the end of a row reaches the next
one. `sizeBelow` is the word in front of `queue_size` and `none` a null pointer. -/
structure Queues where
  slot : Nat → Option Nat
  size : Nat → Nat
  sizeBelow : Int

def Queues.at (qs : Queues) (q i : Nat) : Option Nat := qs.slot (q * NPROC + i)

/-- `queue_size[queue_number]` as an `int`. -/
def Queues.sizeAt (qs : Queues) (queueNumber : Int) : Int :=
  if queueNumber < 0 then qs.sizeBelow else qs.size queueNumber.toNat

/-- The slots that `push_to_queue` reads: the first `s` of each of the five rows. -/
def scanned (s : Nat) : List Nat :=
  (List.range 5).flatMap fun j => (List.range s).map fun i => j * NPROC + i

/-- Whether one of the slots holds the pid of `p`; reading through a null pointer faults. -/
def findPid (qs : Queues) (pid : Nat → Int) (p : Nat) : List Nat → Option Bool
  | [] => some false
  | a :: as =>
    match qs.slot a with
    | none => none
    | some k => if pid k = pid p then some true else findPid qs pid p as

/-- With a negative queue number the pointer is stored in front of the array, where no queue is. -/
def Queues.append (qs : Queues) (p : Nat) (queueNumber : Int) : Queues :=
  if queueNumber < 0 then { qs with sizeBelow := qs.sizeBelow + 1 }
  else
    let q := queueNumber.toNat
    { qs with
      slot := Function.update qs.slot (q * NPROC + qs.size q) (some p)
      size := Function.update qs.size q (qs.size q + 1) }

/-- The new arrays and the value returned, or a fault. -/
def pushToQueue (qs : Queues) (pid : Nat → Int) (p : Nat) (queueNumber : Int) : Option (Queues × Int) :=
  let s := qs.sizeAt queueNumber
  if NPROC ≤ s then some (qs, 0)
  else
    match findPid qs pid p (scanned s.toNat) with
    | none => none
    | some true => some (qs, 1)
    | some false => some (qs.append p queueNumber, 1)

/-- The first live slot of the row with the pid of `p`: `some none` when there is none. -/
def findIndex (qs : Queues) (pid : Nat → Int) (p q : Nat) : List Nat → Option (Option Nat)
  | [] => some none
  | i :: is =>
    match qs.at q i with
    | none => none
    | some k => if pid k = pid p then some (some i) else findIndex qs pid p q is

/-- The entries from `i` on moved down by one; the last one copies the slot after it. -/
def Queues.close (qs : Queues) (q i : Nat) : Queues :=
  { qs with
    slot := fun a => if q * NPROC + i ≤ a ∧ a < q * NPROC + qs.size q then qs.slot (a + 1) else qs.slot a
    size := Function.update qs.size q (qs.size q - 1) }

def removeFromQueue (qs : Queues) (pid : Nat → Int) (p q : Nat) : Option (Queues × Int) :=
  if qs.size q = 0 then some (qs, 0)
  else
    match findIndex qs pid p q (List.range (qs.size q)) with
    | none => none
    | some none => some (qs, 0)
    | some (some i) => some (qs.close q i, 1)

variable {qs : Queues} {p k : Nat}

structure Holds (qs : Queues) (held : Option Nat) : Prop where
  first : qs.slot 0 = held
  size : qs.size 0 = held.toList.length
  upper : ∀ q, 1 ≤ q → qs.size q = 0
  nulls : ∀ a, 1 ≤ a → qs.slot a = none

theorem Holds.push (h : Holds qs none) (pid : Nat → Int) (p : Nat) :
    pushToQueue qs pid p 0 = some (qs.append p 0, 1) ∧ Holds (qs.append p 0) (some p) := by
  have hs : qs.size 0 = 0 := h.size
  have hscan : scanned 0 = [] := by decide
  constructor
  · simp [pushToQueue, Queues.sizeAt, hs, NPROC, hscan, findPid]
  · constructor
    case first => simp [Queues.append, hs, NPROC]
    case size => simp [Queues.append, hs]
    case upper =>
      intro q hq
      simpa [Queues.append, Function.update_apply, Nat.ne_of_gt hq] using h.upper q hq
    case nulls =>
      intro a ha
      simpa [Queues.append, hs, Function.update_apply, Nat.ne_of_gt ha] using h.nulls a ha

/-- The scan compares the second process with the first one, goes on to row 1 with the size of row 0, and
reads a null pointer there. -/
theorem Holds.push_faults {pid : Nat → Int} (h : Holds qs (some k)) (hpid : pid k ≠ pid p) :
    pushToQueue qs pid p 0 = none := by
  have hs : qs.size 0 = 1 := h.size
  have hscan : scanned 1 = [0, 64, 128, 192, 256] := by decide
  simp [pushToQueue, Queues.sizeAt, hs, NPROC, hscan, findPid, h.first, hpid, h.nulls]

theorem Holds.remove (h : Holds qs (some p)) (pid : Nat → Int) :
    removeFromQueue qs pid p 0 = some (qs.close 0 0, 1) ∧ Holds (qs.close 0 0) none := by
  have hs : qs.size 0 = 1 := h.size
  have hrange : List.range 1 = [0] := rfl
  constructor
  · simp [removeFromQueue, hs, hrange, findIndex, Queues.at, h.first]
  · constructor
    case first => simp [Queues.close, hs, h.nulls]
    case size => simp [Queues.close, hs]
    case upper =>
      intro q hq
      simpa [Queues.close, Function.update_apply, Nat.ne_of_gt hq] using h.upper q hq
    case nulls =>
      intro a ha
      have hlast : a ≠ 0 := by omega
      simpa [Queues.close, hs, hlast] using h.nulls a ha

end TweakedXv6.Mlfq

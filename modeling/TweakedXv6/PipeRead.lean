import TweakedXv6.ReadBounds

namespace TweakedXv6.Reads

open User

/-- What `piperead` finds each time it holds the lock at the head of its first loop. -/
structure Seen where
  pi : Pipe
  writeopen : Bool
  killed : Bool

/-- The value returned, and the pipe when the last turn with the lock begins and ends. -/
structure Taken where
  ret : Int
  before : Pipe
  after : Pipe

/-- None if it is still asleep. -/
def piperead (pt : Pages) (addr : Nat) (n : Int) : List Seen → Option Taken
  | [] => none
  | v :: seen =>
    if v.pi.nread = v.pi.nwrite ∧ v.writeopen = true then
      if v.killed then some ⟨-1, v.pi, v.pi⟩ else piperead pt addr n seen
    else
      let q := pipereadLoop pt addr n n.toNat 0 v.pi
      some ⟨q.1, v.pi, q.2.2⟩

def Pipe.count (pi : Pipe) : Nat := (pi.nwrite - pi.nread).toNat

def Taken.removed (r : Taken) : Nat := (r.after.nread - r.before.nread).toNat

def Taken.reported (r : Taken) : Nat := r.ret.toNat

def Fits (pt : Pages) (addr : Nat) (n : Int) (pi : Pipe) : Prop :=
  ∀ i < min n.toNat pi.count, (pt (pgrounddown (addr + i))).isSome = true

variable {pt : Pages} {addr i m fuel : Nat} {n : Int} {pi : Pipe} {r : Taken} {seen : List Seen}

theorem count_next (h : pi.nread ≠ pi.nwrite) :
    pi.count = ({ pi with nread := pi.nread + 1 } : Pipe).count + 1 := by
  have hne : pi.nwrite.toNat ≠ pi.nread.toNat := by
    intro heq
    exact h (UInt32.toNat_inj.mp heq).symm
  have hr := pi.nread.toNat_lt
  have hw := pi.nwrite.toNat_lt
  unfold Pipe.count
  rw [UInt32.toNat_sub, UInt32.toNat_sub, UInt32.toNat_add]
  change _ = (2 ^ 32 - (pi.nread.toNat + 1) % 2 ^ 32 + pi.nwrite.toNat) % 2 ^ 32 + 1
  omega

theorem pipereadLoop_count (hfuel : (n - i).toNat = fuel) :
    (pipereadLoop pt addr n fuel i pi).1 = i + reach pt (addr + i) (min fuel pi.count) ∧
      (pipereadLoop pt addr n fuel i pi).2.2.nread = pi.nread + UInt32.ofNat
        (reach pt (addr + i) (min fuel pi.count) +
          if reach pt (addr + i) (min fuel pi.count) < min fuel pi.count then 1 else 0) := by
  induction fuel generalizing i pi with
  | zero => simp [pipereadLoop, reach]
  | succ fuel ih =>
    have hlt : (i : Int) < n := by omega
    unfold pipereadLoop
    rw [if_pos hlt]
    by_cases hempty : pi.nread = pi.nwrite
    · have hzero : pi.count = 0 := by simp [Pipe.count, hempty]
      rw [if_pos hempty, hzero, Nat.min_zero]
      simp [reach]
    · have hcount := count_next hempty
      rw [if_neg hempty]
      dsimp only
      rw [copyout_one]
      generalize hk : min fuel ({ pi with nread := pi.nread + 1 } : Pipe).count = k
      have hmin : min (fuel + 1) pi.count = k + 1 := by omega
      rw [hmin, reach]
      cases hmap : pt (pgrounddown (addr + i)) with
      | none => simp
      | some pa =>
        obtain ⟨hret, hread⟩ := @ih (i + 1) { pi with nread := pi.nread + 1 } (by push_cast; omega)
        rw [hk] at hret hread
        have hnext : addr + (i + 1) = addr + i + 1 := rfl
        rw [hnext] at hret hread
        have hstored : (if (some pa).isSome = true then reach pt (addr + i + 1) k + 1 else 0) =
            reach pt (addr + i + 1) k + 1 := rfl
        rw [hstored]
        generalize reach pt (addr + i + 1) k = m at hret hread
        constructor
        · change (pipereadLoop pt addr n fuel (i + 1) { pi with nread := pi.nread + 1 }).1 = _
          omega
        · change (pipereadLoop pt addr n fuel (i + 1) { pi with nread := pi.nread + 1 }).2.2.nread = _
          have hfull : (if m + 1 < k + 1 then 1 else 0) = if m < k then 1 else 0 := by
            simp only [Nat.succ_lt_succ_iff]
          rw [hread, hfull, Nat.add_right_comm m 1, UInt32.ofNat_add _ 1, UInt32.add_assoc, UInt32.add_comm 1]
          rfl

theorem taken_removed (h : piperead pt addr n seen = some r) :
    r.removed = r.reported + if reach pt addr (min n.toNat r.before.count) < min n.toNat r.before.count then 1 else 0 := by
  induction seen with
  | nil => cases h
  | cons v seen ih =>
    rw [piperead] at h
    split at h
    next hwait =>
      split at h
      · cases h
        have hzero : v.pi.count = 0 := by simp [Pipe.count, hwait.1]
        simp [Taken.removed, Taken.reported, hzero]
      · exact ih h
    next =>
      obtain ⟨hret, hread⟩ := @pipereadLoop_count pt addr 0 n.toNat n v.pi (by rw [Int.ofNat_zero, Int.sub_zero])
      have hle : reach pt addr (min n.toNat v.pi.count) ≤ min n.toNat v.pi.count := reach_le
      have hcount : v.pi.count < 4294967296 := UInt32.toNat_lt _
      have hsize : UInt32.size = 4294967296 := rfl
      cases h
      dsimp only [Taken.removed, Taken.reported, Nat.add_zero] at hret hread ⊢
      rw [hread, hret, UInt32.add_comm v.pi.nread, UInt32.add_sub_cancel, UInt32.toNat_ofNat_of_lt' (by split <;> omega),
        Int.toNat_natCast, Nat.zero_add]

/-- `piperead` takes as many bytes from the pipe as it reports exactly if the buffer is mapped for all
the bytes that it finds there, up to `n`. -/
theorem piperead_lossless_iff (h : piperead pt addr n seen = some r) :
    r.removed = r.reported ↔ Fits pt addr n r.before := by
  have hle : reach pt addr (min n.toNat r.before.count) ≤ min n.toNat r.before.count := reach_le
  rw [taken_removed h, Fits, ← reach_eq_iff]
  split <;> omega

def hiPipe : Pipe := ⟨fun i => if i = 0 then 104 else 105, 0, 2⟩

def firstPage : Pages := fun va => if va = 0 then some 0x80000000 else none

theorem piperead_lossless_hi :
    ∃ r, piperead firstPage 4095 1 [⟨hiPipe, true, false⟩] = some r ∧ r.removed = r.reported := by
  have h : piperead firstPage 4095 1 [⟨hiPipe, true, false⟩] = some ⟨1, hiPipe, { hiPipe with nread := 1 }⟩ := rfl
  refine ⟨_, h, (piperead_lossless_iff h).mpr ?_⟩
  intro i hi
  have hzero : i = 0 := Nat.lt_one_iff.mp hi
  subst hzero
  rfl

/-- The second byte is lost: the buffer ends with its page after the first. -/
theorem piperead_loses_byte :
    ∃ r, piperead firstPage 4095 2 [⟨hiPipe, true, false⟩] = some r ∧ r.reported = 1 ∧ r.removed = 2 := by
  exact ⟨_, rfl, by decide, by decide⟩

end TweakedXv6.Reads

import TweakedXv6.Basic
import TweakedXv6.Bytes
import TweakedXv6.UserMem

namespace TweakedXv6.Waitx

open User

/-- The fields of `struct proc` that `waitx` reads or clears; pids are positive, `xstate` is the word
that holds the status. -/
structure Proc where
  state : ProcState := .unused
  parent : Option Nat := none
  pid : Nat := 0
  killed : Bool := false
  xstate : UInt32 := 0
  ctime : UInt32 := 0
  rtimeTotal : UInt32 := 0
  etime : UInt32 := 0
  deriving DecidableEq, Repr

abbrev Table := Nat → Proc

def wordBytes (w : UInt32) : List UInt8 := (List.range 4).map (Bytes.wordByte w.toNat)

def zombieChild (table : Table) (p : Nat) : Option Nat :=
  (List.range NPROC).find? fun np => (table np).parent = some p ∧ (table np).state = .zombie

def havekids (table : Table) (p : Nat) : Bool := (List.range NPROC).any fun np => (table np).parent = some p

def Proc.wtime (np : Proc) : UInt32 := np.etime - np.rtimeTotal - np.ctime

def freeproc (table : Table) (np : Nat) : Table :=
  Function.update table np { table np with pid := 0, parent := none, killed := false, xstate := 0, state := .unused }

structure Exit where
  ret : Int
  table : Table
  stored : Stores

/-- A pass of `waitx` over the table, with the out-parameters `wtime` and `rtime` if it sets them; none
if the caller goes to sleep. -/
def pass (p : Nat) (pt : Pages) (addr : Nat) (table : Table) : Option (Exit × Option (UInt32 × UInt32)) :=
  match zombieChild table p with
  | some np =>
    let times := some ((table np).wtime, (table np).rtimeTotal)
    let status := if addr = 0 then ([], true) else copyout pt addr (wordBytes (table np).xstate)
    if status.2 then some (⟨(table np).pid, freeproc table np, status.1⟩, times)
    else some (⟨-1, table, status.1⟩, times)
  | none => if !havekids table p || (table p).killed then some (⟨-1, table, []⟩, none) else none

/-- Given the table as each pass finds it: it returns in the first pass that does not sleep. -/
def waitx (p : Nat) (pt : Pages) (addr : Nat) (views : List Table) : Option (Exit × Option (UInt32 × UInt32)) :=
  views.findSome? (pass p pt addr)

/-- `stack` is what the variables `wtime` and `rtime` hold before they are set. -/
def sysWaitx (p : Nat) (pt : Pages) (addr addr1 addr2 : Nat) (stack : UInt32 × UInt32) (views : List Table) :
    Option Exit :=
  (waitx p pt addr views).map fun r =>
    let times := r.2.getD stack
    let out1 := copyout pt addr1 (wordBytes times.1)
    let out2 := copyout pt addr2 (wordBytes times.2)
    if out1.2 then
      if out2.2 then ⟨r.1.ret, r.1.table, r.1.stored ++ out1.1 ++ out2.1⟩
      else ⟨-1, r.1.table, r.1.stored ++ out1.1 ++ out2.1⟩
    else ⟨-1, r.1.table, r.1.stored ++ out1.1⟩

def sleeps (p : Nat) (table : Table) : Bool :=
  (zombieChild table p).isNone && havekids table p && !(table p).killed

def statusStores (table : Table) (p : Nat) (pt : Pages) (addr : Nat) : Stores :=
  match zombieChild table p with
  | some np => if addr = 0 then [] else (stores pt addr (wordBytes (table np).xstate)).take (reach pt addr 4)
  | none => []

/-- A call that fails leaves the table and stores the status only; one that does not reaps a child and
stores its times. -/
def AllOrNothing (table : Table) (p : Nat) (pt : Pages) (addr addr1 addr2 : Nat) (r : Exit) : Prop :=
  (r.ret = -1 → r.table = table ∧ r.stored = statusStores table p pt addr) ∧
  (r.ret ≠ -1 → ∃ np, np < NPROC ∧ (table np).parent = some p ∧ (table np).state = .zombie ∧
    r.ret = (table np).pid ∧ r.table = freeproc table np ∧
    r.stored = statusStores table p pt addr ++ stores pt addr1 (wordBytes (table np).wtime) ++
      stores pt addr2 (wordBytes (table np).rtimeTotal))

def reaps (table : Table) (p : Nat) (pt : Pages) (addr : Nat) : Bool :=
  (zombieChild table p).isSome && (addr == 0 || reach pt addr 4 == 4)

/-- The addresses of the times can be stored to if a child is reaped; else nothing can be stored at the
first. -/
def Storable (table : Table) (p : Nat) (pt : Pages) (addr addr1 addr2 : Nat) : Prop :=
  if reaps table p pt addr then reach pt addr1 4 = 4 ∧ reach pt addr2 4 = 4 else reach pt addr1 4 = 0

variable {p np : Nat} {pt : Pages} {addr addr1 addr2 : Nat} {table : Table} {w : UInt32} {views : List Table}
  {stack : UInt32 × UInt32} {r : Exit}

theorem wordBytes_length : (wordBytes w).length = 4 := rfl

theorem copyout_word : copyout pt addr (wordBytes w) =
    ((stores pt addr (wordBytes w)).take (reach pt addr 4), decide (reach pt addr 4 = 4)) := by
  rw [copyout_eq, wordBytes_length]

theorem stored_word (h : reach pt addr 4 = 4) :
    (stores pt addr (wordBytes w)).take (reach pt addr 4) = stores pt addr (wordBytes w) := by
  rw [h]
  exact List.take_of_length_le (Nat.le_of_eq (by rw [stores_length, wordBytes_length]))

theorem length_stored_word : ((stores pt addr (wordBytes w)).take (reach pt addr 4)).length = reach pt addr 4 := by
  have hle : reach pt addr 4 ≤ 4 := reach_le
  rw [List.length_take, stores_length, wordBytes_length, Nat.min_eq_left hle]

theorem zombieChild_spec (h : zombieChild table p = some np) :
    np < NPROC ∧ (table np).parent = some p ∧ (table np).state = .zombie := by
  have hprop := List.find?_some h
  rw [decide_eq_true_eq] at hprop
  exact ⟨List.mem_range.mp (List.mem_of_find?_eq_some h), hprop⟩

theorem freeproc_ne (h : (table np).state = .zombie) : freeproc table np ≠ table := by
  intro heq
  have hself := congrFun heq np
  rw [freeproc, Function.update_self] at hself
  rw [← hself] at h
  cases h

theorem pass_reaps (h : zombieChild table p = some np) (hreaps : reaps table p pt addr = true) :
    pass p pt addr table = some (⟨(table np).pid, freeproc table np, statusStores table p pt addr⟩,
      some ((table np).wtime, (table np).rtimeTotal)) := by
  rw [reaps, h] at hreaps
  simp only [pass, statusStores, h, copyout_word]
  by_cases ha : addr = 0
  · simp [ha]
  · have hreach : reach pt addr 4 = 4 := by simpa [ha] using hreaps
    simp [ha, hreach]

theorem pass_fails (hreaps : ¬ reaps table p pt addr = true) (hsleep : sleeps p table = false) :
    ∃ times, pass p pt addr table = some (⟨-1, table, statusStores table p pt addr⟩, times) := by
  cases h : zombieChild table p with
  | none =>
    refine ⟨none, ?_⟩
    rw [sleeps, h] at hsleep
    have hend : (!havekids table p || (table p).killed) = true := by
      cases hkids : havekids table p with
      | false => rfl
      | true => simpa [hkids] using hsleep
    simp [pass, statusStores, h, hend]
  | some np =>
    refine ⟨some ((table np).wtime, (table np).rtimeTotal), ?_⟩
    rw [reaps, h] at hreaps
    have hne : addr ≠ 0 ∧ reach pt addr 4 ≠ 4 := by simpa using hreaps
    simp [pass, statusStores, h, copyout_word, hne.1, hne.2]

theorem pass_sleeps (h : sleeps p table = true) : pass p pt addr table = none := by
  simp only [sleeps, Bool.and_eq_true, Option.isNone_iff_eq_none, Bool.not_eq_true'] at h
  simp [pass, h.1.1, h.1.2, h.2]

theorem waitx_last (hlast : views.find? (fun v => !sleeps p v) = some table) :
    waitx p pt addr views = pass p pt addr table := by
  induction views with
  | nil => cases hlast
  | cons v views ih =>
    rw [waitx, List.findSome?_cons]
    rw [List.find?_cons] at hlast
    cases hs : sleeps p v with
    | true =>
      rw [pass_sleeps hs]
      exact ih (by simpa [hs] using hlast)
    | false =>
      have hv : v = table := by simpa [hs] using hlast
      subst hv
      by_cases hreaps : reaps v p pt addr = true
      · obtain ⟨np, hnp⟩ := Option.isSome_iff_exists.mp (Bool.and_eq_true_iff.mp hreaps).1
        rw [pass_reaps hnp hreaps]
      · obtain ⟨times, hpass⟩ := pass_fails hreaps hs
        rw [hpass]

theorem reaped_iff {np : Nat} (h : zombieChild table p = some np) (hreaps : reaps table p pt addr = true)
    (hr : sysWaitx p pt addr addr1 addr2 stack views = some r)
    (hlast : views.find? (fun v => !sleeps p v) = some table) :
    AllOrNothing table p pt addr addr1 addr2 r ↔ reach pt addr1 4 = 4 ∧ reach pt addr2 4 = 4 := by
  obtain ⟨hlt, hparent, hzombie⟩ := zombieChild_spec h
  rw [sysWaitx, waitx_last hlast, pass_reaps h hreaps, Option.map_some] at hr
  have hr := Option.some.inj hr
  dsimp only [Option.getD_some] at hr
  simp only [copyout_word, decide_eq_true_eq] at hr
  by_cases h1 : reach pt addr1 4 = 4
  · by_cases h2 : reach pt addr2 4 = 4
    · rw [if_pos h1, if_pos h2, stored_word h1, stored_word h2] at hr
      subst hr
      refine iff_of_true ⟨fun hret => ?_, fun _ => ⟨np, hlt, hparent, hzombie, rfl, rfl, rfl⟩⟩ ⟨h1, h2⟩
      exact absurd hret (by dsimp only; omega)
    · rw [if_pos h1, if_neg h2] at hr
      subst hr
      exact iff_of_false (fun hall => freeproc_ne hzombie (hall.1 rfl).1) fun hboth => h2 hboth.2
  · rw [if_neg h1] at hr
    subst hr
    exact iff_of_false (fun hall => freeproc_ne hzombie (hall.1 rfl).1) fun hboth => h1 hboth.1

theorem failed_iff (hreaps : ¬ reaps table p pt addr = true)
    (hr : sysWaitx p pt addr addr1 addr2 stack views = some r)
    (hlast : views.find? (fun v => !sleeps p v) = some table) :
    AllOrNothing table p pt addr addr1 addr2 r ↔ reach pt addr1 4 = 0 := by
  have hsleep : sleeps p table = false := by simpa using List.find?_some hlast
  obtain ⟨times, hpass⟩ := pass_fails hreaps hsleep
  rw [sysWaitx, waitx_last hlast, hpass, Option.map_some] at hr
  have hr := Option.some.inj hr
  dsimp only at hr
  simp only [copyout_word, decide_eq_true_eq] at hr
  have hret : r.ret = -1 := by
    rw [← hr]
    split
    next => split <;> rfl
    next => rfl
  have htable : r.table = table := by
    rw [← hr]
    split
    next => split <;> rfl
    next => rfl
  have hiff : AllOrNothing table p pt addr addr1 addr2 r ↔ r.stored = statusStores table p pt addr :=
    ⟨fun hall => (hall.1 hret).2, fun hst => ⟨fun _ => ⟨htable, hst⟩, fun hne => absurd hret hne⟩⟩
  rw [hiff]
  by_cases h1 : reach pt addr1 4 = 4
  · refine iff_of_false (fun hst => ?_) (by omega)
    have hlen := congrArg List.length hst
    rw [← hr, if_pos h1] at hlen
    split at hlen <;>
      (simp only [List.length_append, length_stored_word] at hlen
       omega)
  · rw [← hr, if_neg h1]
    dsimp only
    rw [List.append_right_eq_self, ← List.length_eq_zero_iff, length_stored_word]

theorem sys_waitx_iff (p : Nat) (pt : Pages) (addr addr1 addr2 : Nat) (stack : UInt32 × UInt32)
    (views : List Table) (table : Table) (hlast : views.find? (fun v => !sleeps p v) = some table) :
    ∃ r, sysWaitx p pt addr addr1 addr2 stack views = some r ∧
      (AllOrNothing table p pt addr addr1 addr2 r ↔ Storable table p pt addr addr1 addr2) := by
  have hsleep : sleeps p table = false := by simpa using List.find?_some hlast
  unfold Storable
  by_cases hreaps : reaps table p pt addr = true
  · obtain ⟨np, hnp⟩ := Option.isSome_iff_exists.mp (Bool.and_eq_true_iff.mp hreaps).1
    have hsome : (sysWaitx p pt addr addr1 addr2 stack views).isSome = true := by
      rw [sysWaitx, waitx_last hlast, pass_reaps hnp hreaps]
      rfl
    obtain ⟨r, hr⟩ := Option.isSome_iff_exists.mp hsome
    rw [if_pos hreaps]
    exact ⟨r, hr, reaped_iff hnp hreaps hr hlast⟩
  · have hsome : (sysWaitx p pt addr addr1 addr2 stack views).isSome = true := by
      obtain ⟨times, hpass⟩ := pass_fails hreaps hsleep
      rw [sysWaitx, waitx_last hlast, hpass]
      rfl
    obtain ⟨r, hr⟩ := Option.isSome_iff_exists.mp hsome
    rw [if_neg hreaps]
    exact ⟨r, hr, failed_iff hreaps hr hlast⟩

def oneZombie : Table := fun i =>
  if i = 0 then { state := .running, pid := 1 }
  else if i = 1 then
    { state := .zombie, parent := some 0, pid := 7, xstate := 5, ctime := 10, rtimeTotal := 20, etime := 60 }
  else {}

def twoPages : Pages := fun va => if va = 0 then some 65536 else if va = 4096 then some 131072 else none

theorem sys_waitx_iff_zombie : [oneZombie].find? (fun v => !sleeps 0 v) = some oneZombie ∧
    ∃ r, sysWaitx 0 twoPages 8 4094 16 (1, 2) [oneZombie] = some r ∧
      (AllOrNothing oneZombie 0 twoPages 8 4094 16 r ↔ Storable oneZombie 0 twoPages 8 4094 16) := by
  have hlast : [oneZombie].find? (fun v => !sleeps 0 v) = some oneZombie := by
    rw [List.find?_cons, show sleeps 0 oneZombie = false by decide]
    rfl
  exact ⟨hlast, sys_waitx_iff 0 twoPages 8 4094 16 (1, 2) [oneZombie] oneZombie hlast⟩

/-- The exited child is reaped although the call fails at the first time's address; a caller without
children gets what the stack held. -/
theorem sys_waitx_not_atomic : (∃ r, sysWaitx 0 twoPages 0 8192 16 (1, 2) [oneZombie] = some r ∧ r.ret = -1 ∧
      (r.table 1).state = .unused ∧ (oneZombie 1).state = .zombie) ∧
    ∃ r, sysWaitx 2 twoPages 0 8 16 (1, 2) [oneZombie] = some r ∧ r.ret = -1 ∧
      r.stored = stores twoPages 8 (wordBytes 1) ++ stores twoPages 16 (wordBytes 2) := by
  constructor
  · have hpass := pass_reaps (show zombieChild oneZombie 0 = some 1 by decide)
      (show reaps oneZombie 0 twoPages 0 = true by decide)
    refine ⟨_, by rw [sysWaitx, waitx, List.findSome?_cons, hpass, Option.map_some], ?_⟩
    decide
  · refine ⟨⟨-1, oneZombie, stores twoPages 8 (wordBytes 1) ++ stores twoPages 16 (wordBytes 2)⟩, ?_, rfl, rfl⟩
    have hpass : pass 2 twoPages 0 oneZombie = some (⟨-1, oneZombie, []⟩, none) := by
      simp only [pass, show zombieChild oneZombie 2 = none by decide, show havekids oneZombie 2 = false by decide]
      rfl
    rw [sysWaitx, waitx, List.findSome?_cons, hpass]
    simp only [Option.map_some, Option.getD_none, copyout_word, show reach twoPages 8 4 = 4 by decide,
      show reach twoPages 16 4 = 4 by decide]
    rfl

end TweakedXv6.Waitx

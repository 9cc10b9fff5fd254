import Mathlib.Data.List.Basic
import Mathlib.Logic.Function.Basic

namespace TweakedXv6.Strace

def MAXARG : Nat := 32

/-- Pointers are numbers, 0 is the null pointer, and `str` gives the string at a pointer. `stack` are the
words that are on the stack from `new_arguments` on. -/
structure Start where
  argc : Nat
  argv : Nat → Nat
  str : Nat → List UInt8
  stack : Nat → Nat
  lt : argc < MAXARG
  pointer : ∀ i < argc, argv i ≠ 0
  null : argv argc = 0

/-- The usage message, the message that `trace` failed, or under a mask a call of `exec` for a path and
the words from `new_arguments` on. -/
inductive Ending
  | usage
  | failed
  | exec (mask : Int) (path : Nat) (words : Nat → Nat)

def digit (c : UInt8) : Bool := 48 ≤ c && c ≤ 57

def atoi (s : List UInt8) : Int :=
  (s.takeWhile digit).foldl (fun n c => Int.bmod (n * 10 + c.toNat - 48) 4294967296) 0

/-- `sys_trace`: the mask of the process, and the value returned. -/
def trace (mask : Int) : Int × Int := (mask, 0)

def copyArgs (argv words : Nat → Nat) (is : List Nat) : Nat → Nat :=
  is.foldl (fun w i => Function.update w (i - 2) (argv i)) words

/-- Its end, and the indices of `argv` that it reads. -/
def main (s : Start) : Ending × List Nat :=
  let c := (s.str (s.argv 1)).headD 0
  let isValidNum : Bool := c < 48 || c > 57
  let validNumArgs : Bool := 3 ≤ s.argc
  if !validNumArgs || isValidNum then (.usage, [1, 0])
  else
    let r := trace (atoi (s.str (s.argv 1)))
    if r.2 < 0 then (.failed, [1, 1, 0])
    else
      let is := List.range' 2 (min s.argc MAXARG - 2)
      let words := copyArgs s.argv s.stack is
      (.exec r.1 (words 0) words, 1 :: 1 :: is)

def Terminated (words : Nat → Nat) (l : List Nat) : Prop :=
  (∀ i < l.length, l[i]? = some (words i) ∧ words i ≠ 0) ∧ words l.length = 0

def Start.command (s : Start) : List Nat := (List.range' 2 (s.argc - 2)).map s.argv

/-- `main` ends with the usage message, or with a call of `exec` for the command and its arguments, and
it does not read `argv` behind the null pointer. -/
structure Right (s : Start) (r : Ending × List Nat) : Prop where
  ending : r.1 = .usage ∨ ∃ mask words, r.1 = .exec mask (s.argv 2) words ∧ Terminated words s.command
  reads : ∀ i ∈ r.2, i ≤ s.argc

variable {s : Start} {argv words : Nat → Nat} {i j n : Nat}

theorem copyArgs_eq : copyArgs argv words (List.range' 2 n) j = if j < n then argv (j + 2) else words j := by
  induction n with
  | zero => rfl
  | succ n ih =>
    unfold copyArgs at ih ⊢
    rw [List.range'_concat, List.foldl_append, List.foldl_cons, List.foldl_nil]
    have hlast : 2 + 1 * n - 2 = n := by omega
    rw [hlast]
    by_cases hj : j = n
    · subst hj
      rw [Function.update_self, if_pos (by omega), Nat.one_mul, Nat.add_comm]
    · rw [Function.update_of_ne hj, ih]
      exact if_congr (by omega) rfl rfl

theorem terminated_iff (h : 3 ≤ s.argc) :
    Terminated (copyArgs s.argv s.stack (List.range' 2 (s.argc - 2))) s.command ↔ s.stack (s.argc - 2) = 0 := by
  have hlen : s.command.length = s.argc - 2 := by simp [Start.command]
  have hend : copyArgs s.argv s.stack (List.range' 2 (s.argc - 2)) (s.argc - 2) = s.stack (s.argc - 2) := by
    rw [copyArgs_eq, if_neg (by omega)]
  unfold Terminated
  rw [hlen, hend]
  refine ⟨And.right, fun hz => ⟨fun i hi => ?_, hz⟩⟩
  rw [copyArgs_eq, if_pos hi]
  refine ⟨?_, s.pointer (i + 2) (by omega)⟩
  rw [Start.command, List.getElem?_map, List.getElem?_range' hi]
  simp [Nat.add_comm]

theorem accepts_iff {c : UInt8} : (3 ≤ n ∧ digit c = true) ↔
    (!decide (3 ≤ n) || (decide (c < 48) || decide (c > 57))) = false := by
  simp [digit]

theorem main_usage (h : ¬ (3 ≤ s.argc ∧ digit ((s.str (s.argv 1)).headD 0) = true)) : main s = (.usage, [1, 0]) := by
  unfold main
  dsimp only
  rw [accepts_iff] at h
  exact if_pos (eq_true_of_ne_false h)

theorem main_exec (h : 3 ≤ s.argc ∧ digit ((s.str (s.argv 1)).headD 0) = true) :
    main s = (.exec (atoi (s.str (s.argv 1))) (s.argv 2) (copyArgs s.argv s.stack (List.range' 2 (s.argc - 2))),
      1 :: 1 :: List.range' 2 (s.argc - 2)) := by
  have hmin : min s.argc MAXARG = s.argc := Nat.min_eq_left (Nat.le_of_lt s.lt)
  have hpath : copyArgs s.argv s.stack (List.range' 2 (s.argc - 2)) 0 = s.argv 2 := by rw [copyArgs_eq, if_pos (by omega)]
  unfold main
  dsimp only
  rw [accepts_iff] at h
  rw [if_neg (Bool.eq_false_iff.mp h), hmin, hpath]
  rfl

/-- `strace` does what it should exactly if it has an argument 0 and, when it gets to `exec`, the stack
happens to hold a null pointer after the arguments copied. -/
theorem strace_iff (s : Start) : Right s (main s) ↔
    0 < s.argc ∧ (3 ≤ s.argc → digit ((s.str (s.argv 1)).headD 0) = true → s.stack (s.argc - 2) = 0) := by
  by_cases h : 3 ≤ s.argc ∧ digit ((s.str (s.argv 1)).headD 0) = true
  · rw [main_exec h]
    constructor
    · intro hright
      refine ⟨by omega, fun _ _ => ?_⟩
      rcases hright.ending with hno | ⟨mask, words, he, hterm⟩
      · cases hno
      · cases he
        exact (terminated_iff h.1).mp hterm
    · rintro ⟨_, hz⟩
      refine ⟨.inr ⟨_, _, rfl, (terminated_iff h.1).mpr (hz h.1 h.2)⟩, ?_⟩
      intro i hi
      rcases List.mem_cons.mp hi with rfl | hi
      · omega
      rcases List.mem_cons.mp hi with rfl | hi
      · omega
      have := List.mem_range'_1.mp hi
      omega
  · rw [main_usage h]
    constructor
    · intro hright
      have hone := hright.reads 1 List.mem_cons_self
      exact ⟨hone, fun h3 hd => absurd ⟨h3, hd⟩ h⟩
    · rintro ⟨hpos, _⟩
      refine ⟨.inl rfl, ?_⟩
      intro i hi
      simp only [List.mem_cons, List.not_mem_nil, or_false] at hi
      omega

def traceLs : Start where
  argc := 3
  argv i := if i < 3 then i + 100 else 0
  str p := if p = 101 then [49] else [108, 115]
  stack := fun _ => 7
  lt := by decide
  pointer := by decide
  null := rfl

theorem strace_wrong : ∃ words, (main traceLs).1 = .exec 1 102 words ∧ words 0 = 102 ∧ words 1 = 7 := by
  refine ⟨copyArgs traceLs.argv traceLs.stack [2], ?_, rfl, rfl⟩
  rw [main_exec (by decide)]
  rfl

end TweakedXv6.Strace

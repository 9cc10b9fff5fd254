import TweakedXv6.GrepModel
import TweakedXv6.Lines

namespace TweakedXv6.Grep

def selected (pattern : List UInt8) (ls : List (List UInt8)) : List UInt8 :=
  (ls.filter (matchRe pattern ·)).flatMap (· ++ [newline])

def fileLines (fd : List (List UInt8)) : List (List UInt8) := (lines newline fd.flatten).1

def fits (l : List UInt8) : Bool := l.length < 1023

def Chunked (fd : List (List UInt8)) : Prop := ∀ c ∈ fd, c ≠ [] ∧ 0 ∉ c

variable {pattern buf l p t : List UInt8} {ls ls' fd : List (List UInt8)} {n fuel : Nat}

theorem selected_append : selected pattern (ls ++ ls') = selected pattern ls ++ selected pattern ls' := by
  unfold selected
  rw [List.filter_append, List.flatMap_append]

theorem selected_cons : selected pattern (l :: ls) =
    if matchRe pattern l then l ++ [newline] ++ selected pattern ls else selected pattern ls := by
  unfold selected
  rw [List.filter_cons]
  split <;> rfl

theorem selected_nil : selected pattern ls = [] ↔ ∀ l ∈ ls, matchRe pattern l = false := by
  unfold selected
  rw [List.flatMap_eq_nil_iff]
  simp

theorem strchr_open (h : newline ∉ p) : strchr newline p = none := by
  induction p with
  | nil => rfl
  | cons a p ih =>
    obtain ⟨ha, hp⟩ := not_or.mp (List.mem_cons.not.mp h)
    rw [strchr, if_neg (Ne.symm ha), ih hp]
    exact ite_self _

theorem strchr_line (hl : newline ∉ l) (h0 : 0 ∉ l) : strchr newline (l ++ newline :: t) = some l.length := by
  induction l with
  | nil => rfl
  | cons a l ih =>
    obtain ⟨ha, hl⟩ := not_or.mp (List.mem_cons.not.mp hl)
    obtain ⟨hz, h0⟩ := not_or.mp (List.mem_cons.not.mp h0)
    rw [List.cons_append, strchr, if_neg (Ne.symm hz), if_neg (Ne.symm ha), ih hl h0]
    rfl

theorem scan_eq (h0 : 0 ∉ p) (hfuel : p.length ≤ fuel) :
    scan pattern fuel p = (selected pattern (lines newline p).1, (lines newline p).2) := by
  induction fuel generalizing p with
  | zero =>
    rw [List.eq_nil_of_length_eq_zero (Nat.le_zero.mp hfuel)]
    rfl
  | succ fuel ih =>
    unfold scan
    by_cases hp : newline ∈ p
    · obtain ⟨l, t, rfl, hl⟩ := List.eq_append_cons_of_mem hp
      have hl0 : 0 ∉ l := fun hno => h0 (List.mem_append_left _ hno)
      have ht0 : 0 ∉ t := fun hno => h0 (List.mem_append_right l (List.mem_cons_of_mem newline hno))
      have htake : (l ++ newline :: t).take (l.length + 1) = l ++ [newline] := by
        rw [List.append_cons, List.take_left' (by simp)]
      have hdrop : (l ++ newline :: t).drop (l.length + 1) = t := by
        rw [List.append_cons, List.drop_left' (by simp)]
      rw [List.length_append, List.length_cons] at hfuel
      rw [strchr_line hl hl0]
      dsimp only
      rw [hdrop, htake, List.take_left, ih ht0 (by omega), lines_cons hl, selected_cons]
    · rw [strchr_open hp, lines_open hp]
      rfl

theorem read_flatten (n : Nat) (fd : List (List UInt8)) : (read n fd).1 ++ (read n fd).2.flatten = fd.flatten := by
  cases fd with
  | nil => rfl
  | cons c cs =>
    rw [read, List.flatten_cons]
    split
    next h => rw [List.take_of_length_le h]
    next => rw [List.flatten_cons, ← List.append_assoc, List.take_append_drop]

theorem read_length (n : Nat) (fd : List (List UInt8)) : (read n fd).1.length ≤ n := by
  cases fd with
  | nil => exact Nat.zero_le n
  | cons c cs => exact List.length_take_le n c

theorem read_nil (h : Chunked fd) : (read n fd).1 = [] ↔ n = 0 ∨ fd = [] := by
  cases fd with
  | nil => simp [read]
  | cons c cs => simp [read, (h c List.mem_cons_self).1]

theorem read_chunked (n : Nat) (h : Chunked fd) : Chunked (read n fd).2 := by
  cases fd with
  | nil => exact h
  | cons c cs =>
    have hcs : Chunked cs := fun d hd => h d (List.mem_cons_of_mem c hd)
    rw [read]
    split
    next => exact hcs
    next hlt =>
      intro d hd
      rcases List.mem_cons.mp hd with rfl | hd
      · refine ⟨?_, fun hno => (h c List.mem_cons_self).2 (List.mem_of_mem_drop hno)⟩
        rw [Ne, List.drop_eq_nil_iff]
        exact hlt
      · exact hcs d hd

theorem Chunked.flatten (h : Chunked fd) : 0 ∉ fd.flatten := by
  intro hno
  obtain ⟨c, hc, h0⟩ := List.mem_flatten.mp hno
  exact (h c hc).2 h0

theorem takeWhile_fits (h : p.length ≤ 1023) (ls : List (List UInt8)) :
    ((lines newline p).1 ++ ls).takeWhile fits = (lines newline p).1 ++ ls.takeWhile fits := by
  refine List.takeWhile_append_of_pos fun l hl => ?_
  have hlt := lines_length p l hl
  exact decide_eq_true (by omega)

theorem takeWhile_full (hbuf : newline ∉ buf) (hlen : buf.length = 1023) (t : List UInt8) :
    ((lines newline (buf ++ t)).1).takeWhile fits = [] := by
  by_cases ht : newline ∈ t
  · obtain ⟨l, u, rfl, hl⟩ := List.eq_append_cons_of_mem ht
    have hline : newline ∉ buf ++ l := fun hno => (List.mem_append.mp hno).elim hbuf hl
    have hlong : ¬ fits (buf ++ l) = true := by
      simp only [fits, List.length_append, decide_eq_true_eq]
      omega
    rw [← List.append_assoc, lines_cons hline, List.takeWhile_cons_of_neg hlong]
  · have hopen : newline ∉ buf ++ t := fun hno => (List.mem_append.mp hno).elim hbuf ht
    rw [lines_open hopen]
    rfl

/-- The loop of `grep` stops at a line that does not fit in the buffer, as at the end of the file. -/
theorem grepLoop_eq (h : Chunked fd) (hbuf : newline ∉ buf) (h0 : 0 ∉ buf) (hlen : buf.length ≤ 1023)
    (hfuel : fd.flatten.length < fuel) : grepLoop pattern fuel buf fd =
      some (selected pattern ((lines newline (buf ++ fd.flatten)).1.takeWhile fits)) := by
  induction fuel generalizing buf fd with
  | zero => omega
  | succ fuel ih =>
    have hB : BUFSIZE = 1024 := rfl
    unfold grepLoop
    dsimp only
    split
    next hnil =>
      rcases (read_nil h).mp hnil with hfull | rfl
      · rw [takeWhile_full hbuf (by omega)]
        rfl
      · rw [List.flatten_nil, List.append_nil, lines_open hbuf]
        rfl
    next hsome =>
      have hflat := read_flatten (BUFSIZE - buf.length - 1) fd
      have hgot := read_length (BUFSIZE - buf.length - 1) fd
      have hnext := read_chunked (BUFSIZE - buf.length - 1) h
      generalize read (BUFSIZE - buf.length - 1) fd = r at hsome hflat hgot hnext ⊢
      have hfd := h.flatten
      rw [← hflat] at hfd hfuel ⊢
      have hp0 : 0 ∉ buf ++ r.1 := fun hno => (List.mem_append.mp hno).elim h0 fun hno => hfd (List.mem_append_left _ hno)
      have hplen : (buf ++ r.1).length ≤ 1023 := by
        rw [List.length_append]
        omega
      have hpos := List.length_pos_of_ne_nil hsome
      rw [List.length_append] at hfuel
      have hsuffix : (lines newline (buf ++ r.1)).2 <:+ buf ++ r.1 := lines_suffix _
      rw [scan_eq hp0 (Nat.le_refl _), ih hnext (lines_rest _) (fun hno => hp0 (hsuffix.subset hno))
        (Nat.le_trans hsuffix.length_le hplen) (by omega), Option.map_some, ← selected_append, ← takeWhile_fits hplen,
        ← lines_append, List.append_assoc]

theorem grep_eq (h : Chunked fd) : grep pattern fd = some (selected pattern ((fileLines fd).takeWhile fits)) :=
  grepLoop_eq h List.not_mem_nil List.not_mem_nil (Nat.zero_le _) (Nat.lt_succ_self _)

/-- `grep` writes all lines that match exactly if none does from the first line on that does not fit in
the buffer. -/
theorem grep_iff (pattern : List UInt8) (fd : List (List UInt8)) (h : Chunked fd) :
    grep pattern fd = some (selected pattern (fileLines fd)) ↔
      ∀ l ∈ (fileLines fd).dropWhile fits, matchRe pattern l = false := by
  have hsplit : selected pattern (fileLines fd) = selected pattern ((fileLines fd).takeWhile fits) ++
      selected pattern ((fileLines fd).dropWhile fits) := by
    rw [← selected_append, List.takeWhile_append_dropWhile]
  rw [grep_eq h, ← selected_nil, Option.some_inj, hsplit, List.self_eq_append_right]

/-- The lines `ab` and `c`, in chunks that end elsewhere. -/
theorem grep_iff_two : Chunked [[97], [98, 10, 99], [10]] ∧
    grep [98] [[97], [98, 10, 99], [10]] = some [97, 98, 10] := by
  have h : Chunked [[97], [98, 10, 99], [10]] := by
    unfold Chunked
    decide
  exact ⟨h, (grep_iff [98] _ h).mpr (by decide)⟩

/-- A line of 1023 characters `a` is not written, though it matches. -/
theorem grep_long_wrong : Chunked [List.replicate 1023 97 ++ [10]] ∧ grep [97] [List.replicate 1023 97 ++ [10]] = some [] ∧
    fileLines [List.replicate 1023 97 ++ [10]] = [List.replicate 1023 97] ∧ matchRe [97] (List.replicate 1023 97) = true := by
  have hline : newline ∉ List.replicate 1023 (97 : UInt8) := by
    rw [List.mem_replicate]
    decide
  have h : Chunked [List.replicate 1023 97 ++ [10]] := by
    intro c hc
    rw [List.mem_singleton.mp hc]
    refine ⟨List.append_ne_nil_of_right_ne_nil _ (List.cons_ne_nil _ _), ?_⟩
    rw [List.mem_append, List.mem_replicate]
    decide
  have hlines : fileLines [List.replicate 1023 97 ++ [10]] = [List.replicate 1023 97] := by
    unfold fileLines
    rw [List.flatten_singleton]
    exact congrArg Prod.fst (lines_cons hline)
  refine ⟨h, ?_, hlines, rfl⟩
  rw [grep_eq h, hlines, List.takeWhile_cons_of_neg]
  · rfl
  · rw [fits, List.length_replicate]
    decide

end TweakedXv6.Grep

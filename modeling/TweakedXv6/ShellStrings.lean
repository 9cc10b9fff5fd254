import TweakedXv6.ShellAccept

namespace TweakedXv6.Shell

open Prog

variable {l : Line} {c : Cmd} {T : Tree} {W W' : Nat → Nat → List Char → Prop} {buf buf' : Nat → Char}
  {i n p q eq fuel : Nat} {w w' : List Char} {argv : List (Nat × Nat)}

def Cmd.ends : Cmd → List Nat
  | .exec argv => argv.map Prod.snd
  | .redir c _ efile _ _ => efile :: c.ends
  | .pipe c d => c.ends ++ d.ends
  | .list c d => c.ends ++ d.ends
  | .back c => c.ends

theorem foldl_update : argv.foldl (fun buf a => Function.update buf a.2 NUL) buf i =
    if i ∈ argv.map Prod.snd then NUL else buf i := by
  induction argv generalizing buf with
  | nil => simp
  | cons a argv ih =>
    rw [List.foldl_cons, ih, Function.update_apply, List.map_cons]
    by_cases hi : i ∈ argv.map Prod.snd
    · rw [if_pos hi, if_pos (List.mem_cons_of_mem _ hi)]
    · rw [if_neg hi]
      by_cases ha : i = a.2
      · rw [if_pos ha, if_pos (List.mem_cons.mpr (.inl ha))]
      · rw [if_neg ha, if_neg fun hmem => (List.mem_cons.mp hmem).elim ha hi]

theorem nulterminate_apply : nulterminate c buf i = if i ∈ c.ends then NUL else buf i := by
  induction c generalizing buf with
  | exec argv => exact foldl_update
  | redir c file efile mode fd ih =>
    rw [nulterminate, Function.update_apply, ih, Cmd.ends]
    by_cases hi : i = efile <;> simp [hi]
  | pipe c d ih ih' =>
    rw [nulterminate, ih', ih, Cmd.ends]
    by_cases hi : i ∈ d.ends <;> simp [hi]
  | list c d ih ih' =>
    rw [nulterminate, ih', ih, Cmd.ends]
    by_cases hi : i ∈ d.ends <;> simp [hi]
  | back c ih => exact ih

theorem Spells.mono (h : Spells W c T) (hW : ∀ q eq w, eq ∈ c.ends → W q eq w → W' q eq w) : Spells W' c T := by
  induction h with
  | exec h =>
    refine .exec ?_
    induction h with
    | nil => exact .nil
    | cons ha _ ih =>
      refine .cons (hW _ _ _ (List.mem_cons_self ..) ha) (ih fun q eq w heq => hW q eq w ?_)
      exact List.mem_cons_of_mem _ heq
  | redir mode fd _ hw ih =>
    refine .redir _ _ (ih fun q eq w heq => hW q eq w ?_) (hW _ _ _ (List.mem_cons_self ..) hw)
    exact List.mem_cons_of_mem _ heq
  | pipe _ _ ih ih' =>
    exact .pipe (ih fun q eq w heq => hW q eq w (List.mem_append_left _ heq))
      (ih' fun q eq w heq => hW q eq w (List.mem_append_right _ heq))
  | list _ _ ih ih' =>
    exact .list (ih fun q eq w heq => hW q eq w (List.mem_append_left _ heq))
      (ih' fun q eq w heq => hW q eq w (List.mem_append_right _ heq))
  | back _ ih => exact .back (ih hW)

theorem Spells.ends (h : Spells W c T) (hi : i ∈ c.ends) : ∃ q w, W q i w := by
  induction h with
  | exec h =>
    induction h with
    | nil => cases hi
    | @cons a w argv ws ha _ ih =>
      rcases List.mem_cons.mp hi with rfl | hi
      · exact ⟨a.1, w, ha⟩
      · exact ih hi
  | @redir c t q eq w mode fd _ hw ih =>
    rcases List.mem_cons.mp hi with rfl | hi
    · exact ⟨q, w, hw⟩
    · exact ih hi
  | pipe _ _ ih ih' => exact (List.mem_append.mp hi).elim ih ih'
  | list _ _ ih ih' => exact (List.mem_append.mp hi).elim ih ih'
  | back _ ih => exact ih hi

theorem chars_length : (chars buf p n).length = n := by
  induction n generalizing p with
  | zero => rfl
  | succ n ih => rw [chars, List.length_cons, ih]

theorem chars_congr (h : ∀ i, p ≤ i → i < p + n → buf' i = buf i) : chars buf' p n = chars buf p n := by
  induction n generalizing p with
  | zero => rfl
  | succ n ih =>
    rw [chars, chars, h p (Nat.le_refl p) (by omega), ih fun i hi hin => h i (by omega) (by omega)]

theorem mem_chars {x : Char} : x ∈ chars buf p n ↔ ∃ k < n, buf (p + k) = x := by
  induction n generalizing p with
  | zero => simp [chars]
  | succ n ih =>
    rw [chars, List.mem_cons, ih]
    constructor
    · rintro (rfl | ⟨k, hk, hx⟩)
      · exact ⟨0, Nat.zero_lt_succ n, rfl⟩
      · exact ⟨k + 1, Nat.succ_lt_succ hk, by rw [← hx, Nat.add_right_comm p 1 k, Nat.add_assoc]⟩
    · rintro ⟨k, hk, hx⟩
      cases k with
      | zero => exact .inl hx.symm
      | succ k => exact .inr ⟨k, Nat.lt_of_succ_lt_succ hk, by rw [← hx, Nat.add_right_comm p 1 k, Nat.add_assoc]⟩

theorem CString.unique (h : CString buf p w) (h' : CString buf p w') : w = w' := by
  obtain ⟨htext, hnul, hend⟩ := h
  obtain ⟨htext', hnul', hend'⟩ := h'
  have hlen : w.length = w'.length := by
    rcases Nat.lt_trichotomy w.length w'.length with hlt | heq | hgt
    · rw [← htext'] at hnul'
      exact absurd (mem_chars.mpr ⟨_, hlt, hend⟩) hnul'
    · exact heq
    · rw [← htext] at hnul
      exact absurd (mem_chars.mpr ⟨_, hgt, hend'⟩) hnul
  rw [← htext, ← htext', hlen]

theorem Cmd.Reads.unique {T' : Tree} (h : c.Reads buf T) (h' : c.Reads buf T') : T = T' := by
  unfold Cmd.Reads at h h'
  induction h generalizing T' with
  | exec h =>
    cases h' with
    | exec h' => rw [List.right_unique_forall₂' (fun _ _ _ hw hw' => hw.unique hw') h h']
  | redir mode fd _ hw ih =>
    cases h' with
    | redir _ _ h' hw' => rw [ih h', hw.unique hw']
  | pipe _ _ ih ih' =>
    cases h' with
    | pipe h h' => rw [ih h, ih' h']
  | list _ _ ih ih' =>
    cases h' with
    | list h h' => rw [ih h, ih' h']
  | back _ ih =>
    cases h' with
    | back h' => rw [ih h']

namespace Line

theorem Word.ne_end {q' eq' : Nat} (h : l.Word q eq w) (h' : l.Word q' eq' w') (hq : q ≤ i)
    (hi : i < eq) : i ≠ eq' := by
  rintro rfl
  obtain ⟨hlt, hw⟩ := h.inside i hq hi
  rw [h'.stop hlt] at hw
  cases hw

theorem Word.cstring (h : l.Word q eq w) (hin : ∀ i, q ≤ i → i < eq → buf i = l.buf i) (hend : buf eq = NUL) :
    CString buf q w := by
  have hlen : w.length = eq - q := by rw [← h.text, chars_length]
  have hq := h.le
  unfold CString
  rw [hlen, Nat.add_sub_cancel' hq]
  refine ⟨?_, ?_, hend⟩
  · rw [← h.text]
    exact chars_congr fun i hi hie => hin i hi (by omega)
  · rw [← h.text]
    intro hnul
    obtain ⟨k, hk, hx⟩ := mem_chars.mp hnul
    exact buf_ne_nul (h.inside (q + k) (by omega) (by omega)).1 hx

theorem nulterminate_reads (h : Spells l.Word c T) : c.Reads (nulterminate c l.buf) T := by
  refine h.mono fun q eq w heq hw => hw.cstring (fun i hi hie => ?_) ?_
  · rw [nulterminate_apply, if_neg]
    intro hmem
    obtain ⟨q', w', hw'⟩ := h.ends hmem
    exact hw.ne_end hw' hi hie rfl
  · rw [nulterminate_apply, if_pos heq]

theorem parseall_sound (hf : 4 * (lex l.text).length + 4 ≤ fuel) :
    Post (· ∈ panics) (l.parseall fuel) 0 fun c _ => ∃ T, Derives .line (lex l.text) T ∧ Spells l.Word c T := by
  unfold parseall
  refine Post.bind (sound fuel .line 0 (Nat.zero_le _) hf) fun c s hcs => ?_
  obtain ⟨hs, ts, T, htoks, hT, hc⟩ := hcs
  refine post_peek hs (by decide) fun s' hs' h' => ?_
  rw [post_read_bind, id_eq]
  by_cases hend : s' = l.strlen
  · rw [if_neg (not_not.mpr hend)]
    refine ⟨T, ?_, hc⟩
    have hlex : l.toks 0 = lex l.text := rfl
    rw [hend, toks_strlen] at h'
    rw [← h', List.append_nil] at htoks
    rwa [← hlex, htoks]
  · rw [if_pos hend]
    exact post_halt.mpr (by decide)

theorem parseall_accepts (hf : 4 * (lex l.text).length + 4 ≤ fuel) (hT : Derives .line (lex l.text) T) :
    Returns (l.parseall fuel) 0 fun c _ => Spells l.Word c T := by
  unfold parseall
  have hline := accepts hT 0 [] fuel (Nat.zero_le _) hf (List.append_nil _).symm (.inl rfl)
  refine Post.bind hline fun c s hcs => ?_
  obtain ⟨hs, htoks, hc⟩ := hcs
  rw [post_run_bind (peek_run hs (by decide)), post_read_bind, id_eq, skipBlanks_end hs htoks]
  rw [if_neg (not_not.mpr rfl)]
  exact hc

theorem parsecmd_ok :
    l.parsecmd fuel = .ok (c, buf) ↔ (∃ s, l.parseall fuel 0 = .ok (c, s)) ∧ buf = nulterminate c l.buf := by
  unfold parsecmd
  cases l.parseall fuel 0 with
  | error e => simp [Except.map]
  | ok r =>
    obtain ⟨d, s⟩ := r
    simp only [Except.map, Except.ok.injEq, Prod.mk.injEq]
    constructor
    · rintro ⟨rfl, rfl⟩
      exact ⟨⟨s, rfl, rfl⟩, rfl⟩
    · rintro ⟨⟨_, rfl, _⟩, rfl⟩
      exact ⟨rfl, rfl⟩

/-- The parser accepts what the grammar derives and nothing else, and its command holds the words of the
line. -/
theorem parsecmd_grammar (l : Line) : ∃ n, ∀ fuel, n ≤ fuel →
    (∀ e, l.parsecmd fuel = .error e → e ∈ panics) ∧
      (∀ c buf, l.parsecmd fuel = .ok (c, buf) → ∃ T, c.Reads buf T) ∧
      ∀ T, (∃ c buf, l.parsecmd fuel = .ok (c, buf) ∧ c.Reads buf T) ↔ Derives .line (lex l.text) T := by
  refine ⟨4 * (lex l.text).length + 4, fun fuel hf => ?_⟩
  have hsound := parseall_sound hf
  have hderived : ∀ c buf, l.parsecmd fuel = .ok (c, buf) → ∃ T, Derives .line (lex l.text) T ∧ c.Reads buf T := by
    intro c buf hok
    obtain ⟨⟨s, hrun⟩, rfl⟩ := parsecmd_ok.mp hok
    obtain ⟨T, hT, hc⟩ := hsound.of_eq hrun
    exact ⟨T, hT, nulterminate_reads hc⟩
  refine ⟨fun e he => ?_, fun c buf hok => ?_, fun T => ⟨?_, fun hT => ?_⟩⟩
  · unfold Post at hsound
    unfold parsecmd at he
    cases hrun : l.parseall fuel 0 with
    | ok r =>
      rw [hrun] at he
      cases he
    | error e' =>
      rw [hrun] at he hsound
      cases he
      exact hsound
  · obtain ⟨T, _, hT⟩ := hderived c buf hok
    exact ⟨T, hT⟩
  · rintro ⟨c, buf, hok, hT⟩
    obtain ⟨T', hT', hreads⟩ := hderived c buf hok
    rwa [hT.unique hreads]
  · obtain ⟨c, s, hrun, hc⟩ := (parseall_accepts hf hT).exists
    exact ⟨c, _, parsecmd_ok.mpr ⟨⟨s, hrun⟩, rfl⟩, nulterminate_reads hc⟩

end Line

end TweakedXv6.Shell

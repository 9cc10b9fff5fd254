import TweakedXv6.ShellGrammar

namespace TweakedXv6.Shell

open Prog

variable {l : Line} {buf : Nat → Char} {p : Char → Bool} {c : Char} {n q s : Nat} {cs : List Char} {t : Token}
  {ts : List Token}

theorem skip_le : s ≤ skip buf p n s ∧ skip buf p n s ≤ s + n := by
  induction n generalizing s with
  | zero => exact ⟨Nat.le_refl s, Nat.le_refl s⟩
  | succ n ih =>
    have hnext := @ih (s + 1)
    unfold skip
    split <;> omega

theorem skip_chars (h : skip buf p n s = q) :
    chars buf s (q - s) = (chars buf s n).takeWhile p ∧ chars buf q (s + n - q) = (chars buf s n).dropWhile p := by
  induction n generalizing s with
  | zero =>
    have hq : q = s := h.symm
    rw [hq, Nat.sub_self, Nat.add_zero, Nat.sub_self]
    exact ⟨rfl, rfl⟩
  | succ n ih =>
    have hchars : chars buf s (n + 1) = buf s :: chars buf (s + 1) n := rfl
    rw [skip] at h
    rw [hchars]
    by_cases hp : p (buf s) = true
    · rw [if_pos hp] at h
      obtain ⟨htake, hdrop⟩ := ih h
      have hle : s + 1 ≤ q := h ▸ skip_le.1
      obtain ⟨k, rfl⟩ := Nat.exists_eq_add_of_le hle
      rw [List.takeWhile_cons_of_pos hp, List.dropWhile_cons_of_pos hp, ← htake, ← hdrop]
      constructor
      · rw [show s + 1 + k - s = k + 1 by omega, chars, Nat.add_sub_cancel_left]
      · rw [Nat.add_right_comm s 1 n, Nat.add_assoc s n 1]
    · rw [if_neg hp] at h
      rw [← h, Nat.sub_self, Nat.add_sub_cancel_left, List.takeWhile_cons_of_neg hp, List.dropWhile_cons_of_neg hp]
      exact ⟨rfl, rfl⟩

theorem skip_stop (h : skip buf p n s < s + n) : p (buf (skip buf p n s)) = false := by
  induction n generalizing s with
  | zero => exact absurd h (Nat.lt_irrefl s)
  | succ n ih =>
    rw [skip] at h ⊢
    split at h
    next hp =>
      rw [if_pos hp]
      exact ih (by omega)
    next hp =>
      rw [if_neg hp]
      exact Bool.eq_false_iff.mpr hp

theorem skip_all {i : Nat} (hs : s ≤ i) (h : i < skip buf p n s) : p (buf i) = true := by
  induction n generalizing s with
  | zero => exact absurd h (Nat.not_lt.mpr hs)
  | succ n ih =>
    rw [skip] at h
    split at h
    next hp =>
      rcases Nat.eq_or_lt_of_le hs with rfl | hlt
      · exact hp
      · exact ih hlt h
    next => exact absurd h (Nat.not_lt.mpr hs)

theorem lex_blank (h : isBlank c = true) : lex (c :: cs) = lex cs := by
  rw [lex, if_pos h]

theorem lex_append : lex ('>' :: '>' :: cs) = .append :: lex cs := by
  rw [lex, if_neg (by decide), if_pos rfl]
  exact if_pos rfl

theorem lex_great (h : cs.head? ≠ some '>') : lex ('>' :: cs) = .great :: lex cs := by
  rw [lex, if_neg (by decide), if_pos rfl, if_neg h]

theorem lex_single (hb : isBlank c = false) (hg : c ≠ '>') (h : single c = some t) : lex (c :: cs) = t :: lex cs := by
  rw [lex, if_neg (by simp [hb]), if_neg hg, h]

theorem lex_word (hb : isBlank c = false) (hg : c ≠ '>') (h : single c = none) :
    lex (c :: cs) = .word (c :: cs.takeWhile isWord) :: lex (cs.dropWhile isWord) := by
  rw [lex, if_neg (by simp [hb]), if_neg hg, h]

theorem lex_dropWhile : lex (cs.dropWhile isBlank) = lex cs := by
  induction cs with
  | nil => rfl
  | cons c cs ih =>
    by_cases h : isBlank c = true
    · rw [List.dropWhile_cons_of_pos h, ih, lex_blank h]
    · rw [List.dropWhile_cons_of_neg h]

namespace Line

theorem buf_strlen : l.buf l.strlen = NUL := Nat.find_spec l.nul

theorem buf_ne_nul (h : s < l.strlen) : l.buf s ≠ NUL := Nat.find_min l.nul h

def rest (l : Line) (s : Nat) : List Char := chars l.buf s (l.strlen - s)

def toks (l : Line) (s : Nat) : List Token := lex (l.rest s)

theorem rest_strlen : l.rest l.strlen = [] := by
  rw [rest, Nat.sub_self]
  rfl

theorem rest_of_lt (h : s < l.strlen) : l.rest s = l.buf s :: l.rest (s + 1) := by
  rw [rest, show l.strlen - s = l.strlen - (s + 1) + 1 by omega]
  rfl

theorem toks_strlen : l.toks l.strlen = [] := by
  rw [toks, rest_strlen, lex]

theorem skipBlanks_le (h : s ≤ l.strlen) : s ≤ l.skipBlanks s ∧ l.skipBlanks s ≤ l.strlen := by
  have hle := @skip_le l.buf isBlank (l.strlen - s) s
  unfold skipBlanks
  omega

theorem toks_skipBlanks (h : s ≤ l.strlen) : l.toks (l.skipBlanks s) = l.toks s := by
  have hrest := (@skip_chars l.buf isBlank (l.strlen - s) _ s rfl).2
  rw [Nat.add_sub_cancel' h] at hrest
  rw [toks, rest, skipBlanks, hrest, lex_dropWhile]
  rfl

theorem isBlank_skipBlanks (h : l.skipBlanks s < l.strlen) : isBlank (l.buf (l.skipBlanks s)) = false := by
  apply skip_stop
  unfold skipBlanks at h
  omega

end Line

def Token.code : Token → Char
  | word _ => 'a'
  | less => '<'
  | great => '>'
  | append => '+'
  | bar => '|'
  | amp => '&'
  | semi => ';'
  | lparen => '('
  | rparen => ')'

def Token.lead : Token → Char
  | append => '>'
  | t => t.code

def starts (cs : List Char) : List Token → Bool
  | [] => false
  | t :: _ => cs.contains t.lead

theorem starts_cons (h : starts cs ts = true) : ∃ t us, ts = t :: us ∧ t.lead ∈ cs := by
  cases ts with
  | nil => cases h
  | cons t us => exact ⟨t, us, rfl, by simpa [starts] using h⟩

theorem single_some (h : single c = some t) :
    c ∈ ['|', '(', ')', ';', '&', '<'] ∧ t.code = c ∧ t.lead = c ∧ ∀ w, t ≠ .word w := by
  unfold single at h
  repeat' split at h
  all_goals cases h
  all_goals
    next hc =>
      subst hc
      exact ⟨by decide, rfl, rfl, fun w hw => by cases hw⟩

theorem single_none (h : single c = none) : c ∉ ['|', '(', ')', ';', '&', '<'] := by
  unfold single at h
  repeat' split at h
  all_goals simp_all

theorem isWord_of_single (hb : isBlank c = false) (hg : c ≠ '>') (h : single c = none) : isWord c = true := by
  have hmem := single_none h
  unfold isBlank at hb
  unfold isWord
  rw [hb]
  simp_all [symbols]

namespace Line

/-- The pointers `q` and `eq` are the ends of the word `w`, which nothing can be added to. -/
structure Word (l : Line) (q eq : Nat) (w : List Char) : Prop where
  le : q ≤ eq
  text : chars l.buf q (eq - q) = w
  inside : ∀ i, q ≤ i → i < eq → i < l.strlen ∧ isWord (l.buf i) = true
  stop : eq < l.strlen → isWord (l.buf eq) = false

theorem scanToken_nul : l.scanToken l.strlen = (NUL, l.strlen) := if_pos buf_strlen

theorem scanToken_spec (hq : q < l.strlen) (hb : isBlank (l.buf q) = false) :
    ∃ t, l.toks q = t :: l.toks (l.scanToken q).2 ∧ (l.scanToken q).1 = t.code ∧ (l.scanToken q).2 ≤ l.strlen ∧
      (∀ c ∈ symbols, l.buf q = c ↔ t.lead = c) ∧ ∀ w, t = .word w → l.Word q (l.scanToken q).2 w := by
  have hnul := buf_ne_nul hq
  have hrest : l.rest q = l.buf q :: l.rest (q + 1) := rest_of_lt hq
  unfold scanToken toks
  rw [if_neg hnul, hrest]
  by_cases hg : l.buf q = '>'
  · rw [hg, if_neg (by decide), if_pos rfl]
    by_cases hg' : l.buf (q + 1) = '>'
    · have hlt : q + 1 < l.strlen := by
        by_contra hge
        have hend : q + 1 = l.strlen := by omega
        rw [hend, buf_strlen] at hg'
        exact absurd hg' (by decide)
      rw [if_pos hg', rest_of_lt hlt, hg', lex_append]
      exact ⟨.append, rfl, rfl, hlt, fun c _ => Iff.rfl, fun w hw => by cases hw⟩
    · have hhead : (l.rest (q + 1)).head? ≠ some '>' := by
        by_cases hlt : q + 1 < l.strlen
        · rw [rest_of_lt hlt]
          simpa using hg'
        · rw [show q + 1 = l.strlen by omega, rest_strlen]
          simp
      rw [if_neg hg', lex_great hhead]
      exact ⟨.great, rfl, rfl, hq, fun c _ => Iff.rfl, fun w hw => by cases hw⟩
  · cases hs : single (l.buf q) with
    | some t =>
      obtain ⟨hmem, hcode, hlead, hne⟩ := single_some hs
      rw [if_pos hmem, lex_single hb hg hs]
      refine ⟨t, rfl, hcode.symm, hq, fun c _ => ?_, fun w hw => absurd hw (hne w)⟩
      rw [hlead]
    | none =>
      have hw := isWord_of_single hb hg hs
      rw [if_neg (single_none hs), if_neg hg, lex_word hb hg hs]
      generalize he : skip l.buf isWord (l.strlen - q) q = e
      have hle := he ▸ @skip_le l.buf isWord (l.strlen - q) q
      obtain ⟨htake, hdrop⟩ := skip_chars he
      rw [← rest, hrest, List.takeWhile_cons_of_pos hw] at htake
      rw [← rest, hrest, List.dropWhile_cons_of_pos hw, Nat.add_sub_cancel' (Nat.le_of_lt hq), ← rest] at hdrop
      refine ⟨.word (l.buf q :: (l.rest (q + 1)).takeWhile isWord), by rw [hdrop], rfl, by omega, fun c hc => ?_,
        fun w hw' => ?_⟩
      · have hsym : l.buf q ∉ symbols := by
          intro hin
          simp [isWord, hin] at hw
        have ha : 'a' ∉ symbols := by decide
        exact ⟨fun hc' => absurd (hc' ▸ hc) hsym, fun (hc' : 'a' = c) => absurd (hc' ▸ hc) ha⟩
      · cases hw'
        refine ⟨hle.1, htake, fun i hi hie => ⟨by omega, skip_all hi (he ▸ hie)⟩, fun hlt => ?_⟩
        rw [← he]
        exact skip_stop (by omega)

theorem skipBlanks_lt (hs : s ≤ l.strlen) (h : l.toks s ≠ []) : l.skipBlanks s < l.strlen := by
  refine Nat.lt_of_le_of_ne (skipBlanks_le hs).2 fun he => h ?_
  rw [← toks_skipBlanks hs, he, toks_strlen]

theorem skipBlanks_end (hs : s ≤ l.strlen) (h : l.toks s = []) : l.skipBlanks s = l.strlen := by
  by_contra hne
  have hlt : l.skipBlanks s < l.strlen := Nat.lt_of_le_of_ne (skipBlanks_le hs).2 hne
  obtain ⟨t, ht, _⟩ := scanToken_spec hlt (isBlank_skipBlanks hlt)
  rw [toks_skipBlanks hs, h] at ht
  cases ht

variable {α : Type} {E : String → Prop} {R : α → Nat → Prop}

theorem peek_run (hs : s ≤ l.strlen) (hcs : cs ⊆ symbols) :
    l.peek cs s = .ok (starts cs (l.toks s), l.skipBlanks s) := by
  have hrun : l.peek cs s = .ok (l.buf (l.skipBlanks s) != NUL && cs.contains (l.buf (l.skipBlanks s)),
    l.skipBlanks s) := rfl
  rw [hrun]
  cases htoks : l.toks s with
  | nil =>
    rw [skipBlanks_end hs htoks, buf_strlen]
    rfl
  | cons t ts =>
    have hlt : l.skipBlanks s < l.strlen := skipBlanks_lt hs (by simp [htoks])
    obtain ⟨u, hu, _, _, hlead, _⟩ := scanToken_spec hlt (isBlank_skipBlanks hlt)
    rw [toks_skipBlanks hs, htoks] at hu
    obtain ⟨rfl, _⟩ := List.cons.inj hu
    have hmem : l.buf (l.skipBlanks s) ∈ cs ↔ t.lead ∈ cs := by
      constructor
      · intro hin
        rwa [(hlead _ (hcs hin)).mp rfl]
      · intro hin
        rwa [(hlead _ (hcs hin)).mpr rfl]
    have hnul : (l.buf (l.skipBlanks s) != NUL) = true := bne_iff_ne.mpr (buf_ne_nul hlt)
    have hcontains : cs.contains (l.buf (l.skipBlanks s)) = cs.contains t.lead := by
      rw [Bool.eq_iff_iff]
      simpa using hmem
    rw [hnul, Bool.true_and, starts, hcontains]

theorem post_peek {f : Bool → Prog Nat α} (hs : s ≤ l.strlen) (hcs : cs ⊆ symbols)
    (h : ∀ s', s' ≤ l.strlen → l.toks s' = l.toks s → Post E (f (starts cs (l.toks s))) s' R) :
    Post E (l.peek cs >>= f) s R := by
  rw [post_run_bind (peek_run hs hcs)]
  exact h _ (skipBlanks_le hs).2 (toks_skipBlanks hs)

theorem post_gettoken_nil {f : Char × Nat × Nat → Prog Nat α} (hs : s ≤ l.strlen) (h : l.toks s = [])
    (hf : ∀ q eq, Post E (f (NUL, q, eq)) l.strlen R) : Post E (l.gettoken >>= f) s R := by
  have hrun : l.gettoken s = .ok ((NUL, l.strlen, l.strlen), l.strlen) := by
    change Except.ok (((l.scanToken (l.skipBlanks s)).1, l.skipBlanks s, (l.scanToken (l.skipBlanks s)).2),
      l.skipBlanks (l.scanToken (l.skipBlanks s)).2) = _
    rw [skipBlanks_end hs h, scanToken_nul, skipBlanks_end (Nat.le_refl _) toks_strlen]
  rw [post_run_bind hrun]
  exact hf _ _

theorem post_gettoken {f : Char × Nat × Nat → Prog Nat α} (hs : s ≤ l.strlen) (h : l.toks s = t :: ts)
    (hf : ∀ q eq s', s' ≤ l.strlen → l.toks s' = ts → (∀ w, t = .word w → l.Word q eq w) →
      Post E (f (t.code, q, eq)) s' R) : Post E (l.gettoken >>= f) s R := by
  have hlt : l.skipBlanks s < l.strlen := skipBlanks_lt hs (by simp [h])
  obtain ⟨u, hu, hcode, hle, _, hword⟩ := scanToken_spec hlt (isBlank_skipBlanks hlt)
  rw [toks_skipBlanks hs, h] at hu
  obtain ⟨rfl, hts⟩ := List.cons.inj hu
  have hrun : l.gettoken s = .ok ((t.code, l.skipBlanks s, (l.scanToken (l.skipBlanks s)).2),
      l.skipBlanks (l.scanToken (l.skipBlanks s)).2) := by
    rw [← hcode]
    rfl
  rw [post_run_bind hrun]
  exact hf _ _ _ (skipBlanks_le hle).2 (by rw [toks_skipBlanks hle, hts]) hword

section If

variable {yes : Char × Nat × Nat → Prog Nat α} {no : Prog Nat α}

theorem post_pass {yes : Prog Nat α} (hs : s ≤ l.strlen) (hcs : cs ⊆ symbols) (hst : starts cs (l.toks s) = false)
    (h : ∀ s', s' ≤ l.strlen → l.toks s' = l.toks s → Post E no s' R) :
    Post E (l.peek cs >>= fun b => if b then yes else no) s R := by
  refine post_peek hs hcs fun s' hs' h' => ?_
  rw [hst, if_neg Bool.false_ne_true]
  exact h s' hs' h'

theorem post_take (hs : s ≤ l.strlen) (h : l.toks s = t :: ts) (hcs : cs ⊆ symbols) (ht : t.lead ∈ cs)
    (hyes : ∀ q eq s', s' ≤ l.strlen → l.toks s' = ts → Post E (yes (t.code, q, eq)) s' R) :
    Post E (l.peek cs >>= fun b => if b then l.gettoken >>= yes else no) s R := by
  have hst : starts cs (l.toks s) = true := by
    rw [h]
    exact List.contains_iff_mem.mpr ht
  refine post_peek hs hcs fun s₁ hs₁ h₁ => ?_
  rw [hst, if_pos rfl]
  exact post_gettoken hs₁ (h₁.trans h) fun q eq s' hs' h' _ => hyes q eq s' hs' h'

/-- A token that is one character is known by it. -/
theorem post_next (t : Token) (hs : s ≤ l.strlen) (ht : t.lead ∈ ['|', '&', ';', '(', ')'])
    (hno : ∀ s', s' ≤ l.strlen → l.toks s' = l.toks s → Post E no s' R)
    (hyes : ∀ q eq us s', l.toks s = t :: us → s' ≤ l.strlen → l.toks s' = us → Post E (yes (t.code, q, eq)) s' R) :
    Post E (l.peek [t.lead] >>= fun b => if b then l.gettoken >>= yes else no) s R := by
  have hcs : [t.lead] ⊆ symbols :=
    List.cons_subset.mpr ⟨(by decide : ['|', '&', ';', '(', ')'] ⊆ symbols) ht, List.nil_subset _⟩
  cases hst : starts [t.lead] (l.toks s) with
  | false => exact post_pass hs hcs hst hno
  | true =>
    obtain ⟨u, us, hus, hu⟩ := starts_cons hst
    obtain rfl : u = t := by
      cases t <;> cases u <;> simp [Token.lead, Token.code] at ht hu ⊢
    exact post_take hs hus hcs hu fun q eq s' hs' h' => hyes q eq us s' hus hs' h'

end If

end Line

end TweakedXv6.Shell

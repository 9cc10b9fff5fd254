import TweakedXv6.ShellParse

namespace TweakedXv6.Shell

open Prog

variable {l : Line} {c : Cmd} {T U : Tree} {nt : Nonterminal} {cs : List Char} {ts us vs : List Token}
  {s n fuel : Nat} {ws : List (List Char)} {rs : List Redir} {as : List Arg}

def Nonterminal.follow : Nonterminal → List Char
  | line => [')']
  | pipe => [')', '&', ';']
  | exec => [')', '&', ';', '|']

def Nonterminal.Follow (nt : Nonterminal) (us : List Token) : Prop := us = [] ∨ starts nt.follow us = true

theorem Nonterminal.Follow.starts (h : nt.Follow us) (hcs : cs.all (· ∉ nt.follow) = true) : starts cs us = false := by
  rcases h with rfl | h
  · rfl
  · obtain ⟨t, vs, rfl, ht⟩ := starts_cons h
    rw [← Bool.not_eq_true]
    intro hst
    exact of_decide_eq_true (List.all_eq_true.mp hcs _ (by simpa [Shell.starts] using hst)) ht

theorem Nonterminal.Follow.mono {nt' : Nonterminal} (h : nt.Follow us) (hsub : nt.follow ⊆ nt'.follow) :
    nt'.Follow us := by
  rcases h with h | h
  · exact .inl h
  · obtain ⟨t, vs, rfl, ht⟩ := starts_cons h
    exact .inr (by simpa [Shell.starts] using hsub ht)

theorem starts_redirs (h : starts cs us = false) (hless : '<' ∉ cs) (hgreat : '>' ∉ cs) :
    starts cs (rs.flatMap Redir.tokens ++ us) = false := by
  cases rs with
  | nil => exact h
  | cons r rs =>
    obtain ⟨op, file⟩ := r
    have hlead : op.token.lead ∉ cs := by
      cases op with
      | input => exact hless
      | output => exact hgreat
      | append => exact hgreat
    simpa [Redir.tokens, starts] using hlead

theorem starts_args (h : starts cs us = false) (hcs : 'a' ∉ cs) : starts cs (as.flatMap Arg.tokens ++ us) = false := by
  cases as with
  | nil => exact h
  | cons a as => simpa [Arg.tokens, starts, Token.lead, Token.code] using hcs

namespace Line

theorem parseredirs_accepts (hs : s ≤ l.strlen) (hc : Spells l.Word c T) (hf : (l.toks s).length < fuel)
    (htoks : l.toks s = rs.flatMap Redir.tokens ++ us) (hus : starts ['<', '>'] us = false) :
    Returns (l.parseredirs fuel c) s fun c' s' => s' ≤ l.strlen ∧ l.toks s' = us ∧ Spells l.Word c' (T.redirs rs) := by
  induction rs generalizing s c T fuel with
  | nil =>
    obtain ⟨f, rfl⟩ := fuel_succ (k := 0) hf
    unfold parseredirs
    exact post_pass hs (by decide) (htoks ▸ hus) fun s₁ hs₁ h₁ => ⟨hs₁, h₁.trans htoks, hc⟩
  | cons r rs ih =>
    obtain ⟨op, w⟩ := r
    obtain ⟨f, rfl⟩ := fuel_succ (k := 0) hf
    have hcons : l.toks s = op.token :: .word w :: (rs.flatMap Redir.tokens ++ us) := htoks
    unfold parseredirs
    refine post_take hs hcons (by decide) (by cases op <;> decide) fun _ _ s₂ hs₂ h₂ => ?_
    refine post_gettoken hs₂ h₂ fun q eq s₃ hs₃ h₃ hword => ?_
    have hlen : (l.toks s₃).length < f := by
      rw [hcons, List.length_cons, List.length_cons] at hf
      rw [h₃]
      omega
    rw [if_neg (not_not.mpr (code_word.mpr ⟨w, rfl⟩))]
    exact ih hs₃ (hc.redirect (hword w rfl)) hlen h₃

theorem parseargs_accepts (hs : s ≤ l.strlen) (hc : Spells l.Word c ((Tree.exec ws).redirs rs))
    (hlen : ws.length + as.length ≤ 9) (hf : (l.toks s).length < fuel)
    (htoks : l.toks s = as.flatMap Arg.tokens ++ us) (hus : Nonterminal.exec.Follow us) :
    Returns (l.parseargs fuel ws.length c) s fun c' s' => s' ≤ l.strlen ∧ l.toks s' = us ∧
      Spells l.Word c' ((Tree.exec (ws ++ as.map Prod.fst)).redirs (rs ++ as.flatMap Prod.snd)) := by
  induction as generalizing s c ws rs fuel with
  | nil =>
    obtain ⟨f, rfl⟩ := fuel_succ (k := 0) hf
    have htoks' : l.toks s = us := htoks
    have hdone : Spells l.Word c ((Tree.exec (ws ++ [])).redirs (rs ++ [])) := by
      rwa [List.append_nil, List.append_nil]
    unfold parseargs
    refine post_peek hs (by decide) fun s₁ hs₁ h₁ => ?_
    rcases hus with rfl | hst
    · rw [htoks', starts, if_neg Bool.false_ne_true]
      refine post_gettoken_nil hs₁ (h₁.trans htoks') fun _ _ => ?_
      rw [if_pos rfl]
      exact ⟨Nat.le_refl _, toks_strlen, hdone⟩
    · have hst' : starts ['|', ')', '&', ';'] (l.toks s) = true := by
        obtain ⟨t, vs, rfl, ht⟩ := starts_cons hst
        rw [htoks']
        simp only [Nonterminal.follow, List.mem_cons] at ht
        simp only [starts, List.contains_cons, Bool.or_eq_true, beq_iff_eq]
        tauto
      rw [hst', if_pos rfl]
      exact ⟨hs₁, h₁.trans htoks', hdone⟩
  | cons a as ih =>
    obtain ⟨w, rs'⟩ := a
    obtain ⟨f, rfl⟩ := fuel_succ (k := 0) hf
    have hcons : l.toks s = .word w :: (rs'.flatMap Redir.tokens ++ (as.flatMap Arg.tokens ++ us)) := by
      rw [htoks]
      simp [Arg.tokens]
    have hM : MAXARGS = 10 := rfl
    rw [List.length_cons] at hlen
    unfold parseargs
    refine post_pass hs (by decide) (by rw [hcons]; rfl) fun s₁ hs₁ h₁ => ?_
    refine post_gettoken hs₁ (h₁.trans hcons) fun q eq s₂ hs₂ h₂ hword => ?_
    have hlen₂ : (l.toks s₂).length < f := by
      rw [hcons, List.length_cons] at hf
      rw [h₂]
      omega
    have hstop : starts ['<', '>'] (as.flatMap Arg.tokens ++ us) = false :=
      starts_args (hus.starts (by decide)) (by decide)
    rw [if_neg (code_ne_nul _), if_neg (not_not.mpr (code_word.mpr ⟨w, rfl⟩)), if_neg (by omega)]
    refine Post.bind (parseredirs_accepts hs₂ (hc.addArg (hword w rfl)) hlen₂ h₂ hstop) fun c₃ s₃ h₃ => ?_
    obtain ⟨hs₃, h₃, hc₃⟩ := h₃
    rw [← redirs_append] at hc₃
    have hlen₃ : (l.toks s₃).length < f := by
      have hle := length_rest_le h₂
      rw [h₃]
      omega
    have hrec := ih hs₃ hc₃ (by rw [List.length_append, List.length_singleton]; omega) hlen₃ h₃
    rw [List.length_append, List.length_singleton] at hrec
    refine hrec.mono fun c' s' h' => ?_
    obtain ⟨hs', h', hc'⟩ := h'
    refine ⟨hs', h', ?_⟩
    simpa using hc'

theorem parsebacks_accepts (hs : s ≤ l.strlen) (hc : Spells l.Word c T) (hf : (l.toks s).length < fuel)
    (htoks : l.toks s = List.replicate n .amp ++ us) (hus : starts ['&'] us = false) :
    Returns (l.parsebacks fuel c) s fun c' s' => s' ≤ l.strlen ∧ l.toks s' = us ∧ Spells l.Word c' (T.backs n) := by
  induction n generalizing s c T fuel with
  | zero =>
    obtain ⟨f, rfl⟩ := fuel_succ (k := 0) hf
    unfold parsebacks
    exact post_pass hs (by decide) (htoks ▸ hus) fun s₁ hs₁ h₁ => ⟨hs₁, h₁.trans htoks, hc⟩
  | succ n ih =>
    obtain ⟨f, rfl⟩ := fuel_succ (k := 0) hf
    have hcons : l.toks s = .amp :: (List.replicate n .amp ++ us) := htoks
    unfold parsebacks
    refine post_take hs hcons (by decide) (by decide) fun _ _ s₂ hs₂ h₂ => ?_
    have hlen : (l.toks s₂).length < f := by
      rw [hcons, List.length_cons] at hf
      rw [h₂]
      omega
    exact ih hs₂ (.back hc) hlen h₂

/-- With enough fuel the function for `nt` accepts the tokens `ts`, up to a token that may follow. -/
def Accepts (l : Line) (nt : Nonterminal) (ts : List Token) (T : Tree) : Prop :=
  ∀ s us fuel, s ≤ l.strlen → 4 * (l.toks s).length + nt.cost ≤ fuel → l.toks s = ts ++ us → nt.Follow us →
    Returns (l.parse nt fuel) s fun c s' => s' ≤ l.strlen ∧ l.toks s' = us ∧ Spells l.Word c T

theorem parseline_head (h : l.Accepts .pipe ts T) (hs : s ≤ l.strlen) (hf : 4 * (l.toks s).length + 3 ≤ fuel)
    (htoks : l.toks s = ts ++ (List.replicate n .amp ++ us)) (hus : starts ['&'] us = false)
    (hfollow : Nonterminal.pipe.Follow us) : Returns (l.parsepipe fuel >>= l.parsebacks fuel) s fun c s' =>
      s' ≤ l.strlen ∧ l.toks s' = us ∧ Spells l.Word c (T.backs n) := by
  have hfollow' : Nonterminal.pipe.Follow (List.replicate n .amp ++ us) := by
    cases n with
    | zero => exact hfollow
    | succ n => exact .inr rfl
  refine Post.bind (h s _ fuel hs hf htoks hfollow') fun c₁ s₁ h₁ => ?_
  obtain ⟨hs₁, h₁, hc₁⟩ := h₁
  have hlen := length_rest_le htoks
  exact parsebacks_accepts hs₁ hc₁ (by rw [h₁]; omega) h₁ hus

theorem accepts_line (h : l.Accepts .pipe ts T) : l.Accepts .line (ts ++ List.replicate n .amp) (T.backs n) := by
  intro s us fuel hs hf htoks hus
  obtain ⟨f, rfl⟩ := fuel_succ hf
  rw [List.append_assoc] at htoks
  change Returns (l.parseline (f + 1)) s _
  unfold parseline
  rw [← bind_assoc]
  have hhead := parseline_head h hs (Nat.le_of_succ_le_succ hf) htoks (hus.starts (by decide)) (hus.mono (by decide))
  refine Post.bind hhead fun c₁ s₁ h₁ => ?_
  obtain ⟨hs₁, h₁, hc₁⟩ := h₁
  exact post_pass hs₁ (by decide) (h₁ ▸ hus.starts (by decide)) fun s₂ hs₂ h₂ => ⟨hs₂, h₂.trans h₁, hc₁⟩

theorem accepts_lines (h : l.Accepts .pipe ts T) (h' : l.Accepts .line vs U) :
    l.Accepts .line (ts ++ List.replicate n .amp ++ .semi :: vs) (.list (T.backs n) U) := by
  intro s us fuel hs hf htoks hus
  obtain ⟨f, rfl⟩ := fuel_succ hf
  rw [List.append_assoc, List.append_assoc] at htoks
  change Returns (l.parseline (f + 1)) s _
  unfold parseline
  rw [← bind_assoc]
  have hf' : 4 * (l.toks s).length + 3 ≤ f := Nat.le_of_succ_le_succ hf
  have hsemi : l.toks s = (ts ++ List.replicate n .amp) ++ .semi :: (vs ++ us) := by
    rw [htoks, List.append_assoc]
    rfl
  refine Post.bind (parseline_head h hs hf' htoks rfl (.inr rfl)) fun c₁ s₁ h₁ => ?_
  obtain ⟨hs₁, h₁, hc₁⟩ := h₁
  have hcons : l.toks s₁ = .semi :: (vs ++ us) := h₁
  refine post_take hs₁ hcons (by decide) (by decide) fun _ _ s₃ hs₃ h₃ => ?_
  have hlen : 4 * (l.toks s₃).length + 4 ≤ f := by
    have hle := length_rest_le hsemi
    rw [List.length_cons] at hle
    rw [h₃]
    omega
  refine Post.bind (h' s₃ us f hs₃ hlen h₃ hus) fun c₄ s₄ h₄ => ?_
  obtain ⟨hs₄, h₄, hc₄⟩ := h₄
  exact ⟨hs₄, h₄, .list hc₁ hc₄⟩

theorem accepts_pipe (h : l.Accepts .exec ts T) : l.Accepts .pipe ts T := by
  intro s us fuel hs hf htoks hus
  obtain ⟨f, rfl⟩ := fuel_succ hf
  change Returns (l.parsepipe (f + 1)) s _
  unfold parsepipe
  refine Post.bind (h s us f hs (Nat.le_of_succ_le_succ hf) htoks (hus.mono (by decide))) fun c₁ s₁ h₁ => ?_
  obtain ⟨hs₁, h₁, hc₁⟩ := h₁
  exact post_pass hs₁ (by decide) (h₁ ▸ hus.starts (by decide)) fun s₂ hs₂ h₂ => ⟨hs₂, h₂.trans h₁, hc₁⟩

theorem accepts_pipes (h : l.Accepts .exec ts T) (h' : l.Accepts .pipe vs U) :
    l.Accepts .pipe (ts ++ .bar :: vs) (.pipe T U) := by
  intro s us fuel hs hf htoks hus
  obtain ⟨f, rfl⟩ := fuel_succ hf
  rw [List.append_assoc] at htoks
  have hlen := length_rest_le htoks
  change Returns (l.parsepipe (f + 1)) s _
  unfold parsepipe
  refine Post.bind (h s _ f hs (Nat.le_of_succ_le_succ hf) htoks (.inr rfl)) fun c₁ s₁ h₁ => ?_
  obtain ⟨hs₁, h₁, hc₁⟩ := h₁
  have hcons : l.toks s₁ = .bar :: (vs ++ us) := h₁
  refine post_take hs₁ hcons (by decide) (by decide) fun _ _ s₃ hs₃ h₃ => ?_
  have hlen₃ : 4 * (l.toks s₃).length + 3 ≤ f := by
    rw [Nonterminal.cost] at hf
    rw [List.cons_append, List.length_cons] at hlen
    rw [h₃]
    omega
  refine Post.bind (h' s₃ us f hs₃ hlen₃ h₃ hus) fun c₄ s₄ h₄ => ?_
  obtain ⟨hs₄, h₄, hc₄⟩ := h₄
  exact ⟨hs₄, h₄, .pipe hc₁ hc₄⟩

theorem accepts_block (h : l.Accepts .line ts T) :
    l.Accepts .exec (.lparen :: ts ++ .rparen :: rs.flatMap Redir.tokens) (T.redirs rs) := by
  intro s us fuel hs hf htoks hus
  obtain ⟨f, rfl⟩ : ∃ f, fuel = f + 2 := ⟨fuel - 2, by rw [Nonterminal.cost] at hf; omega⟩
  have hcons : l.toks s = .lparen :: (ts ++ .rparen :: (rs.flatMap Redir.tokens ++ us)) := by
    rw [htoks]
    simp
  have hst : starts ['('] (l.toks s) = true := by
    rw [hcons]
    rfl
  have hf' : 4 * (l.toks s).length ≤ f := Nat.le_of_add_le_add_right hf
  change Returns (l.parseexec (f + 2)) s _
  unfold parseexec
  refine post_peek hs (by decide) fun s₁ hs₁ h₁ => ?_
  rw [hst, if_pos rfl]
  unfold parseblock
  refine post_take hs₁ (h₁.trans hcons) (by decide) (by decide) fun _ _ s₃ hs₃ h₃ => ?_
  have hlen₃ : 4 * (l.toks s₃).length + 4 ≤ f := by
    rw [hcons, List.length_cons] at hf'
    rw [h₃]
    omega
  refine Post.bind (h s₃ _ f hs₃ hlen₃ h₃ (.inr rfl)) fun c₄ s₄ h₄ => ?_
  obtain ⟨hs₄, h₄, hc₄⟩ := h₄
  refine post_take hs₄ h₄ (by decide) (by decide) fun _ _ s₆ hs₆ h₆ => ?_
  have hlen₆ : (l.toks s₆).length < f := by
    have hle := length_rest_le h₃
    rw [List.length_cons] at hle
    rw [h₆]
    omega
  exact parseredirs_accepts hs₆ hc₄ hlen₆ h₆ (hus.starts (by decide))

theorem accepts_simple (has : as.length ≤ 9) : l.Accepts .exec (rs.flatMap Redir.tokens ++ as.flatMap Arg.tokens)
      ((Tree.exec (as.map Prod.fst)).redirs (rs ++ as.flatMap Prod.snd)) := by
  intro s us fuel hs hf htoks hus
  obtain ⟨f, rfl⟩ := fuel_succ hf
  rw [Nonterminal.cost] at hf
  rw [List.append_assoc] at htoks
  have hst : starts ['('] (l.toks s) = false := by
    rw [htoks]
    exact starts_redirs (starts_args (hus.starts (by decide)) (by decide)) (by decide) (by decide)
  change Returns (l.parseexec (f + 1)) s _
  unfold parseexec
  refine post_pass hs (by decide) hst fun s₁ hs₁ h₁ => ?_
  have hstop : starts ['<', '>'] (as.flatMap Arg.tokens ++ us) = false :=
    starts_args (hus.starts (by decide)) (by decide)
  have hlen₁ : (l.toks s₁).length < f := by
    rw [h₁]
    omega
  have hredirs := parseredirs_accepts hs₁ (.exec .nil) hlen₁ (h₁.trans htoks) hstop
  refine Post.bind hredirs fun c₂ s₂ h₂ => ?_
  obtain ⟨hs₂, h₂, hc₂⟩ := h₂
  have hlen₂ : (l.toks s₂).length < f := by
    have hle := length_rest_le htoks
    rw [h₂]
    omega
  exact @parseargs_accepts l c₂ us s₂ f [] rs as hs₂ hc₂ (by simpa using has) hlen₂ h₂ hus

theorem accepts (h : Derives nt ts T) : l.Accepts nt ts T := by
  induction h with
  | line n _ ih => exact accepts_line ih
  | lines n _ _ ih ih' => exact accepts_lines ih ih'
  | pipe _ ih => exact accepts_pipe ih
  | pipes _ _ ih ih' => exact accepts_pipes ih ih'
  | block rs _ ih => exact accepts_block ih
  | simple rs as has => exact accepts_simple has

end Line

end TweakedXv6.Shell

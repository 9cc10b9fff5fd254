import Mathlib.Data.List.Induction
import TweakedXv6.ShellLex

namespace TweakedXv6.Shell

open Prog

variable {l : Line} {W : Nat → Nat → List Char → Prop} {c : Cmd} {T : Tree} {cs : List Char} {t : Token}
  {ts us : List Token} {q eq s n fuel : Nat} {w : List Char} {ws : List (List Char)} {rs : List Redir}

theorem code_word : t.code = 'a' ↔ ∃ w, t = .word w := by
  cases t <;> simp [Token.code]

theorem code_ne_nul (t : Token) : t.code ≠ NUL := by
  cases t <;> simp [Token.code, NUL]

theorem starts_redir (h : starts ['<', '>'] ts = true) : ∃ op us, ts = RedirOp.token op :: us := by
  obtain ⟨t, us, rfl, ht⟩ := starts_cons h
  cases t <;> simp [Token.lead, Token.code] at ht
  case less => exact ⟨.input, us, rfl⟩
  case great => exact ⟨.output, us, rfl⟩
  case append => exact ⟨.append, us, rfl⟩

theorem redirect_token {op : RedirOp} : Line.redirect op.token.code q eq c = .redir c q eq op.mode op.fd := by
  cases op <;> rfl

theorem redirs_append {rs' : List Redir} : T.redirs (rs ++ rs') = (T.redirs rs).redirs rs' := List.foldl_append

theorem Spells.redirect {op : RedirOp} (h : Spells W c T) (hw : W q eq w) :
    Spells W (Line.redirect op.token.code q eq c) (.redir T w op.mode op.fd) := by
  rw [redirect_token]
  exact h.redir _ _ hw

theorem Spells.addArg (h : Spells W c ((Tree.exec ws).redirs rs)) (hw : W q eq w) :
    Spells W (c.addArg q eq) ((Tree.exec (ws ++ [w])).redirs rs) := by
  induction rs using List.reverseRecOn generalizing c with
  | nil =>
    cases h with
    | exec h => exact .exec (List.rel_append h (.cons hw .nil))
  | append_singleton rs r ih =>
    rw [redirs_append] at h ⊢
    cases h with
    | redir mode fd h hf => exact .redir _ _ (ih h) hf

def Nonterminal.cost : Nonterminal → Nat
  | .line => 4
  | .pipe => 3
  | .exec => 2

theorem fuel_succ {k : Nat} (h : n + (k + 1) ≤ fuel) : ∃ f, fuel = f + 1 := ⟨fuel - 1, by omega⟩

namespace Line

/-- What a function of the parser gives back: the rest of the tokens and a command that is spelled like
`T`. -/
def Parsed (l : Line) (s : Nat) (P : List Token → Tree → Prop) (c : Cmd) (s' : Nat) : Prop :=
  s' ≤ l.strlen ∧ ∃ ts T, l.toks s = ts ++ l.toks s' ∧ P ts T ∧ Spells l.Word c T

theorem parsed_congr {s' : Nat} {P : List Token → Tree → Prop} (h : l.toks s = l.toks s') :
    l.Parsed s P = l.Parsed s' P := by
  funext c u
  unfold Parsed
  rw [h]

theorem parseredirs_sound (hs : s ≤ l.strlen) (hc : Spells l.Word c T) (hf : (l.toks s).length < fuel) :
    Post (· ∈ panics) (l.parseredirs fuel c) s
      (l.Parsed s fun ts t => ∃ rs, ts = rs.flatMap Redir.tokens ∧ t = T.redirs rs) := by
  induction fuel generalizing s c T with
  | zero => exact absurd hf (Nat.not_lt_zero _)
  | succ fuel ih =>
    unfold parseredirs
    refine post_peek hs (by decide) fun s₁ hs₁ h₁ => ?_
    cases hst : starts ['<', '>'] (l.toks s) with
    | false => exact ⟨hs₁, [], T, h₁.symm, ⟨[], rfl, rfl⟩, hc⟩
    | true =>
      obtain ⟨op, us, hop⟩ := starts_redir hst
      rw [if_pos rfl]
      refine post_gettoken hs₁ (h₁.trans hop) fun _ _ s₂ hs₂ h₂ _ => ?_
      cases us with
      | nil =>
        refine post_gettoken_nil hs₂ h₂ fun _ _ => ?_
        rw [if_pos (show NUL ≠ 'a' by decide)]
        exact post_halt.mpr (by decide)
      | cons t us =>
        refine post_gettoken hs₂ h₂ fun q eq s₃ hs₃ h₃ hword => ?_
        by_cases ht : t.code = 'a'
        · obtain ⟨w, rfl⟩ := code_word.mp ht
          rw [if_neg (not_not.mpr ht)]
          have hlen : (l.toks s₃).length < fuel := by
            rw [hop] at hf
            rw [h₃]
            simp only [List.length_cons] at hf
            omega
          refine (ih hs₃ (hc.redirect (hword w rfl)) hlen).mono fun c' s' h' => ?_
          obtain ⟨hle, _, _, htoks, ⟨rs, rfl, rfl⟩, hsp⟩ := h'
          refine ⟨hle, _, _, ?_, ⟨(op, w) :: rs, rfl, rfl⟩, hsp⟩
          rw [hop, ← h₃, htoks]
          rfl
        · rw [if_pos ht]
          exact post_halt.mpr (by decide)

theorem parseargs_sound (hs : s ≤ l.strlen) (hc : Spells l.Word c ((Tree.exec ws).redirs rs)) (hws : ws.length ≤ 9)
    (hf : (l.toks s).length < fuel) : Post (· ∈ panics) (l.parseargs fuel ws.length c) s
      (l.Parsed s fun ts t => ∃ as : List Arg, ws.length + as.length ≤ 9 ∧ ts = as.flatMap Arg.tokens ∧
        t = (Tree.exec (ws ++ as.map Prod.fst)).redirs (rs ++ as.flatMap Prod.snd)) := by
  induction fuel generalizing s c ws rs with
  | zero => exact absurd hf (Nat.not_lt_zero _)
  | succ fuel ih =>
    have hdone : ∀ s', s' ≤ l.strlen → l.toks s' = l.toks s →
        l.Parsed s (fun ts t => ∃ as : List Arg, ws.length + as.length ≤ 9 ∧ ts = as.flatMap Arg.tokens ∧
          t = (Tree.exec (ws ++ as.map Prod.fst)).redirs (rs ++ as.flatMap Prod.snd)) c s' := by
      intro s' hs' h'
      refine ⟨hs', [], _, h'.symm, ⟨[], hws, rfl, ?_⟩, hc⟩
      simp
    unfold parseargs
    refine post_peek hs (by decide) fun s₁ hs₁ h₁ => ?_
    cases hst : starts ['|', ')', '&', ';'] (l.toks s) with
    | true => exact hdone s₁ hs₁ h₁
    | false =>
      rw [if_neg Bool.false_ne_true]
      cases htoks : l.toks s with
      | nil =>
        refine post_gettoken_nil hs₁ (h₁.trans htoks) fun _ _ => ?_
        rw [if_pos rfl]
        exact hdone _ (Nat.le_refl _) (toks_strlen.trans htoks.symm)
      | cons t us =>
        refine post_gettoken hs₁ (h₁.trans htoks) fun q eq s₂ hs₂ h₂ hword => ?_
        rw [if_neg (code_ne_nul t)]
        by_cases ht : t.code = 'a'
        · obtain ⟨w, rfl⟩ := code_word.mp ht
          rw [if_neg (not_not.mpr ht)]
          by_cases hmax : ws.length + 1 ≥ MAXARGS
          · rw [if_pos hmax]
            exact post_halt.mpr (by decide)
          · have hws' : (ws ++ [w]).length ≤ 9 := by
              have hM : MAXARGS = 10 := rfl
              rw [List.length_append, List.length_singleton]
              omega
            have hlen : (l.toks s₂).length < fuel := by
              rw [htoks, List.length_cons] at hf
              rw [h₂]
              omega
            rw [if_neg hmax]
            refine Post.bind (parseredirs_sound hs₂ (hc.addArg (hword w rfl)) hlen) fun c₃ s₃ h₃ => ?_
            obtain ⟨hs₃, _, _, htoks₃, ⟨rs', rfl, rfl⟩, hc₃⟩ := h₃
            rw [← redirs_append] at hc₃
            have hlen₃ : (l.toks s₃).length < fuel := by
              rw [htoks₃, List.length_append] at hlen
              omega
            have hrec := ih hs₃ hc₃ hws' hlen₃
            rw [List.length_append, List.length_singleton] at hrec
            refine hrec.mono fun c' s' h' => ?_
            obtain ⟨hs', _, _, htoks', ⟨as, has, rfl, rfl⟩, hc'⟩ := h'
            refine ⟨hs', _, _, ?_, ⟨(w, rs') :: as, ?_, rfl, ?_⟩, hc'⟩
            · rw [htoks, ← h₂, htoks₃, htoks']
              simp [Arg.tokens]
            · rw [List.length_cons]
              omega
            · simp
        · rw [if_pos ht]
          exact post_halt.mpr (by decide)

theorem parsebacks_sound (hs : s ≤ l.strlen) (hc : Spells l.Word c T) (hf : (l.toks s).length < fuel) :
    Post (· ∈ panics) (l.parsebacks fuel c) s
      (l.Parsed s fun ts t => ∃ n, ts = List.replicate n .amp ∧ t = T.backs n) := by
  induction fuel generalizing s c T with
  | zero => exact absurd hf (Nat.not_lt_zero _)
  | succ fuel ih =>
    unfold parsebacks
    refine post_next .amp hs (by decide) (fun s₁ hs₁ h₁ => ⟨hs₁, [], T, h₁.symm, ⟨0, rfl, rfl⟩, hc⟩)
      fun _ _ us s₂ hus hs₂ h₂ => ?_
    have hlen : (l.toks s₂).length < fuel := by
      rw [hus, List.length_cons] at hf
      rw [h₂]
      omega
    refine (ih hs₂ (.back hc) hlen).mono fun c' s' h' => ?_
    obtain ⟨hle, _, _, htoks, ⟨n, rfl, rfl⟩, hsp⟩ := h'
    refine ⟨hle, _, _, ?_, ⟨n + 1, rfl, rfl⟩, hsp⟩
    rw [hus, ← h₂, htoks]
    rfl

def parse (l : Line) : Nonterminal → Nat → Prog Nat Cmd
  | .line => l.parseline
  | .pipe => l.parsepipe
  | .exec => l.parseexec

def Sound (l : Line) (fuel : Nat) : Prop :=
  ∀ nt s, s ≤ l.strlen → 4 * (l.toks s).length + nt.cost ≤ fuel →
    Post (· ∈ panics) (l.parse nt fuel) s (l.Parsed s (Derives nt))

theorem length_rest_le (h : l.toks s = ts ++ us) : us.length ≤ (l.toks s).length := by
  rw [h, List.length_append]
  exact Nat.le_add_left _ _

section Sound

variable (h : l.Sound fuel) (hs : s ≤ l.strlen)

include h hs

theorem parseline_sound (hf : 4 * (l.toks s).length + 3 ≤ fuel) :
    Post (· ∈ panics) (l.parseline (fuel + 1)) s (l.Parsed s (Derives .line)) := by
  unfold parseline
  refine Post.bind (h .pipe s hs hf) fun c₁ s₁ h₁ => ?_
  obtain ⟨hs₁, ts, t, h₁, ht, hc₁⟩ := h₁
  have hlen₁ := length_rest_le h₁
  refine Post.bind (parsebacks_sound hs₁ hc₁ (by omega)) fun c₂ s₂ h₂ => ?_
  obtain ⟨hs₂, _, _, h₂, ⟨n, rfl, rfl⟩, hc₂⟩ := h₂
  have hlen₂ := length_rest_le h₂
  refine post_next .semi hs₂ (by decide) (fun s₃ hs₃ h₃ => ?_) fun _ _ us s₄ hus hs₄ h₄ => ?_
  · refine ⟨hs₃, _, _, ?_, .line n ht, hc₂⟩
    rw [h₃, h₁, h₂, List.append_assoc]
  · have hlen₄ : 4 * (l.toks s₄).length + 4 ≤ fuel := by
      rw [hus, List.length_cons] at hlen₂
      rw [h₄]
      omega
    refine Post.bind (h .line s₄ hs₄ hlen₄) fun c₅ s₅ h₅ => ?_
    obtain ⟨hs₅, vs, v, h₅, hv, hc₅⟩ := h₅
    refine ⟨hs₅, _, _, ?_, .lines n ht hv, .list hc₂ hc₅⟩
    rw [h₁, h₂, hus, ← h₄, h₅]
    simp

theorem parsepipe_sound (hf : 4 * (l.toks s).length + 2 ≤ fuel) :
    Post (· ∈ panics) (l.parsepipe (fuel + 1)) s (l.Parsed s (Derives .pipe)) := by
  unfold parsepipe
  refine Post.bind (h .exec s hs hf) fun c₁ s₁ h₁ => ?_
  obtain ⟨hs₁, ts, t, h₁, ht, hc₁⟩ := h₁
  have hlen₁ := length_rest_le h₁
  refine post_next .bar hs₁ (by decide) (fun s₂ hs₂ h₂ => ?_) fun _ _ us s₃ hus hs₃ h₃ => ?_
  · refine ⟨hs₂, _, _, ?_, .pipe ht, hc₁⟩
    rw [h₂, h₁]
  · have hlen₃ : 4 * (l.toks s₃).length + 3 ≤ fuel := by
      rw [hus, List.length_cons] at hlen₁
      rw [h₃]
      omega
    refine Post.bind (h .pipe s₃ hs₃ hlen₃) fun c₄ s₄ h₄ => ?_
    obtain ⟨hs₄, vs, v, h₄, hv, hc₄⟩ := h₄
    refine ⟨hs₄, _, _, ?_, .pipes ht hv, .pipe hc₁ hc₄⟩
    rw [h₁, hus, ← h₃, h₄]
    simp

theorem parseblock_sound (hf : 4 * (l.toks s).length ≤ fuel) :
    Post (· ∈ panics) (l.parseblock (fuel + 1)) s (l.Parsed s (Derives .exec)) := by
  unfold parseblock
  refine post_next .lparen hs (by decide) (fun _ _ _ => post_halt.mpr (by decide)) fun _ _ us s₂ hus hs₂ h₂ => ?_
  have hlen₂ : 4 * (l.toks s₂).length + 4 ≤ fuel := by
    rw [hus, List.length_cons] at hf
    rw [h₂]
    omega
  refine Post.bind (h .line s₂ hs₂ hlen₂) fun c₃ s₃ h₃ => ?_
  obtain ⟨hs₃, ts, t, h₃, ht, hc₃⟩ := h₃
  have hlen₃ := length_rest_le h₃
  refine post_next .rparen hs₃ (by decide) (fun _ _ _ => post_halt.mpr (by decide)) fun _ _ vs s₅ hvs hs₅ h₅ => ?_
  have hlen₅ : (l.toks s₅).length < fuel := by
    rw [hvs, List.length_cons] at hlen₃
    rw [h₅]
    omega
  refine (parseredirs_sound hs₅ hc₃ hlen₅).mono fun c' s' h' => ?_
  obtain ⟨hs', _, _, h', ⟨rs, rfl, rfl⟩, hc'⟩ := h'
  refine ⟨hs', _, _, ?_, .block rs ht, hc'⟩
  rw [hus, ← h₂, h₃, hvs, ← h₅, h']
  simp

theorem parseexec_sound (hf : 4 * (l.toks s).length ≤ fuel) :
    Post (· ∈ panics) (l.parseexec (fuel + 2)) s (l.Parsed s (Derives .exec)) := by
  unfold parseexec
  refine post_peek hs (by decide) fun s₁ hs₁ h₁ => ?_
  cases hst : starts ['('] (l.toks s) with
  | true =>
    have hblock := parseblock_sound h hs₁ (by rwa [h₁])
    rwa [parsed_congr h₁] at hblock
  | false =>
    rw [if_neg Bool.false_ne_true]
    refine Post.bind (parseredirs_sound hs₁ (.exec .nil) (by rw [h₁]; omega)) fun c₂ s₂ h₂ => ?_
    obtain ⟨hs₂, _, _, h₂, ⟨rs, rfl, rfl⟩, hc₂⟩ := h₂
    have hlen₂ := length_rest_le h₂
    rw [h₁] at h₂ hlen₂
    have hargs := @parseargs_sound l c₂ s₂ (fuel + 1) [] rs hs₂ hc₂ (Nat.zero_le 9) (by omega)
    refine hargs.mono fun c' s' h' => ?_
    obtain ⟨hs', _, _, h', ⟨as, has, rfl, rfl⟩, hc'⟩ := h'
    refine ⟨hs', _, _, ?_, .simple rs as (by simpa using has), hc'⟩
    rw [h₂, h', List.append_assoc]

end Sound

theorem sound (fuel : Nat) : l.Sound fuel := by
  induction fuel using Nat.strong_induction_on with
  | _ fuel ih =>
    intro nt s hs hf
    cases nt with
    | line =>
      obtain ⟨f, rfl⟩ := fuel_succ hf
      exact parseline_sound (ih f (by omega)) hs (Nat.le_of_succ_le_succ hf)
    | pipe =>
      obtain ⟨f, rfl⟩ := fuel_succ hf
      exact parsepipe_sound (ih f (by omega)) hs (Nat.le_of_succ_le_succ hf)
    | exec =>
      obtain ⟨f, rfl⟩ : ∃ f, fuel = f + 2 := ⟨fuel - 2, by rw [Nonterminal.cost] at hf; omega⟩
      exact parseexec_sound (ih f (by omega)) hs (Nat.le_of_add_le_add_right hf)

end Line

end TweakedXv6.Shell

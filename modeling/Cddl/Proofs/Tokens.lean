import Cddl.Text.Blank
import Cddl.Proofs.Derivation
import Cddl.Proofs.Plain

/-!
The tokens of a tiling with their places, and tilings of what is left of a text when its front is
dropped.
-/
namespace Cddl

/-- The tokens tile the text between two offsets; blanks and comments may stand before each. -/
inductive Tokens (text : List Char) : Nat → List Token → Nat → Prop where
  | done (i) : Tokens text i [] i
  | token {i k n j t toks} : Ignored text i k → t.match? (text.drop k) = some n →
      Tokens text (k + n) toks j → Tokens text i (⟨t, k, k + n⟩ :: toks) j

def Token.slice (t : Token) (text : List Char) : List Char := (text.take t.stop).drop t.start

/-- The text is one rule, and these are its tokens. -/
def IsRuleOf (text : List Char) (toks : List Token) : Prop :=
  ∃ stop, Tokens text 0 toks stop ∧ Ignored text stop text.length ∧
    Derives [.nonterminal .rule] (toks.map Token.terminal)

variable {text : List Char} {i j k : Nat} {toks : List Token} {ts : List Terminal}

theorem Tokens.tiled (h : Tokens text i toks j) : Tiled text i (toks.map Token.terminal) j := by
  induction h with
  | done i => exact .done i
  | token hi ht _ ih => exact .token hi ht ih

theorem Tiled.exists_tokens (h : Tiled text i ts j) :
    ∃ toks, Tokens text i toks j ∧ toks.map Token.terminal = ts := by
  induction h with
  | done i => exact ⟨[], .done i, rfl⟩
  | token hi ht _ ih =>
    obtain ⟨toks, htoks, rfl⟩ := ih
    exact ⟨_, .token hi ht htoks, rfl⟩

theorem isRule_iff_tokens : IsRule text ↔ ∃ toks, IsRuleOf text toks := by
  constructor
  · rintro ⟨ts, stop, htiled, hend, hderives⟩
    obtain ⟨toks, htoks, rfl⟩ := htiled.exists_tokens
    exact ⟨toks, stop, htoks, hend, hderives⟩
  · rintro ⟨toks, stop, htoks, hend, hderives⟩
    exact ⟨_, stop, htoks.tiled, hend, hderives⟩

theorem Tokens.append {toks' : List Token} (h : Tokens text i toks j)
    (h' : Tokens text j toks' k) : Tokens text i (toks ++ toks') k := by
  induction h with
  | done => exact h'
  | token hi ht _ ih => exact .token hi ht (ih h')

theorem Tokens.split {before after : List Token} (h : Tokens text i (before ++ after) j) :
    ∃ k, Tokens text i before k ∧ Tokens text k after j := by
  induction before generalizing i with
  | nil => exact ⟨i, .done i, h⟩
  | cons t before ih =>
    cases h with
    | token hi ht hrest =>
      obtain ⟨k, hbefore, hafter⟩ := ih hrest
      exact ⟨k, .token hi ht hbefore, hafter⟩

theorem Ignored.drop (h : Ignored text i j) (hk : k ≤ i) :
    Ignored (text.drop k) (i - k) (j - k) := by
  induction h with
  | done => exact .done _
  | @next i n j hn _ ih =>
    refine .next (n := n) ?_ ?_
    · rwa [List.drop_drop, Nat.add_sub_cancel' hk]
    · rw [← Nat.sub_add_comm hk]
      exact ih (Nat.le_add_right_of_le hk)

theorem Tiled.drop (h : Tiled text i ts j) (hk : k ≤ i) :
    Tiled (text.drop k) (i - k) ts (j - k) := by
  induction h with
  | done => exact .done _
  | @token i m n j t ts hi ht _ ih =>
    have hm : k ≤ m := Nat.le_trans hk hi.le
    refine .token (n := n) (hi.drop hk) ?_ ?_
    · rwa [List.drop_drop, Nat.add_sub_cancel' hm]
    · rw [← Nat.sub_add_comm hm]
      exact ih (Nat.le_add_right_of_le hm)

/-- Blanks and comments in front of a rule can be left away. -/
theorem IsRuleOf.isRule_drop {first : Token} {rest : List Token}
    (h : IsRuleOf text (first :: rest)) : IsRule (text.drop first.start) := by
  obtain ⟨stop, htoks, hend, hderives⟩ := h
  cases htoks with
  | @token _ k n _ t _ hi ht hrest =>
    have hle : k ≤ stop := Nat.le_trans (Nat.le_add_right k n) hrest.tiled.le
    have htiled : Tiled text k (t :: rest.map Token.terminal) stop :=
      .token (.done k) ht hrest.tiled
    have hfront := htiled.drop (Nat.le_refl k)
    rw [Nat.sub_self] at hfront
    refine ⟨_, stop - k, hfront, ?_, hderives⟩
    rw [List.length_drop]
    exact hend.drop hle

/-! ### Blanks and comments -/

namespace Lexeme

theorem run_take {p : Char → Bool} {m : Nat} (h : run p text ≤ m) :
    run p (text.take m) = run p text := by
  rw [run, ← List.take_takeWhile, List.length_take]
  exact Nat.min_eq_right h

theorem ignored?_take {m n : Nat} (h : ignored? text = some n) (hm : n ≤ m) :
    ignored? (text.take m) = some n := by
  rcases ignored?_cases h with ⟨rest, rfl, rfl⟩ | ⟨hpos, rfl, hne⟩
  · obtain ⟨m, rfl⟩ : ∃ k, m = k + 1 := ⟨m - 1, by omega⟩
    rw [List.take_succ_cons, ignored?, run_take (by omega)]
  · have hne' : ∀ rest, text.take m ≠ ';' :: rest := by
      intro rest htake
      obtain ⟨r, hr⟩ := List.take_prefix m text
      rw [htake] at hr
      exact hne _ hr.symm
    rw [ignored?_of_ne hne', run?_eq_some_iff, run_take hm]
    exact ⟨rfl, hpos⟩

theorem isVoid_comment : Blank.isVoid true text =
    Blank.isVoid false (text.drop (run (· != '\n') text)) := by
  induction text with
  | nil => rfl
  | cons c rest ih =>
    by_cases hc : c = '\n'
    · subst hc
      rfl
    · have hrun : run (· != '\n') (c :: rest) = run (· != '\n') rest + 1 := by
        simp [run, hc]
      rw [hrun, List.drop_succ_cons, ← ih, Blank.isVoid, if_pos rfl, bne_iff_ne.mpr hc]

theorem isVoid_spaces {n : Nat} (h : ∀ c ∈ text.take n, isSpace c = true) :
    Blank.isVoid false text = Blank.isVoid false (text.drop n) := by
  induction n generalizing text with
  | zero => rfl
  | succ n ih =>
    cases text with
    | nil => rfl
    | cons c rest =>
      have hc := h c (by simp)
      rw [List.drop_succ_cons, ← ih fun d hd => h d (by simp [hd])]
      simp only [isSpace, Bool.or_eq_true, beq_iff_eq] at hc
      rcases hc with (((rfl | rfl) | rfl) | rfl) | rfl <;> rfl

theorem isVoid_ignored {n : Nat} (h : ignored? text = some n) :
    Blank.isVoid false text = Blank.isVoid false (text.drop n) := by
  rcases ignored?_cases h with ⟨rest, rfl, rfl⟩ | ⟨-, rfl, -⟩
  · exact isVoid_comment
  · exact isVoid_spaces fun c hc => of_mem_take_run hc

theorem ignored?_of_isSpace {c : Char} {rest : List Char} (hc : isSpace c = true) :
    ignored? (c :: rest) ≠ none := by
  have hne : ∀ r, c :: rest ≠ ';' :: r := by
    intro r heq
    obtain ⟨rfl, -⟩ := List.cons.inj heq
    contradiction
  rw [ignored?_of_ne hne, Ne, run?_eq_none_iff]
  simp [run, hc]

/-- A character that a token begins with is not ignored. -/
theorem ignored?_of_starts {t : Terminal} {c : Char} (rest : List Char) (h : t.starts c = true) :
    ignored? (c :: rest) = none := by
  have hstarts : [' ', '\t', '\x0c', '\r', '\n', ';'].any t.starts = false := by
    cases t <;> rfl
  have hchar : ∀ d ∈ [' ', '\t', '\x0c', '\r', '\n', ';'], c ≠ d := by
    rintro d hd rfl
    rw [List.any_eq_true.mpr ⟨c, hd, h⟩] at hstarts
    contradiction
  have hspace : isSpace c = false := by
    simp [isSpace, hchar]
  have hne : ∀ r, c :: rest ≠ ';' :: r := fun r heq =>
    hchar ';' (by decide) (List.cons.inj heq).1
  rw [ignored?_of_ne hne, run?_eq_none_iff]
  simp [run, hspace]

end Lexeme

theorem Ignored.take (h : Ignored text i k) : Ignored (text.take k) i k := by
  induction h with
  | done => exact .done _
  | @next i n j hn hrest ih =>
    have hle := hrest.le
    refine .next ?_ ih
    rw [List.drop_take]
    exact Lexeme.ignored?_take hn (by omega)

theorem Ignored.isVoid (h : Ignored text i k) :
    Blank.isVoid false (text.drop i) = Blank.isVoid false (text.drop k) := by
  induction h with
  | done => rfl
  | next hn _ ih => rw [Lexeme.isVoid_ignored hn, List.drop_drop, ih]

theorem Ignored.eq_of_visible (h : Ignored text i k) (hv : Lexeme.ignored? (text.drop i) = none) :
    k = i := by
  cases h with
  | done => rfl
  | next hn => simp [hv] at hn

/-- In a stretch that is not empty a character that is not ignored is the first one of a token. -/
theorem Tokens.cons_of_lt {c : Char} {rest : List Char} (h : Tokens text i toks j) (hij : i < j)
    (htext : text.drop i = c :: rest) (hv : Lexeme.ignored? (c :: rest) = none) :
    ∃ t n after, toks = ⟨t, i, i + n⟩ :: after ∧ t.match? (text.drop i) = some n ∧
      Tokens text (i + n) after j ∧ t.starts c = true := by
  rw [← htext] at hv
  cases h with
  | done => exact absurd hij (Nat.lt_irrefl i)
  | @token _ k n _ t after hi ht hafter =>
    obtain rfl := hi.eq_of_visible hv
    obtain ⟨d, r, hd, hstarts⟩ := Terminal.exists_starts ht
    rw [htext] at hd
    obtain ⟨rfl, -⟩ := List.cons.inj hd
    exact ⟨t, n, after, rfl, ht, hafter, hstarts⟩

/-- A character that is not ignored is the first one of a token. -/
theorem Tokens.cons_of_visible {c : Char} {rest : List Char} (h : Tokens text i toks j)
    (hend : Ignored text j text.length) (htext : text.drop i = c :: rest)
    (hv : Lexeme.ignored? (c :: rest) = none) :
    ∃ t n after, toks = ⟨t, i, i + n⟩ :: after ∧ t.match? (text.drop i) = some n ∧
      Tokens text (i + n) after j ∧ t.starts c = true := by
  rcases Nat.lt_or_eq_of_le h.tiled.le with hij | rfl
  · exact h.cons_of_lt hij htext hv
  · have hlen := hend.eq_of_visible (htext ▸ hv)
    rw [← hlen, List.drop_length] at htext
    contradiction

/-- What stands in front of the first token is void. -/
theorem Ignored.isVoid_take (h : Ignored text 0 k) : Blank.isVoid false (text.take k) = true := by
  have hvoid := h.take.isVoid
  rw [List.drop_zero, List.drop_eq_nil_of_le (List.length_take_le k text)] at hvoid
  exact hvoid

end Cddl

import Cddl.Proofs.Cut
import Cddl.Proofs.Recognition

/-!
Beginnings of rules. What an item of a text has read can always go on to a rule: every symbol
derives something, and what is derived can be written down in a new line, each token in a line of
its own, without a change to the tokens before it.
-/
namespace Cddl

/-! ### Every symbol derives something -/

theorem exists_derives_of {syms : List Symbol}
    (h : ∀ n, .nonterminal n ∈ syms → ∃ ts, Derives [.nonterminal n] ts) :
    ∃ ts, Derives syms ts := by
  induction syms with
  | nil => exact ⟨[], .done⟩
  | cons s syms ih =>
    obtain ⟨ts, hts⟩ := ih fun n hn => h n (List.mem_cons_of_mem _ hn)
    cases s with
    | terminal t => exact ⟨t :: ts, .terminal hts⟩
    | nonterminal n =>
      obtain ⟨us, hus⟩ := h n List.mem_cons_self
      exact ⟨us ++ ts, hus.append hts⟩

namespace Nonterminal

/-- A production that leads to terminals by the shortest way. -/
def least : Nonterminal → Production
  | rule => .rulePlain
  | params => .paramsOne
  | moreParams => .moreParamsOne
  | args => .argsOne
  | moreArgs => .moreArgsOne
  | type => .typeOne
  | alternatives => .alternativesOne
  | type1 => .type1Operand
  | operator => .operatorRange
  | type2 => .type2Any
  | typeName => .typeNamePlain
  | group => .groupOne
  | choices => .choicesOne
  | choice => .choiceEmpty
  | entries => .entriesOne
  | entry => .entryType
  | memberKey => .keyValue
  | bareword => .bareword
  | occur => .occur
  | value => .valueNumber

/-- How many steps lead to terminals. -/
def depth : Nonterminal → Nat
  | rule | entries => 4
  | entry => 3
  | type | args | moreArgs | alternatives => 2
  | type1 | group | choices | memberKey => 1
  | _ => 0

/-- What the symbol calls for in that production is less deep. -/
def falls (n : Nonterminal) : Symbol → Bool
  | .terminal _ => true
  | .nonterminal m => m.depth < n.depth

theorem least_falls (n : Nonterminal) : n.least.lhs = n ∧ n.least.rhs.all n.falls = true := by
  cases n <;> decide

theorem exists_derives (n : Nonterminal) : ∃ ts, Derives [.nonterminal n] ts := by
  induction hd : n.depth using Nat.strong_induction_on generalizing n with
  | _ d ih =>
    subst hd
    obtain ⟨hlhs, hfalls⟩ := n.least_falls
    obtain ⟨ts, hts⟩ := exists_derives_of fun m hm =>
      ih m.depth (of_decide_eq_true (List.all_eq_true.mp hfalls _ hm)) m rfl
    exact ⟨ts, hlhs ▸ .of_production _ hts⟩

end Nonterminal

theorem exists_derives (syms : List Symbol) : ∃ ts, Derives syms ts :=
  exists_derives_of fun n _ => n.exists_derives

theorem Edge.rest_of_next? {e : Edge} {s : Symbol} (h : e.next? = some s) :
    e.rest = s :: e.advance.rest := by
  obtain ⟨rest, hrest⟩ := List.head?_eq_some_iff.mp h
  rw [rest_advance, hrest, List.tail_cons]

/-- What an item has read goes on to a rule with whatever the symbols behind its dot derive. -/
theorem Item.viable {text : List Char} {k : Nat} {e : Edge} (h : Item text k e) :
    ∃ ts vs, Tiled text 0 ts k ∧
      ∀ us, Derives e.rest us → Derives [.nonterminal .rule] (ts ++ (us ++ vs)) := by
  induction h with
  | start p hp =>
    refine ⟨[], [], .done 0, fun us hus => ?_⟩
    rw [List.nil_append, List.append_nil]
    exact hp ▸ .of_production p hus
  | predict p _ hn ih =>
    obtain ⟨ts, vs, ht, hd⟩ := ih
    obtain ⟨xs, hxs⟩ := exists_derives (Edge.advance _).rest
    refine ⟨ts, xs ++ vs, ht, fun us hus => ?_⟩
    rw [← List.append_assoc us]
    refine hd _ ?_
    rw [Edge.rest_of_next? hn]
    exact .nonterminal p hus hxs
  | @scan i k n e t _ hn hi hm ih =>
    obtain ⟨ts, vs, ht, hd⟩ := ih
    refine ⟨ts ++ [t], vs, ht.append (.token hi hm (.done _)), fun us hus => ?_⟩
    rw [List.append_assoc]
    refine hd (t :: us) ?_
    rw [Edge.rest_of_next? hn]
    exact .terminal hus
  | @complete k j e p _ hn hp ih _ =>
    obtain ⟨ts, vs, ht, hd⟩ := ih
    obtain ⟨xs, hxs, hxt⟩ := hp.read
    rw [Edge.finished, List.take_length] at hxs
    refine ⟨ts ++ xs, vs, ht.append hxt, fun us hus => ?_⟩
    rw [List.append_assoc, ← List.append_assoc xs]
    refine hd _ ?_
    rw [Edge.rest_of_next? hn]
    exact .nonterminal p hxs hus

/-! ### Written out -/

namespace Terminal

/-- A short text that the terminal matches as a whole. -/
def sample : Terminal → List Char
  | name => ['a']
  | assign => ['=']
  | number => ['0']
  | text => ['"', '"']
  | bytes => ['\'', '\'']
  | occurrence => ['?']
  | range => ['.', '.']
  | control => ['.', 'a']
  | tag => ['#', '6']
  | major => ['#', '0']
  | groupChoice => ['/', '/']
  | arrow => ['=', '>']
  | openBrace => ['\x7b']
  | closeBrace => ['\x7d']
  | openParen => ['(']
  | closeParen => [')']
  | openBracket => ['[']
  | closeBracket => [']']
  | less => ['<']
  | greater => ['>']
  | comma => [',']
  | colon => [':']
  | slash => ['/']
  | tilde => ['~']
  | ampersand => ['&']
  | caret => ['^']
  | hash => ['#']

theorem match?_sample (t : Terminal) : t.match? t.sample = some t.sample.length := by
  cases t <;> rfl

theorem match?_sample_line (t : Terminal) (later : List Char) :
    t.match? (t.sample ++ '\n' :: later) = some t.sample.length := by
  have h : t.match? (t.sample ++ []) = some t.sample.length := by
    rw [List.append_nil]
    exact t.match?_sample
  exact match?_cut h (Nat.le_refl _)

end Terminal

/-- A text that spells the terminals, each in a line of its own. -/
def spell : List Terminal → List Char
  | [] => []
  | t :: ts => t.sample ++ '\n' :: spell ts

/-- The tokens of such a text where it begins at the offset `i`. -/
def spelled (i : Nat) : List Terminal → List Token
  | [] => []
  | t :: ts => ⟨t, i, i + t.sample.length⟩ :: spelled (i + t.sample.length + 1) ts

theorem map_spelled (i : Nat) (ts : List Terminal) : (spelled i ts).map Token.terminal = ts := by
  induction ts generalizing i with
  | nil => rfl
  | cons t ts ih => exact congrArg (t :: ·) (ih _)

theorem run_spell (ts : List Terminal) : Lexeme.run Lexeme.isSpace (spell ts) = 0 := by
  cases ts with
  | nil => rfl
  | cons t ts => cases t <;> rfl

/-- The tokens tile a text from an offset on, up to blanks and comments at its end. -/
def ReadsAs (text : List Char) (i : Nat) (toks : List Token) : Prop :=
  ∃ stop, Tokens text i toks stop ∧ Ignored text stop text.length

variable {text seen rest : List Char} {i j k : Nat} {e : Edge} {toks : List Token}

theorem ReadsAs.skip (h : ReadsAs text j toks) (hi : Ignored text i j) : ReadsAs text i toks := by
  obtain ⟨stop, htoks, hend⟩ := h
  cases htoks with
  | done => exact ⟨i, .done i, hi.trans hend⟩
  | token hi' hm hrest => exact ⟨stop, .token (hi.trans hi') hm hrest, hend⟩

theorem readsAs_spell (front : List Char) (ts : List Terminal) :
    ReadsAs (front ++ spell ts) front.length (spelled front.length ts) := by
  induction ts generalizing front with
  | nil =>
    rw [spell, List.append_nil]
    exact ⟨_, .done _, .done _⟩
  | cons t ts ih =>
    have hrec := ih (front ++ (t.sample ++ ['\n']))
    have htext : front ++ (t.sample ++ ['\n']) ++ spell ts = front ++ spell (t :: ts) := by
      simp [spell]
    have hlen : (front ++ (t.sample ++ ['\n'])).length = front.length + t.sample.length + 1 := by
      simp [Nat.add_assoc]
    rw [htext, hlen] at hrec
    -- the line feed behind the token is all that stands between it and the next one
    have hblank : Ignored (front ++ spell (t :: ts)) (front.length + t.sample.length)
        (front.length + t.sample.length + 1) := by
      refine .next (n := 1) ?_ (.done _)
      rw [← List.drop_drop, List.drop_left, spell, List.drop_left,
        Lexeme.ignored?_of_ne (by simp), Lexeme.run?_eq_some_iff, Lexeme.run_cons_pos rfl, run_spell]
      exact ⟨rfl, Nat.one_pos⟩
    obtain ⟨stop, htoks, hend⟩ := hrec.skip hblank
    refine ⟨stop, .token (.done _) ?_ htoks, hend⟩
    rw [List.drop_left]
    exact t.match?_sample_line _

/-- Tokens in front of a cut go on to a rule in a new line. -/
theorem isRuleOf_cut {us : List Terminal} (htoks : Tokens (seen ++ rest) 0 toks k)
    (hi : Ignored (seen ++ rest) k seen.length)
    (hd : Derives [.nonterminal .rule] (toks.map Token.terminal ++ us)) :
    IsRuleOf (seen ++ '\n' :: spell us) (toks ++ spelled (seen.length + 1) us) := by
  have hline : seen ++ '\n' :: spell us = (seen ++ ['\n']) ++ spell us := by simp
  have hspell := readsAs_spell (seen ++ ['\n']) us
  rw [← hline, List.length_append, List.length_singleton] at hspell
  obtain ⟨stop, htail, hend⟩ := hspell.skip (hi.cut (run_spell us))
  refine ⟨stop, (htoks.cut hi.le).append htail, hend, ?_⟩
  rw [List.map_append, map_spelled]
  exact hd

/-! ### Valid beginnings -/

/-- Behind the text a new line can go on so that the whole is a rule. -/
def Viable (front : List Char) : Prop := ∃ w, IsRule (front ++ '\n' :: w)

/-- Behind the text a new line can begin with a match of the terminal, as a token of a rule that
the whole then is. -/
def ViableWith (front : List Char) (t : Terminal) : Prop :=
  ∃ lexeme w toks, t.match? lexeme = some lexeme.length ∧
    IsRuleOf (front ++ '\n' :: (lexeme ++ w)) toks ∧
    ⟨t, front.length + 1, front.length + 1 + lexeme.length⟩ ∈ toks

theorem ViableWith.viable {front : List Char} {t : Terminal} (h : ViableWith front t) :
    Viable front := by
  obtain ⟨lexeme, w, toks, -, hrule, -⟩ := h
  exact ⟨_, isRule_iff_tokens.mpr ⟨toks, hrule⟩⟩

/-- What an item has read, and the blanks behind it, go on with what the item calls for. -/
theorem Item.continues {us : List Terminal} (h : Item text k e) (hi : Ignored text k i)
    (hlen : i ≤ text.length) (hus : Derives e.rest us) :
    ∃ toks vs, IsRuleOf (text.take i ++ '\n' :: spell (us ++ vs))
      (toks ++ spelled (i + 1) (us ++ vs)) := by
  obtain ⟨ts, vs, ht, hd⟩ := h.viable
  obtain ⟨toks, htoks, rfl⟩ := ht.exists_tokens
  have hseen : (text.take i).length = i := List.length_take_of_le hlen
  rw [← List.take_append_drop i text] at htoks hi
  have hrule := isRuleOf_cut htoks (hseen.symm ▸ hi) (hd us hus)
  rw [hseen] at hrule
  exact ⟨toks, vs, hrule⟩

theorem Waits.viableWith {w : Waiting} {t : Terminal} (h : Waits text i w)
    (ht : w.edge.next? = some (.terminal t)) (hlen : i ≤ text.length) :
    ViableWith (text.take i) t := by
  obtain ⟨xs, hxs⟩ := exists_derives w.edge.advance.rest
  have hus : Derives w.edge.rest (t :: xs) := by
    rw [Edge.rest_of_next? ht]
    exact .terminal hxs
  obtain ⟨toks, vs, hrule⟩ := h.item.continues h.ignored hlen hus
  refine ⟨t.sample, '\n' :: spell (xs ++ vs), _, t.match?_sample, hrule, ?_⟩
  rw [List.length_take_of_le hlen]
  exact List.mem_append_right _ List.mem_cons_self

theorem EndsAt.viable (h : EndsAt text k i) (hlen : i ≤ text.length) : Viable (text.take i) := by
  obtain ⟨⟨p, -, hitem⟩, hi⟩ := h
  have hus : Derives (Edge.finished 0 p).rest [] := by
    rw [Edge.rest_finished]
    exact .done
  obtain ⟨toks, vs, hrule⟩ := hitem.continues hi hlen hus
  exact ⟨_, isRule_iff_tokens.mpr ⟨_, hrule⟩⟩

end Cddl

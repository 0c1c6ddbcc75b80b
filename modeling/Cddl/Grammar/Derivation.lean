import Cddl.Grammar.Production

/-!
What it means for a text to be a rule, without reference to a chart: matches of terminals tile the
text from left to right, with blanks and comments between them, and the sequence of their terminals
is derived by the grammar.
-/
namespace Cddl

/-- A sequence of symbols derives a sequence of terminals. -/
inductive Derives : List Symbol → List Terminal → Prop where
  | done : Derives [] []
  | terminal {t rest ts} : Derives rest ts → Derives (.terminal t :: rest) (t :: ts)
  | nonterminal {rest us ts} (p : Production) : Derives p.rhs us → Derives rest ts →
      Derives (.nonterminal p.lhs :: rest) (us ++ ts)

/-- The text between two offsets is blanks and comments, each taken whole. -/
inductive Ignored (text : List Char) : Nat → Nat → Prop where
  | done (i) : Ignored text i i
  | next {i n j} : Lexeme.ignored? (text.drop i) = some n → Ignored text (i + n) j →
      Ignored text i j

/-- Matches of the terminals tile the text between two offsets; blanks and comments may stand
before each of them. -/
inductive Tiled (text : List Char) : Nat → List Terminal → Nat → Prop where
  | done (i) : Tiled text i [] i
  | token {i k n j t ts} : Ignored text i k → t.match? (text.drop k) = some n →
      Tiled text (k + n) ts j → Tiled text i (t :: ts) j

/-- The text is one rule, perhaps with blanks and comments behind it. -/
def IsRule (text : List Char) : Prop :=
  ∃ ts stop, Tiled text 0 ts stop ∧ Ignored text stop text.length ∧
    Derives [.nonterminal .rule] ts

theorem Derives.append {a b us ts} (ha : Derives a us) (hb : Derives b ts) :
    Derives (a ++ b) (us ++ ts) := by
  induction ha with
  | done => exact hb
  | terminal _ ih => exact .terminal ih
  | nonterminal p hp _ _ ih =>
    rw [List.append_assoc]
    exact .nonterminal p hp ih

theorem Derives.of_production (p : Production) {ts} (h : Derives p.rhs ts) :
    Derives [.nonterminal p.lhs] ts := by
  have := Derives.nonterminal p h .done
  rwa [List.append_nil] at this

theorem Ignored.trans {text i j k} (h : Ignored text i j) (h' : Ignored text j k) :
    Ignored text i k := by
  induction h with
  | done => exact h'
  | next hn _ ih => exact .next hn (ih h')

theorem Ignored.le {text i j} (h : Ignored text i j) : i ≤ j := by
  induction h with
  | done => exact Nat.le_refl _
  | next _ _ ih => omega

theorem Tiled.append {text i ts j us k} (h : Tiled text i ts j) (h' : Tiled text j us k) :
    Tiled text i (ts ++ us) k := by
  induction h with
  | done => exact h'
  | token hi ht _ ih => exact .token hi ht (ih h')

theorem Tiled.le {text i ts j} (h : Tiled text i ts j) : i ≤ j := by
  induction h with
  | done => exact Nat.le_refl _
  | token hi _ _ ih =>
    have := hi.le
    omega

end Cddl

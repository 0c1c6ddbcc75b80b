import Cddl.Document.Rule
import Cddl.Text.Word

/-!
From a word to its declaration: the name of a rule, or a parameter that a type rule lists. Rules
are searched in order, the name of a rule before its parameters.
-/
namespace Cddl

structure Location where
  uri : String
  range : Range
deriving DecidableEq, Repr

namespace Declaration

/-- The names that a rule declares. -/
def names (r : Rule) : List Name := r.name :: r.params

def find? (rules : List Rule) (ident : String) : Option Span :=
  ((rules.flatMap names).find? (·.ident == ident)).map (·.span)

/-- The place of the declaration in the text, which may have changed since the rules were read. -/
def locate? (text : List Char) (uri : String) (rules : List Rule) (ident : String) :
    Option Location :=
  ((find? rules ident).filter (·.fits text)).map fun s => ⟨uri, s.range text⟩

/-- The declaration of the word at a position; without rules there is none. -/
def at? (text : List Char) (p : Position) (uri : String) (rules? : Option (List Rule)) :
    Option Location := do
  let rules ← rules?
  let ident ← Word.atPosition? text p
  locate? text uri rules ident

end Declaration

end Cddl

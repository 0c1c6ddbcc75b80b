import Cddl.Document.Rule
import Cddl.Text.Position

/-!
The outline of a document: a symbol for each rule, with the parameters of a type rule below it.
What no longer fits the text is left out.
-/
namespace Cddl

inductive SymbolKind where
  | type | group | parameter
deriving DecidableEq, Repr

namespace SymbolKind

/-- The number that the protocol gives to a class, a structure and a type parameter. -/
def code : SymbolKind → Nat
  | type => 5
  | group => 23
  | parameter => 26

end SymbolKind

/-- A name in an outline, with the range of all that belongs to it. -/
structure OutlineEntry where
  name : String
  kind : SymbolKind
  range : Range
  selection : Range
deriving DecidableEq, Repr

/-- An entry for a rule and the entries below it, if there are any. -/
structure OutlineRule where
  entry : OutlineEntry
  children : Option (List OutlineEntry)
deriving DecidableEq, Repr

namespace Outline

def kindOf : Rule → SymbolKind
  | .type _ _ _ => .type
  | .group _ _ => .group

def ofParam (text : List Char) (n : Name) : OutlineEntry :=
  ⟨n.ident, .parameter, n.span.range text, n.span.range text⟩

/-- The parameters that fit the text; an empty list is none at all. -/
def childrenOf (text : List Char) (r : Rule) : Option (List OutlineEntry) :=
  match (r.params.filter (·.span.fits text)).map (ofParam text) with
  | [] => none
  | entries => some entries

def isShown (text : List Char) (r : Rule) : Bool := r.span.fits text && r.name.span.fits text

def ofRule (text : List Char) (r : Rule) : OutlineRule :=
  ⟨⟨r.name.ident, kindOf r, r.span.range text, r.name.span.range text⟩, childrenOf text r⟩

/-- The outline by the rules of an earlier analysis; without one it is empty. -/
def ofRules (text : List Char) (rules? : Option (List Rule)) : List OutlineRule :=
  ((rules?.getD []).filter (isShown text)).map (ofRule text)

end Outline

end Cddl

import Cddl.Text.Blank
import Cddl.Text.Quoted
import Cddl.Text.Span
import Cddl.Grammar.Terminal

/-!
What is wrong with a document, and where. A problem keeps its cause; the wording is given here
once. Expected terminals go by their labels, so that a label of no terminal can be shown too.
-/
namespace Cddl

namespace Expectation

/-- The readable name of a label. A label of no terminal stands for itself, unless it is marked as
internal by two low lines. -/
def readable? (label : String) : Option String :=
  match Terminal.ofLabel? label with
  | some t => some t.description
  | none => if ['_', '_'].isPrefixOf label.toList then none else some label

/-- Puts a string in its place in a sorted list, unless it is there. -/
def insertSorted (s : String) : List String → List String
  | [] => [s]
  | t :: rest =>
    if s < t then s :: t :: rest
    else if s = t then t :: rest
    else t :: insertSorted s rest

/-- The distinct readable names of some labels, in the order of code points. -/
def names (labels : List String) : List String :=
  (labels.filterMap readable?).foldr insertSorted []

/-- Names in one phrase: commas between them, and a word before the last. -/
def phrase : List String → Option String
  | [] => none
  | [s] => some s
  | [s, t] => some (s ++ " ou " ++ t)
  | s :: rest => (phrase rest).map (s ++ ", " ++ ·)

def describe? (labels : List String) : Option String := phrase (names labels)

end Expectation

inductive Cause where
  | unexpectedCharacter (c : Char) (expected : List String)
  | unexpectedEnd (expected : List String)
  | malformed
  | undefinedName (ident : String)
deriving DecidableEq, Repr

namespace Cause

/-- What is wrong, in one line. -/
def headline : Cause → String
  | unexpectedCharacter c _ =>
    "Caractere inesperado " ++ String.ofList (Quoted.encode [c])
  | unexpectedEnd _ => "Regra incompleta: fim inesperado"
  | malformed => "Erro de sintaxe"
  | undefinedName ident => "definição ausente para a regra '" ++ ident ++ "'"

def expected : Cause → List String
  | unexpectedCharacter _ expected => expected
  | unexpectedEnd expected => expected
  | _ => []

def message (c : Cause) : String :=
  match (Expectation.describe? c.expected).filter (· != "") with
  | none => c.headline
  | some phrase => c.headline ++ "\n\nEsperado: " ++ phrase

end Cause

structure Problem where
  cause : Cause
  span : Span
deriving DecidableEq, Repr

namespace Problem

def message (p : Problem) : String := p.cause.message

/-- A character, at a place counted from the start of its chunk, on which no reading goes on. -/
def unexpected (offset : Int) (c : Char) (place : Int) (expected : List String) : Problem :=
  ⟨.unexpectedCharacter c expected, ⟨offset + place, offset + place + 1⟩⟩

/-- A chunk that ends too early. The problem is shown behind its last character that is no white
space, as far as the chunk reaches. -/
def incomplete (offset : Int) (chunk : List Char) (expected : List String) : Problem :=
  let stop := offset + (Blank.trimEnd chunk).length
  ⟨.unexpectedEnd expected, ⟨stop, min (stop + 1) (offset + chunk.length)⟩⟩

/-- A chunk that is wrong for no known reason, at a place that may be unknown or out of order. -/
def malformed (offset : Int) (chunk : List Char) (place : Option Int) : Problem :=
  let start := offset + max (place.getD 0) 0
  ⟨.malformed, ⟨start, min (start + 1) (offset + chunk.length)⟩⟩

end Problem

end Cddl

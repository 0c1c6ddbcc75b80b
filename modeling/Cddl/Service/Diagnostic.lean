import Cddl.Json
import Cddl.Text.Position
import Cddl.Document.Problem

/-!
Diagnostics: problems as an editor shows them. A report that cannot be placed, like any failure of
the server itself, becomes a diagnostic at the beginning of the document.
-/
namespace Cddl

/-- A finding on its way to an editor. -/
structure Report where
  message : String
  span : Option Span
deriving DecidableEq, Repr

def Problem.report (p : Problem) : Report := ⟨p.message, some p.span⟩

structure Diagnostic where
  range : Range
  source : String
  message : String
deriving DecidableEq, Repr

namespace Diagnostic

/-- Every diagnostic is an error, the most severe kind. -/
def severity (_ : Diagnostic) : Nat := 1

def placed (text : List Char) (message : String) (s : Span) : Diagnostic :=
  ⟨s.range text, "cddl", message⟩

/-- A failure of the server itself. -/
def internal (failure : String) : Diagnostic :=
  ⟨⟨.origin, ⟨0, 1⟩⟩, "cddl-lsp", "Erro interno ao validar documento: " ++ failure⟩

/-- The text of a failure: its message, if it has one that says anything, or else its own text. -/
def failureText (text : String) (message : Option Json) : String :=
  match message with
  | some v => if v.isVoid then text else v.display
  | none => text

def ofReport (text : List Char) (r : Report) : Diagnostic :=
  match r.span with
  | some s => placed text r.message s
  | none => internal "'NoneType' object has no attribute 'start'"

/-- The first `cap` elements; a negative cap drops as many from the end. -/
def capped {α : Type} (cap : Int) (l : List α) : List α :=
  if 0 ≤ cap then l.take cap.toNat else l.take (l.length - cap.natAbs)

def ofReports (text : List Char) (cap : Int) (reports : List Report) : List Diagnostic :=
  (capped cap reports).map (ofReport text)

def ofProblems (text : List Char) (cap : Int) (problems : List Problem) : List Diagnostic :=
  ofReports text cap (problems.map Problem.report)

end Diagnostic

end Cddl

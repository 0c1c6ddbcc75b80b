import Cddl.Json

/-!
The settings of a server, read from whatever JSON a client sends. A value that is missing or makes
no sense leaves its own setting at the default, and no other.
-/
namespace Cddl

structure Settings where
  maxProblems : Int
  validate : Bool
deriving DecidableEq, Repr

namespace Settings

def default : Settings := ⟨1000, true⟩

/-- The cap on reported problems: a positive integer. -/
def readMaxProblems : Option Json → Int
  | some (.int n) => if 0 < n then n else default.maxProblems
  | _ => default.maxProblems

/-- The switch for validation, a member of an object of its own. -/
def readValidate (v : Option Json) : Bool :=
  match v.bind (Json.member? "enabled") with
  | some (.bool b) => b
  | _ => default.validate

def ofSection (v : Json) : Settings :=
  ⟨readMaxProblems (v.member? "maxNumberOfProblems"), readValidate (v.member? "validation")⟩

/-- The section may stand by itself or as a member named for the language. -/
def ofJson (v : Json) : Settings := ofSection ((v.member? "cddl").getD v)

end Settings

end Cddl

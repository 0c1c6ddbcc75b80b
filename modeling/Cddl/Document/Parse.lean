import Cddl.Document.Chunk
import Cddl.Document.Problem
import Cddl.Document.Rule
import Cddl.Reference.Prelude

/-!
The analysis of a document. Each chunk is read on its own, so that every broken one is reported;
names are resolved only when no chunk is broken. A name may be defined anywhere in the document,
be a parameter of its own rule, belong to the prelude, or be a socket, which stays open.
-/
namespace Cddl

namespace Rejection

/-- The problem that a rejected chunk gives rise to. -/
def problem (chunk : List Char) (offset : Nat) : Rejection → Problem
  | unexpected place c expected => .unexpected offset c place (expected.map Terminal.label)
  | incomplete expected => .incomplete offset chunk (expected.map Terminal.label)

end Rejection

namespace Document

def isSocket (ident : String) : Bool := ident.toList.head? == some '$'

/-- The definition that a chunk holds, or what is wrong with the chunk. -/
def readChunk (text : List Char) (c : Chunk) : Except Problem Definition :=
  let chunk := c.slice text
  match Tree.ofText chunk with
  | .error r => .error (r.problem chunk c.start)
  | .ok tree =>
    match Definition.ofTree? chunk c.start tree with
    | some d => .ok d
    | none => .error (.malformed c.start chunk none)

/-- The names that the definitions use and that nothing defines. -/
def unresolved (definitions : List Definition) : List Name :=
  let defined := definitions.map (·.rule.name.ident)
  definitions.flatMap fun d => d.references.filter fun r =>
    !(defined.contains r.ident || d.params.any (·.ident == r.ident) ||
      Reference.isPreludeName r.ident || isSocket r.ident)

/-- What each chunk of a text holds. -/
def readings (text : List Char) : List (Except Problem Definition) :=
  (Chunk.split text).map (readChunk text)

/-- The definitions of the chunks that can be read. -/
def definitions (readings : List (Except Problem Definition)) : List Definition :=
  readings.filterMap fun
    | .error _ => none
    | .ok d => some d

/-- The problems of the chunks that cannot be read. -/
def broken (readings : List (Except Problem Definition)) : List Problem :=
  readings.filterMap fun
    | .error p => some p
    | .ok _ => none

def problems (readings : List (Except Problem Definition)) : List Problem :=
  match broken readings with
  | [] => (unresolved (definitions readings)).map fun r => ⟨.undefinedName r.ident, r.span⟩
  | found => found

def resolve (readings : List (Except Problem Definition)) : Except (List Problem) (List Rule) :=
  match problems readings with
  | [] => .ok ((definitions readings).map (·.rule))
  | found => .error found

/-- The rules of a document in order, or all that is wrong with it, by offset. -/
def parse (text : List Char) : Except (List Problem) (List Rule) := resolve (readings text)

end Document

end Cddl

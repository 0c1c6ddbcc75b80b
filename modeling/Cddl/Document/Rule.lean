import Cddl.Text.Span
import Cddl.Grammar.Tree

/-!
Rules as the services see them: a kind, names and spans. Spans count from the start of the
document, while the tokens of a tree count from the start of its chunk.
-/
namespace Cddl

structure Name where
  ident : String
  span : Span
deriving DecidableEq, Repr

/-- A rule for a type, with the parameters it lists, or for a group. -/
inductive Rule where
  | type (name : Name) (span : Span) (params : Option (List Name))
  | group (name : Name) (span : Span)
deriving DecidableEq, Repr

namespace Rule

def name : Rule → Name
  | type name _ _ => name
  | group name _ => name

def span : Rule → Span
  | type _ span _ => span
  | group _ span => span

/-- The parameters that can be looked up; a group rule shows none. -/
def params : Rule → List Name
  | type _ _ params => params.getD []
  | group _ _ => []

end Rule

/-- How a rule is given its content. -/
inductive Assignment where
  | define | addType | addGroup
deriving DecidableEq, Repr

def Assignment.ofChars : List Char → Assignment
  | ['/', '/', '='] => addGroup
  | ['/', '='] => addType
  | _ => define

/-- A rule together with the names that its content uses, and the parameters that these may mean. -/
structure Definition where
  rule : Rule
  params : List Name
  references : List Name
deriving DecidableEq, Repr

namespace Definition

/-- The name that a token of a chunk spells, placed in a document where the chunk starts at
`offset`. -/
def nameOf (chunk : List Char) (offset : Nat) (t : Token) : Name :=
  let s : Span := ⟨t.start, t.stop⟩
  ⟨String.ofList (s.slice chunk), s.shift offset⟩

/-- Only the adding assignments fix the kind; a plain assignment makes a type rule if its content
is a type. -/
def isGroup (a : Assignment) (content : Tree) : Bool :=
  match a with
  | .addGroup => true
  | .addType => false
  | .define => !content.isPlainType

def build (chunk : List Char) (offset : Nat) (name assign : Token) (params : Option Tree)
    (content : Tree) : Definition :=
  let place := nameOf chunk offset
  let params := params.map fun t => (t.tokens.filter (·.terminal = .name)).map place
  let stop := (content.tokens.getLast?.getD assign).stop
  let span := (⟨name.start, stop⟩ : Span).shift offset
  let a := Assignment.ofChars ((⟨assign.start, assign.stop⟩ : Span).slice chunk)
  { rule :=
      if isGroup a content then .group (place name) span else .type (place name) span params
    params := params.getD []
    references := content.references.map place }

/-- The definition that a tree for a rule stands for. -/
def ofTree? (chunk : List Char) (offset : Nat) : Tree → Option Definition
  | .node .ruleGeneric [.leaf name, params, .leaf assign, content] =>
    some (build chunk offset name assign (some params) content)
  | .node .rulePlain [.leaf name, .leaf assign, content] =>
    some (build chunk offset name assign none content)
  | _ => none

end Definition

end Cddl

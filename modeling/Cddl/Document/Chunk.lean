import Cddl.Text.Blank
import Cddl.Text.Span
import Cddl.Grammar.Lexeme
import Cddl.Document.Literal

/-!
The division of a document into chunks, one for each rule. A rule begins in the first column with
the head of an assignment, outside brackets, comments and quoted literals; every other line goes
on with the rule before it. What stands before the first rule is a chunk of its own, unless it is
white space and comments.
-/
namespace Cddl

/-- A stretch of a document. -/
structure Chunk where
  start : Nat
  stop : Nat
deriving DecidableEq, Repr

namespace Chunk

def isInlineBlank (c : Char) : Bool := c == ' ' || c == '\t'

/-- An assignment sign; an arrow is none. -/
def isAssignment : List Char → Bool
  | '/' :: '/' :: '=' :: _ => true
  | '/' :: '=' :: _ => true
  | '=' :: '>' :: _ => false
  | '=' :: _ => true
  | _ => false

/-- The text without a parameter list at its front; nothing if such a list stays open. -/
def dropParams? : List Char → Option (List Char)
  | '<' :: rest =>
    match rest.dropWhile fun c => c != '<' && c != '>' && c != '\n' with
    | '>' :: rest => some rest
    | _ => none
  | text => some text

/-- The text begins with a name, perhaps with parameters, and an assignment sign. -/
def isHead (text : List Char) : Bool :=
  match Lexeme.name? text with
  | none => false
  | some n =>
    match dropParams? ((text.drop n).dropWhile isInlineBlank) with
    | none => false
    | some rest => isAssignment (rest.dropWhile isInlineBlank)

/-- The number of characters behind `c` that are passed over unread. -/
def unread (c : Char) (rest : List Char) : Nat :=
  if c = ';' then Lexeme.run (· != '\n') rest
  else if c = '"' ∨ c = '\'' then Literal.tail c rest
  else 0

/-- The number of open brackets behind `c`; a closing bracket too many is ignored. -/
def depthAfter (c : Char) (depth : Nat) : Nat :=
  if c = '(' ∨ c = '\x7b' ∨ c = '[' then depth + 1
  else if c = ')' ∨ c = '\x7d' ∨ c = ']' then depth - 1
  else depth

/-- The offsets at which rules begin, from the offset `i` on; `skip` characters are passed over
first, `depth` brackets are open, and `lineStart` says that `i` is in the first column. -/
def heads : (skip depth : Nat) → (lineStart : Bool) → (i : Nat) → List Char → List Nat
  | _, _, _, _, [] => []
  | skip + 1, depth, lineStart, i, _ :: rest => heads skip depth lineStart (i + 1) rest
  | 0, depth, lineStart, i, c :: rest =>
    (if lineStart && depth == 0 && isHead (c :: rest) then [i] else []) ++
      heads (unread c rest) (depthAfter c depth) (c == '\n') (i + 1) rest

/-- The offsets at which chunks begin. -/
def starts (text : List Char) : List Nat :=
  let rules := heads 0 0 true 0 text
  let before := text.take (rules.headD text.length)
  if Blank.isVoid false before then rules else 0 :: rules

/-- The chunks between successive starts, the last one up to `stop`. -/
def between (stop : Nat) : List Nat → List Chunk
  | [] => []
  | [start] => [⟨start, stop⟩]
  | start :: next :: rest => ⟨start, next⟩ :: between stop (next :: rest)

def split (text : List Char) : List Chunk := between text.length (starts text)

def span (c : Chunk) : Span := ⟨c.start, c.stop⟩

def slice (c : Chunk) (text : List Char) : List Char := (text.take c.stop).drop c.start

end Chunk

end Cddl

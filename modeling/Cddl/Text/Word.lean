import Cddl.Text.Position

/-!
The word under a cursor: the run of characters around an offset, found without reading the
document as rules. The two directions stop at different characters, because a word may follow
an opening brace directly and be followed by a comma.
-/
namespace Cddl.Word

def stopsLeft (c : Char) : Bool :=
  c == ' ' || c == '<' || c == '>' || c == '\x7b' || c == '\x7d' || c == '\n' || c == '\r'

def stopsRight (c : Char) : Bool :=
  c == ' ' || c == ',' || c == '<' || c == '>' || c == '\x7d' || c == '\n' || c == '\r'

/-- The number of characters of the word up to and including the one under the cursor. -/
def leftReach (text : List Char) (offset : Nat) : Nat :=
  ((text.take (offset + 1)).reverse.takeWhile (!stopsLeft ·)).length

/-- The number of characters of the word from the one under the cursor on. -/
def rightReach (text : List Char) (offset : Nat) : Nat :=
  ((text.drop offset).takeWhile (!stopsRight ·)).length

/-- The word around an offset of the text, or nothing on a space and where no character is left
between the two stops. -/
def around? (text : List Char) (offset : Nat) : Option Span :=
  let start := min (offset + 1) text.length - leftReach text offset
  let stop := offset + rightReach text offset
  if text[offset]? = some ' ' then none
  else if start < stop then some ⟨start, stop⟩
  else none

/-- The word around any integer offset; outside the text there is none. -/
def bounds? (text : List Char) (offset : Int) : Option Span :=
  if offset < 0 ∨ (text.length : Int) < offset then none else around? text offset.toNat

def atOffset? (text : List Char) (offset : Int) : Option String :=
  (bounds? text offset).map fun s => String.ofList (s.slice text)

def atPosition? (text : List Char) (p : Position) : Option String :=
  (p.toOffset? text).bind fun offset => atOffset? text offset

end Cddl.Word

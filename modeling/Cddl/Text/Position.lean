import Cddl.Text.Span

/-!
Positions as an editor counts them: a line number, and a column in UTF-16 units. An offset
outside the text is moved to its nearest end; a position on no line of the text has no offset,
and a column past the end of its line means that end.
-/
namespace Cddl

structure Position where
  line : Int
  character : Int
deriving DecidableEq, Repr

/-- The UTF-16 units of one character. -/
def utf16Width (c : Char) : Nat := if c.val > 0xFFFF then 2 else 1

namespace Position

def origin : Position := ⟨0, 0⟩

/-- The position behind `c`, for a `c` that stands at the given position. -/
def step (p : Position) (c : Char) : Position :=
  if c = '\n' then ⟨p.line + 1, 0⟩ else ⟨p.line, p.character + utf16Width c⟩

/-- The position behind a whole text. -/
def behind (text : List Char) : Position := text.foldl step origin

def ofOffset (text : List Char) (offset : Int) : Position := behind (text.take offset.toNat)

/-- The number of characters, of the line that starts here, before the column is reached. -/
def column : List Char → Int → Nat
  | [], _ => 0
  | c :: rest, units =>
    if c = '\n' ∨ units ≤ 0 then 0 else column rest (units - utf16Width c) + 1

/-- The offset of a column that lies a number of lines further down. -/
def below : List Char → Nat → Int → Option Nat
  | text, 0, units => some (column text units)
  | [], _ + 1, _ => none
  | c :: rest, line + 1, units =>
    (below rest (if c = '\n' then line else line + 1) units).map (· + 1)

/-- The offset of a position, or nothing where the text has no such line. -/
def toOffset? (text : List Char) (p : Position) : Option Nat :=
  if p.line < 0 ∨ p.character < 0 then none else below text p.line.toNat p.character

theorem behind_append (a b : List Char) : behind (a ++ b) = b.foldl step (behind a) := by
  simp [behind]

end Position

/-- Two positions, the second not included. -/
structure Range where
  start : Position
  stop : Position
deriving DecidableEq, Repr

def Span.range (s : Span) (text : List Char) : Range :=
  ⟨.ofOffset text s.start, .ofOffset text s.stop⟩

end Cddl

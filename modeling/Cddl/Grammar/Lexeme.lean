/-!
The written forms of tokens. Each form is read greedily from the front of a text, and a reader
answers with the number of characters it takes: a form has at most one match at a place, never a
shorter one. Letters and digits are those of ASCII.
-/
namespace Cddl.Lexeme

def isNameStart (c : Char) : Bool := c.isAlpha || c == '@' || c == '_' || c == '$'

def isNameChar (c : Char) : Bool := isNameStart c || c.isDigit

/-- A character that may stand inside a name, but not end it. -/
def isJoint (c : Char) : Bool := c == '-' || c == '.'

/-- The length of the longest continuation of a name; the last character taken is no joint. -/
def nameTail : List Char → Nat
  | [] => 0
  | c :: rest =>
    if isNameChar c then nameTail rest + 1
    else if isJoint c then
      match nameTail rest with
      | 0 => 0
      | n + 1 => n + 2
    else 0

def name? : List Char → Option Nat
  | c :: rest => if isNameStart c then some (nameTail rest + 1) else none
  | [] => none

/-- The length of the longest run of characters of one class. -/
def run (p : Char → Bool) (text : List Char) : Nat := (text.takeWhile p).length

/-- A run that is not empty. -/
def run? (p : Char → Bool) (text : List Char) : Option Nat :=
  if run p text = 0 then none else some (run p text)

def isHexDigit (c : Char) : Bool := c.isDigit || ('a' ≤ c && c ≤ 'f') || ('A' ≤ c && c ≤ 'F')

def isBinaryDigit (c : Char) : Bool := c == '0' || c == '1'

/-- A point and digits, or nothing: a point without digits is left to what follows. -/
def fraction : List Char → Nat
  | '.' :: rest => ((run? Char.isDigit rest).map (· + 1)).getD 0
  | _ => 0

/-- The digits of an exponent with their sign. -/
def signedDigits? : List Char → Option Nat
  | c :: rest =>
    if c = '+' ∨ c = '-' then (run? Char.isDigit rest).map (· + 1)
    else run? Char.isDigit (c :: rest)
  | [] => none

/-- The mark of an exponent and its digits, or nothing. -/
def exponent : List Char → Nat
  | c :: rest =>
    if c = 'e' ∨ c = 'E' then ((signedDigits? rest).map (· + 1)).getD 0 else 0
  | [] => 0

def decimal? (text : List Char) : Option Nat :=
  (run? Char.isDigit text).map fun digits =>
    let whole := digits + fraction (text.drop digits)
    whole + exponent (text.drop whole)

/-- A number without sign. A base mark that no digit of its base follows is no base mark, and
the zero before it stands alone. -/
def unsigned? : List Char → Option Nat
  | '0' :: 'x' :: rest => ((run? isHexDigit rest).map (· + 2)).or (decimal? ('0' :: 'x' :: rest))
  | '0' :: 'b' :: rest => ((run? isBinaryDigit rest).map (· + 2)).or (decimal? ('0' :: 'b' :: rest))
  | text => decimal? text

def number? : List Char → Option Nat
  | '-' :: rest => (unsigned? rest).map (· + 1)
  | text => unsigned? text

/-- The rest of a quoted literal, its closing quote included. A reverse solidus takes the next
character with it, which must not be a line feed; a bare line feed is allowed. -/
def literalTail? (quote : Char) : List Char → Option Nat
  | [] => none
  | c :: rest =>
    if c = quote then some 1
    else if c = '\\' then
      match rest with
      | [] => none
      | d :: rest => if d = '\n' then none else (literalTail? quote rest).map (· + 2)
    else (literalTail? quote rest).map (· + 1)

def text? : List Char → Option Nat
  | '"' :: rest => (literalTail? '"' rest).map (· + 1)
  | _ => none

/-- A byte string between apostrophes; `h` and `b64` before it are part of it. -/
def bytes? : List Char → Option Nat
  | '\'' :: rest => (literalTail? '\'' rest).map (· + 1)
  | 'h' :: '\'' :: rest => (literalTail? '\'' rest).map (· + 2)
  | 'b' :: '6' :: '4' :: '\'' :: rest => (literalTail? '\'' rest).map (· + 4)
  | _ => none

/-- A star with an optional bound on each side, a plus sign or a question mark. -/
def occurrence? (text : List Char) : Option Nat :=
  let lower := run Char.isDigit text
  match text.drop lower with
  | '*' :: rest => some (lower + 1 + run Char.isDigit rest)
  | _ =>
    match text with
    | '+' :: _ => some 1
    | '?' :: _ => some 1
    | _ => none

def control? : List Char → Option Nat
  | '.' :: rest => (name? rest).map (· + 1)
  | _ => none

def tag? : List Char → Option Nat
  | '#' :: '6' :: rest => some (fraction rest + 2)
  | _ => none

def major? : List Char → Option Nat
  | '#' :: c :: rest => if '0' ≤ c ∧ c ≤ '7' then some (fraction rest + 2) else none
  | _ => none

/-- One of several spellings; the first that fits is taken. -/
def spelled? (spellings : List (List Char)) (text : List Char) : Option Nat :=
  (spellings.find? (·.isPrefixOf text)).map List.length

def isSpace (c : Char) : Bool :=
  c == ' ' || c == '\t' || c == '\x0c' || c == '\r' || c == '\n'

/-- A run of spaces, or a comment up to the end of its line: what may stand before a token. -/
def ignored? : List Char → Option Nat
  | ';' :: rest => some (run (· != '\n') rest + 1)
  | text => run? isSpace text

end Cddl.Lexeme

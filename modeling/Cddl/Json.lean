import Cddl.Text.Quoted

/-!
JSON values that a client sends: settings, and the data of completion items. A number written
with a fraction is kept apart from an integer, also where the fraction is zero.
-/
namespace Cddl

inductive Json where
  | null
  | bool (b : Bool)
  | int (n : Int)
  | decimal (negative : Bool) (digits places : Nat)
  | str (s : String)
  | arr (items : List Json)
  | obj (members : List (String × Json))

namespace Json

/-- A member of an object; other values have no members. -/
def member? (key : String) : Json → Option Json
  | obj members => members.lookup key
  | _ => none

def isObject : Json → Bool
  | obj _ => true
  | _ => false

/-- Null, false, zero and whatever is empty count as nothing said. -/
def isVoid : Json → Bool
  | null => true
  | bool b => !b
  | int n => n == 0
  | decimal _ digits _ => digits == 0
  | str s => s == ""
  | arr items => items.isEmpty
  | obj members => members.isEmpty

/-- The digits of a number without the zeros at its end, and how many there were of these. -/
def significant (n : Nat) : List Char × Nat :=
  let digits := Nat.toDigits 10 n
  let kept := (digits.reverse.dropWhile (· == '0')).reverse
  (kept, digits.length - kept.length)

/-- Digits behind a point, or a zero where there are none. -/
def orZero (digits : List Char) : List Char := if digits.isEmpty then ['0'] else digits

/-- A power of ten with its sign and two digits at least. -/
def spellPower (n : Int) : List Char :=
  let digits := Nat.toDigits 10 n.natAbs
  'e' :: (if n < 0 then '-' else '+') :: List.replicate (2 - digits.length) '0' ++ digits

/-- A number with a fraction. From a ten-thousandth up to, not including, ten to the sixteenth it is
written out, with one place at least; outside of that with a power of ten. -/
def spellDecimal (negative : Bool) (digits places : Nat) : List Char :=
  let (kept, zeros) := significant digits
  let point : Int := kept.length + zeros - places
  let magnitude :=
    if kept.isEmpty then ['0', '.', '0']
    else if -4 < point ∧ point ≤ 0 then
      '0' :: '.' :: List.replicate point.natAbs '0' ++ kept
    else if 0 < point ∧ point ≤ 16 then
      let whole := point.toNat
      kept.take whole ++ List.replicate (whole - kept.length) '0' ++
        '.' :: orZero (kept.drop whole)
    else
      let rest := kept.drop 1
      kept.take 1 ++ (if rest.isEmpty then [] else '.' :: rest) ++ spellPower (point - 1)
  if negative then '-' :: magnitude else magnitude

mutual

/-- A value inside another one, as messages spell it. -/
def spelling : Json → List Char
  | null => "None".toList
  | bool true => "True".toList
  | bool false => "False".toList
  | int n => (toString n).toList
  | decimal negative digits places => spellDecimal negative digits places
  | str s => Quoted.encode s.toList
  | arr items => '[' :: spellItems items ++ [']']
  | obj members => '\x7b' :: spellMembers members ++ ['\x7d']

def spellItems : List Json → List Char
  | [] => []
  | [v] => spelling v
  | v :: rest => spelling v ++ ',' :: ' ' :: spellItems rest

def spellMembers : List (String × Json) → List Char
  | [] => []
  | [(k, v)] => Quoted.encode k.toList ++ ':' :: ' ' :: spelling v
  | (k, v) :: rest =>
    Quoted.encode k.toList ++ ':' :: ' ' :: spelling v ++ ',' :: ' ' :: spellMembers rest

end

/-- A value as a message shows it: a string as it is, anything else spelled out. -/
def display : Json → String
  | str s => s
  | v => String.ofList v.spelling

end Json

end Cddl

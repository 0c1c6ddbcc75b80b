/-!
White space as the Unicode standard lists it, together with the four information separators.
It is wider than the blanks that may stand between two tokens of a rule.
-/
namespace Cddl.Blank

/-- White space of any script. -/
def isBlank (c : Char) : Bool :=
  let n := c.toNat
  (0x09 ≤ n && n ≤ 0x0D) || (0x1C ≤ n && n ≤ 0x20) || n == 0x85 || n == 0xA0 || n == 0x1680 ||
    (0x2000 ≤ n && n ≤ 0x200A) || n == 0x2028 || n == 0x2029 || n == 0x202F || n == 0x205F ||
    n == 0x3000

/-- The text without the white space at its end. -/
def trimEnd (text : List Char) : List Char := (text.reverse.dropWhile isBlank).reverse

/-- The text is white space and comments; `inComment` says that a comment is open. -/
def isVoid (inComment : Bool) : List Char → Bool
  | [] => true
  | c :: rest =>
    if inComment then isVoid (c != '\n') rest
    else if c == ';' then isVoid true rest
    else isBlank c && isVoid false rest

theorem trimEnd_prefix (text : List Char) : trimEnd text <+: text := by
  have h := List.dropWhile_suffix isBlank (l := text.reverse)
  simpa [trimEnd] using List.reverse_prefix.mpr h

end Cddl.Blank

/-!
Where a quoted stretch of a document ends, for the search for rules. The search is more lenient
than the grammar: any character may be escaped, an open quote lasts to the end of the document,
and a text literal also ends before a line feed, so that one quote too many does not hide the
rules behind it.
-/
namespace Cddl.Literal

/-- The number of characters that belong to the literal behind its opening quote. -/
def tail (quote : Char) : List Char → Nat
  | [] => 0
  | c :: rest =>
    if c = '\\' then
      match rest with
      | [] => 1
      | _ :: rest => tail quote rest + 2
    else if c = quote then 1
    else if c = '\n' ∧ quote = '"' then 0
    else tail quote rest + 1

/-- The offset behind the literal whose opening quote, of any kind, stands at `start`. -/
def stop (text : List Char) (start : Nat) : Nat :=
  match text.drop start with
  | [] => start
  | quote :: rest => start + 1 + tail quote rest

/-- The same for any integer, where a negative one counts from the end of the text and the search
then runs on past the end from the beginning. Where no character stands there is no literal. -/
def stopFrom? (text : List Char) (start : Int) : Option Int :=
  if 0 ≤ start then
    if start < text.length then some (stop text start.toNat) else none
  else if text.length < start.natAbs then none
  else
    match text.drop (text.length - start.natAbs) with
    | [] => none
    | quote :: rest => some (start + 1 + tail quote (rest ++ text))

theorem tail_le_length (quote : Char) (text : List Char) : tail quote text ≤ text.length := by
  fun_induction tail quote text with
  | case1 => simp
  | case2 => simp
  | case3 _ _ ih => simp; omega
  | case4 => simp
  | case5 => simp
  | case6 _ _ _ _ _ ih => simp; omega

theorem stop_le_length {text : List Char} {start : Nat} (h : start ≤ text.length) :
    stop text start ≤ text.length := by
  unfold stop
  split
  · exact h
  next quote rest heq =>
    have hlen := congrArg List.length heq
    have := tail_le_length quote rest
    simp at hlen
    omega

theorem stopFrom?_natCast {text : List Char} {start : Nat} (h : start < text.length) :
    stopFrom? text start = some (stop text start : Int) := by
  simp [stopFrom?, h]

end Cddl.Literal

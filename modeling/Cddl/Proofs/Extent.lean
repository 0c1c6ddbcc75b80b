import Cddl.Proofs.Head

/-!
A match lies in the text: no reader answers with more characters than there are.
-/
namespace Cddl

namespace Lexeme

variable {text : List Char} {n : Nat}

theorem run_le (p : Char → Bool) (text : List Char) : run p text ≤ text.length :=
  (List.takeWhile_prefix p).length_le

theorem fraction_point (text : List Char) :
    fraction ('.' :: text) = if run Char.isDigit text = 0 then 0 else run Char.isDigit text + 1 := by
  rw [fraction, run?]
  split <;> rfl

theorem fraction_of_ne {c : Char} (hc : c ≠ '.') (text : List Char) : fraction (c :: text) = 0 := by
  simp [fraction, hc]

theorem fraction_le (text : List Char) : fraction text ≤ text.length := by
  cases text with
  | nil => exact Nat.le_refl _
  | cons c text =>
    by_cases hc : c = '.'
    · subst hc
      have hrun := run_le Char.isDigit text
      rw [fraction_point, List.length_cons]
      split <;> omega
    · rw [fraction_of_ne hc]
      exact Nat.zero_le _

theorem signedDigits?_le (h : signedDigits? text = some n) : n ≤ text.length := by
  unfold signedDigits? at h
  split at h
  next c text =>
    split at h
    next =>
      obtain ⟨m, hm, rfl⟩ := Option.map_eq_some_iff.mp h
      rw [← (run?_eq_some_iff.mp hm).1]
      exact Nat.succ_le_succ (run_le _ _)
    next =>
      rw [← (run?_eq_some_iff.mp h).1]
      exact run_le _ _
  next => contradiction

theorem exponent_le (text : List Char) : exponent text ≤ text.length := by
  unfold exponent
  split
  next c text =>
    split
    next =>
      cases hs : signedDigits? text with
      | none => exact Nat.zero_le _
      | some m => exact Nat.succ_le_succ (signedDigits?_le hs)
    next => exact Nat.zero_le _
  next => exact Nat.le_refl _

theorem decimal?_eq_some_iff :
    decimal? text = some n ↔ ∃ d, run? Char.isDigit text = some d ∧
      d + fraction (text.drop d) + exponent (text.drop (d + fraction (text.drop d))) = n :=
  Option.map_eq_some_iff

theorem decimal?_le (h : decimal? text = some n) : n ≤ text.length := by
  obtain ⟨d, hd, rfl⟩ := decimal?_eq_some_iff.mp h
  have hdigits := (run?_eq_some_iff.mp hd).1 ▸ run_le Char.isDigit text
  have hfraction := fraction_le (text.drop d)
  have hexponent := exponent_le (text.drop (d + fraction (text.drop d)))
  rw [List.length_drop] at hfraction hexponent
  omega

theorem based_le {p : Char → Bool} {c : Char}
    (h : ((run? p text).map (· + 2)).or (decimal? ('0' :: c :: text)) = some n) :
    n ≤ text.length + 2 := by
  rcases Option.or_eq_some_iff.mp h with h | ⟨-, h⟩
  · obtain ⟨m, hm, rfl⟩ := Option.map_eq_some_iff.mp h
    rw [← (run?_eq_some_iff.mp hm).1]
    exact Nat.add_le_add_right (run_le _ _) 2
  · exact decimal?_le h

theorem unsigned?_le (h : unsigned? text = some n) : n ≤ text.length := by
  unfold unsigned? at h
  split at h
  · exact based_le h
  · exact based_le h
  · exact decimal?_le h

theorem number?_le (h : number? text = some n) : n ≤ text.length := by
  unfold number? at h
  split at h
  · obtain ⟨m, hm, rfl⟩ := Option.map_eq_some_iff.mp h
    exact Nat.succ_le_succ (unsigned?_le hm)
  · exact unsigned?_le h

theorem le_of_last {c : Char} (h : text[n - 1]? = some c) : n ≤ text.length := by
  have hlt := (List.getElem?_eq_some_iff.mp h).1
  omega

theorem occurrence?_le (h : occurrence? text = some n) : n ≤ text.length := by
  simp only [occurrence?] at h
  split at h
  next rest heq =>
    cases h
    have hupper := run_le Char.isDigit rest
    have hdrop := congrArg List.length heq
    rw [List.length_drop, List.length_cons] at hdrop
    omega
  next =>
    split at h
    · cases h
      exact Nat.succ_le_succ (Nat.zero_le _)
    · cases h
      exact Nat.succ_le_succ (Nat.zero_le _)
    · contradiction

theorem control?_le (h : control? text = some n) : n ≤ text.length := by
  unfold control? at h
  split at h
  · obtain ⟨m, hm, rfl⟩ := Option.map_eq_some_iff.mp h
    exact Nat.succ_le_succ (Chunk.name?_le hm)
  · contradiction

theorem tag?_le (h : tag? text = some n) : n ≤ text.length := by
  unfold tag? at h
  split at h
  · cases h
    exact Nat.add_le_add_right (fraction_le _) 2
  · contradiction

theorem major?_le (h : major? text = some n) : n ≤ text.length := by
  unfold major? at h
  split at h
  · split at h
    · cases h
      exact Nat.add_le_add_right (fraction_le _) 2
    · contradiction
  · contradiction

theorem spelled?_le {spellings : List (List Char)} (h : spelled? spellings text = some n) :
    n ≤ text.length := by
  obtain ⟨s, -, rfl, rest, rfl⟩ := exists_of_spelled? h
  exact (List.prefix_append s rest).length_le

theorem ignored?_le (h : ignored? text = some n) : n ≤ text.length := by
  rcases ignored?_cases h with ⟨rest, rfl, rfl⟩ | ⟨-, rfl, -⟩
  · exact Nat.succ_le_succ (run_le _ _)
  · exact run_le _ _

end Lexeme

theorem Terminal.match?_le {t : Terminal} {text : List Char} {n : Nat}
    (h : t.match? text = some n) : n ≤ text.length := by
  cases t with
  | name => exact Chunk.name?_le h
  | number => exact Lexeme.number?_le h
  | text => exact Lexeme.le_of_last (Lexeme.text?_last h)
  | bytes => exact Lexeme.le_of_last (Lexeme.bytes?_last h)
  | occurrence => exact Lexeme.occurrence?_le h
  | control => exact Lexeme.control?_le h
  | tag => exact Lexeme.tag?_le h
  | major => exact Lexeme.major?_le h
  | _ => exact Lexeme.spelled?_le h

end Cddl

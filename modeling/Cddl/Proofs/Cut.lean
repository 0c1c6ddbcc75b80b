import Cddl.Proofs.Extent
import Cddl.Proofs.Tokens

/-!
A text that is cut off and goes on in a new line. Matches in front of the cut stay what they are,
whatever comes behind it: a reader looks only as far as the characters fit, and no reader takes a
line feed but those of quoted literals, which stop at their quote.
-/
namespace Cddl

namespace Lexeme

variable {seen rest later : List Char} {n : Nat}

/-! ### Runs and names -/

theorem run_cons_pos {p : Char → Bool} {c : Char} {text : List Char} (hc : p c = true) :
    run p (c :: text) = run p text + 1 := by
  rw [run, List.takeWhile_cons_of_pos hc, List.length_cons, run]

theorem run_cons_neg {p : Char → Bool} {c : Char} {text : List Char} (hc : ¬ p c = true) :
    run p (c :: text) = 0 := by
  rw [run, List.takeWhile_cons_of_neg hc, List.length_nil]

theorem run_cut {p : Char → Bool} (hp : p '\n' = false)
    (h : run p (seen ++ rest) ≤ seen.length) :
    run p (seen ++ '\n' :: later) = run p (seen ++ rest) := by
  induction seen with
  | nil =>
    rw [List.nil_append, List.nil_append, run_cons_neg (by simp [hp])]
    exact (Nat.le_zero.mp h).symm
  | cons c seen ih =>
    rw [List.cons_append] at h ⊢
    by_cases hc : p c = true
    · rw [run_cons_pos hc, List.length_cons] at h
      rw [run_cons_pos hc, List.cons_append, run_cons_pos hc, ih (by omega)]
    · rw [run_cons_neg hc, List.cons_append, run_cons_neg hc]

theorem run?_cut {p : Char → Bool} (hp : p '\n' = false)
    (h : run p (seen ++ rest) ≤ seen.length) :
    run? p (seen ++ '\n' :: later) = run? p (seen ++ rest) := by
  rw [run?, run_cut hp h, run?]

theorem nameTail_cut (h : nameTail (seen ++ rest) ≤ seen.length) :
    nameTail (seen ++ '\n' :: later) = nameTail (seen ++ rest) := by
  induction seen with
  | nil => exact (Nat.le_zero.mp h).symm
  | cons c seen ih =>
    rw [List.cons_append, nameTail, List.length_cons] at h
    rw [List.cons_append, nameTail, List.cons_append, nameTail]
    split at h
    next hc => rw [if_pos hc, if_pos hc, ih (by omega)]
    next hc =>
      rw [if_neg hc, if_neg hc]
      split at h
      next hj =>
        have htail : nameTail (seen ++ rest) ≤ seen.length := by
          split at h <;> omega
        rw [if_pos hj, if_pos hj, ih htail]
      next hj => rw [if_neg hj, if_neg hj]

theorem name?_cut (h : name? (seen ++ rest) = some n) (hn : n ≤ seen.length) :
    name? (seen ++ '\n' :: later) = some n := by
  have hpos := name?_pos h
  cases seen with
  | nil => exact absurd hn (Nat.not_le.mpr hpos)
  | cons c seen =>
    rw [List.cons_append, name?] at h ⊢
    split at h
    next hc =>
      cases h
      rw [if_pos hc, nameTail_cut (Nat.le_of_succ_le_succ hn)]
    next => contradiction

/-! ### Numbers -/

theorem fraction_cut (h : fraction (seen ++ rest) ≤ seen.length) :
    fraction (seen ++ '\n' :: later) = fraction (seen ++ rest) := by
  cases seen with
  | nil => exact (Nat.le_zero.mp h).symm
  | cons c seen =>
    rw [List.cons_append] at h ⊢
    by_cases hc : c = '.'
    · subst hc
      rw [fraction_point, List.length_cons] at h
      have hrun : run Char.isDigit (seen ++ rest) ≤ seen.length := by
        split at h <;> omega
      rw [fraction_point, run_cut rfl hrun, List.cons_append, fraction_point]
    · rw [fraction_of_ne hc, List.cons_append, fraction_of_ne hc]

theorem getD_run? (p : Char → Bool) (text : List Char) : (run? p text).getD 0 = run p text := by
  rw [run?]
  split
  next hrun => exact hrun.symm
  next => rfl

theorem getD_map_succ {o : Option Nat} {k : Nat} (h : (o.map (· + 1)).getD 0 ≤ k + 1) :
    o.getD 0 ≤ k := by
  cases o with
  | none => exact Nat.zero_le k
  | some m => exact Nat.le_of_succ_le_succ h

theorem signedDigits?_pos {text : List Char} (h : signedDigits? text = some n) : 0 < n := by
  unfold signedDigits? at h
  split at h
  · split at h
    · exact pos_of_map_add (by decide) h
    · exact run?_pos h
  · contradiction

theorem signedDigits?_cut (h : (signedDigits? (seen ++ rest)).getD 0 ≤ seen.length) :
    signedDigits? (seen ++ '\n' :: later) = signedDigits? (seen ++ rest) := by
  cases seen with
  | nil =>
    show none = signedDigits? rest
    cases hs : signedDigits? rest with
    | none => rfl
    | some m =>
      have hpos : 0 < m := signedDigits?_pos hs
      simp [hs] at h
      omega
  | cons c seen =>
    rw [List.cons_append, signedDigits?] at h
    rw [List.cons_append, signedDigits?, List.cons_append, signedDigits?]
    split at h
    next hc =>
      have hrun := getD_map_succ h
      rw [getD_run?] at hrun
      rw [if_pos hc, if_pos hc, run?_cut rfl hrun]
    next hc =>
      rw [getD_run?] at h
      rw [if_neg hc, if_neg hc, ← List.cons_append, ← List.cons_append]
      rw [← List.cons_append] at h
      exact run?_cut rfl h

theorem exponent_cut (h : exponent (seen ++ rest) ≤ seen.length) :
    exponent (seen ++ '\n' :: later) = exponent (seen ++ rest) := by
  cases seen with
  | nil => exact (Nat.le_zero.mp h).symm
  | cons c seen =>
    rw [List.cons_append, exponent] at h
    rw [List.cons_append, exponent, List.cons_append, exponent]
    split at h
    next hc => rw [if_pos hc, if_pos hc, signedDigits?_cut (getD_map_succ h)]
    next hc => rw [if_neg hc, if_neg hc]

/-- Each part of a number is read in what the parts before it have left of the seen text. -/
theorem decimal?_cut (h : decimal? (seen ++ rest) = some n) (hn : n ≤ seen.length) :
    decimal? (seen ++ '\n' :: later) = some n := by
  obtain ⟨d, hd, hsum⟩ := decimal?_eq_some_iff.mp h
  have hrun : run Char.isDigit (seen ++ rest) ≤ seen.length := by
    rw [(run?_eq_some_iff.mp hd).1]
    omega
  have hfraction : fraction ((seen ++ '\n' :: later).drop d) =
      fraction ((seen ++ rest).drop d) := by
    rw [List.drop_append_of_le_length (by omega), List.drop_append_of_le_length (by omega)]
    rw [List.drop_append_of_le_length (by omega)] at hsum
    exact fraction_cut (by rw [List.length_drop]; omega)
  generalize hwhole : d + fraction ((seen ++ rest).drop d) = whole at hsum
  have hexponent : exponent ((seen ++ '\n' :: later).drop whole) =
      exponent ((seen ++ rest).drop whole) := by
    rw [List.drop_append_of_le_length (by omega), List.drop_append_of_le_length (by omega)]
    rw [List.drop_append_of_le_length (by omega)] at hsum
    exact exponent_cut (by rw [List.length_drop]; omega)
  refine decimal?_eq_some_iff.mpr ⟨d, ?_, ?_⟩
  · rw [run?_cut rfl hrun, hd]
  · rw [hfraction, hwhole, hexponent, hsum]

/-- A base mark and digits of its base; without digits the zero stands alone. -/
theorem based_cut {p : Char → Bool} {c : Char} (hp : p '\n' = false)
    (h : ((run? p (seen ++ rest)).map (· + 2)).or (decimal? ('0' :: c :: (seen ++ rest))) = some n)
    (hn : n ≤ seen.length + 2) :
    ((run? p (seen ++ '\n' :: later)).map (· + 2)).or
      (decimal? ('0' :: c :: (seen ++ '\n' :: later))) = some n := by
  have hrun : run p (seen ++ rest) ≤ seen.length := by
    rcases Option.or_eq_some_iff.mp h with h | ⟨hnone, -⟩
    · obtain ⟨m, hm, rfl⟩ := Option.map_eq_some_iff.mp h
      rw [(run?_eq_some_iff.mp hm).1]
      omega
    · rw [run?_eq_none_iff.mp (Option.map_eq_none_iff.mp hnone)]
      exact Nat.zero_le _
  rw [run?_cut hp hrun]
  rcases Option.or_eq_some_iff.mp h with h | ⟨hnone, h⟩
  · rw [h, Option.some_or]
  · rw [hnone, Option.none_or]
    show decimal? (('0' :: c :: seen) ++ '\n' :: later) = some n
    exact decimal?_cut h hn

theorem decimal?_of_unsigned? {text : List Char} (h : unsigned? text = some n) (hn : n ≤ 1) :
    decimal? text = some n := by
  have hlong : ∀ {o : Option Nat}, o.map (· + 2) ≠ some n := by
    intro o ho
    obtain ⟨m, -, rfl⟩ := Option.map_eq_some_iff.mp ho
    omega
  unfold unsigned? at h
  split at h
  · exact (Option.or_eq_some_iff.mp h).elim (fun ho => absurd ho hlong) (·.2)
  · exact (Option.or_eq_some_iff.mp h).elim (fun ho => absurd ho hlong) (·.2)
  · exact h

theorem unsigned?_of_ne {c d : Char} (h : ¬ (c = '0' ∧ (d = 'x' ∨ d = 'b'))) (text : List Char) :
    unsigned? (c :: d :: text) = decimal? (c :: d :: text) := by
  unfold unsigned?
  split
  next heq => simp_all
  next heq => simp_all
  next => rfl

theorem unsigned?_cut (h : unsigned? (seen ++ rest) = some n) (hn : n ≤ seen.length) :
    unsigned? (seen ++ '\n' :: later) = some n := by
  have hpos := unsigned?_pos h
  match seen with
  | [] => exact absurd hn (Nat.not_le.mpr hpos)
  | [c] =>
    show unsigned? (c :: '\n' :: later) = some n
    rw [unsigned?_of_ne (by simp)]
    exact decimal?_cut (decimal?_of_unsigned? h hn) hn
  | c :: d :: seen =>
    by_cases hmark : c = '0' ∧ (d = 'x' ∨ d = 'b')
    · obtain ⟨rfl, rfl | rfl⟩ := hmark
      · exact based_cut rfl h hn
      · exact based_cut rfl h hn
    · rw [List.cons_append, List.cons_append, unsigned?_of_ne hmark] at h ⊢
      rw [← List.cons_append, ← List.cons_append] at h ⊢
      exact decimal?_cut h hn

theorem number?_cut (h : number? (seen ++ rest) = some n) (hn : n ≤ seen.length) :
    number? (seen ++ '\n' :: later) = some n := by
  have hpos := number?_pos h
  cases seen with
  | nil => exact absurd hn (Nat.not_le.mpr hpos)
  | cons c seen =>
    by_cases hc : c = '-'
    · subst hc
      obtain ⟨m, hm, rfl⟩ := Option.map_eq_some_iff.mp h
      exact Option.map_eq_some_iff.mpr ⟨m, unsigned?_cut hm (Nat.le_of_succ_le_succ hn), rfl⟩
    · have hother : ∀ text, number? (c :: text) = unsigned? (c :: text) := by
        intro text
        simp [number?, hc]
      rw [List.cons_append, hother] at h ⊢
      rw [← List.cons_append] at h ⊢
      exact unsigned?_cut h hn

/-! ### Literals and marks -/

theorem literalTail?_quote (quote : Char) (text : List Char) :
    literalTail? quote (quote :: text) = some 1 := by
  unfold literalTail?
  rw [if_pos rfl]

theorem literalTail?_escape {quote : Char} (hc : ¬ '\\' = quote) (d : Char) (text : List Char) :
    literalTail? quote ('\\' :: d :: text) =
      if d = '\n' then none else (literalTail? quote text).map (· + 2) := by
  rw [literalTail?, if_neg hc, if_pos rfl]

theorem literalTail?_other {quote c : Char} (hc : ¬ c = quote) (hesc : ¬ c = '\\')
    (text : List Char) : literalTail? quote (c :: text) = (literalTail? quote text).map (· + 1) := by
  rw [literalTail?.eq_def]
  simp only [if_neg hc, if_neg hesc]

theorem literalTail?_cut {quote : Char} (h : literalTail? quote (seen ++ rest) = some n)
    (hn : n ≤ seen.length) : literalTail? quote (seen ++ '\n' :: later) = some n := by
  have hpos := (getElem?_of_literalTail? h).1
  fun_induction literalTail? quote seen generalizing n with
  | case1 => exact absurd hn (Nat.not_le.mpr hpos)
  | case2 l =>
    rw [List.cons_append, literalTail?_quote] at h ⊢
    exact h
  | case3 hc =>
    -- a reverse solidus at the cut takes a character from behind it
    cases rest with
    | nil => simp [literalTail?, hc] at h
    | cons d rest =>
      rw [List.singleton_append, literalTail?_escape hc] at h
      split at h
      · contradiction
      · obtain ⟨m, -, rfl⟩ := Option.map_eq_some_iff.mp h
        simp only [List.length_cons, List.length_nil] at hn
        omega
  | case4 l hc =>
    rw [List.cons_append, List.cons_append, literalTail?_escape hc, if_pos rfl] at h
    contradiction
  | case5 d l hd hc ih =>
    rw [List.cons_append, List.cons_append, literalTail?_escape hc, if_neg hd] at h ⊢
    obtain ⟨m, hm, rfl⟩ := Option.map_eq_some_iff.mp h
    simp only [List.length_cons] at hn
    rw [ih hm (by omega) (getElem?_of_literalTail? hm).1]
    rfl
  | case6 c l hc hesc ih =>
    rw [List.cons_append, literalTail?_other hc hesc] at h ⊢
    obtain ⟨m, hm, rfl⟩ := Option.map_eq_some_iff.mp h
    simp only [List.length_cons] at hn
    rw [ih hm (by omega) (getElem?_of_literalTail? hm).1]
    rfl

/-- The characters that open a form stand in front of the cut if the whole form does. -/
theorem exists_seen {l : List Char} (front : List Char) (h : seen ++ rest = front ++ l)
    (hle : front.length ≤ seen.length) : ∃ tail, seen = front ++ tail ∧ l = tail ++ rest := by
  obtain ⟨tail, rfl⟩ := List.prefix_of_prefix_length_le ⟨l, h.symm⟩ (List.prefix_append seen rest) hle
  refine ⟨tail, rfl, ?_⟩
  rw [List.append_assoc] at h
  exact (List.append_cancel_left h).symm

/-- What is read behind an opening that stands in front of the cut. -/
theorem opened_cut {r : List Char → Option Nat} {l : List Char} (front later : List Char)
    (hr : ∀ {seen rest n}, r (seen ++ rest) = some n → n ≤ seen.length →
      r (seen ++ '\n' :: later) = some n)
    (htext : seen ++ rest = front ++ l) (h : (r l).map (· + front.length) = some n)
    (hn : n ≤ seen.length) :
    ∃ tail, seen = front ++ tail ∧
      (r (tail ++ '\n' :: later)).map (· + front.length) = some n := by
  obtain ⟨m, hm, rfl⟩ := Option.map_eq_some_iff.mp h
  obtain ⟨tail, rfl, rfl⟩ := exists_seen front htext (by omega)
  rw [List.length_append] at hn
  exact ⟨tail, rfl, Option.map_eq_some_iff.mpr ⟨m, hr hm (by omega), rfl⟩⟩

theorem text?_cut (h : text? (seen ++ rest) = some n) (hn : n ≤ seen.length) :
    text? (seen ++ '\n' :: later) = some n := by
  unfold text? at h
  split at h
  next l heq =>
    obtain ⟨tail, rfl, htail⟩ := opened_cut ['"'] later literalTail?_cut heq h hn
    exact htail
  next => contradiction

theorem bytes?_cut (h : bytes? (seen ++ rest) = some n) (hn : n ≤ seen.length) :
    bytes? (seen ++ '\n' :: later) = some n := by
  unfold bytes? at h
  split at h
  next l heq =>
    obtain ⟨tail, rfl, htail⟩ := opened_cut ['\''] later literalTail?_cut heq h hn
    exact htail
  next l heq =>
    obtain ⟨tail, rfl, htail⟩ := opened_cut ['h', '\''] later literalTail?_cut heq h hn
    exact htail
  next l heq =>
    obtain ⟨tail, rfl, htail⟩ := opened_cut ['b', '6', '4', '\''] later literalTail?_cut heq h hn
    exact htail
  next => contradiction

theorem control?_cut (h : control? (seen ++ rest) = some n) (hn : n ≤ seen.length) :
    control? (seen ++ '\n' :: later) = some n := by
  unfold control? at h
  split at h
  next l heq =>
    obtain ⟨tail, rfl, htail⟩ := opened_cut ['.'] later name?_cut heq h hn
    exact htail
  next => contradiction

theorem tag?_cut (h : tag? (seen ++ rest) = some n) (hn : n ≤ seen.length) :
    tag? (seen ++ '\n' :: later) = some n := by
  unfold tag? at h
  split at h
  next l heq =>
    cases h
    obtain ⟨tail, rfl, rfl⟩ := exists_seen ['#', '6'] heq (Nat.le_of_add_left_le hn)
    exact congrArg (fun k => some (k + 2)) (fraction_cut (Nat.le_of_add_le_add_right hn))
  next => contradiction

theorem major?_cut (h : major? (seen ++ rest) = some n) (hn : n ≤ seen.length) :
    major? (seen ++ '\n' :: later) = some n := by
  unfold major? at h
  split at h
  next c l heq =>
    split at h
    next hc =>
      cases h
      obtain ⟨tail, rfl, rfl⟩ := exists_seen ['#', c] heq (Nat.le_of_add_left_le hn)
      show (if '0' ≤ c ∧ c ≤ '7' then some (fraction (tail ++ '\n' :: later) + 2) else none) = _
      rw [if_pos hc, fraction_cut (Nat.le_of_add_le_add_right hn)]
    next => contradiction
  next => contradiction

theorem occurrence?_star {text l : List Char} (h : text.drop (run Char.isDigit text) = '*' :: l) :
    occurrence? text = some (run Char.isDigit text + 1 + run Char.isDigit l) := by
  simp only [occurrence?, h]

theorem occurrence?_cut (h : occurrence? (seen ++ rest) = some n) (hn : n ≤ seen.length) :
    occurrence? (seen ++ '\n' :: later) = some n := by
  simp only [occurrence?] at h
  split at h
  next l heq =>
    cases h
    have hlower : run Char.isDigit (seen ++ rest) ≤ seen.length := by omega
    rw [List.drop_append_of_le_length hlower] at heq
    have hdrop := List.length_drop (l := seen) (i := run Char.isDigit (seen ++ rest))
    obtain ⟨tail, hseen, rfl⟩ := exists_seen ['*'] heq (by
      rw [hdrop, List.length_singleton]
      omega)
    rw [hseen, List.length_append, List.length_singleton] at hdrop
    have hstar : (seen ++ '\n' :: later).drop (run Char.isDigit (seen ++ '\n' :: later)) =
        '*' :: (tail ++ '\n' :: later) := by
      rw [run_cut rfl hlower, List.drop_append_of_le_length hlower, hseen]
      rfl
    have hupper : run Char.isDigit (tail ++ rest) ≤ tail.length := by omega
    rw [occurrence?_star hstar, run_cut rfl hlower, run_cut rfl hupper]
  next =>
    split at h
    next l heq =>
      cases h
      obtain ⟨tail, rfl, -⟩ := exists_seen ['+'] heq hn
      rfl
    next l heq =>
      cases h
      obtain ⟨tail, rfl, -⟩ := exists_seen ['?'] heq hn
      rfl
    next => contradiction

/-- A spelling without a line feed that fits at the front of the changed text fits in front of the
cut. -/
theorem fits_seen {s : List Char} (hs : '\n' ∉ s) (h : s <+: seen ++ '\n' :: later) :
    s <+: seen := by
  rcases Nat.lt_or_ge seen.length s.length with hlt | hle
  · have hline : seen ++ ['\n'] <+: s := by
      refine List.prefix_of_prefix_length_le ⟨later, ?_⟩ h ?_
      · rw [List.append_assoc, List.singleton_append]
      · rw [List.length_append, List.length_singleton]
        omega
    exact absurd (hline.subset (by simp)) hs
  · exact List.prefix_of_prefix_length_le h (List.prefix_append _ _) hle

theorem spelled?_cut {spellings : List (List Char)} (hs : ∀ s ∈ spellings, '\n' ∉ s)
    (h : spelled? spellings (seen ++ rest) = some n) (hn : n ≤ seen.length) :
    spelled? spellings (seen ++ '\n' :: later) = some n := by
  obtain ⟨s, hfind, rfl⟩ := Option.map_eq_some_iff.mp h
  obtain ⟨hfits, before, after, rfl, hbefore⟩ := List.find?_eq_some_iff_append.mp hfind
  have hgoal : (before ++ s :: after).find? (·.isPrefixOf (seen ++ '\n' :: later)) = some s := by
    refine List.find?_eq_some_iff_append.mpr ⟨?_, before, after, rfl, ?_⟩
    · rw [List.isPrefixOf_iff_prefix] at hfits ⊢
      have hseen := List.prefix_of_prefix_length_le hfits (List.prefix_append seen rest) hn
      exact hseen.trans (List.prefix_append _ _)
    · intro u hu
      rw [Bool.not_eq_true', Bool.eq_false_iff]
      intro hfit
      have hseen := fits_seen (hs u (List.mem_append_left _ hu)) (List.isPrefixOf_iff_prefix.mp hfit)
      have hold := List.isPrefixOf_iff_prefix.mpr (hseen.trans (List.prefix_append seen rest))
      have hnone := hbefore u hu
      rw [hold] at hnone
      contradiction
  exact Option.map_eq_some_iff.mpr ⟨s, hgoal, rfl⟩

/-! ### Blanks -/

theorem run_append_lt {p : Char → Bool} (h : run p (seen ++ rest) < seen.length) :
    run p (seen ++ later) = run p (seen ++ rest) := by
  induction seen with
  | nil => exact absurd h (Nat.not_lt_zero _)
  | cons c seen ih =>
    rw [List.cons_append, List.cons_append]
    rw [List.cons_append] at h
    by_cases hc : p c = true
    · rw [run_cons_pos hc, List.length_cons] at h
      rw [run_cons_pos hc, run_cons_pos hc, ih (by omega)]
    · rw [run_cons_neg hc, run_cons_neg hc]

theorem run_append_le {p : Char → Bool} (h : seen.length ≤ run p (seen ++ rest)) :
    run p (seen ++ later) = seen.length + run p later := by
  induction seen with
  | nil => simp
  | cons c seen ih =>
    rw [List.cons_append] at h ⊢
    by_cases hc : p c = true
    · rw [run_cons_pos hc, List.length_cons] at h
      rw [run_cons_pos hc, List.length_cons, ih (by omega)]
      omega
    · rw [run_cons_neg hc] at h
      contradiction

theorem comment_cut {text : List Char} (htext : seen ++ rest = ';' :: text)
    (hn : run (· != '\n') text + 1 ≤ seen.length) :
    ignored? (seen ++ '\n' :: later) = some (run (· != '\n') text + 1) := by
  obtain ⟨tail, rfl, rfl⟩ := exists_seen [';'] htext (Nat.le_of_add_left_le hn)
  exact congrArg (fun k => some (k + 1)) (run_cut rfl (Nat.le_of_succ_le_succ hn))

theorem no_comment_cut (hne : ∀ text, seen ++ rest ≠ ';' :: text) (hseen : 0 < seen.length)
    (text : List Char) : seen ++ '\n' :: later ≠ ';' :: text := by
  intro heq
  obtain ⟨tail, rfl, -⟩ := exists_seen [';'] heq hseen
  exact hne _ rfl

theorem ignored?_cut_lt (h : ignored? (seen ++ rest) = some n) (hn : n < seen.length) :
    ignored? (seen ++ '\n' :: later) = some n := by
  rcases ignored?_cases h with ⟨text, htext, rfl⟩ | ⟨hpos, rfl, hne⟩
  · exact comment_cut htext (Nat.le_of_lt hn)
  · rw [ignored?_of_ne (no_comment_cut hne (by omega)), run?_eq_some_iff, run_append_lt hn]
    exact ⟨rfl, hpos⟩

/-- Blanks up to the cut take the new line with them, unless they are a comment. -/
theorem ignored?_cut (hlater : run isSpace later = 0)
    (h : ignored? (seen ++ rest) = some seen.length) :
    ignored? (seen ++ '\n' :: later) = some seen.length ∨
      ignored? (seen ++ '\n' :: later) = some (seen.length + 1) := by
  rcases ignored?_cases h with ⟨text, htext, hlen⟩ | ⟨hpos, hlen, hne⟩
  · left
    rw [hlen]
    exact comment_cut htext (Nat.le_of_eq hlen.symm)
  · right
    have hline : run isSpace ('\n' :: later) = 1 := by rw [run_cons_pos rfl, hlater]
    rw [ignored?_of_ne (no_comment_cut hne hpos), run?_eq_some_iff,
      run_append_le (Nat.le_of_eq hlen), hline]
    exact ⟨rfl, Nat.succ_pos _⟩

end Lexeme

theorem Terminal.match?_cut {t : Terminal} {seen rest later : List Char} {n : Nat}
    (h : t.match? (seen ++ rest) = some n) (hn : n ≤ seen.length) :
    t.match? (seen ++ '\n' :: later) = some n := by
  cases t with
  | name => exact Lexeme.name?_cut h hn
  | number => exact Lexeme.number?_cut h hn
  | text => exact Lexeme.text?_cut h hn
  | bytes => exact Lexeme.bytes?_cut h hn
  | occurrence => exact Lexeme.occurrence?_cut h hn
  | control => exact Lexeme.control?_cut h hn
  | tag => exact Lexeme.tag?_cut h hn
  | major => exact Lexeme.major?_cut h hn
  | _ => exact Lexeme.spelled?_cut (by decide) h hn

variable {seen rest later : List Char} {i j : Nat}

/-- Blanks that end in front of the cut stay what they are. -/
theorem Ignored.cut_of_lt (h : Ignored (seen ++ rest) i j) (hj : j < seen.length) :
    Ignored (seen ++ '\n' :: later) i j := by
  induction h with
  | done i => exact .done i
  | @next i n j hn hrest ih =>
    have hle := hrest.le
    rw [List.drop_append_of_le_length (by omega)] at hn
    refine .next ?_ (ih hj)
    rw [List.drop_append_of_le_length (by omega)]
    exact Lexeme.ignored?_cut_lt hn (by rw [List.length_drop]; omega)

/-- Blanks up to the cut go on to the new line. -/
theorem Ignored.cut (hlater : Lexeme.run Lexeme.isSpace later = 0)
    (h : Ignored (seen ++ rest) i seen.length) :
    Ignored (seen ++ '\n' :: later) i (seen.length + 1) := by
  generalize hj : seen.length = j at h
  induction h with
  | done i =>
    subst hj
    refine .next (n := 1) ?_ (.done _)
    rw [List.drop_left, Lexeme.ignored?_of_ne (by simp), Lexeme.run?_eq_some_iff,
      Lexeme.run_cons_pos rfl, hlater]
    exact ⟨rfl, Nat.one_pos⟩
  | @next i n j hn hrest ih =>
    subst hj
    have hle := hrest.le
    rw [List.drop_append_of_le_length (by omega)] at hn
    have hseen : (seen ++ '\n' :: later).drop i = seen.drop i ++ '\n' :: later :=
      List.drop_append_of_le_length (by omega)
    rcases Nat.lt_or_eq_of_le hle with hlt | heq
    · refine .next ?_ (ih rfl)
      rw [hseen]
      exact Lexeme.ignored?_cut_lt hn (by rw [List.length_drop]; omega)
    · obtain rfl : n = (seen.drop i).length := by rw [List.length_drop]; omega
      rcases Lexeme.ignored?_cut hlater hn with hcut | hcut
      · exact .next (hseen ▸ hcut) (ih rfl)
      · refine .next (hseen ▸ hcut) ?_
        rw [← Nat.add_assoc, heq]
        exact .done _

/-- The tokens in front of the cut stay what they are. -/
theorem Tokens.cut {toks : List Token} (h : Tokens (seen ++ rest) i toks j)
    (hj : j ≤ seen.length) : Tokens (seen ++ '\n' :: later) i toks j := by
  induction h with
  | done i => exact .done i
  | @token i k n j t toks hi hm hrest ih =>
    have hpos := Terminal.match?_pos hm
    have hle := hrest.tiled.le
    rw [List.drop_append_of_le_length (by omega)] at hm
    refine .token (hi.cut_of_lt (by omega)) ?_ (ih hj)
    rw [List.drop_append_of_le_length (by omega)]
    exact Terminal.match?_cut hm (by rw [List.length_drop]; omega)

end Cddl

import Cddl.Proofs.Cut

/-!
Spaces between tokens. A space ends every token but a quoted literal: no other reader looks beyond
it, so that what stands behind a space has no part in a match in front of it.
-/
namespace Cddl

namespace Lexeme

variable {line rest : List Char} {c : Char}

theorem eq_false_of_isSpace {p : Char → Bool}
    (hp : [' ', '\t', '\x0c', '\r', '\n'].any p = false) (hc : isSpace c = true) : p c = false := by
  simp only [List.any_cons, List.any_nil, Bool.or_false, Bool.or_eq_false_iff] at hp
  simp only [isSpace, Bool.or_eq_true, beq_iff_eq] at hc
  rcases hc with (((rfl | rfl) | rfl) | rfl) | rfl
  · exact hp.1
  · exact hp.2.1
  · exact hp.2.2.1
  · exact hp.2.2.2.1
  · exact hp.2.2.2.2

theorem ne_of_isSpace {d : Char} (hd : isSpace d = false) (hc : isSpace c = true) : c ≠ d := by
  rintro rfl
  rw [hd] at hc
  contradiction

theorem run_gap {p : Char → Bool} (hp : p c = false) : run p (line ++ c :: rest) = run p line := by
  induction line with
  | nil => exact run_cons_neg (by simp [hp])
  | cons d line ih =>
    rw [List.cons_append]
    by_cases hd : p d = true
    · rw [run_cons_pos hd, run_cons_pos hd, ih]
    · rw [run_cons_neg hd, run_cons_neg hd]

theorem run?_gap {p : Char → Bool} (hp : p c = false) :
    run? p (line ++ c :: rest) = run? p line := by
  rw [run?, run_gap hp, run?]

theorem nameTail_gap (hc : isSpace c = true) :
    nameTail (line ++ c :: rest) = nameTail line := by
  induction line with
  | nil =>
    have hname : isNameChar c = false := eq_false_of_isSpace (by decide) hc
    have hjoint : isJoint c = false := eq_false_of_isSpace (by decide) hc
    simp [nameTail, hname, hjoint]
  | cons d line ih => rw [List.cons_append, nameTail, ih, nameTail]

theorem name?_gap (hc : isSpace c = true) : name? (line ++ c :: rest) = name? line := by
  cases line with
  | nil =>
    have hname : isNameStart c = false := eq_false_of_isSpace (by decide) hc
    rw [List.nil_append, name?, if_neg (by simp [hname]), name?]
  | cons d line => rw [List.cons_append, name?, nameTail_gap hc, name?]

theorem fraction_gap (hc : isSpace c = true) : fraction (line ++ c :: rest) = fraction line := by
  cases line with
  | nil => exact fraction_of_ne (ne_of_isSpace (by decide) hc) rest
  | cons d line =>
    rw [List.cons_append]
    by_cases hd : d = '.'
    · subst hd
      rw [fraction_point, fraction_point, run_gap (eq_false_of_isSpace (by decide) hc)]
    · rw [fraction_of_ne hd, fraction_of_ne hd]

theorem signedDigits?_gap (hc : isSpace c = true) :
    signedDigits? (line ++ c :: rest) = signedDigits? line := by
  have hdigit : Char.isDigit c = false := eq_false_of_isSpace (by decide) hc
  cases line with
  | nil =>
    have hsign : ¬ (c = '+' ∨ c = '-') := by
      rintro (rfl | rfl) <;> contradiction
    rw [List.nil_append, signedDigits?, if_neg hsign, run?_eq_none_iff.mpr, signedDigits?]
    simp [run, hdigit]
  | cons d line =>
    rw [List.cons_append, signedDigits?, run?_gap hdigit, ← List.cons_append, run?_gap hdigit,
      signedDigits?]

theorem exponent_gap (hc : isSpace c = true) : exponent (line ++ c :: rest) = exponent line := by
  cases line with
  | nil =>
    have hmark : ¬ (c = 'e' ∨ c = 'E') := by
      rintro (rfl | rfl) <;> contradiction
    rw [List.nil_append, exponent, if_neg hmark, exponent]
  | cons d line => rw [List.cons_append, exponent, signedDigits?_gap hc, exponent]

/-- Each part of a number begins in front of the space, or right there. -/
theorem decimal?_gap (hc : isSpace c = true) : decimal? (line ++ c :: rest) = decimal? line := by
  have hdigits : run? Char.isDigit (line ++ c :: rest) = run? Char.isDigit line :=
    run?_gap (eq_false_of_isSpace (by decide) hc)
  rw [decimal?, hdigits, decimal?]
  cases hd : run? Char.isDigit line with
  | none => rfl
  | some d =>
    have hle : d ≤ line.length := (run?_eq_some_iff.mp hd).1 ▸ run_le Char.isDigit line
    have hfraction := fraction_le (line.drop d)
    rw [List.length_drop] at hfraction
    simp only [Option.map_some]
    rw [List.drop_append_of_le_length hle, fraction_gap hc,
      List.drop_append_of_le_length (by omega), exponent_gap hc]

theorem unsigned?_gap (hc : isSpace c = true) :
    unsigned? (line ++ c :: rest) = unsigned? line := by
  match line with
  | [] =>
    have hzero : c ≠ '0' := ne_of_isSpace (by decide) hc
    have hnone : run? Char.isDigit (c :: rest) = none := by
      have hdigit : Char.isDigit c = false := eq_false_of_isSpace (by decide) hc
      rw [run?_eq_none_iff]
      simp [run, hdigit]
    show unsigned? (c :: rest) = none
    unfold unsigned?
    split
    next heq => simp_all
    next heq => simp_all
    next => rw [decimal?, hnone, Option.map_none]
  | [d] =>
    have hx : c ≠ 'x' := ne_of_isSpace (by decide) hc
    have hb : c ≠ 'b' := ne_of_isSpace (by decide) hc
    have hone : unsigned? [d] = decimal? [d] := by
      unfold unsigned?
      split
      next heq => simp_all
      next heq => simp_all
      next => rfl
    rw [hone]
    show unsigned? (d :: c :: rest) = decimal? [d]
    rw [unsigned?_of_ne (by simp [hx, hb])]
    have hgap : decimal? ([d] ++ c :: rest) = decimal? [d] := decimal?_gap hc
    exact hgap
  | d :: e :: line =>
    rw [List.cons_append, List.cons_append]
    by_cases hmark : d = '0' ∧ (e = 'x' ∨ e = 'b')
    · obtain ⟨rfl, rfl | rfl⟩ := hmark
      · rw [unsigned?, unsigned?, run?_gap (eq_false_of_isSpace (by decide) hc),
          ← List.cons_append, ← List.cons_append, decimal?_gap hc]
      · rw [unsigned?, unsigned?, run?_gap (eq_false_of_isSpace (by decide) hc),
          ← List.cons_append, ← List.cons_append, decimal?_gap hc]
    · rw [unsigned?_of_ne hmark, unsigned?_of_ne hmark, ← List.cons_append, ← List.cons_append,
        decimal?_gap hc]

theorem number?_gap (hc : isSpace c = true) : number? (line ++ c :: rest) = number? line := by
  cases line with
  | nil =>
    have hsign : c ≠ '-' := ne_of_isSpace (by decide) hc
    have hother : number? (c :: rest) = unsigned? (c :: rest) := by simp [number?, hsign]
    rw [List.nil_append, hother]
    have hgap : unsigned? ([] ++ c :: rest) = unsigned? [] := unsigned?_gap hc
    exact hgap
  | cons d line =>
    by_cases hd : d = '-'
    · subst hd
      rw [List.cons_append, number?, unsigned?_gap hc, number?]
    · have hother : ∀ text, number? (d :: text) = unsigned? (d :: text) := by
        intro text
        simp [number?, hd]
      rw [List.cons_append, hother, hother, ← List.cons_append, unsigned?_gap hc]

/-- Without a star an occurrence is a mark that stands alone. -/
theorem occurrence?_of_ne {text : List Char}
    (h : ∀ r, text.drop (run Char.isDigit text) ≠ '*' :: r) :
    occurrence? text =
      if text.head? = some '+' ∨ text.head? = some '?' then some 1 else none := by
  rw [occurrence?.eq_def]
  dsimp only
  split
  next r heq => exact absurd heq (h r)
  next =>
    cases text with
    | nil => rfl
    | cons c text =>
      by_cases hplus : c = '+'
      · subst hplus
        rfl
      by_cases hmark : c = '?'
      · subst hmark
        rfl
      · simp [hplus, hmark]

theorem occurrence?_gap (hc : isSpace c = true) :
    occurrence? (line ++ c :: rest) = occurrence? line := by
  have hdigit : Char.isDigit c = false := eq_false_of_isSpace (by decide) hc
  have hne : ∀ d, isSpace d = false → c ≠ d := fun d hd => ne_of_isSpace hd hc
  have hdrop : (line ++ c :: rest).drop (run Char.isDigit (line ++ c :: rest)) =
      line.drop (run Char.isDigit line) ++ c :: rest := by
    rw [run_gap hdigit, List.drop_append_of_le_length (run_le _ _)]
  by_cases hstar : ∃ r, line.drop (run Char.isDigit line) = '*' :: r
  · obtain ⟨r, hr⟩ := hstar
    rw [occurrence?_star hr, occurrence?_star (l := r ++ c :: rest) (by rw [hdrop, hr]; rfl),
      run_gap hdigit, run_gap hdigit]
  · have hline : ∀ r, line.drop (run Char.isDigit line) ≠ '*' :: r := not_exists.mp hstar
    have hboth : ∀ r, line.drop (run Char.isDigit line) ++ c :: rest ≠ '*' :: r := by
      intro r heq
      cases hl : line.drop (run Char.isDigit line) with
      | nil =>
        rw [hl] at heq
        exact hne '*' (by decide) (List.cons.inj heq).1
      | cons d tail =>
        rw [hl] at heq
        exact hline tail (hl.trans (congrArg (· :: tail) (List.cons.inj heq).1))
    rw [occurrence?_of_ne (hdrop ▸ hboth), occurrence?_of_ne hline]
    cases line with
    | nil => simp [hne '+' (by decide), hne '?' (by decide)]
    | cons d line => rfl

theorem control?_gap (hc : isSpace c = true) : control? (line ++ c :: rest) = control? line := by
  cases line with
  | nil =>
    have hpoint : c ≠ '.' := ne_of_isSpace (by decide) hc
    simp [control?, hpoint]
  | cons d line =>
    by_cases hd : d = '.'
    · subst hd
      rw [List.cons_append, control?, name?_gap hc, control?]
    · simp [control?, hd]

theorem tag?_gap (hc : isSpace c = true) : tag? (line ++ c :: rest) = tag? line := by
  have hhash : c ≠ '#' := ne_of_isSpace (by decide) hc
  have hsix : c ≠ '6' := ne_of_isSpace (by decide) hc
  match line with
  | [] => simp [tag?, hhash]
  | [d] => simp [tag?, hsix]
  | d :: e :: line =>
    by_cases hd : d = '#' ∧ e = '6'
    · obtain ⟨rfl, rfl⟩ := hd
      rw [List.cons_append, List.cons_append, tag?, fraction_gap hc, tag?]
    · have hnone : ∀ text, tag? (d :: e :: text) = none := by
        intro text
        unfold tag?
        split
        next heq => simp_all
        next => rfl
      rw [List.cons_append, List.cons_append, hnone, hnone]

theorem major?_gap (hc : isSpace c = true) : major? (line ++ c :: rest) = major? line := by
  have hhash : c ≠ '#' := ne_of_isSpace (by decide) hc
  have hdigit : ¬ ('0' ≤ c ∧ c ≤ '7') := by
    have hclass : (decide ('0' ≤ c) && decide (c ≤ '7')) = false :=
      eq_false_of_isSpace (p := fun c => decide ('0' ≤ c) && decide (c ≤ '7')) (by decide) hc
    simpa using hclass
  match line with
  | [] => simp [major?, hhash]
  | [d] =>
    by_cases hd : d = '#'
    · subst hd
      rw [List.singleton_append, major?, if_neg hdigit]
      rfl
    · simp [major?, hd]
  | d :: e :: line =>
    by_cases hd : d = '#'
    · subst hd
      rw [List.cons_append, List.cons_append, major?, fraction_gap hc, major?]
    · simp [major?, hd]

/-- A spelling without a space fits in front of the space or not at all. -/
theorem isPrefixOf_gap {s : List Char} (hs : c ∉ s) :
    s.isPrefixOf (line ++ c :: rest) = s.isPrefixOf line := by
  rw [Bool.eq_iff_iff, List.isPrefixOf_iff_prefix, List.isPrefixOf_iff_prefix]
  constructor
  · intro h
    rcases Nat.lt_or_ge line.length s.length with hlt | hle
    · -- a longer spelling takes the space
      have hspace : line ++ [c] <+: s := by
        refine List.prefix_of_prefix_length_le ⟨rest, ?_⟩ h ?_
        · rw [List.append_assoc, List.singleton_append]
        · rw [List.length_append, List.length_singleton]
          exact hlt
      exact absurd (hspace.subset (by simp)) hs
    · exact List.prefix_of_prefix_length_le h (List.prefix_append _ _) hle
  · intro h
    exact h.trans (List.prefix_append _ _)

theorem spelled?_gap {spellings : List (List Char)} (hs : ∀ s ∈ spellings, s.any isSpace = false)
    (hc : isSpace c = true) : spelled? spellings (line ++ c :: rest) = spelled? spellings line := by
  rw [spelled?, spelled?]
  congr 1
  induction spellings with
  | nil => rfl
  | cons s spellings ih =>
    have hmem : c ∉ s := by
      intro hmem
      have hany : s.any isSpace = true := List.any_eq_true.mpr ⟨c, hmem, hc⟩
      rw [hs s List.mem_cons_self] at hany
      contradiction
    rw [List.find?_cons, List.find?_cons, isPrefixOf_gap hmem,
      ih fun u hu => hs u (List.mem_cons_of_mem _ hu)]

end Lexeme

/-- What stands behind a space has no part in a match of a token that is no quoted literal. -/
theorem Terminal.match?_gap {t : Terminal} {line rest : List Char} {c : Char}
    (ht : t ≠ .text ∧ t ≠ .bytes) (hc : Lexeme.isSpace c = true) :
    t.match? (line ++ c :: rest) = t.match? line := by
  cases t with
  | text => exact absurd rfl ht.1
  | bytes => exact absurd rfl ht.2
  | name => exact Lexeme.name?_gap hc
  | number => exact Lexeme.number?_gap hc
  | occurrence => exact Lexeme.occurrence?_gap hc
  | control => exact Lexeme.control?_gap hc
  | tag => exact Lexeme.tag?_gap hc
  | major => exact Lexeme.major?_gap hc
  | _ => exact Lexeme.spelled?_gap (by decide) hc

/-- A token that is no quoted literal has no space in it. -/
theorem Terminal.not_isSpace_of_mem {t : Terminal} {text : List Char} {n : Nat}
    (ht : t ≠ .text ∧ t ≠ .bytes) (h : t.match? text = some n) {c : Char}
    (hc : c ∈ text.take n) : Lexeme.isSpace c = false := by
  obtain ⟨line, rest, htake⟩ := List.append_of_mem hc
  have htext : text = line ++ c :: (rest ++ text.drop n) := by
    rw [← List.cons_append, ← List.append_assoc, ← htake, List.take_append_drop]
  by_contra hspace
  rw [Bool.not_eq_false] at hspace
  rw [htext, match?_gap ht hspace] at h
  have hle := match?_le h
  have hlen := congrArg List.length htake
  rw [List.length_append, List.length_cons, List.length_take] at hlen
  have htotal := congrArg List.length htext
  rw [List.length_append, List.length_cons] at htotal
  omega

end Cddl

import Cddl.Proofs.Margin
import Cddl.Proofs.Outside

/-!
Readings of one stretch of text that exclude each other. What stands outside brackets tells them
apart: an entry with a key has a colon or an arrow there, which a type has not, and a choice between
groups has its sign there, which an entry has not. An occurrence is known by its star or mark, and a
comma by its place at the end.
-/
namespace Cddl

variable {text : List Char} {i j k l : Nat} {ts us : List Terminal} {p q : Production}

/-! ### Two tilings of one stretch -/

theorem Derives.reading {toks : List Token} (h : Tokens text 0 toks j)
    (hd : Derives p.rhs (toks.map Token.terminal)) (hp : p.lhs ≠ .rule) : Reading text toks j where
  tokens := h
  unassigned t ht heq := by
    apply hd.assign_not_mem (p.assign_not_mem_rhs hp)
    rw [← heq]
    exact List.mem_map_of_mem ht
  chain := hd.isChain fun _ _ h => ⟨p, h⟩

/-- Two constituents of one stretch, as readings of the text that begins there. -/
theorem exists_readings (h : Tiled text i ts j) (h' : Tiled text i us j) (hd : Derives p.rhs ts)
    (hd' : Derives q.rhs us) (hp : p.lhs ≠ .rule) (hq : q.lhs ≠ .rule) :
    ∃ toks toks', toks.map Token.terminal = ts ∧ toks'.map Token.terminal = us ∧
      Reading (text.drop i) toks (j - i) ∧ Reading (text.drop i) toks' (j - i) := by
  have hfront := h.drop (Nat.le_refl i)
  have hfront' := h'.drop (Nat.le_refl i)
  rw [Nat.sub_self] at hfront hfront'
  obtain ⟨toks, htoks, rfl⟩ := hfront.exists_tokens
  obtain ⟨toks', htoks', rfl⟩ := hfront'.exists_tokens
  exact ⟨toks, toks', rfl, rfl, hd.reading htoks hp, hd'.reading htoks' hq⟩

theorem landmarks_of_tiled (h : Tiled text i ts j) (h' : Tiled text i us j)
    (hd : Derives p.rhs ts) (hd' : Derives q.rhs us) (hp : p.lhs ≠ .rule) (hq : q.lhs ≠ .rule) :
    ts.filter Terminal.isLandmark = us.filter Terminal.isLandmark := by
  obtain ⟨toks, toks', rfl, rfl, hr, hr'⟩ := exists_readings h h' hd hd' hp hq
  rw [List.filter_map, List.filter_map]
  exact congrArg (List.map Token.terminal) (hr.landmarks_eq hr')

/-- A landmark at the end of a constituent ends every other one that reads the same stretch. -/
theorem getLast_of_landmark {t : Terminal} (h : Tiled text i ts j)
    (h' : Tiled text i (us ++ [t]) j) (hd : Derives p.rhs ts) (hd' : Derives q.rhs (us ++ [t]))
    (hp : p.lhs ≠ .rule) (hq : q.lhs ≠ .rule) (ht : t ∈ Terminal.landmarks) :
    ts.getLast? = some t := by
  obtain ⟨toks, toks', rfl, hus, hr, hr'⟩ := exists_readings h h' hd hd' hp hq
  obtain ⟨before, last, rfl, -, hlast⟩ := List.map_eq_append_iff.mp hus
  obtain ⟨u, rest, rfl, rfl, hrest⟩ := List.map_eq_cons_iff.mp hlast
  obtain rfl := List.map_eq_nil_iff.mp hrest
  have hstop : u.stop = j - i := hr'.tokens.getLast_stop u (by simp)
  obtain ⟨front, back, rfl⟩ := List.append_of_mem (hr'.landmark_mem hr (by simp) ht)
  obtain ⟨m, -, hback⟩ := hr.tokens.split
  cases hback with
  | token hi hm hback =>
    simp only at hstop
    rw [hstop] at hback
    have hnil := List.map_eq_nil_iff.mp (Tiled.eq_nil hback.tiled)
    simp [hnil]

/-- Blanks and comments in front of a token lead to one place only. -/
theorem Ignored.eq_of_match {t u : Terminal} {m n : Nat} (hk : Ignored text i k)
    (hl : Ignored text i l) (ht : t.match? (text.drop k) = some m)
    (hu : u.match? (text.drop l) = some n) : k = l := by
  have hvisible : ∀ {t : Terminal} {k m : Nat}, t.match? (text.drop k) = some m →
      Lexeme.ignored? (text.drop k) = none := by
    intro t k m hm
    obtain ⟨c, rest, htext, hc⟩ := Terminal.exists_starts hm
    rw [htext]
    exact Lexeme.ignored?_of_starts rest hc
  rcases Nat.le_total k l with hkl | hlk
  · exact ((hk.rest hl hkl).eq_of_visible (hvisible ht)).symm
  · exact (hl.rest hk hlk).eq_of_visible (hvisible hu)

/-! ### Keys and choices between groups -/

namespace Derives

/-- A terminal of a sequence of symbols stands in what they derive, and as far outside. -/
theorem mem_outside {syms : List Symbol} {t : Terminal} (h : Derives syms ts) (d : Nat)
    (ht : .terminal t ∈ Symbol.outside d syms) : t ∈ outside d ts := by
  induction h generalizing d with
  | done => cases d <;> contradiction
  | terminal _ ih =>
    cases d with
    | zero =>
      rcases List.mem_cons.mp ht with heq | ht
      · cases heq
        exact List.mem_cons_self
      · exact List.mem_cons_of_mem _ (ih _ ht)
    | succ d => exact ih _ ht
  | @nonterminal rest us ts p hp _ _ ih' =>
    rw [outside_append, (hp.balanced d).1]
    apply List.mem_append_right
    apply ih'
    cases d with
    | zero => simpa [Symbol.outside, Symbol.depthAfter] using ht
    | succ d => exact ht

theorem key_outside (h : Derives [.nonterminal .memberKey] ts) :
    .arrow ∈ outside 0 ts ∨ .colon ∈ outside 0 ts := by
  obtain ⟨p, hp, hd⟩ := h.exists_production
  cases p <;> try contradiction
  case keyCut => exact .inl (hd.mem_outside 0 (by decide))
  case keyType => exact .inl (hd.mem_outside 0 (by decide))
  case keyBareword => exact .inr (hd.mem_outside 0 (by decide))
  case keyValue => exact .inr (hd.mem_outside 0 (by decide))

theorem choices_outside (h : Derives [.nonterminal .choices] ts) :
    .groupChoice ∈ outside 0 ts := by
  obtain ⟨p, hp, hd⟩ := h.exists_production
  cases p <;> try contradiction
  case choicesOne => exact hd.mem_outside 0 (by decide)
  case choicesNext => exact hd.mem_outside 0 (by decide)

theorem entryKey_outside (h : Derives Production.entryKey.rhs ts) :
    .arrow ∈ outside 0 ts ∨ .colon ∈ outside 0 ts := by
  obtain ⟨us, vs, rfl, hkey, -⟩ := h.nonterminal_cases
  rw [outside_append, List.mem_append, List.mem_append]
  exact hkey.key_outside.imp .inl .inl

theorem groupMany_outside (h : Derives Production.groupMany.rhs ts) :
    .groupChoice ∈ outside 0 ts := by
  obtain ⟨us, vs, rfl, hchoice, hchoices⟩ := h.nonterminal_cases
  obtain ⟨p, -, hd⟩ := hchoice.exists_production
  rw [outside_append, (hd.balanced 0).1]
  exact List.mem_append_right _ hchoices.choices_outside

/-- A type, and a group between parentheses, hides what stands in keys. -/
theorem bare_hides {t : Terminal} (hp : p = .entryType ∨ p = .entryGroup)
    (ht : t ∈ Nonterminal.type.hides) (h : Derives p.rhs ts) : t ∉ outside 0 ts := by
  apply h.not_mem_outside
  revert t
  rcases hp with rfl | rfl <;> decide

end Derives

/-- An entry that is a type or a group between parentheses is not one with a key. -/
theorem not_entryKey (hp : p = .entryType ∨ p = .entryGroup) (hd : Derives p.rhs ts)
    (h : Tiled text i ts j) (hd' : Derives Production.entryKey.rhs us) : ¬ Tiled text i us j := by
  intro h'
  have hlhs : p.lhs ≠ .rule := by
    rcases hp with rfl | rfl <;> decide
  have hsame := landmarks_of_tiled h' h hd' hd (by decide) hlhs
  rcases hd'.entryKey_outside with harrow | hcolon
  · exact hd.bare_hides hp (by decide) (mem_outside_of_landmarks rfl hsame harrow)
  · exact hd.bare_hides hp (by decide) (mem_outside_of_landmarks rfl hsame hcolon)

/-- Entries are not a choice between groups. -/
theorem not_groupMany (hp : p.lhs = .entries) (hd : Derives p.rhs ts)
    (h : Tiled text i ts j) (hd' : Derives Production.groupMany.rhs us) : ¬ Tiled text i us j := by
  intro h'
  have hlhs : p.lhs ≠ .rule := by
    rw [hp]
    decide
  have hsame := landmarks_of_tiled h' h hd' hd (by decide) hlhs
  have hsign := mem_outside_of_landmarks rfl hsame hd'.groupMany_outside
  exact hd.hidden (by rw [hp]; decide) hsign

/-- A comma does not end an entry. -/
theorem not_entriesOneComma (hd : Derives Production.entriesOne.rhs ts) (h : Tiled text i ts j)
    (hd' : Derives Production.entriesOneComma.rhs us) : ¬ Tiled text i us j := by
  intro h'
  obtain ⟨es, cs, rfl, -, hcs⟩ := hd'.nonterminal_cases
  obtain ⟨_, rfl, hnil⟩ := hcs.terminal_cases
  obtain rfl := hnil.nil_cases
  have hlast := getLast_of_landmark h h' hd hd' (by decide) (by decide) (by decide)
  exact absurd (hd.last_mem_lastsOf _ hlast) (by decide)

/-! ### Occurrences -/

namespace Lexeme

/-- Digits in front of a star are a number. -/
theorem number?_star {rest : List Char} (hpos : 0 < run Char.isDigit text)
    (h : text.drop (run Char.isDigit text) = '*' :: rest) :
    number? text = some (run Char.isDigit text) := by
  have hdecimal : decimal? text = some (run Char.isDigit text) := by
    refine decimal?_eq_some_iff.mpr ⟨_, run?_eq_some_iff.mpr ⟨rfl, hpos⟩, ?_⟩
    rw [h, fraction_of_ne (by decide), Nat.add_zero, h]
    rfl
  cases text with
  | nil => contradiction
  | cons c text =>
    have hc : c.isDigit = true := by
      by_contra hc
      rw [run_cons_neg hc] at hpos
      contradiction
    have hsign : c ≠ '-' := by
      rintro rfl
      contradiction
    have hplain : number? (c :: text) = unsigned? (c :: text) := by simp [number?, hsign]
    rw [hplain, ← hdecimal]
    cases text with
    | nil => simp [run, hc] at h
    | cons d text =>
      apply unsigned?_of_ne
      rintro ⟨rfl, rfl | rfl⟩
      · simp [run] at h
      · simp [run] at h

/-- An occurrence that begins with a digit has a star behind its digits. -/
theorem star_of_occurrence? {c : Char} {n : Nat} (h : occurrence? (c :: text) = some n)
    (hc : c.isDigit = true) : ∃ rest,
      (c :: text).drop (run Char.isDigit (c :: text)) = '*' :: rest ∧
        run Char.isDigit (c :: text) < n := by
  by_cases hstar : ∃ r, (c :: text).drop (run Char.isDigit (c :: text)) = '*' :: r
  · obtain ⟨r, hr⟩ := hstar
    rw [occurrence?_star hr] at h
    refine ⟨r, hr, ?_⟩
    have hn := Option.some.inj h
    omega
  · rw [occurrence?_of_ne (not_exists.mp hstar), if_neg] at h
    · contradiction
    · rintro (heq | heq)
      · cases heq
        contradiction
      · cases heq
        contradiction

end Lexeme

namespace Terminal

/-- Of the tokens that a type may begin with only a number begins like an occurrence. -/
theorem number_of_starts {t : Terminal} {c : Char} (ht : t ∈ Nonterminal.operandFirsts)
    (hc : t.starts c = true) (ho : occurrence.starts c = true) :
    t = .number ∧ c.isDigit = true := by
  have hmarks : ∀ u ∈ Nonterminal.operandFirsts,
      u.starts '*' = false ∧ u.starts '+' = false ∧ u.starts '?' = false := by decide
  obtain ⟨hstar, hplus, hmark⟩ := hmarks t ht
  simp only [starts, Bool.or_eq_true, beq_iff_eq] at ho
  rcases ho with ((rfl | rfl) | rfl) | hdigit
  · rw [hstar] at hc
    contradiction
  · rw [hplus] at hc
    contradiction
  · rw [hmark] at hc
    contradiction
  refine ⟨?_, hdigit⟩
  cases t <;> try contradiction
  case number => rfl
  case name =>
    rw [Lexeme.not_isDigit_of_isNameStart hc] at hdigit
    contradiction
  case bytes =>
    simp only [starts, Bool.or_eq_true, beq_iff_eq] at hc
    rcases hc with (rfl | rfl) | rfl <;> contradiction
  all_goals
    simp only [starts, beq_iff_eq] at hc
    subst hc
    contradiction

theorem eq_occurrence_of_starts {t : Terminal} (h : t.starts '*' = true) : t = .occurrence := by
  revert h
  cases t <;> decide

end Terminal

/-- A sequence that begins like a type, and hides occurrences in brackets, does not read what an
occurrence and other tokens read. -/
theorem not_occurrence {t : Terminal} (h : Tiled text i (t :: ts) j)
    (ht : t ∈ Nonterminal.operandFirsts) (hout : .occurrence ∉ outside 0 (t :: ts)) :
    ¬ Tiled text i (.occurrence :: us) j := by
  intro h'
  obtain ⟨k, m, hk, hm, hrest⟩ := h.cons_cases
  obtain ⟨k', n, hk', hocc, hrest'⟩ := h'.cons_cases
  obtain rfl := hk.eq_of_match hk' hm hocc
  obtain ⟨c, rest, htext, hc⟩ := Terminal.exists_starts hm
  obtain ⟨c', rest', htext', ho⟩ := Terminal.exists_starts hocc
  obtain ⟨rfl, rfl⟩ := List.cons.inj (htext.symm.trans htext')
  obtain ⟨rfl, hdigit⟩ := Terminal.number_of_starts ht hc ho
  -- the number takes the digits, and the star that follows them begins an occurrence again
  rw [htext] at hm hocc
  obtain ⟨r, hstar, hlt⟩ := Lexeme.star_of_occurrence? hocc hdigit
  have hpos : 0 < Lexeme.run Char.isDigit (c :: rest) := by
    rw [Lexeme.run_cons_pos hdigit]
    exact Nat.succ_pos _
  obtain rfl : Lexeme.run Char.isDigit (c :: rest) = m :=
    Option.some.inj ((Lexeme.number?_star hpos hstar).symm.trans hm)
  have hnext : text.drop (k + Lexeme.run Char.isDigit (c :: rest)) = '*' :: r := by
    rw [← List.drop_drop, htext, hstar]
  obtain ⟨toks, htoks, rfl⟩ := hrest.exists_tokens
  have hle := hrest'.le
  obtain ⟨u, _, more, rfl, -, -, hu⟩ := htoks.cons_of_lt (by omega) hnext rfl
  obtain rfl := Terminal.eq_occurrence_of_starts hu
  apply hout
  simp [outside_zero, Chunk.depthAfterToken]

/-! ### Types between parentheses -/

namespace Derives

theorem first_part {n : Nonterminal} {rest : List Symbol} {t : Terminal}
    (h : Derives (.nonterminal n :: rest) ts) (hn : n.nullable = false)
    (ht : ts.head? = some t) :
    ∃ us vs, ts = us ++ vs ∧ Derives [.nonterminal n] us ∧ us.head? = some t := by
  obtain ⟨us, vs, rfl, hus, -⟩ := h.nonterminal_cases
  refine ⟨us, vs, rfl, hus, ?_⟩
  cases us with
  | nil =>
    have hnull := hus.all_nullable
    simp [Symbol.nullable, hn] at hnull
  | cons u us => exact ht

theorem type2_of_openParen (h : Derives [.nonterminal .type2] ts)
    (hfirst : ts.head? = some .openParen) :
    ∃ us, ts = .openParen :: (us ++ [.closeParen]) ∧ Derives [.nonterminal .type] us := by
  obtain ⟨p, hp, hd⟩ := h.exists_production
  have hmem := hd.head_mem_firstsOf _ hfirst
  have hparen : p = .type2Paren := by
    revert hmem hp
    cases p <;> decide
  subst hparen
  obtain ⟨_, rfl, hrest⟩ := hd.terminal_cases
  obtain ⟨us, _, rfl, hus, hclose⟩ := hrest.nonterminal_cases
  obtain ⟨_, rfl, hnil⟩ := hclose.terminal_cases
  obtain rfl := hnil.nil_cases
  exact ⟨us, rfl, hus⟩

/-- A type that begins with a parenthesis begins with a type between parentheses. -/
theorem type_of_openParen (h : Derives [.nonterminal .type] ts)
    (hfirst : ts.head? = some .openParen) :
    ∃ us vs, ts = .openParen :: (us ++ .closeParen :: vs) ∧ Derives [.nonterminal .type] us := by
  have htype1 : ∃ us vs, ts = us ++ vs ∧ Derives [.nonterminal .type1] us ∧
      us.head? = some .openParen := by
    obtain ⟨p, hp, hd⟩ := h.exists_production
    cases p <;> try contradiction
    case typeMany => exact hd.first_part rfl hfirst
    case typeOne => exact hd.first_part rfl hfirst
  obtain ⟨us, vs, rfl, hus, hfirst⟩ := htype1
  have htype2 : ∃ as bs, us = as ++ bs ∧ Derives [.nonterminal .type2] as ∧
      as.head? = some .openParen := by
    obtain ⟨p, hp, hd⟩ := hus.exists_production
    cases p <;> try contradiction
    case type1Binary => exact hd.first_part rfl hfirst
    case type1Operand => exact hd.first_part rfl hfirst
  obtain ⟨as, bs, rfl, has, hfirst⟩ := htype2
  obtain ⟨cs, rfl, hcs⟩ := has.type2_of_openParen hfirst
  exact ⟨cs, bs ++ vs, by simp, hcs⟩

/-- Between parentheses nothing is outside. -/
theorem outside_parens {n : Nonterminal} (h : Derives [.nonterminal n] ts) :
    outside 0 (.openParen :: (ts ++ .closeParen :: us)) = .openParen :: outside 0 us := by
  obtain ⟨p, -, hd⟩ := h.exists_production
  obtain ⟨hlevel, hnone⟩ := hd.balanced 1
  have hnone' := (hd.balanced 0).2
  show .openParen :: outside 1 (ts ++ .closeParen :: us) = _
  rw [outside_append, hlevel, hnone', List.nil_append]
  rfl

end Derives

theorem head_of_openParen (h : Tiled text i ts j) (hd : Derives [.nonterminal .type] ts)
    (h' : Tiled text i (.openParen :: us) j) : ts.head? = some .openParen := by
  obtain ⟨k, n, hk, hm, -⟩ := h'.cons_cases
  cases ts with
  | nil =>
    have hnull := hd.all_nullable
    contradiction
  | cons t ts =>
    obtain ⟨k', m, hk', hm', -⟩ := h.cons_cases
    obtain rfl := hk.eq_of_match hk' hm hm'
    obtain ⟨c, rest, htext, hc⟩ := Terminal.exists_starts hm
    obtain ⟨c', rest', htext', hc'⟩ := Terminal.exists_starts hm'
    obtain ⟨rfl, rfl⟩ := List.cons.inj (htext.symm.trans htext')
    have hassign : t ≠ .assign := by
      rintro rfl
      exact absurd (hd.head_mem_firstsOf _ rfl) (by decide)
    rcases (Terminal.eq_of_starts (by decide) hc).2 t hassign hc' with rfl | ⟨hgroup, -⟩
    · rfl
    · contradiction

theorem filter_eq_nil_of_outside
    (h : (outside 0 ts).filter Terminal.isLandmark = []) : ts.filter Terminal.isLandmark = [] := by
  rw [← outside_filter] at h
  cases hts : ts.filter Terminal.isLandmark with
  | nil => rfl
  | cons t ts =>
    rw [hts, outside_zero] at h
    contradiction

/-- A type that reads what a group between parentheses reads is a type between the same ones. -/
theorem type_of_entryGroup (h : Tiled text i ts j) (hd : Derives [.nonterminal .type] ts)
    (h' : Tiled text i us j) (hd' : Derives Production.entryGroup.rhs us) :
    ∃ vs, ts = .openParen :: (vs ++ [.closeParen]) ∧ Derives [.nonterminal .type] vs := by
  obtain ⟨p, hp, hdp⟩ := hd.exists_production
  have hlhs : p.lhs ≠ .rule := by
    rw [hp]
    decide
  obtain ⟨_, rfl, hrest⟩ := hd'.terminal_cases
  obtain ⟨gs, _, rfl, hgroup, hclose⟩ := hrest.nonterminal_cases
  obtain ⟨_, rfl, hnil⟩ := hclose.terminal_cases
  obtain rfl := hnil.nil_cases
  obtain ⟨vs, ws, rfl, hvs⟩ := hd.type_of_openParen (head_of_openParen h hd h')
  -- nothing stands behind the parenthesis that closes the first one
  have hends : Tiled text i (.openParen :: gs ++ [.closeParen]) j := h'
  have hlast := getLast_of_landmark h hends hdp hd' hlhs (by decide) (by decide)
  have hsame := congrArg (outside 0) (landmarks_of_tiled h h' hdp hd' hlhs (by decide))
  rw [outside_filter, outside_filter, hvs.outside_parens, hgroup.outside_parens] at hsame
  have hws : ws.filter Terminal.isLandmark = [] := by
    apply filter_eq_nil_of_outside
    rw [List.filter_cons_of_pos rfl, List.filter_cons_of_pos rfl] at hsame
    exact (List.cons.inj hsame).2
  cases ws with
  | nil => exact ⟨vs, rfl, hvs⟩
  | cons w ws =>
    have hmem : .closeParen ∈ w :: ws := by
      apply List.mem_of_getLast?
      rw [← List.cons_append, List.append_cons, List.getLast?_append_cons] at hlast
      exact hlast
    have hfilter := List.mem_filter.mpr ⟨hmem, (rfl : Terminal.closeParen.isLandmark = true)⟩
    rw [hws] at hfilter
    contradiction

end Cddl

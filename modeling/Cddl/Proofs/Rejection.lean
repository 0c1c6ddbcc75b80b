import Cddl.Proofs.Acceptance
import Cddl.Proofs.Postponed

/-!
What stands before a syntax error. It is the beginning of a rule, and each terminal that is expected
can go on with it, unless the reading stopped too late; this shows in a message that expects
nothing, and in a semicolon inside a quoted literal.
-/
namespace Cddl

namespace Front

variable {text : List Char} {i : Nat} {f : Front} {t : Terminal}

/-- What is expected at a place can begin the next line there. -/
theorem viableWith_of_expected (hf : at? text i = some f) (hi : i ≤ text.length)
    (ht : t ∈ f.expected) : ViableWith (text.take i) t := by
  obtain ⟨w, hw, hterminal⟩ := List.mem_filterMap.mp ht
  exact ((stage_at? hf).waiting w hw).viableWith (Edge.terminal?_eq_some_iff.mp hterminal) hi

theorem viable_of_not_mute (hf : at? text i = some f) (hi : i ≤ text.length) (h : ¬ f.Mute) :
    Viable (text.take i) := by
  have hstage := stage_at? hf
  cases hc : f.complete? with
  | some k => exact (hstage.complete k hc).viable hi
  | none =>
    have hne : f.waiting ≠ [] := fun hnil => h ⟨hnil, hc⟩
    obtain ⟨w, hw⟩ := List.exists_mem_of_ne_nil _ hne
    obtain ⟨t, ht⟩ := Option.isSome_iff_exists.mp (hstage.waiting w hw).terminal
    exact ((hstage.waiting w hw).viableWith (Edge.terminal?_eq_some_iff.mp ht) hi).viable

/-- At the end of a text no match is under way. -/
theorem not_mute_at_end (hf : at? text text.length = some f) : ¬ f.Mute := by
  intro hmute
  obtain ⟨q, hq⟩ := exists_pending hf hmute
  obtain ⟨s, g, hs, -, -, hbegins, hlt⟩ := exists_begins hf hq
  exact absurd hlt (Nat.not_lt.mpr (hbegins.stop_le (Nat.le_of_lt hs)))

theorem expected_of_mute (h : f.Mute) : f.expected = [] := by
  rw [expected, h.1, List.filterMap_nil]

end Front

namespace Rejection

/-- The part of a text that had been read when it was rejected. -/
def front (text : List Char) : Rejection → List Char
  | unexpected place _ _ => text.take place
  | incomplete _ => text

def expected : Rejection → List Terminal
  | unexpected _ _ expected => expected
  | incomplete expected => expected

/-- Nothing was expected where the text was rejected, and the reading had gone on too long. -/
def Late (text : List Char) : Rejection → Prop
  | unexpected place _ expected =>
    expected = [] ∧ ∃ literal k m, Overrun text place literal k m
  | incomplete _ => False

variable {text : List Char} {r : Rejection}

theorem viableWith (h : Front.Outcome text (.error r)) {t : Terminal} (ht : t ∈ r.expected) :
    ViableWith (r.front text) t := by
  cases h with
  | incomplete hf =>
    have hv := Front.viableWith_of_expected hf (Nat.le_refl _) ht
    rwa [List.take_length] at hv
  | unexpected hf _ hget =>
    have hlt := (List.getElem?_eq_some_iff.mp hget).1
    exact Front.viableWith_of_expected hf (Nat.le_of_lt hlt) ht

theorem viable_or_late (h : Front.Outcome text (.error r)) :
    Viable (r.front text) ∨ r.Late text := by
  cases h with
  | incomplete hf =>
    left
    have hv := Front.viable_of_not_mute hf (Nat.le_refl _) (Front.not_mute_at_end hf)
    rwa [List.take_length] at hv
  | @unexpected place f c hf hstep hget =>
    have hlt := (List.getElem?_eq_some_iff.mp hget).1
    by_cases hmute : f.Mute
    · have hnone : Front.at? text (place + 1) = none := by rw [Front.at?_succ hf, hstep]
      exact .inr ⟨Front.expected_of_mute hmute, Front.overrun_of_mute hnone hlt hf hmute⟩
    · exact .inl (Front.viable_of_not_mute hf (Nat.le_of_lt hlt) hmute)

end Rejection

namespace Problem

/-- The place of a problem in its chunk. -/
def placeIn (p : Problem) (c : Chunk) : Nat := (p.span.start - c.start).toNat

/-- The part of a chunk in front of an unexpected character, or all of it where it ends too
early. -/
def front (p : Problem) (text : List Char) (c : Chunk) : List Char :=
  match p.cause with
  | .unexpectedCharacter _ _ => (c.slice text).take (p.placeIn c)
  | _ => c.slice text

/-- An unexpected character for which nothing is expected, and where the reading had gone on too
long. -/
structure Late (p : Problem) (text : List Char) (c : Chunk) : Prop where
  silent : ∃ ch, p.cause = .unexpectedCharacter ch []
  overrun : ∃ literal k m, Overrun (c.slice text) (p.placeIn c) literal k m

variable {text chunk : List Char} {c : Chunk} {r : Rejection}

theorem placeIn_unexpected (ch : Char) (place : Nat) (labels : List String) :
    (unexpected c.start ch place labels).placeIn c = place := by
  simp only [placeIn, unexpected]
  omega

theorem front_problem :
    (r.problem (c.slice text) c.start).front text c = r.front (c.slice text) := by
  cases r with
  | unexpected place ch expected =>
    show (c.slice text).take ((unexpected c.start ch place _).placeIn c) = _
    rw [placeIn_unexpected]
    rfl
  | incomplete expected => rfl

theorem expected_problem {offset : Nat} :
    (r.problem chunk offset).cause.expected = r.expected.map Terminal.label := by
  cases r <;> rfl

theorem late_problem (h : r.Late (c.slice text)) :
    (r.problem (c.slice text) c.start).Late text c := by
  cases r with
  | unexpected place ch expected =>
    obtain ⟨rfl, hoverrun⟩ := h
    refine ⟨⟨ch, rfl⟩, ?_⟩
    show ∃ literal k m, Overrun _ ((unexpected c.start ch place _).placeIn c) literal k m
    rw [placeIn_unexpected]
    exact hoverrun
  | incomplete expected => exact h.elim

end Problem

namespace Document

variable {text : List Char} {c : Chunk} {p : Problem}

/-- What stands before a syntax error. For each label that the error expects there are a text that
its terminal matches and a continuation with which the chunk, as far as it was read, and then this
text in a new line are a rule. The chunk as far as it was read has such a continuation in any case,
unless the reading stopped too late: nothing is expected, and a semicolon in a quoted literal begins
what would be a comment from there to the error, but for spaces at its end. -/
theorem readChunk_viable (h : readChunk text c = .error p) :
    (∀ label ∈ p.cause.expected, ∃ t : Terminal, t.label = label ∧
      ViableWith (p.front text c) t) ∧
    (Viable (p.front text c) ∨ p.Late text c) := by
  have hnot : ¬ IsRule (c.slice text) := by
    intro hrule
    obtain ⟨d, hd⟩ := readChunk_of_isRule hrule
    rw [h] at hd
    contradiction
  obtain ⟨r, htree, ho⟩ := Tree.ofText_of_not_isRule hnot
  obtain rfl : r.problem (c.slice text) c.start = p := by simpa [readChunk, htree] using h
  rw [Problem.front_problem, Problem.expected_problem]
  constructor
  · intro label hlabel
    obtain ⟨t, ht, rfl⟩ := List.mem_map.mp hlabel
    exact ⟨t, rfl, Rejection.viableWith ho ht⟩
  · exact (Rejection.viable_or_late ho).imp_right Problem.late_problem

/-- A rule with a character behind it that belongs to no rule. -/
def strayText : List Char := ['a', '=', '1', '!']

def strayProblem : Problem :=
  ⟨.unexpectedCharacter '!' ["COLON", "CIRCUMFLEX", "_ARROW", "SLASH", "RANGEOP", "CTLOP"], ⟨3, 4⟩⟩

theorem readChunk_viable_stray :
    readChunk strayText ⟨0, 4⟩ = .error strayProblem ∧
    (∀ label ∈ ["COLON", "CIRCUMFLEX", "_ARROW", "SLASH", "RANGEOP", "CTLOP"],
      ∃ t : Terminal, t.label = label ∧ ViableWith ['a', '=', '1'] t) ∧
    Viable ['a', '=', '1'] := by
  have hread : readChunk strayText ⟨0, 4⟩ = .error strayProblem := by decide +kernel
  obtain ⟨hexpected, hviable | hlate⟩ := readChunk_viable hread
  · exact ⟨hread, hexpected, hviable⟩
  · obtain ⟨ch, hch⟩ := hlate.silent
    cases hch

/-- The same behind a literal that contains a semicolon; the error is found one character later. -/
def overrunText : List Char := ['a', '=', '"', ';', '"', '!', 'x']

/-- No token begins with an exclamation mark. -/
theorem not_viable_overrun : ¬ Viable ['a', '=', '"', ';', '"', '!'] := by
  rintro ⟨w, hrule⟩
  obtain ⟨toks, stop, htoks, hend, -⟩ := isRule_iff_tokens.mp hrule
  obtain ⟨t, n, _, -, hname, htoks, hstarts⟩ := htoks.cons_of_visible hend rfl rfl
  obtain rfl : t = .name := by
    revert hstarts
    cases t <;> decide
  obtain rfl : 1 = n := Option.some.inj hname
  obtain ⟨t, n, _, -, hassign, htoks, hstarts⟩ := htoks.cons_of_visible hend rfl rfl
  obtain rfl | rfl : t = .assign ∨ t = .arrow := by
    revert hstarts
    cases t <;> decide
  · obtain rfl : 1 = n := Option.some.inj hassign
    obtain ⟨t, n, _, -, hquoted, htoks, hstarts⟩ := htoks.cons_of_visible hend rfl rfl
    obtain rfl : t = .text := by
      revert hstarts
      cases t <;> decide
    obtain rfl : 3 = n := Option.some.inj hquoted
    obtain ⟨t, _, _, -, -, -, hstarts⟩ := htoks.cons_of_visible hend rfl rfl
    revert hstarts
    cases t <;> decide
  · contradiction

/-- Before the character that is reported there may stand one that is not in place. -/
theorem readChunk_not_viable :
    ⟨0, 7⟩ ∈ Chunk.split overrunText ∧
    ∃ p, readChunk overrunText ⟨0, 7⟩ = .error p ∧
      ¬ Viable (p.front overrunText ⟨0, 7⟩) := by
  refine ⟨by decide, ⟨.unexpectedCharacter 'x' [], ⟨6, 7⟩⟩, by decide +kernel, ?_⟩
  exact not_viable_overrun

end Document

end Cddl

import Cddl.Proofs.Position
import Cddl.Proofs.Scope

/-!
The answer to the question where the word under the cursor is declared. A declaration of an
accepted text fits that text and is spelled as its name, so that it is never left out and covers
the word that was asked for.
-/
namespace Cddl

open Document

namespace Declaration

variable {text : List Char} {rules : List Rule} {ident uri : String} {s : Span} {p : Position}
  {l : Location}

theorem stands_of_declared (h : parse text = .ok rules) (hs : Declared rules ident s) :
    s.fits text ∧ s.slice text = ident.toList := by
  obtain ⟨m, hm, rfl, rfl⟩ := declared_iff.mp hs
  obtain ⟨r, hr, hmr⟩ := List.mem_flatMap.mp hm
  obtain ⟨c, hc, hplaced⟩ := exists_placedIn h hr
  exact ⟨hplaced.names_fit (hplaced.fits hc) m hmr, hplaced.names_stand m hmr⟩

theorem at?_eq_some_iff :
    at? text p uri (some rules) = some l ↔
      ∃ word s, Word.atPosition? text p = some word ∧ find? rules word = some s ∧
        s.fits text ∧ l = ⟨uri, s.range text⟩ := by
  simp only [at?, locate?, Option.bind_eq_bind, Option.bind_some, Option.bind_eq_some_iff,
    Option.map_eq_some_iff, Option.filter_eq_some_iff]
  constructor
  · rintro ⟨word, hword, s, ⟨hfind, hfits⟩, rfl⟩
    exact ⟨word, s, hword, hfind, hfits, rfl⟩
  · rintro ⟨word, s, hword, hfind, hfits, rfl⟩
    exact ⟨word, hword, s, ⟨hfind, hfits⟩, rfl⟩

/-- The answer names what is under the cursor, wherever the cursor is. There is an answer if and
only if there is a word under the cursor and the text declares it, as the name of a rule or as a
parameter of a type rule; and its range leads back to a declaration that spells this word. -/
theorem at?_spells_word (h : parse text = .ok rules) (p : Position) (uri : String) :
    ((∃ l, at? text p uri (some rules) = some l) ↔
      ∃ word s, Word.atPosition? text p = some word ∧ Declared rules word s) ∧
    ∀ l, at? text p uri (some rules) = some l →
      l.uri = uri ∧ ∃ word s, Word.atPosition? text p = some word ∧ Declared rules word s ∧
        l.range.span? text = some s ∧ s.fits text ∧ s.slice text = word.toList := by
  constructor
  · constructor
    · rintro ⟨l, hl⟩
      obtain ⟨word, s, hword, hfind, -, -⟩ := at?_eq_some_iff.mp hl
      exact ⟨word, s, hword, (find?_leftmost h hfind).1⟩
    · rintro ⟨word, t, hword, ht⟩
      cases hfind : find? rules word with
      | none => exact absurd ht (find?_eq_none_iff.mp hfind t)
      | some s =>
        have hfits := (stands_of_declared h (find?_leftmost h hfind).1).1
        exact ⟨_, at?_eq_some_iff.mpr ⟨word, s, hword, hfind, hfits, rfl⟩⟩
  · intro l hl
    obtain ⟨word, s, hword, hfind, hfits, rfl⟩ := at?_eq_some_iff.mp hl
    have hdeclared := (find?_leftmost h hfind).1
    exact ⟨rfl, word, s, hword, hdeclared, Span.span?_range hfits, hfits,
      (stands_of_declared h hdeclared).2⟩

/-- A name that is used behind a character of two units, and declared on the next line. -/
def usedBelowText : List Char :=
  ['b', ' ', '=', ' ', '[', '"', '😀', '"', ',', ' ', 'm', ' ', ']', '\n', 'm', '=', '1']

def usedBelowRules : List Rule :=
  [.type ⟨"b", ⟨0, 1⟩⟩ ⟨0, 13⟩ none, .type ⟨"m", ⟨14, 15⟩⟩ ⟨14, 17⟩ none]

/-- There is an answer on the name, and none on the space in front of it or below the last line. -/
theorem at?_spells_word_below :
    parse usedBelowText = .ok usedBelowRules ∧
    (∃ l, at? usedBelowText ⟨0, 11⟩ "a.cddl" (some usedBelowRules) = some l) ∧
    (∀ l, at? usedBelowText ⟨0, 11⟩ "a.cddl" (some usedBelowRules) = some l →
      l.uri = "a.cddl" ∧ ∃ word s, Word.atPosition? usedBelowText ⟨0, 11⟩ = some word ∧
        Declared usedBelowRules word s ∧ l.range.span? usedBelowText = some s ∧
        s.fits usedBelowText ∧ s.slice usedBelowText = word.toList) ∧
    (¬ ∃ l, at? usedBelowText ⟨0, 10⟩ "a.cddl" (some usedBelowRules) = some l) ∧
    ¬ ∃ l, at? usedBelowText ⟨2, 0⟩ "a.cddl" (some usedBelowRules) = some l := by
  have hparse : parse usedBelowText = .ok usedBelowRules := by decide +kernel
  have hword : Word.atPosition? usedBelowText ⟨0, 11⟩ = some "m" := by decide +kernel
  have hspace : Word.atPosition? usedBelowText ⟨0, 10⟩ = none := by decide +kernel
  have hbelow : Word.atPosition? usedBelowText ⟨2, 0⟩ = none := by decide +kernel
  obtain ⟨hsome, hspells⟩ := at?_spells_word hparse ⟨0, 11⟩ "a.cddl"
  refine ⟨hparse, hsome.mpr ⟨"m", ⟨14, 15⟩, hword, ?_⟩, hspells, ?_, ?_⟩
  · simp [usedBelowRules, Declared, NamesRule, Rule.name]
  · simp [(at?_spells_word hparse ⟨0, 10⟩ "a.cddl").1, hspace]
  · simp [(at?_spells_word hparse ⟨2, 0⟩ "a.cddl").1, hbelow]

end Declaration

end Cddl

import Mathlib.Data.List.Induction
import Mathlib.Data.List.Sort
import Mathlib.Data.String.Basic
import Cddl.Document.Problem

/-!
The wording of what was expected. Labels come in no particular order and may be repeated, and several
of them may be shown by one name; what is said of them depends on their set only. It is one phrase of
the distinct names, in the order of code points, and there is none only where every label is internal.
-/
namespace Cddl

/-! ### Labels of terminals -/

namespace Terminal

variable {label : String} {t : Terminal}

theorem ofLabel?_label (t : Terminal) : ofLabel? t.label = some t := by cases t <;> decide

theorem ofLabel?_eq_some_iff : ofLabel? label = some t ↔ t.label = label := by
  constructor
  · intro h
    have hfound := List.find?_some h
    exact eq_of_beq hfound
  · rintro rfl
    exact ofLabel?_label t

theorem ofLabel?_eq_none_iff : ofLabel? label = none ↔ ∀ t : Terminal, t.label ≠ label := by
  simp only [Option.eq_none_iff_forall_ne_some, ne_eq, ofLabel?_eq_some_iff]

end Terminal

namespace Expectation

/-- A label of no terminal that has two low lines at its front. -/
structure Internal (label : String) : Prop where
  unlisted : ∀ t : Terminal, t.label ≠ label
  marked : ['_', '_'] <+: label.toList

/-- The name that a label is shown by. An internal label is shown by none. -/
inductive Shows : String → String → Prop where
  | terminal (t : Terminal) : Shows t.label t.description
  | unlisted {label} : (∀ t : Terminal, t.label ≠ label) → ¬ ['_', '_'] <+: label.toList →
      Shows label label

def codePoints (s : String) : List Nat := s.toList.map Char.toNat

/-- The words are the names that the labels are shown by, each once, in the order of code points. -/
structure Lists (labels words : List String) : Prop where
  mem_iff : ∀ word, word ∈ words ↔ ∃ label ∈ labels, Shows label word
  ordered : words.Pairwise fun s t => codePoints s < codePoints t

/-- Words in one phrase: "ou" before the last of them, and commas between the others. -/
inductive Joins : List String → String → Prop where
  | alone (word : String) : Joins [word] word
  | several {front : List String} (last : String) : front ≠ [] →
      Joins (front ++ [last]) (", ".intercalate front ++ " ou " ++ last)

variable {label name s t text : String} {labels others words front rest : List String}

/-! ### The name of a label -/

theorem readable?_label (t : Terminal) : readable? t.label = some t.description := by
  rw [readable?, Terminal.ofLabel?_label]

theorem readable?_of_unlisted (h : ∀ t : Terminal, t.label ≠ label) :
    readable? label = if ['_', '_'] <+: label.toList then none else some label := by
  rw [readable?, Terminal.ofLabel?_eq_none_iff.mpr h]
  simp only [List.isPrefixOf_iff_prefix]

theorem readable?_eq_none_iff : readable? label = none ↔ Internal label := by
  by_cases h : ∃ t : Terminal, t.label = label
  · obtain ⟨t, rfl⟩ := h
    simp only [readable?_label, reduceCtorEq, false_iff]
    exact fun hinternal => hinternal.unlisted t rfl
  · push Not at h
    rw [readable?_of_unlisted h]
    exact ⟨fun hnone => ⟨h, by simpa using hnone⟩, fun hinternal => if_pos hinternal.marked⟩

theorem readable?_eq_some_iff : readable? label = some name ↔ Shows label name := by
  constructor
  · intro h
    by_cases hterminal : ∃ t : Terminal, t.label = label
    · obtain ⟨t, rfl⟩ := hterminal
      cases (readable?_label t).symm.trans h
      exact .terminal t
    · push Not at hterminal
      rw [readable?_of_unlisted hterminal] at h
      split at h
      next => contradiction
      next hmarked =>
        cases h
        exact .unlisted hterminal hmarked
  · rintro (t | ⟨hunlisted, hmarked⟩)
    · exact readable?_label t
    · rw [readable?_of_unlisted hunlisted, if_neg hmarked]

/-! ### The names of some labels -/

theorem mem_insertSorted : t ∈ insertSorted s words ↔ t = s ∨ t ∈ words := by
  induction words with
  | nil => simp [insertSorted]
  | cons word words ih =>
    rw [insertSorted]
    split
    next => exact List.mem_cons
    next =>
      split
      next heq => simp [heq]
      next => rw [List.mem_cons, ih, List.mem_cons, or_left_comm]

theorem pairwise_insertSorted (s : String) (h : words.Pairwise (· < ·)) :
    (insertSorted s words).Pairwise (· < ·) := by
  induction words with
  | nil => exact List.pairwise_singleton _ s
  | cons word words ih =>
    obtain ⟨hword, hwords⟩ := List.pairwise_cons.mp h
    rw [insertSorted]
    split
    next hlt =>
      refine List.pairwise_cons.mpr ⟨fun t ht => ?_, h⟩
      rcases List.mem_cons.mp ht with rfl | ht
      · exact hlt
      · exact lt_trans hlt (hword t ht)
    next hnot =>
      split
      next => exact h
      next hne =>
        refine List.pairwise_cons.mpr ⟨fun t ht => ?_, ih hwords⟩
        rcases mem_insertSorted.mp ht with rfl | ht
        · exact lt_of_le_of_ne (not_lt.mp hnot) (Ne.symm hne)
        · exact hword t ht

theorem mem_names : name ∈ names labels ↔ ∃ label ∈ labels, Shows label name := by
  have hmem : ∀ l : List String, name ∈ l.foldr insertSorted [] ↔ name ∈ l := by
    intro l
    induction l with
    | nil => rfl
    | cons s l ih => rw [List.foldr_cons, mem_insertSorted, ih, List.mem_cons]
  simp only [names, hmem, List.mem_filterMap, readable?_eq_some_iff]

theorem pairwise_names (labels : List String) : (names labels).Pairwise (· < ·) := by
  rw [names]
  induction labels.filterMap readable? with
  | nil => exact .nil
  | cons s l ih => exact pairwise_insertSorted s ih

/-- The order of strings is the one of their code points. -/
theorem strictMono_codePoints : StrictMono codePoints :=
  fun _ _ h => List.map_lt (fun _ _ hlt => hlt) (String.lt_iff_toList_lt.mp h)

theorem lists_names (labels : List String) : Lists labels (names labels) :=
  ⟨fun _ => mem_names, (pairwise_names labels).imp (strictMono_codePoints ·)⟩

/-- The order leaves no choice: there is one list of the names only. -/
theorem lists_iff : Lists labels words ↔ words = names labels := by
  constructor
  · intro h
    have hordered : words.Pairwise (· < ·) := h.ordered.imp strictMono_codePoints.lt_iff_lt.mp
    exact hordered.eq_of_mem_iff (pairwise_names labels)
      fun word => (h.mem_iff word).trans mem_names.symm
  · rintro rfl
    exact lists_names labels

theorem names_congr (h : ∀ label, label ∈ others ↔ label ∈ labels) :
    names others = names labels := by
  refine lists_iff.mp ⟨fun word => ?_, (lists_names others).ordered⟩
  simp only [mem_names, h]

theorem names_eq_nil_iff : names labels = [] ↔ ∀ label ∈ labels, Internal label := by
  simp only [List.eq_nil_iff_forall_not_mem, mem_names, ← readable?_eq_some_iff,
    ← readable?_eq_none_iff, Option.eq_none_iff_forall_ne_some]
  exact ⟨fun h label hlabel name heq => h name ⟨label, hlabel, heq⟩,
    fun h name ⟨label, hlabel, heq⟩ => h label hlabel name heq⟩

/-! ### One phrase -/

theorem phrase_cons (word : String) (h : 1 < rest.length) :
    phrase (word :: rest) = (phrase rest).map (word ++ ", " ++ ·) := by
  match rest, h with
  | _ :: _ :: _, _ => rfl

theorem phrase_append (last : String) (h : front ≠ []) :
    phrase (front ++ [last]) = some (", ".intercalate front ++ " ou " ++ last) := by
  induction front with
  | nil => contradiction
  | cons word front ih =>
    by_cases hfront : front = []
    · rw [hfront, String.intercalate_singleton]
      rfl
    · -- a comma stands behind a word only if two more words follow it
      have hlength : 1 < (front ++ [last]).length := by
        have hpos := List.length_pos_iff.mpr hfront
        simp only [List.length_append, List.length_singleton]
        omega
      rw [List.cons_append, phrase_cons word hlength, ih hfront, Option.map_some,
        String.intercalate_cons_of_ne_nil hfront]
      simp only [String.append_assoc]

theorem exists_joins (h : words ≠ []) : ∃ text, Joins words text := by
  obtain rfl | ⟨front, last, rfl⟩ := words.eq_nil_or_concat'
  · contradiction
  · by_cases hfront : front = []
    · subst hfront
      exact ⟨last, .alone last⟩
    · exact ⟨_, .several last hfront⟩

theorem phrase_of_joins (h : Joins words text) : phrase words = some text := by
  cases h with
  | alone word => rfl
  | several last hfront => exact phrase_append last hfront

theorem phrase_eq_none_iff : phrase words = none ↔ words = [] := by
  constructor
  · intro h
    by_contra hwords
    obtain ⟨text, htext⟩ := exists_joins hwords
    rw [phrase_of_joins htext] at h
    contradiction
  · rintro rfl
    rfl

theorem phrase_eq_some_iff : phrase words = some text ↔ Joins words text := by
  refine ⟨fun h => ?_, phrase_of_joins⟩
  have hwords : words ≠ [] := by
    rintro rfl
    contradiction
  obtain ⟨text', htext⟩ := exists_joins hwords
  cases (phrase_of_joins htext).symm.trans h
  exact htext

/-! ### What is said of some labels -/

theorem describe?_congr (h : ∀ label, label ∈ others ↔ label ∈ labels) :
    describe? others = describe? labels := by
  rw [describe?, describe?, names_congr h]

theorem describe?_eq_none_iff : describe? labels = none ↔ ∀ label ∈ labels, Internal label := by
  rw [describe?, phrase_eq_none_iff, names_eq_nil_iff]

/-- Terminals that were expected are never passed over in silence. -/
theorem describe?_label_eq_none_iff {terminals : List Terminal} :
    describe? (terminals.map Terminal.label) = none ↔ terminals = [] := by
  rw [describe?_eq_none_iff, List.forall_mem_map, List.eq_nil_iff_forall_not_mem]
  exact forall₂_congr fun t _ => ⟨fun h => h.unlisted t rfl, False.elim⟩

/-- What is said of some labels depends on their set only. Nothing is said if and only if all of them
are internal. Otherwise it is one phrase of the names that they are shown by, each of them once and in
the order of code points. -/
theorem describe?_canonical (labels : List String) :
    (∀ others, (∀ label, label ∈ others ↔ label ∈ labels) →
      describe? others = describe? labels) ∧
    (describe? labels = none ↔ ∀ label ∈ labels, Internal label) ∧
    ∀ text, describe? labels = some text ↔ ∃ words, Lists labels words ∧ Joins words text := by
  refine ⟨fun others => describe?_congr, describe?_eq_none_iff, fun text => ?_⟩
  rw [describe?, phrase_eq_some_iff]
  constructor
  · intro hjoins
    exact ⟨names labels, lists_names labels, hjoins⟩
  · rintro ⟨words, hlists, hjoins⟩
    rwa [← lists_iff.mp hlists]

/-- A terminal twice, an internal label, and a label of no terminal that reads as the name of one. -/
def mixedLabels : List String :=
  ["identificador", "LBRACE", "__ANON_0", "ID", "_ARROW", "LBRACE"]

def mixedOthers : List String := ["_ARROW", "ID", "__ANON_0", "identificador", "LBRACE", "ID"]

theorem describe?_canonical_mixed :
    (∀ label, label ∈ mixedOthers ↔ label ∈ mixedLabels) ∧
    describe? mixedOthers = describe? mixedLabels ∧
    describe? mixedLabels = some "'=>', '\x7b' ou identificador" ∧
    describe? ["__", "__ANON_0"] = none := by
  have hset : ∀ label, label ∈ mixedOthers ↔ label ∈ mixedLabels := by
    simp only [mixedOthers, mixedLabels, List.mem_cons, List.not_mem_nil]
    tauto
  obtain ⟨hsame, -, hsome⟩ := describe?_canonical mixedLabels
  obtain ⟨-, hnone, -⟩ := describe?_canonical ["__", "__ANON_0"]
  have hlists : Lists mixedLabels (["'=>'", "'\x7b'"] ++ ["identificador"]) :=
    lists_iff.mpr (by decide)
  have hinternal : ∀ label ∈ ["__", "__ANON_0"], readable? label = none := by decide
  refine ⟨hset, hsame mixedOthers hset, (hsome _).mpr ⟨_, hlists, ?_⟩, hnone.mpr ?_⟩
  · exact .several "identificador" (by decide)
  · exact fun label hlabel => readable?_eq_none_iff.mp (hinternal label hlabel)

end Expectation

namespace Cause

/-- A message does not show in which order, and how often, it was found what was expected. -/
theorem message_congr {c d : Cause} (hline : c.headline = d.headline)
    (h : ∀ label, label ∈ c.expected ↔ label ∈ d.expected) : c.message = d.message := by
  rw [message, message, Expectation.describe?_congr h, hline]

end Cause

end Cddl

import Mathlib.Data.List.Induction
import Cddl.Proofs.Validation

/-!
The cache keeps the last good analysis of each document. An entry is what the latest successful
validation has found since the document was last closed, whatever has failed after it, and for an
open document whose text is accepted it is the analysis of that text.
-/
namespace Cddl.Session

/-- After `before` a run goes on with an event that leads to a successful validation, and `rest`
holds neither another such event nor the closing of the document. -/
structure LastSuccess (uri : String) (c : Cached) (before : List Event) (e : Event)
    (rest : List Event) : Prop where
  succeeds : (initial.after before).Succeeds uri e c
  unclosed : .closed uri ∉ rest
  last : ∀ mid f tail, rest = mid ++ f :: tail →
    ∀ other, ¬ (initial.after (before ++ e :: mid)).Succeeds uri f other

variable {uri : String} {c : Cached} {before rest events : List Event} {e f : Event}

theorem after_concat (s : Session) (events : List Event) (e : Event) :
    s.after (events ++ [e]) = (s.after events).next e := after_append s events [e]

theorem after_cons_concat :
    initial.after (before ++ e :: (rest ++ [f])) =
      (initial.after (before ++ e :: rest)).next f := by
  rw [← after_concat, List.append_assoc, List.cons_append]

namespace LastSuccess

theorem nil (h : (initial.after before).Succeeds uri e c) : LastSuccess uri c before e [] :=
  ⟨h, List.not_mem_nil, by simp⟩

theorem concat (h : LastSuccess uri c before e rest)
    (hf : ∀ other, ¬ (initial.after (before ++ e :: rest)).Succeeds uri f other)
    (hc : f ≠ .closed uri) : LastSuccess uri c before e (rest ++ [f]) := by
  refine ⟨h.succeeds, ?_, fun mid g tail heq => ?_⟩
  · simpa [h.unclosed] using Ne.symm hc
  · cases tail using List.reverseRecOn with
    | nil =>
      obtain ⟨rfl, rfl⟩ := List.append_inj' heq rfl |>.imp_right List.singleton_inj.mp
      exact hf
    | append_singleton tail g' =>
      rw [← List.cons_append, ← List.append_assoc] at heq
      exact h.last mid g tail (List.append_inj' heq rfl).1

theorem of_concat (h : LastSuccess uri c before e (rest ++ [f])) :
    LastSuccess uri c before e rest :=
  ⟨h.succeeds, fun hmem => h.unclosed (List.mem_append_left _ hmem), fun mid g tail heq =>
    h.last mid g (tail ++ [f]) (by rw [heq, List.append_assoc, List.cons_append])⟩

theorem get?_eq (h : LastSuccess uri c before e rest) :
    (initial.after (before ++ e :: rest)).cache.get? uri = some c := by
  induction rest using List.reverseRecOn with
  | nil =>
    rw [after_concat]
    exact get?_next_of_succeeds h.succeeds
  | append_singleton rest f ih =>
    have hclosed : f ≠ .closed uri := fun heq => h.unclosed (by simp [heq])
    rw [after_cons_concat, get?_next_of_not_succeeds (h.last rest f [] rfl) hclosed]
    exact ih h.of_concat

end LastSuccess

theorem exists_lastSuccess (h : (initial.after events).cache.get? uri = some c) :
    ∃ before e rest, events = before ++ e :: rest ∧ LastSuccess uri c before e rest := by
  induction events using List.reverseRecOn with
  | nil => contradiction
  | append_singleton events f ih =>
    rw [after_concat] at h
    by_cases hf : ∃ other, (initial.after events).Succeeds uri f other
    · obtain ⟨other, hother⟩ := hf
      obtain rfl : other = c :=
        Option.some.inj ((get?_next_of_succeeds hother).symm.trans h)
      exact ⟨events, f, [], rfl, .nil hother⟩
    · -- the entry was there before the event, which does not close the document
      have hclosed : f ≠ .closed uri := by
        rintro rfl
        rw [get?_next_closed] at h
        contradiction
      rw [get?_next_of_not_succeeds (not_exists.mp hf) hclosed] at h
      obtain ⟨before, e, rest, rfl, hlast⟩ := ih h
      refine ⟨before, e, rest ++ [f], by rw [List.append_assoc, List.cons_append], ?_⟩
      exact hlast.concat (not_exists.mp hf) hclosed

/-- Once a validation has succeeded there is an entry until the document is closed. -/
theorem exists_entry (h : (initial.after before).Succeeds uri e c) (hc : .closed uri ∉ rest) :
    ∃ entry, (initial.after (before ++ e :: rest)).cache.get? uri = some entry := by
  induction rest using List.reverseRecOn with
  | nil => exact ⟨c, (LastSuccess.nil h).get?_eq⟩
  | append_singleton rest f ih =>
    obtain ⟨hrest, hf⟩ : .closed uri ∉ rest ∧ f ≠ .closed uri := by
      simpa [eq_comm] using hc
    rw [after_cons_concat]
    by_cases hsucc : ∃ other, (initial.after (before ++ e :: rest)).Succeeds uri f other
    · obtain ⟨other, hother⟩ := hsucc
      exact ⟨other, get?_next_of_succeeds hother⟩
    · rw [get?_next_of_not_succeeds (not_exists.mp hsucc) hf]
      exact ih hrest

/-! ### Open documents -/

/-- What a validation of an open document would yield now is in the cache. -/
def Current (s : Session) : Prop :=
  ∀ uri ∈ s.opened, ∀ c, s.analysis? uri = some c → s.cache.get? uri = some c

theorem Current.next {s : Session} (h : s.Current) (e : Event) : (s.next e).Current := by
  intro uri hopen c hc
  rcases next_cases s uri e with ⟨t, hv⟩ | rfl | ⟨v, rfl, hmem⟩ | hsame
  · rw [analysis?_next_of_validates hv] at hc
    rw [get?_next_of_validates hv, hc, Option.some_or]
  · simp [Session.next] at hopen
  · -- new settings open no document
    rw [Session.next, (validate_all _ _).2.2] at hopen
    exact absurd hopen hmem
  · rw [hsame.analysis?_eq] at hc
    rw [hsame.cached]
    exact h uri (hsame.mem_opened_iff.mp hopen) c hc

theorem current_after (events : List Event) : (initial.after events).Current := by
  induction events using List.reverseRecOn with
  | nil =>
    intro uri hopen
    contradiction
  | append_singleton events e ih =>
    rw [after_concat]
    exact ih.next e

/-- The cache tracks the last good text of every document, in every run. An entry is what the latest
successful validation has found, if the document was not closed after it; there is one if and only
if some validation has succeeded since the document was last closed; a validation that is disabled,
misses the document or fails does not change it; and while validation is on, an open document
whose text is accepted has the rules of its text and its version there. -/
theorem cache_after (events : List Event) (uri : String) :
    (∀ c, (initial.after events).cache.get? uri = some c ↔
      ∃ before e rest, events = before ++ e :: rest ∧ LastSuccess uri c before e rest) ∧
    ((∃ c, (initial.after events).cache.get? uri = some c) ↔
      ∃ before e rest, events = before ++ e :: rest ∧
        (∃ c, (initial.after before).Succeeds uri e c) ∧ .closed uri ∉ rest) ∧
    (∀ e t, (initial.after events).Validates uri e t → t.Yields uri none →
      (initial.after (events ++ [e])).cache.get? uri =
        (initial.after events).cache.get? uri) ∧
    ((initial.after events).settings.validate = true → uri ∈ (initial.after events).opened →
      ∀ d rules, (initial.after events).documents.get? uri = some d →
        Document.parse d.text = .ok rules →
        (initial.after events).cache.get? uri = some ⟨rules, d.version⟩) := by
  refine ⟨fun c => ⟨exists_lastSuccess, ?_⟩, ⟨?_, ?_⟩, ?_, ?_⟩
  · rintro ⟨before, e, rest, rfl, hlast⟩
    exact hlast.get?_eq
  · rintro ⟨c, hc⟩
    obtain ⟨before, e, rest, heq, hlast⟩ := exists_lastSuccess hc
    exact ⟨before, e, rest, heq, ⟨c, hlast.succeeds⟩, hlast.unclosed⟩
  · rintro ⟨before, e, rest, rfl, ⟨c, hc⟩, hclosed⟩
    exact exists_entry hc hclosed
  · intro e t hv hy
    rw [after_concat]
    exact get?_next_of_yields_none hv hy
  · intro hv hopen d rules hd hp
    exact current_after events uri hopen _ (Yields.succeeded hv hd hp).eq_analysis?

/-- A text that is accepted, and then one that is not. -/
theorem cache_after_failure :
    let opening : Event := .opened "a.cddl" (some ⟨['a', '=', '1'], some 1⟩)
    let change : Event := .changed "a.cddl" (some ⟨['a', '=', 'b'], some 2⟩)
    (initial.after [opening, change]).cache.get? "a.cddl" =
      some ⟨[.type ⟨"a", ⟨0, 1⟩⟩ ⟨0, 3⟩ none], some 1⟩ := by
  intro opening change
  have haccepted : Document.parse ['a', '=', '1'] = .ok [.type ⟨"a", ⟨0, 1⟩⟩ ⟨0, 3⟩ none] := by
    decide +kernel
  have hrejected : Document.parse ['a', '=', 'b'] = .error [⟨.undefinedName "b", ⟨2, 3⟩⟩] := by
    decide +kernel
  have hvalidate : (initial.after [opening]).settings.validate = true := by
    simp [opening, after, next, initial, Settings.default]
  obtain ⟨-, -, hkept, hcurrent⟩ := cache_after [opening] "a.cddl"
  have hchanged := hkept change _ (.changed _)
    (.failed (by simpa using hvalidate) (Table.get?_put_self _ _ _) hrejected)
  refine hchanged.trans (hcurrent hvalidate ?_ ⟨_, some 1⟩ _ ?_ haccepted)
  · simp [opening, after, next, mem_markOpen]
  · simp [opening, after, next, store, Table.get?_put_self]

end Cddl.Session

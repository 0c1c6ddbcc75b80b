import Cddl.Document.Rule

/-!
Tables by document, and the last analyses without problems. An analysis stays until a later one
takes its place, or its document is closed.
-/
namespace Cddl

/-- Values by document; a document has one value at most. -/
abbrev Table (α : Type) := List (String × α)

namespace Table

variable {α : Type}

def get? (t : Table α) (uri : String) : Option α := t.lookup uri

def erase (t : Table α) (uri : String) : Table α := t.filter (·.1 != uri)

def put (t : Table α) (uri : String) (a : α) : Table α := (uri, a) :: t.erase uri

def uris (t : Table α) : List String := t.map (·.1)

theorem get?_erase_self (t : Table α) (uri : String) : (t.erase uri).get? uri = none := by
  induction t with
  | nil => rfl
  | cons e rest ih =>
    obtain ⟨key, a⟩ := e
    by_cases h : key = uri
    · simpa [erase, get?, h] using ih
    · simpa [erase, get?, List.lookup_cons, h, beq_false_of_ne (Ne.symm h)] using ih

theorem get?_erase_of_ne (t : Table α) {uri other : String} (h : other ≠ uri) :
    (t.erase uri).get? other = t.get? other := by
  induction t with
  | nil => rfl
  | cons e rest ih =>
    obtain ⟨key, a⟩ := e
    by_cases hk : key = uri
    · subst hk
      simpa [erase, get?, List.lookup_cons, beq_false_of_ne h] using ih
    · by_cases ho : other = key
      · simp [erase, get?, hk, ho]
      · simpa [erase, get?, List.lookup_cons, hk, beq_false_of_ne ho] using ih

theorem get?_put_self (t : Table α) (uri : String) (a : α) : (t.put uri a).get? uri = some a := by
  simp [put, get?]

theorem get?_put_of_ne (t : Table α) {uri other : String} (a : α) (h : other ≠ uri) :
    (t.put uri a).get? other = t.get? other := by
  have hne : (other == uri) = false := by simp [h]
  rw [← get?_erase_of_ne t h]
  simp [put, get?, List.lookup_cons, hne]

theorem mem_uris_iff {t : Table α} {uri : String} : uri ∈ t.uris ↔ t.get? uri ≠ none := by
  simp only [uris, get?, ne_eq, List.lookup_eq_none_iff, List.mem_map, bne_iff_ne]
  constructor
  · rintro ⟨e, he, rfl⟩ hall
    exact hall e he rfl
  · intro h
    refine Classical.byContradiction fun hnot => h fun e he heq => ?_
    exact hnot ⟨e, he, heq.symm⟩

end Table

/-- The rules of an analysis, with the version of the document that it read. -/
structure Cached where
  rules : List Rule
  version : Option Int
deriving DecidableEq, Repr

namespace Cached

/-- The document is known to have moved on since. -/
def isStale (c : Cached) (version : Option Int) : Bool :=
  match c.version, version with
  | some mine, some current => mine < current
  | _, _ => false

end Cached

end Cddl

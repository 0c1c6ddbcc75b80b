import Cddl.Proofs.Publication
import Cddl.Proofs.Validation

/-!
Closing a document leaves nothing behind. As long as changes are sent for open documents only, the
cache knows open documents only, and nothing stays published for a document that is not open.
-/
namespace Cddl.Session

/-- The event may be sent in this state: a change is for a document that is open. -/
def Admits (s : Session) : Event → Prop
  | .changed uri _ => uri ∈ s.opened
  | _ => True

/-- Each event may be sent in the state in which it is sent. -/
def Orderly (s : Session) : List Event → Prop
  | [] => True
  | e :: rest => s.Admits e ∧ Orderly (s.next e) rest

/-- Neither the cache nor what is published says anything of documents that are not open. -/
structure Cleared (s : Session) (ps : List Publication) : Prop where
  cached : ∀ uri, uri ∉ s.opened → s.cache.get? uri = none
  published : ∀ uri, uri ∉ s.opened → ∀ ds, lastPublished? uri ps = some ds → ds = []

variable {s : Session} {uri : String} {e : Event} {ps : List Publication}
  {events before : List Event}

theorem Orderly.front (h : s.Orderly events) (hb : before <+: events) : s.Orderly before := by
  induction before generalizing s events with
  | nil => trivial
  | cons e before ih =>
    obtain ⟨rest, rfl⟩ := hb
    exact ⟨h.1, ih h.2 (List.prefix_append before rest)⟩

/-- A document that is not open after an event has just been closed, or the event has nothing to do
with it. -/
theorem unopened_next (he : s.Admits e) (ho : uri ∉ (s.next e).opened) :
    e = .closed uri ∨ uri ∉ s.opened ∧ (s.next e).cache.get? uri = s.cache.get? uri ∧
      ∀ p ∈ s.published e, p.uri ≠ uri := by
  cases e with
  | opened other d? =>
    obtain ⟨hmem, hne⟩ : uri ∉ s.opened ∧ uri ≠ other := by
      simpa [next, mem_markOpen] using ho
    have hcache := (SameFor.validate_of_ne ((s.store other d?).markOpen other) hne).cached
    exact .inr ⟨hmem, by simpa [next] using hcache, by simpa [Session.published] using hne.symm⟩
  | changed other d? =>
    have hmem : uri ∉ s.opened := by simpa [next] using ho
    have hne : uri ≠ other := fun heq => hmem (heq ▸ he)
    have hcache := (SameFor.validate_of_ne (s.store other d?) hne).cached
    exact .inr ⟨hmem, by simpa [next] using hcache, by simpa [Session.published] using hne.symm⟩
  | closed other =>
    by_cases heq : uri = other
    · exact .inl (heq ▸ rfl)
    · have hmem : uri ∉ s.opened := by simpa [next, heq] using ho
      exact .inr ⟨hmem, Table.get?_erase_of_ne s.cache heq,
        by simpa [Session.published] using Ne.symm heq⟩
  | configured settings? =>
    cases settings? with
    | none => exact .inr ⟨ho, rfl, by simp [Session.published]⟩
    | some v =>
      have hmem : uri ∉ s.opened := by simpa [next, (validate_all _ _).2.2] using ho
      refine .inr ⟨hmem, by simp [next, get?_validate_all, hmem], fun p hp heq => ?_⟩
      obtain ⟨other, hother, rfl⟩ := List.mem_map.mp hp
      rw [diagnose_uri] at heq
      exact hmem (heq ▸ hother)
  | _ => exact .inr ⟨ho, rfl, by simp [Session.published]⟩

theorem Cleared.next (h : s.Cleared ps) (he : s.Admits e) :
    (s.next e).Cleared (ps ++ s.published e) := by
  constructor
  · intro uri ho
    rcases unopened_next he ho with rfl | ⟨hmem, hcache, -⟩
    · exact get?_next_closed s uri
    · rw [hcache]
      exact h.cached uri hmem
  · intro uri ho ds hds
    rcases unopened_next he ho with rfl | ⟨hmem, -, hnone⟩
    · -- closing a document takes back what was published for it
      have hlast : lastPublished? uri (ps ++ s.published (.closed uri)) = some [] :=
        lastPublished?_singleton rfl
      rw [hlast] at hds
      exact (Option.some.inj hds).symm
    · rw [lastPublished?_of_ne hnone] at hds
      exact h.published uri hmem ds hds

theorem Cleared.after (h : s.Cleared ps) (ho : s.Orderly events) :
    (s.after events).Cleared (ps ++ s.publications events) := by
  induction events generalizing s ps with
  | nil => simpa [Session.after, publications] using h
  | cons e rest ih =>
    have hrest := ih (h.next ho.1) ho.2
    rwa [List.append_assoc] at hrest

theorem cleared_initial : initial.Cleared [] := ⟨fun _ _ => rfl, by simp [lastPublished?]⟩

/-- Closing leaves nothing behind: in every state that a run reaches in which changes are sent for
open documents only, all documents in the cache are open, and for a document that is not open the
list that was published last, if there was any, is empty. -/
theorem nothing_left_behind (h : initial.Orderly events) (hb : before <+: events) :
    (∀ uri ∈ (initial.after before).cache.uris, uri ∈ (initial.after before).opened) ∧
    ∀ uri, uri ∉ (initial.after before).opened →
      ∀ ds, lastPublished? uri (initial.publications before) = some ds → ds = [] := by
  obtain ⟨hcached, hpublished⟩ := cleared_initial.after (h.front hb)
  rw [List.nil_append] at hpublished
  refine ⟨fun uri hmem => ?_, hpublished⟩
  by_contra hclosed
  exact Table.mem_uris_iff.mp hmem (hcached uri hclosed)

/-- Two documents are open, one of them with an undefined name and the other one without a text; the
first one is changed and closed, a third one is closed that was never open, and the settings
change. -/
theorem nothing_left_behind_closed :
    let events : List Event := [
      .opened "a.cddl" (some ⟨['a', '=', 'b'], some 1⟩),
      .opened "b.cddl" none,
      .changed "a.cddl" (some ⟨['a', '=', 'c'], some 2⟩),
      .closed "a.cddl",
      .closed "c.cddl",
      .configured (some (.obj []))]
    initial.Orderly events ∧
    "a.cddl" ∉ (initial.after events).opened ∧ "b.cddl" ∈ (initial.after events).opened ∧
    (∀ uri ∈ (initial.after events).cache.uris, uri ∈ (initial.after events).opened) ∧
    lastPublished? "a.cddl" (initial.publications events) = some [] := by
  intro events
  have horderly : initial.Orderly events := by
    simp [events, Orderly, Admits, next, mem_markOpen]
  have hclosed : "a.cddl" ∉ (initial.after events).opened := by
    simp [events, after, next, (validate_all _ _).2.2]
  have hopen : "b.cddl" ∈ (initial.after events).opened := by
    simp [events, after, next, (validate_all _ _).2.2, mem_markOpen]
  obtain ⟨hcached, hpublished⟩ := nothing_left_behind horderly List.prefix_rfl
  refine ⟨horderly, hclosed, hopen, hcached, ?_⟩
  cases hlast : lastPublished? "a.cddl" (initial.publications events) with
  | none => simp [events, lastPublished?, publications, Session.published] at hlast
  | some ds => rw [hpublished "a.cddl" hclosed ds hlast]

end Cddl.Session

import Cddl.Proofs.Validation

/-!
Documents do not interfere. What a run has to do with one document depends on the events for that
document and on the settings only: not on the events for other documents, nor on how they are
interleaved with these, nor on the order in which open documents are visited when the settings
change.
-/
namespace Cddl

/-- The event addresses the document, or none in particular. -/
def Event.concerns (uri : String) : Event → Bool
  | opened other _ | changed other _ | closed other => other == uri
  | complete other _ | hover other _ | definition other _ | outline other => other == uri
  | configured _ | resolve _ => true

namespace Session

/-- A step of a run: the states before and after it, and what it leads to being published. -/
structure Moment where
  before : Session
  event : Event
  after : Session
  published : List Publication

/-- All that a step has to do with one document. -/
structure View where
  event : Event
  published : List Publication
  answer : Answer
  document : Option TextDocument
  isOpen : Bool
  cached : Option Cached
  settings : Settings

def Moment.view (uri : String) (m : Moment) : View where
  event := m.event
  published := m.published.filter (·.uri = uri)
  answer := m.before.answer m.event
  document := m.after.documents.get? uri
  isOpen := decide (uri ∈ m.after.opened)
  cached := m.after.cache.get? uri
  settings := m.after.settings

/-- What the steps that do not address other documents have to do with this one. -/
def views (uri : String) (ms : List Moment) : List View :=
  (ms.filter (·.event.concerns uri)).map (·.view uri)

/-- The step that an event is. -/
def moment (s : Session) (e : Event) : Moment := ⟨s, e, s.next e, s.published e⟩

/-- The steps that a sequence of events makes. -/
def moments (s : Session) : List Event → List Moment
  | [] => []
  | e :: rest => s.moment e :: moments (s.next e) rest

/-- The step that changes the settings and visits documents in the given order. -/
def visiting (s : Session) (v : Json) (order : List String) : Moment :=
  ⟨s, .configured (some v), order.foldl validate { s with settings := .ofJson v },
    order.map { s with settings := .ofJson v }.diagnose⟩

/-- A step in which, if it changes the settings, the open documents are visited in any order. -/
inductive Step (s : Session) : Moment → Prop where
  | configured (v : Json) {order : List String} : order.Perm s.opened → Step s (s.visiting v order)
  | other (e : Event) : (∀ v, e ≠ .configured (some v)) → Step s (s.moment e)

/-- Steps that follow each other from a state on. -/
inductive Run : Session → List Moment → Prop where
  | done (s : Session) : Run s []
  | step {s : Session} {m : Moment} {rest : List Moment} :
    Step s m → Run m.after rest → Run s (m :: rest)

section

variable {s t : Session} {uri : String} {e : Event} {m : Moment}

theorem step_moment (s : Session) (e : Event) : Step s (s.moment e) := by
  by_cases h : ∃ v, e = .configured (some v)
  · obtain ⟨v, rfl⟩ := h
    exact .configured v (.refl s.opened)
  · exact .other e (not_exists.mp h)

theorem run_moments (s : Session) (events : List Event) : Run s (s.moments events) := by
  induction events generalizing s with
  | nil => exact .done s
  | cons e rest ih => exact .step (step_moment s e) (ih (s.next e))

theorem map_event_moments (s : Session) (events : List Event) :
    (s.moments events).map (·.event) = events := by
  induction events generalizing s with
  | nil => rfl
  | cons e rest ih => exact congrArg (e :: ·) (ih (s.next e))

/-! ### Events for other documents -/

theorem Validates.concerns (h : s.Validates uri e t) : e.concerns uri = true := by
  cases h <;> simp [Event.concerns]

/-- An event for another document changes nothing for this one. -/
theorem Step.same_of_not_concerns (h : Step s m) (hm : m.event.concerns uri = false) :
    SameFor uri m.after s := by
  cases h with
  | configured v hperm => simp [visiting, Event.concerns] at hm
  | other e he =>
    rcases next_cases s uri e with ⟨t, hv⟩ | rfl | ⟨v, rfl, -⟩ | hsame
    · simp [moment, hv.concerns] at hm
    · simp [moment, Event.concerns] at hm
    · exact absurd rfl (he v)
    · exact hsame

/-! ### Events for the document -/

namespace SameFor

theorem store (h : SameFor uri s t) (d? : Option TextDocument) :
    SameFor uri (s.store uri d?) (t.store uri d?) := by
  refine ⟨?_, by simpa using h.settings, by simpa using h.cached, by simpa using h.opened⟩
  cases d? with
  | none => exact h.document
  | some d => exact (Table.get?_put_self ..).trans (Table.get?_put_self ..).symm

theorem markOpen (h : SameFor uri s t) : SameFor uri (s.markOpen uri) (t.markOpen uri) := by
  refine ⟨by simpa using h.document, by simpa using h.settings, by simpa using h.cached, ?_⟩
  by_cases ho : uri ∈ s.opened
  · simpa [Session.markOpen, ho, h.mem_opened_iff.mp ho] using h.opened
  · simpa [Session.markOpen, ho, mt h.mem_opened_iff.mpr ho] using h.opened

theorem validate (h : SameFor uri s t) : SameFor uri (s.validate uri) (t.validate uri) := by
  refine ⟨by simpa using h.document, by simpa using h.settings, ?_, by simpa using h.opened⟩
  rw [get?_validate, get?_validate, h.analysis?_eq, h.cached]

/-- It does not matter in which order documents are validated. -/
theorem validate_all (h : SameFor uri s t) {us vs : List String}
    (hmem : uri ∈ us ↔ uri ∈ vs) :
    SameFor uri (us.foldl Session.validate s) (vs.foldl Session.validate t) := by
  obtain ⟨hd, hs, ho⟩ := Session.validate_all s us
  obtain ⟨hd', hs', ho'⟩ := Session.validate_all t vs
  refine ⟨hd ▸ hd' ▸ h.document, hs ▸ hs' ▸ h.settings, ?_, ho ▸ ho' ▸ h.opened⟩
  simp only [get?_validate_all, hmem, h.analysis?_eq, h.cached]

theorem close (h : SameFor uri s t) : SameFor uri (s.next (.closed uri)) (t.next (.closed uri)) := by
  refine ⟨?_, h.settings, ?_, ?_⟩
  · exact (Table.get?_erase_self ..).trans (Table.get?_erase_self ..).symm
  · exact (Table.get?_erase_self ..).trans (Table.get?_erase_self ..).symm
  · have hzero (u : Session) : (u.next (.closed uri)).opened.count uri = 0 :=
      List.count_eq_zero.mpr (by simp [next])
    rw [hzero, hzero]

theorem configure (h : SameFor uri s t) (v : Json) :
    SameFor uri { s with settings := .ofJson v } { t with settings := .ofJson v } :=
  ⟨h.document, rfl, h.cached, h.opened⟩

theorem answer_eq (h : SameFor uri s t) (he : e.concerns uri = true) :
    s.answer e = t.answer e := by
  have htext : s.textOf? uri = t.textOf? uri := by rw [textOf?, textOf?, h.document]
  have hrules : s.rulesOf? uri = t.rulesOf? uri := by rw [rulesOf?, rulesOf?, h.cached]
  cases e with
  | complete other p | hover other p | definition other p | outline other =>
    obtain rfl : other = uri := by simpa [Event.concerns] using he
    simp [answer, htext, hrules]
  | _ => rfl

theorem diagnose_eq (h : SameFor uri s t) : s.diagnose uri = t.diagnose uri :=
  diagnose_congr h.settings h.document

end SameFor

/-- A step of either kind is seen in the same way if the document is the same before and after it. -/
theorem Moment.view_eq {m m' : Moment} (h : SameFor uri m.before m'.before)
    (h' : SameFor uri m.after m'.after) (hevent : m.event = m'.event)
    (he : m.event.concerns uri = true)
    (hpub : m.published.filter (·.uri = uri) = m'.published.filter (·.uri = uri)) :
    m.view uri = m'.view uri := by
  have hanswer := h.answer_eq he
  rw [hevent] at hanswer
  simp only [view, hevent, hpub, hanswer, h'.document, h'.mem_opened_iff, h'.cached, h'.settings]

/-- Where a document is the same, an event for it has the same effect on it. -/
theorem SameFor.next (h : SameFor uri s t) (he : e.concerns uri = true) :
    SameFor uri (s.next e) (t.next e) := by
  cases e with
  | opened other d? =>
    obtain rfl : other = uri := by simpa [Event.concerns] using he
    exact ((h.store d?).markOpen).validate
  | changed other d? =>
    obtain rfl : other = uri := by simpa [Event.concerns] using he
    exact (h.store d?).validate
  | closed other =>
    obtain rfl : other = uri := by simpa [Event.concerns] using he
    exact h.close
  | configured settings? =>
    cases settings? with
    | none => exact h
    | some v => exact (h.configure v).validate_all h.mem_opened_iff
  | _ => exact h

theorem SameFor.published_eq (h : SameFor uri s t) (he : e.concerns uri = true) :
    (s.published e).filter (·.uri = uri) = (t.published e).filter (·.uri = uri) := by
  cases e with
  | opened other d? =>
    obtain rfl : other = uri := by simpa [Event.concerns] using he
    simp only [published, (h.store d?).diagnose_eq]
  | changed other d? =>
    obtain rfl : other = uri := by simpa [Event.concerns] using he
    simp only [published, (h.store d?).diagnose_eq]
  | configured settings? =>
    cases settings? with
    | none => rfl
    | some v =>
      simp only [published, filter_map_uri (diagnose_uri _), (h.configure v).diagnose_eq, h.opened]
  | _ => rfl

/-- Whatever the order in which the open documents are visited, a document sees the same step. -/
theorem Step.same (uri : String) (h : Step s m) :
    SameFor uri m.after (s.next m.event) ∧ m.before = s ∧
      m.published.filter (·.uri = uri) = (s.published m.event).filter (·.uri = uri) := by
  cases h with
  | configured v hperm =>
    refine ⟨(SameFor.refl uri _).validate_all hperm.mem_iff, rfl, ?_⟩
    simp only [visiting, published, filter_map_uri (diagnose_uri _), hperm.count_eq]
  | other e => exact ⟨.refl uri _, rfl, rfl⟩

theorem SameFor.step (h : SameFor uri s t) (hm : Step s m) (he : m.event.concerns uri = true) :
    SameFor uri m.after (t.next m.event) ∧ m.view uri = (t.moment m.event).view uri := by
  obtain ⟨hafter, hbefore, hpub⟩ := hm.same uri
  have hsame := hafter.trans (h.next he)
  refine ⟨hsame, Moment.view_eq (hbefore ▸ h) hsame rfl he ?_⟩
  exact hpub.trans (h.published_eq he)

/-- Every run has as much to do with a document as the run of the events for it alone. -/
theorem Run.views_eq {ms : List Moment} (h : Run s ms) (hst : SameFor uri s t) :
    views uri ms = views uri (t.moments ((ms.map (·.event)).filter (·.concerns uri))) := by
  -- Both runs keep the document the same: an event for it moves both on, any other only the first.
  induction h generalizing t with
  | done => rfl
  | @step s m rest hm _ ih =>
    by_cases he : m.event.concerns uri = true
    · obtain ⟨hsame, hview⟩ := hst.step hm he
      have hrest := ih hsame
      simp only [views] at hrest ⊢
      simp [moments, he, hview, hrest, show (t.moment m.event).event = m.event from rfl]
    · rw [Bool.not_eq_true] at he
      have hsame := (hm.same_of_not_concerns he).trans hst
      simpa [views, he] using ih hsame

/-- Documents do not interfere, in any run and for any document. Leaving out the events that address
other documents changes nothing of what the run has to do with this one: what is published for it
and what is answered at each remaining step, whether it is open, its cache entry and the settings.
Neither does it matter how the events for several documents are interleaved, nor in which order
the open documents are visited when the settings change. -/
theorem views_isolated (uri : String) (events : List Event) :
    views uri (initial.moments (events.filter (·.concerns uri))) =
      views uri (initial.moments events) ∧
    (∀ others, others.filter (·.concerns uri) = events.filter (·.concerns uri) →
      views uri (initial.moments others) = views uri (initial.moments events)) ∧
    ∀ ms, Run initial ms → ms.map (·.event) = events →
      views uri ms = views uri (initial.moments events) := by
  have hrun {ms : List Moment} (h : Run initial ms) := h.views_eq (.refl uri initial)
  have hevents (es : List Event) : views uri (initial.moments es) =
      views uri (initial.moments (es.filter (·.concerns uri))) := by
    rw [hrun (run_moments initial es), map_event_moments]
  refine ⟨(hevents events).symm, fun others heq => ?_, fun ms hms heq => ?_⟩
  · rw [hevents others, heq, ← hevents events]
  · rw [hrun hms, heq, ← hevents events]

end

/-- Two open documents, visited in the other order when validation is switched off; for one of them
it is as if the other had never been opened. -/
theorem views_isolated_visiting :
    let openings : List Event := [.opened "a.cddl" none, .opened "b.cddl" none]
    let off : Json := .obj [("validation", .obj [("enabled", .bool false)])]
    let run := initial.moments openings ++
      [(initial.after openings).visiting off ["b.cddl", "a.cddl"]]
    Run initial run ∧ run.map (·.event) = openings ++ [.configured (some off)] ∧
      views "b.cddl" run =
        views "b.cddl" (initial.moments [.opened "b.cddl" none, .configured (some off)]) := by
  intro openings off run
  have hperm : ["b.cddl", "a.cddl"].Perm (initial.after openings).opened := by
    have hopened : (initial.after openings).opened = ["a.cddl", "b.cddl"] := by
      simp [openings, after, next, markOpen, initial]
    rw [hopened]
    exact .swap _ _ _
  have hrun : Run initial run :=
    .step (step_moment _ _) (.step (step_moment _ _) (.step (.configured off hperm) (.done _)))
  obtain ⟨hremoved, -, hordered⟩ := views_isolated "b.cddl" (openings ++ [.configured (some off)])
  exact ⟨hrun, rfl, (hordered run hrun rfl).trans hremoved.symm⟩

end Session

end Cddl

import Mathlib.Data.List.Induction
import Cddl.Proofs.Run

/-!
Published diagnostics are never out of date. At every moment of a run the list that was published
last for an open document is the one that its text and the settings call for.
-/
namespace Cddl.Session

/-- The diagnostics that were published last for a document, if any were. -/
def lastPublished? (uri : String) (ps : List Publication) : Option (List Diagnostic) :=
  ((ps.filter (·.uri = uri)).getLast?).map (·.diagnostics)

/-- The diagnostics that a state calls for: nothing while validation is off, the failure to find a
document that is missing, and else what is wrong with its text, as far as the settings allow. -/
inductive CallsFor (s : Session) (uri : String) : List Diagnostic → Prop where
  | disabled : s.settings.validate = false → CallsFor s uri []
  | missing : s.settings.validate = true → s.documents.get? uri = none →
      CallsFor s uri [.internal (String.ofList (Quoted.encode uri.toList))]
  | valid {d rules} : s.settings.validate = true → s.documents.get? uri = some d →
      Document.parse d.text = .ok rules → CallsFor s uri []
  | invalid {d problems} : s.settings.validate = true → s.documents.get? uri = some d →
      Document.parse d.text = .error problems →
      CallsFor s uri (Diagnostic.ofProblems d.text s.settings.maxProblems problems)

theorem callsFor_diagnose (s : Session) (uri : String) :
    s.CallsFor uri (s.diagnose uri).diagnostics := by
  unfold diagnose
  split
  next hv =>
    split
    next hd => exact .missing hv hd
    next d hd =>
      split
      next hp => exact .valid hv hd hp
      next hp => exact .invalid hv hd hp
  next hv => exact .disabled (Bool.not_eq_true _ ▸ hv)

/-- A state calls for one list only. -/
theorem CallsFor.eq_diagnose {s : Session} {uri : String} {ds : List Diagnostic}
    (h : s.CallsFor uri ds) : ds = (s.diagnose uri).diagnostics := by
  cases h with
  | disabled hv => simp [diagnose, hv]
  | missing hv hd => simp [diagnose, hv, hd, Session.missing]
  | valid hv hd hp => simp [diagnose, hv, hd, hp]
  | invalid hv hd hp => simp [diagnose, hv, hd, hp]

section

variable {uri : String} {ps qs : List Publication}

theorem lastPublished?_append :
    lastPublished? uri (ps ++ qs) = (lastPublished? uri qs).or (lastPublished? uri ps) := by
  simp [lastPublished?, List.getLast?_append, Option.map_or]

theorem lastPublished?_of_ne (h : ∀ p ∈ qs, p.uri ≠ uri) :
    lastPublished? uri (ps ++ qs) = lastPublished? uri ps := by
  have hnone : qs.filter (·.uri = uri) = [] := by simpa using h
  simp [lastPublished?, hnone]

theorem lastPublished?_singleton {p : Publication} (h : p.uri = uri) :
    lastPublished? uri (ps ++ [p]) = some p.diagnostics := by
  simp [lastPublished?, h]

/-- Publishing for each of some documents leaves each of them with its own publication. -/
theorem lastPublished?_map {f : String → Publication} (hf : ∀ u, (f u).uri = u)
    {uris : List String} (h : uri ∈ uris) :
    lastPublished? uri (ps ++ uris.map f) = some (f uri).diagnostics := by
  have hpos : 0 < uris.count uri := List.count_pos_iff.mpr h
  rw [lastPublished?_append, lastPublished?, filter_map_uri hf, List.getLast?_replicate,
    if_neg (Nat.ne_of_gt hpos)]
  rfl

end

/-- What was published last for each open document is what the state has to say about it. -/
def UpToDate (s : Session) (ps : List Publication) : Prop :=
  ∀ uri ∈ s.opened, lastPublished? uri ps = some (s.diagnose uri).diagnostics

/-- A validation of one document brings it up to date, and leaves the others as they are. -/
theorem UpToDate.validated {s t : Session} {ps : List Publication} {uri : String}
    (h : s.UpToDate ps) (hs : t.settings = s.settings)
    (hd : ∀ other ≠ uri, t.documents.get? other = s.documents.get? other)
    (ho : ∀ other ∈ t.opened, other ∈ s.opened ∨ other = uri) :
    t.UpToDate (ps ++ [t.diagnose uri]) := by
  intro other hmem
  by_cases heq : other = uri
  · subst heq
    exact lastPublished?_singleton (diagnose_uri t other)
  · rw [lastPublished?_of_ne (by simpa using Ne.symm heq), diagnose_congr hs (hd other heq)]
    exact h other ((ho other hmem).resolve_right heq)

theorem UpToDate.next {s : Session} {ps : List Publication} (h : s.UpToDate ps) (e : Event) :
    (s.next e).UpToDate (ps ++ s.published e) := by
  cases e with
  | opened uri d? =>
    -- what is wrong with a document is said before it is marked as open, and is the same after
    have heq : (s.store uri d?).diagnose uri = (s.next (.opened uri d?)).diagnose uri :=
      diagnose_congr (by simp [Session.next]) (by simp [Session.next])
    rw [published, heq]
    refine h.validated (by simp [Session.next]) (fun other hne => ?_) (fun other hmem => ?_)
    · simpa [Session.next] using get?_store_of_ne s d? hne
    · simpa [Session.next, mem_markOpen] using hmem
  | changed uri d? =>
    have heq : (s.store uri d?).diagnose uri = (s.next (.changed uri d?)).diagnose uri :=
      diagnose_congr (by simp [Session.next]) (by simp [Session.next])
    rw [published, heq]
    refine h.validated (by simp [Session.next]) (fun other hne => ?_) (fun other hmem => ?_)
    · simpa [Session.next] using get?_store_of_ne s d? hne
    · exact .inl (by simpa [Session.next] using hmem)
  | closed uri =>
    -- the empty list is sent for a document that is open no longer
    intro other hmem
    obtain ⟨hopen, hne⟩ : other ∈ s.opened ∧ other ≠ uri := by
      simpa [Session.next] using hmem
    have heq : (s.next (.closed uri)).diagnose other = s.diagnose other :=
      diagnose_congr rfl (Table.get?_erase_of_ne s.documents hne)
    rw [published, lastPublished?_of_ne (by simpa using Ne.symm hne), h other hopen, heq]
  | configured settings? =>
    cases settings? with
    | none => simpa [published, Session.next] using h
    | some v =>
      -- validating one open document changes nothing that is said about the next
      intro uri hmem
      obtain ⟨hd, hs, ho⟩ := validate_all { s with settings := .ofJson v } s.opened
      have heq : (s.next (.configured (some v))).diagnose uri =
          ({ s with settings := .ofJson v } : Session).diagnose uri :=
        diagnose_congr hs (congrArg (Table.get? · uri) hd)
      rw [published, heq]
      exact lastPublished?_map (diagnose_uri _) (ho ▸ hmem)
  | _ => simpa [published, Session.next] using h

theorem upToDate_after (events : List Event) :
    (initial.after events).UpToDate (initial.publications events) := by
  induction events using List.reverseRecOn with
  | nil =>
    intro uri hmem
    contradiction
  | append_singleton events e ih =>
    rw [after_append, publications_append]
    simpa [after, publications] using ih.next e

/-- Published diagnostics are never out of date: after any run of events, whatever their order, the
list that was published last for an open document is the one list that the state calls for. -/
theorem lastPublished?_callsFor (events : List Event) (uri : String)
    (h : uri ∈ (initial.after events).opened) :
    ∃ ds, lastPublished? uri (initial.publications events) = some ds ∧
      ∀ other, (initial.after events).CallsFor uri other ↔ other = ds := by
  refine ⟨_, upToDate_after events uri h, fun other => ⟨CallsFor.eq_diagnose, ?_⟩⟩
  rintro rfl
  exact callsFor_diagnose _ _

/-- A document that is opened without its text, changed while validation is off, and validated again
when the settings return. -/
theorem lastPublished?_callsFor_reenabled :
    let events : List Event := [
      .opened "a.cddl" none,
      .configured (some (.obj [("validation", .obj [("enabled", .bool false)])])),
      .changed "a.cddl" (some ⟨"a = b".toList, some 2⟩),
      .configured (some (.obj [("maxNumberOfProblems", .int 1)])),
      .configured none]
    "a.cddl" ∈ (initial.after events).opened ∧
      ∃ ds, lastPublished? "a.cddl" (initial.publications events) = some ds ∧
        ∀ other, (initial.after events).CallsFor "a.cddl" other ↔ other = ds := by
  intro events
  have hopen : "a.cddl" ∈ (initial.after events).opened := by
    simp [events, after, Session.next, (validate_all _ _).2.2, mem_markOpen]
  exact ⟨hopen, lastPublished?_callsFor events "a.cddl" hopen⟩

end Cddl.Session

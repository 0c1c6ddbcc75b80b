import Cddl.Proofs.Run

/-!
Validations in a run. A document is validated when it is opened or changed, and while it is open
whenever the settings change. The cache takes what a validation yields; apart from that an entry
only ever goes away, when its document is closed. What an event does to one document it does to
no other.
-/
namespace Cddl.Session

/-- Two states are the same as far as a document is concerned. -/
structure SameFor (uri : String) (s t : Session) : Prop where
  document : s.documents.get? uri = t.documents.get? uri
  settings : s.settings = t.settings
  cached : s.cache.get? uri = t.cache.get? uri
  opened : s.opened.count uri = t.opened.count uri

/-- The event leads to a validation of the document; `t` holds the documents and the settings that
the validation finds. -/
inductive Validates (s : Session) (uri : String) : Event → Session → Prop where
  | opened (document? : Option TextDocument) :
    Validates s uri (.opened uri document?) ((s.store uri document?).markOpen uri)
  | changed (document? : Option TextDocument) :
    Validates s uri (.changed uri document?) (s.store uri document?)
  | configured (v : Json) : uri ∈ s.opened →
    Validates s uri (.configured (some v)) { s with settings := .ofJson v }

/-- What a validation of the document yields: the rules and the version of the document if it
succeeds, and nothing if it is disabled, misses the document or fails. -/
inductive Yields (s : Session) (uri : String) : Option Cached → Prop where
  | disabled : s.settings.validate = false → Yields s uri none
  | missing : s.settings.validate = true → s.documents.get? uri = none → Yields s uri none
  | failed {d problems} : s.settings.validate = true → s.documents.get? uri = some d →
      Document.parse d.text = .error problems → Yields s uri none
  | succeeded {d rules} : s.settings.validate = true → s.documents.get? uri = some d →
      Document.parse d.text = .ok rules → Yields s uri (some ⟨rules, d.version⟩)

/-- The event leads to a validation of the document that succeeds. -/
def Succeeds (s : Session) (uri : String) (e : Event) (c : Cached) : Prop :=
  ∃ t, s.Validates uri e t ∧ t.Yields uri (some c)

section

variable {s t u : Session} {uri other : String} {e : Event} {c : Cached}

/-! ### What a validation yields -/

theorem Yields.eq_analysis? {c? : Option Cached} (h : s.Yields uri c?) : s.analysis? uri = c? := by
  cases h with
  | disabled hv => simp [analysis?, hv]
  | missing hv hd => simp [analysis?, hv, hd]
  | failed hv hd hp => simp [analysis?, hv, hd, hp]
  | succeeded hv hd hp => simp [analysis?, hv, hd, hp]

theorem yields_analysis? (s : Session) (uri : String) : s.Yields uri (s.analysis? uri) := by
  unfold analysis?
  split
  next hv =>
    split
    next hd => exact .missing hv hd
    next d hd =>
      split
      next hp => exact .succeeded hv hd hp
      next hp => exact .failed hv hd hp
  next hv => exact .disabled (Bool.not_eq_true _ ▸ hv)

theorem analysis?_congr (hs : s.settings = t.settings)
    (hd : s.documents.get? uri = t.documents.get? uri) : s.analysis? uri = t.analysis? uri := by
  simp only [analysis?, hs, hd]

theorem get?_validate (s : Session) (uri : String) :
    (s.validate uri).cache.get? uri = (s.analysis? uri).or (s.cache.get? uri) := by
  unfold validate
  split
  next c hc => rw [hc, Table.get?_put_self, Option.some_or]
  next hc => rw [hc, Option.none_or]

/-! ### Other documents -/

namespace SameFor

theorem refl (uri : String) (s : Session) : SameFor uri s s := ⟨rfl, rfl, rfl, rfl⟩

theorem trans (h : SameFor uri s t) (h' : SameFor uri t u) : SameFor uri s u :=
  ⟨h.document.trans h'.document, h.settings.trans h'.settings, h.cached.trans h'.cached,
    h.opened.trans h'.opened⟩

theorem mem_opened_iff (h : SameFor uri s t) : uri ∈ s.opened ↔ uri ∈ t.opened := by
  rw [← List.count_pos_iff, ← List.count_pos_iff, h.opened]

theorem analysis?_eq (h : SameFor uri s t) : s.analysis? uri = t.analysis? uri :=
  analysis?_congr h.settings h.document

theorem store_of_ne (s : Session) (d? : Option TextDocument) (h : uri ≠ other) :
    SameFor uri (s.store other d?) s :=
  ⟨get?_store_of_ne s d? h, by simp, by simp, by simp⟩

theorem markOpen_of_ne (s : Session) (h : uri ≠ other) : SameFor uri (s.markOpen other) s := by
  refine ⟨by simp, by simp, by simp, ?_⟩
  unfold markOpen
  split
  · rfl
  · simp [Ne.symm h]

theorem validate_of_ne (s : Session) (h : uri ≠ other) : SameFor uri (s.validate other) s := by
  refine ⟨by simp, by simp, ?_, by simp⟩
  unfold validate
  split
  · exact Table.get?_put_of_ne s.cache _ h
  · rfl

end SameFor

/-- Documents are validated independently of each other. -/
theorem get?_validate_all (s : Session) (uris : List String) (uri : String) :
    (uris.foldl validate s).cache.get? uri =
      if uri ∈ uris then (s.analysis? uri).or (s.cache.get? uri) else s.cache.get? uri := by
  induction uris generalizing s with
  | nil => rfl
  | cons first uris ih =>
    have hanalysis : (s.validate first).analysis? uri = s.analysis? uri :=
      analysis?_congr (by simp) (by simp)
    rw [List.foldl_cons, ih, hanalysis]
    by_cases h : uri = first
    · subst h
      rw [get?_validate]
      cases s.analysis? uri <;> simp
    · simp [(SameFor.validate_of_ne s h).cached, h]

/-! ### Steps -/

/-- What a step may be for a document: a validation, its closing, new settings while it is not open,
or nothing at all. -/
theorem next_cases (s : Session) (uri : String) (e : Event) :
    (∃ t, s.Validates uri e t) ∨ e = .closed uri ∨
      (∃ v, e = .configured (some v) ∧ uri ∉ s.opened) ∨ SameFor uri (s.next e) s := by
  cases e with
  | opened other d? =>
    by_cases h : uri = other
    · subst h
      exact .inl ⟨_, .opened d?⟩
    · exact .inr (.inr (.inr ((SameFor.validate_of_ne _ h).trans
        ((SameFor.markOpen_of_ne _ h).trans (.store_of_ne s d? h)))))
  | changed other d? =>
    by_cases h : uri = other
    · subst h
      exact .inl ⟨_, .changed d?⟩
    · exact .inr (.inr (.inr ((SameFor.validate_of_ne _ h).trans (.store_of_ne s d? h))))
  | closed other =>
    by_cases h : uri = other
    · exact .inr (.inl (h ▸ rfl))
    · refine .inr (.inr (.inr ⟨Table.get?_erase_of_ne _ h, rfl, Table.get?_erase_of_ne _ h, ?_⟩))
      exact List.count_filter (by simpa using h)
  | configured settings? =>
    cases settings? with
    | none => exact .inr (.inr (.inr (.refl uri s)))
    | some v =>
      by_cases h : uri ∈ s.opened
      · exact .inl ⟨_, .configured v h⟩
      · exact .inr (.inr (.inl ⟨v, rfl, h⟩))
  | _ => exact .inr (.inr (.inr (.refl uri s)))

theorem get?_next_of_validates (h : s.Validates uri e t) :
    (s.next e).cache.get? uri = (t.analysis? uri).or (s.cache.get? uri) := by
  cases h with
  | opened d? => simp [next, get?_validate]
  | changed d? => simp [next, get?_validate]
  | configured v hmem => simp [next, get?_validate_all, hmem]

/-- A validation of one document leaves the documents and the settings as it finds them. -/
theorem analysis?_next_of_validates (h : s.Validates uri e t) :
    (s.next e).analysis? uri = t.analysis? uri := by
  cases h with
  | opened d? => exact analysis?_congr (by simp [next]) (by simp [next])
  | changed d? => exact analysis?_congr (by simp [next]) (by simp [next])
  | configured v hmem =>
    obtain ⟨hd, hs, -⟩ := validate_all { s with settings := .ofJson v } s.opened
    exact analysis?_congr hs (congrArg (Table.get? · uri) hd)

theorem get?_next_closed (s : Session) (uri : String) :
    (s.next (.closed uri)).cache.get? uri = none := Table.get?_erase_self s.cache uri

theorem get?_next_of_succeeds (h : s.Succeeds uri e c) :
    (s.next e).cache.get? uri = some c := by
  obtain ⟨t, hv, hy⟩ := h
  rw [get?_next_of_validates hv, hy.eq_analysis?, Option.some_or]

theorem get?_next_of_yields_none (hv : s.Validates uri e t) (hy : t.Yields uri none) :
    (s.next e).cache.get? uri = s.cache.get? uri := by
  rw [get?_next_of_validates hv, hy.eq_analysis?, Option.none_or]

/-- Only a validation that succeeds puts an entry into the cache, and only a close takes it out. -/
theorem get?_next_of_not_succeeds (h : ∀ c, ¬ s.Succeeds uri e c) (hc : e ≠ .closed uri) :
    (s.next e).cache.get? uri = s.cache.get? uri := by
  rcases next_cases s uri e with ⟨t, hv⟩ | hclosed | ⟨v, rfl, hmem⟩ | hsame
  · refine get?_next_of_yields_none hv ?_
    cases ha : t.analysis? uri with
    | none => exact ha ▸ yields_analysis? t uri
    | some c => exact absurd ⟨t, hv, ha ▸ yields_analysis? t uri⟩ (h c)
  · exact absurd hclosed hc
  · simp [next, get?_validate_all, hmem]
  · exact hsame.cached

end

end Cddl.Session

import Cddl.Service.Session

/-!
Runs of a session: the state that a sequence of events leads to, and all that was published on the
way. Validation touches the cache only, and what has to be published for a document depends on the
settings and on that document only.
-/
namespace Cddl.Session

/-- The state after a sequence of events. -/
def after (s : Session) (events : List Event) : Session := events.foldl next s

/-- What a sequence of events leads to being published, in order. -/
def publications (s : Session) : List Event → List Publication
  | [] => []
  | e :: rest => s.published e ++ publications (s.next e) rest

theorem after_append (s : Session) (a b : List Event) :
    s.after (a ++ b) = (s.after a).after b := List.foldl_append

theorem publications_append (s : Session) (a b : List Event) :
    s.publications (a ++ b) = s.publications a ++ (s.after a).publications b := by
  induction a generalizing s with
  | nil => rfl
  | cons e a ih =>
    simp only [List.cons_append, publications, ih, List.append_assoc]
    rfl

@[simp] theorem validate_documents (s : Session) (uri : String) :
    (s.validate uri).documents = s.documents := by
  unfold validate
  split <;> rfl

@[simp] theorem validate_settings (s : Session) (uri : String) :
    (s.validate uri).settings = s.settings := by
  unfold validate
  split <;> rfl

@[simp] theorem validate_opened (s : Session) (uri : String) :
    (s.validate uri).opened = s.opened := by
  unfold validate
  split <;> rfl

theorem validate_all (s : Session) (uris : List String) :
    (uris.foldl validate s).documents = s.documents ∧
      (uris.foldl validate s).settings = s.settings ∧
      (uris.foldl validate s).opened = s.opened := by
  induction uris generalizing s with
  | nil => exact ⟨rfl, rfl, rfl⟩
  | cons uri uris ih => simpa using ih (s.validate uri)

@[simp] theorem store_settings (s : Session) (uri : String) (d? : Option TextDocument) :
    (s.store uri d?).settings = s.settings := by
  cases d? <;> rfl

@[simp] theorem store_opened (s : Session) (uri : String) (d? : Option TextDocument) :
    (s.store uri d?).opened = s.opened := by
  cases d? <;> rfl

@[simp] theorem store_cache (s : Session) (uri : String) (d? : Option TextDocument) :
    (s.store uri d?).cache = s.cache := by
  cases d? <;> rfl

theorem get?_store_of_ne (s : Session) {uri other : String} (d? : Option TextDocument)
    (h : other ≠ uri) : (s.store uri d?).documents.get? other = s.documents.get? other := by
  cases d? with
  | none => rfl
  | some d => exact Table.get?_put_of_ne s.documents d h

@[simp] theorem markOpen_documents (s : Session) (uri : String) :
    (s.markOpen uri).documents = s.documents := by
  unfold markOpen
  split <;> rfl

@[simp] theorem markOpen_settings (s : Session) (uri : String) :
    (s.markOpen uri).settings = s.settings := by
  unfold markOpen
  split <;> rfl

@[simp] theorem markOpen_cache (s : Session) (uri : String) :
    (s.markOpen uri).cache = s.cache := by
  unfold markOpen
  split <;> rfl

theorem mem_markOpen {s : Session} {uri other : String} :
    other ∈ (s.markOpen uri).opened ↔ other ∈ s.opened ∨ other = uri := by
  unfold markOpen
  split
  next h => exact ⟨.inl, fun ho => ho.elim id fun heq => heq ▸ h⟩
  next => simp

@[simp] theorem diagnose_uri (s : Session) (uri : String) : (s.diagnose uri).uri = uri := by
  unfold diagnose
  split
  · split
    · rfl
    · split <;> rfl
  · rfl

/-- Of publications that are made for each of some documents, those for one document. -/
theorem filter_map_uri {f : String → Publication} (hf : ∀ u, (f u).uri = u) (uris : List String)
    (uri : String) :
    (uris.map f).filter (·.uri = uri) = List.replicate (uris.count uri) (f uri) := by
  simp [List.filter_map, Function.comp_def, hf, List.filter_eq]

theorem diagnose_congr {s t : Session} {uri : String} (hs : s.settings = t.settings)
    (hd : s.documents.get? uri = t.documents.get? uri) : s.diagnose uri = t.diagnose uri := by
  simp only [diagnose, hs, hd]

end Cddl.Session

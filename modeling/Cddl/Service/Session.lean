import Cddl.Document.Parse
import Cddl.Service.Cache
import Cddl.Service.Completion
import Cddl.Service.Declaration
import Cddl.Service.Diagnostic
import Cddl.Service.Hover
import Cddl.Service.Outline
import Cddl.Service.Settings

/-!
A session of an editor with the server. Each event changes the state, publishes diagnostics and is
answered. Diagnostics of a document are published whenever it is opened or changed, and for every
open document when the settings change; they take the place of the earlier ones.
-/
namespace Cddl

structure TextDocument where
  text : List Char
  version : Option Int
deriving DecidableEq, Repr

/-- Diagnostics sent for a document, with the version that they are about if it is known. -/
structure Publication where
  uri : String
  version : Option Int
  diagnostics : List Diagnostic
deriving DecidableEq, Repr

structure Session where
  documents : Table TextDocument
  settings : Settings
  cache : Table Cached
  opened : List String

/-- What an editor sends. An opened or changed document comes with its text, unless the text is
lost on the way. -/
inductive Event where
  | opened (uri : String) (document? : Option TextDocument)
  | changed (uri : String) (document? : Option TextDocument)
  | closed (uri : String)
  | configured (settings? : Option Json)
  | complete (uri : String) (p : Position)
  | hover (uri : String) (p : Position)
  | definition (uri : String) (p : Position)
  | outline (uri : String)
  | resolve (item : Completion.Item)

/-- What a request is answered with; the other events are not answered. -/
inductive Answer where
  | none
  | items (items? : Option (List Completion.Item))
  | documentation (doc? : Option Documentation)
  | location (location? : Option Location)
  | outline (rules : List OutlineRule)
  | item (item : Completion.Item)

namespace Session

def initial : Session := ⟨[], .default, [], []⟩

/-- The failure to find a document shows its quoted identifier. -/
def missing (uri : String) : Diagnostic :=
  .internal (String.ofList (Quoted.encode uri.toList))

/-- What has to be published for a document now. -/
def diagnose (s : Session) (uri : String) : Publication :=
  if s.settings.validate then
    match s.documents.get? uri with
    | none => ⟨uri, none, [missing uri]⟩
    | some d =>
      match Document.parse d.text with
      | .ok _ => ⟨uri, d.version, []⟩
      | .error problems =>
        ⟨uri, d.version, Diagnostic.ofProblems d.text s.settings.maxProblems problems⟩
  else ⟨uri, none, []⟩

/-- The cache entry that a validation of a document makes, if validation succeeds. -/
def analysis? (s : Session) (uri : String) : Option Cached :=
  if s.settings.validate then
    match s.documents.get? uri with
    | none => none
    | some d =>
      match Document.parse d.text with
      | .ok rules => some ⟨rules, d.version⟩
      | .error _ => none
  else none

/-- Validates a document: a successful analysis is kept. -/
def validate (s : Session) (uri : String) : Session :=
  match s.analysis? uri with
  | some c => { s with cache := s.cache.put uri c }
  | none => s

def store (s : Session) (uri : String) (document? : Option TextDocument) : Session :=
  match document? with
  | some d => { s with documents := s.documents.put uri d }
  | none => s

def markOpen (s : Session) (uri : String) : Session :=
  if uri ∈ s.opened then s else { s with opened := s.opened ++ [uri] }

/-- The state after an event. -/
def next (s : Session) : Event → Session
  | .opened uri document? => ((s.store uri document?).markOpen uri).validate uri
  | .changed uri document? => (s.store uri document?).validate uri
  | .closed uri =>
    { s with
      documents := s.documents.erase uri
      cache := s.cache.erase uri
      opened := s.opened.filter (· != uri) }
  | .configured (some v) =>
    s.opened.foldl validate { s with settings := .ofJson v }
  | _ => s

/-- What an event leads to being published, in order. -/
def published (s : Session) : Event → List Publication
  | .opened uri document? => [(s.store uri document?).diagnose uri]
  | .changed uri document? => [(s.store uri document?).diagnose uri]
  | .closed uri => [⟨uri, none, []⟩]
  | .configured (some v) =>
    s.opened.map { s with settings := .ofJson v }.diagnose
  | _ => []

def textOf? (s : Session) (uri : String) : Option (List Char) :=
  (s.documents.get? uri).map (·.text)

def rulesOf? (s : Session) (uri : String) : Option (List Rule) :=
  (s.cache.get? uri).map (·.rules)

/-- The answer to an event, from the state before it. -/
def answer (s : Session) : Event → Answer
  | .complete uri p => .items ((s.textOf? uri).map (Completion.listAt · p))
  | .hover uri p => .documentation ((s.textOf? uri).bind (Hover.at? · p))
  | .definition uri p =>
    .location ((s.textOf? uri).bind fun text => Declaration.at? text p uri (s.rulesOf? uri))
  | .outline uri =>
    .outline (((s.textOf? uri).map fun text => Outline.ofRules text (s.rulesOf? uri)).getD [])
  | .resolve item => .item item.resolve
  | _ => .none

end Session

/-- The version of the server. -/
def serverVersion : String := "0.1.0"

end Cddl

import Cddl.Json
import Cddl.Text.Position
import Cddl.Reference.Prelude
import Cddl.Reference.Control

/-!
Completion in two phases. The list names the entries of one table, control operators behind a
point and prelude types elsewhere; each item carries its table and its index there, so that it can
be resolved later without any memory of the list.
-/
namespace Cddl.Completion

/-- The table that completes a word. -/
inductive Context where
  | control | prelude
deriving DecidableEq, Repr

namespace Context

def label : Context → String
  | control => "control"
  | prelude => "prelude"

def ofLabel? (s : String) : Option Context :=
  if s = "control" then some control else if s = "prelude" then some prelude else none

def table : Context → List Entry
  | control => Reference.controls
  | prelude => Reference.prelude

/-- The character before the cursor decides, if it is on the cursor's line. -/
def detect (text : List Char) (p : Position) : Context :=
  if p.character ≤ 0 then prelude
  else
    match p.toOffset? text with
    | none => prelude
    | some 0 => prelude
    | some (n + 1) => if text[n]? = some '.' then control else prelude

end Context

structure Item where
  label : String
  kind : Option Nat
  data : Json
  detail : Option String
  insertText : Option String
  documentation : Option Documentation

namespace Item

/-- An item of which a client sends back only the label and the data. -/
def bare (label : String) (data : Json) : Item := ⟨label, none, data, none, none, none⟩

/-- All items are keywords, kind 14 of the protocol. -/
def keyword : Nat := 14

def dataOf (c : Context) (index : Nat) : Json :=
  .obj [("context", .str c.label), ("index", .int index)]

def ofEntry (c : Context) (index : Nat) (e : Entry) : Item :=
  { label := e.label
    kind := some keyword
    data := dataOf c index
    detail := none
    insertText := none
    documentation :=
      match c with
      | .control => e.markup?
      | .prelude => none }

/-- The table and the index that an item carries. -/
def target? (data : Json) : Option (Context × Nat) :=
  match data.member? "context", data.member? "index" with
  | some (.str s), some (.int n) =>
    if 0 ≤ n then (Context.ofLabel? s).map (·, n.toNat) else none
  | _, _ => none

/-- The label without the point that was typed already. -/
def withoutPoint (label : String) : String := String.ofList (label.toList.drop 1)

/-- Completes an item that names an entry; any other item stays as it is. -/
def resolve (item : Item) : Item :=
  match target? item.data with
  | some (.control, index) =>
    if index < Reference.controls.length then
      { item with insertText := some (withoutPoint item.label) }
    else item
  | some (.prelude, index) =>
    match Reference.prelude[index]? with
    | some e => { item with detail := some e.detail }
    | none => item
  | none => item

end Item

def items (c : Context) : List Item := c.table.mapIdx fun index e => Item.ofEntry c index e

def listAt (text : List Char) (p : Position) : List Item := items (Context.detect text p)

end Cddl.Completion

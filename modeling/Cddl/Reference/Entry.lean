/-!
Entries of the reference tables: a name of the language with a line about it, and perhaps a page
in Markdown.
-/
namespace Cddl

/-- Documentation as an editor shows it. -/
inductive Documentation where
  | plain (text : String)
  | markdown (text : String)
deriving DecidableEq, Repr

structure Entry where
  label : String
  detail : String
  page : Option String
deriving DecidableEq, Repr

namespace Entry

/-- The page of an entry, unless it has none or an empty one. -/
def markup? (e : Entry) : Option Documentation :=
  (e.page.filter (· != "")).map .markdown

/-- What is shown for the entry: its page, or else its line. -/
def shown (e : Entry) : Documentation := e.markup?.getD (.plain e.detail)

/-- The first entry that has a label. -/
def find? (table : List Entry) (label : String) : Option Entry :=
  List.find? (·.label == label) table

end Entry

end Cddl

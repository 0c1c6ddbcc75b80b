import Cddl.Text.Word
import Cddl.Reference.Prelude
import Cddl.Reference.Control

/-!
What is shown for the word under the cursor: the line of a prelude type, or the page of a control
operator. Only a word that is a label is known.
-/
namespace Cddl.Hover

def lookup? (word : String) : Option Documentation :=
  match Reference.preludeEntry? word with
  | some e => some (.plain e.detail)
  | none => (Reference.controlEntry? word).map Entry.shown

def at? (text : List Char) (p : Position) : Option Documentation :=
  (Word.atPosition? text p).bind lookup?

end Cddl.Hover

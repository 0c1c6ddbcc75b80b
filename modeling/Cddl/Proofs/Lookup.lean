import Cddl.Proofs.Location
import Cddl.Proofs.Word
import Cddl.Service.Hover

/-!
Looking up a word that stands by itself. If no character of it is a stop and it stands between stops,
then a cursor on any of its characters finds it, whatever the text is elsewhere. So what is shown for
it depends on the two tables only, and where it is declared on the rules only; their spans need not
fit the text.
-/
namespace Cddl

/-! ### The tables -/

namespace Entry

variable {table : List Entry} {e : Entry} {word : String}

theorem find?_eq_none_iff : find? table word = none ↔ ∀ e ∈ table, e.label ≠ word := by
  simp only [find?, List.find?_eq_none, beq_iff_eq, ne_eq]

/-- In a table without repeated labels each entry is the one with its label. -/
theorem find?_of_mem (h : (table.map Entry.label).Nodup) (he : e ∈ table) :
    find? table e.label = some e := by
  induction table with
  | nil => contradiction
  | cons d table ih =>
    obtain ⟨hd, htable⟩ := List.nodup_cons.mp h
    rcases List.mem_cons.mp he with rfl | hmem
    · exact List.find?_cons_of_pos (beq_self_eq_true e.label)
    · have hne : d.label ≠ e.label := fun heq => hd (heq ▸ List.mem_map_of_mem hmem)
      rw [find?, List.find?_cons, beq_false_of_ne hne]
      exact ih htable hmem

end Entry

namespace Reference

theorem nodup_prelude : (prelude.map Entry.label).Nodup := by decide

theorem nodup_controls : (controls.map Entry.label).Nodup := by decide

end Reference

namespace Hover

open Reference

variable {e : Entry} {word : String}

theorem lookup?_prelude (he : e ∈ prelude) : lookup? e.label = some (.plain e.detail) := by
  rw [lookup?, preludeEntry?, Entry.find?_of_mem nodup_prelude he]

theorem lookup?_control (he : e ∈ controls) (hnot : ∀ d ∈ prelude, d.label ≠ e.label) :
    lookup? e.label = some e.shown := by
  rw [lookup?, preludeEntry?, Entry.find?_eq_none_iff.mpr hnot, controlEntry?,
    Entry.find?_of_mem nodup_controls he, Option.map_some]

theorem lookup?_eq_none_iff : lookup? word = none ↔
    (∀ e ∈ prelude, e.label ≠ word) ∧ ∀ e ∈ controls, e.label ≠ word := by
  rw [← Entry.find?_eq_none_iff, ← Entry.find?_eq_none_iff, lookup?, preludeEntry?, controlEntry?]
  cases Entry.find? prelude word with
  | none => simp
  | some e => simp

end Hover

/-! ### A word between stops -/

namespace Word

variable {front word back : List Char} {o : Nat}

theorem delimited_of_append (hword : ∀ c ∈ word, stopsLeft c = false ∧ stopsRight c = false)
    (hfront : front = [] ∨ ∃ l c, front = l ++ [c] ∧ stopsLeft c = true)
    (hback : back = [] ∨ ∃ c l, back = c :: l ∧ stopsRight c = true) :
    Delimited (front ++ word ++ back) front.length (front.length + word.length) := by
  refine ⟨?_, ?_, fun c hc => ?_⟩
  · rcases hfront with rfl | ⟨l, c, rfl, hstop⟩
    · exact .inl rfl
    · exact .inr ⟨l.length, c, by simp, by simp, hstop⟩
  · rcases hback with rfl | ⟨c, l, rfl, hstop⟩
    · exact .inl (by simp)
    · exact .inr ⟨c, by simp, hstop⟩
  · obtain ⟨i, hi, hlt, hget⟩ := mem_slice_iff.mp hc
    rw [List.append_assoc, List.getElem?_append_right hi,
      List.getElem?_append_left (by omega)] at hget
    exact hword c (List.mem_of_getElem? hget)

theorem slice_append (front word back : List Char) :
    (⟨front.length, (front.length + word.length : Nat)⟩ : Span).slice (front ++ word ++ back) =
      word := by
  rw [Span.slice, Int.toNat_natCast, Int.toNat_natCast, ← List.length_append, List.take_left,
    List.drop_left]

theorem atPosition?_of_append (hword : ∀ c ∈ word, stopsLeft c = false ∧ stopsRight c = false)
    (hfront : front = [] ∨ ∃ l c, front = l ++ [c] ∧ stopsLeft c = true)
    (hback : back = [] ∨ ∃ c l, back = c :: l ∧ stopsRight c = true)
    (ho : front.length ≤ o) (ho' : o < front.length + word.length) :
    atPosition? (front ++ word ++ back) (.ofOffset (front ++ word ++ back) o) =
      some (String.ofList word) := by
  have hlength : o ≤ (front ++ word ++ back).length := by
    simp only [List.length_append]
    omega
  have hdelimited := delimited_of_append hword hfront hback
  rw [atPosition?, Position.toOffset?_ofOffset, Int.toNat_natCast, Nat.min_eq_left hlength,
    Option.bind_some, atOffset?, hdelimited.bounds?_eq ho ho', Option.map_some, slice_append]

end Word

/-- A word that stands by itself is found from any of its characters. What is shown is the line of the
prelude type of that name, or else the page of the control operator, and nothing if and only if neither
table has it. With rules at hand the answer is the place of its declaration if that fits the text, and
there is none otherwise. -/
theorem Word.looked_up_throughout {front word back : List Char} {o : Nat}
    (hword : ∀ c ∈ word, stopsLeft c = false ∧ stopsRight c = false)
    (hfront : front = [] ∨ ∃ l c, front = l ++ [c] ∧ stopsLeft c = true)
    (hback : back = [] ∨ ∃ c l, back = c :: l ∧ stopsRight c = true)
    (ho : front.length ≤ o) (ho' : o < front.length + word.length) :
    let text := front ++ word ++ back
    let p := Position.ofOffset text o
    let label := String.ofList word
    (∀ e ∈ Reference.prelude, e.label = label → Hover.at? text p = some (.plain e.detail)) ∧
    (∀ e ∈ Reference.controls, e.label = label → (∀ d ∈ Reference.prelude, d.label ≠ label) →
      Hover.at? text p = some e.shown) ∧
    (Hover.at? text p = none ↔
      (∀ e ∈ Reference.prelude, e.label ≠ label) ∧ ∀ e ∈ Reference.controls, e.label ≠ label) ∧
    ∀ uri rules,
      (∀ s, Declaration.find? rules label = some s → s.fits text = true →
        Declaration.at? text p uri (some rules) = some ⟨uri, s.range text⟩) ∧
      ((∀ s, Declaration.find? rules label = some s → s.fits text = false) →
        Declaration.at? text p uri (some rules) = none) := by
  intro text p label
  have hfound : atPosition? text p = some label :=
    atPosition?_of_append hword hfront hback ho ho'
  have hshown : Hover.at? text p = Hover.lookup? label := by
    rw [Hover.at?, hfound, Option.bind_some]
  refine ⟨fun e he hlabel => ?_, fun e he hlabel hnot => ?_, ?_, fun uri rules => ⟨?_, ?_⟩⟩
  · rw [hshown, ← hlabel, Hover.lookup?_prelude he]
  · rw [hshown, ← hlabel, Hover.lookup?_control he (hlabel ▸ hnot)]
  · rw [hshown, Hover.lookup?_eq_none_iff]
  · intro s hs hfits
    exact Declaration.at?_eq_some_iff.mpr ⟨label, s, hfound, hs, hfits, rfl⟩
  · intro hnot
    refine Option.eq_none_iff_forall_ne_some.mpr fun l hl => ?_
    obtain ⟨word', s, hword', hs, hfits, -⟩ := Declaration.at?_eq_some_iff.mp hl
    obtain rfl : label = word' := Option.some.inj (hfound.symm.trans hword')
    simp [hnot s hs] at hfits

/-- A prelude type behind an opening brace on the second line, with other stops around it. -/
def bracedText : List Char :=
  ['😀', ',', '\n', '\x7b', 't', 's', 't', 'r', ',', ' ', '\x7b']

/-- The cursor is on the second `t`. The first span covers what is in front of the line feed, and the
second one does not fit the text. -/
theorem Word.looked_up_throughout_braced :
    Hover.at? bracedText ⟨1, 3⟩ =
      some (.plain "tstr = #3 (string de texto UTF-8, tipo maior 3)") ∧
    Declaration.at? bracedText ⟨1, 3⟩ "a.cddl" (some [.group ⟨"tstr", ⟨0, 2⟩⟩ ⟨0, 2⟩]) =
      some ⟨"a.cddl", ⟨⟨0, 0⟩, ⟨0, 3⟩⟩⟩ ∧
    Declaration.at? bracedText ⟨1, 3⟩ "a.cddl" (some [.group ⟨"tstr", ⟨-3, 99⟩⟩ ⟨0, 2⟩]) = none := by
  obtain ⟨hprelude, -, -, hdeclared⟩ :=
    @Word.looked_up_throughout ['😀', ',', '\n', '\x7b'] ['t', 's', 't', 'r'] [',', ' ', '\x7b'] 6
      (by simp [Word.stopsLeft, Word.stopsRight]) (.inr ⟨['😀', ',', '\n'], '\x7b', rfl, rfl⟩)
      (.inr ⟨',', _, rfl, rfl⟩) (by decide) (by decide)
  refine ⟨hprelude ⟨"tstr", _, none⟩ (by decide) rfl, (hdeclared _ _).1 ⟨0, 2⟩ rfl rfl,
    (hdeclared _ _).2 fun s hs => ?_⟩
  obtain rfl := Option.some.inj hs
  rfl

end Cddl

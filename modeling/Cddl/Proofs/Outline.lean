import Cddl.Proofs.Position
import Cddl.Proofs.Scope
import Cddl.Service.Outline

/-!
The outline of a document whose rules were read from an earlier text. It lists the rules for which
the current text has room; spans that lie in each other or behind each other become ranges that do
so too, whatever characters stand there now.
-/
namespace Cddl

namespace Document

/-- Rules stand behind each other. -/
theorem rules_apart {text : List Char} {rules : List Rule} (h : parse text = .ok rules) :
    rules.Pairwise fun r s => r.span.stop ≤ s.span.start := by
  obtain ⟨hsyn, rfl⟩ := rules_of_parse h
  have hplaced := forall₂_placedIn (fun _ hc => hc) (forall₂_of_syntaxErrors hsyn)
  refine pairwise_of_forall₂ hplaced (Chunk.pairwise_split text) ?_
  intro c r d s hr hs hcd
  have hstop := hr.stop_le
  have hstart := hs.start_le
  omega

end Document

/-- The entry is the one for a name: its ranges lead back to the span of all that belongs to the
name and to the span of the name itself, and the one lies inside the other. -/
structure OutlineEntry.Shows (e : OutlineEntry) (text : List Char) (whole : Span) (n : Name) :
    Prop where
  name : e.name = n.ident
  range : e.range.span? text = some whole
  selection : e.selection.span? text = some n.span
  inside : e.selection.Inside e.range

/-- The entry is the one for a rule, and below it are those for all its parameters, in order. -/
structure OutlineRule.Shows (o : OutlineRule) (text : List Char) (r : Rule) : Prop where
  entry : o.entry.Shows text r.span r.name
  children : List.Forall₂ (fun p e => e.Shows text p.span p ∧ e.range.Inside o.entry.range)
    r.params (o.children.getD [])

namespace Outline

variable {text current : List Char} {rules : List Rule} {r : Rule} {c : Chunk}

theorem childrenOf_getD (text : List Char) (r : Rule) :
    (childrenOf text r).getD [] = (r.params.filter (·.span.fits text)).map (ofParam text) := by
  unfold childrenOf
  split
  next heq => exact heq.symm
  next => rfl

theorem isShown_eq (h : r.PlacedIn text c) : isShown current r = r.span.fits current := by
  cases hr : r.span.fits current with
  | false => simp [isShown, hr]
  | true => simp [isShown, hr, h.names_fit hr r.name List.mem_cons_self]

theorem shows_ofRule (h : r.PlacedIn text c) (hr : r.span.fits current) :
    (ofRule current r).Shows current r := by
  have hnames := h.names_fit hr
  have hparams : r.params.filter (·.span.fits current) = r.params :=
    List.filter_eq_self.mpr fun p hp => hnames p (List.mem_cons_of_mem _ hp)
  refine ⟨⟨rfl, Span.span?_range hr, Span.span?_range (hnames r.name List.mem_cons_self), ?_⟩, ?_⟩
  · exact Span.range_inside current (Int.le_of_eq h.name_start.symm) h.name_stop
  · rw [ofRule, childrenOf_getD, hparams, List.forall₂_map_right_iff, List.forall₂_same]
    intro p hp
    have hspan := Span.span?_range (hnames p (List.mem_cons_of_mem _ hp))
    obtain ⟨hstart, -, hstop⟩ := h.params_inside p hp
    have hname := h.name_lt
    have hnamestart := h.name_start
    exact ⟨⟨rfl, hspan, hspan, .refl _⟩, Span.range_inside current (by omega) hstop⟩

/-- The outline is well formed, even if the text has changed since its rules were read. It has one
entry for each rule for which the current text has room, in order, and no other; the text that was
read has room for all. The ranges of rules do not overlap. -/
theorem ofRules_shows (h : Document.parse text = .ok rules) (current : List Char) :
    List.Forall₂ (fun r o => o.Shows current r) (rules.filter (·.span.fits current))
      (ofRules current (some rules)) ∧
    rules.filter (·.span.fits text) = rules ∧
    (ofRules current (some rules)).Pairwise
      fun o p => o.entry.range.stop ≤ p.entry.range.start := by
  have hshown : ofRules current (some rules) =
      (rules.filter (·.span.fits current)).map (ofRule current) := by
    rw [ofRules, Option.getD_some]
    congr 1
    refine List.filter_congr fun r hr => ?_
    obtain ⟨c, -, hplaced⟩ := Document.exists_placedIn h hr
    exact isShown_eq hplaced
  rw [hshown]
  refine ⟨?_, ?_, ?_⟩
  · rw [List.forall₂_map_right_iff, List.forall₂_same]
    intro r hr
    obtain ⟨hmem, hfits⟩ := List.mem_filter.mp hr
    obtain ⟨c, -, hplaced⟩ := Document.exists_placedIn h hmem
    exact shows_ofRule hplaced hfits
  · refine List.filter_eq_self.mpr fun r hr => ?_
    obtain ⟨c, hc, hplaced⟩ := Document.exists_placedIn h hr
    exact hplaced.fits hc
  · rw [List.pairwise_map]
    exact ((Document.rules_apart h).filter _).imp fun hle => Position.ofOffset_mono current hle

/-- A rule with a parameter, and a second rule. -/
def readText : List Char := ['m', '<', 't', '>', '=', 't', '\n', 'b', '=', '1']

def readRules : List Rule :=
  [.type ⟨"m", ⟨0, 1⟩⟩ ⟨0, 6⟩ (some [⟨"t", ⟨2, 3⟩⟩]), .type ⟨"b", ⟨7, 8⟩⟩ ⟨7, 10⟩ none]

/-- What the text has become: the first name is a character of two units, its parameter begins a
line, and the end is cut off. -/
def cutText : List Char := ['😀', '\n', '😀', '>', '=', 't', '\n', 'b']

theorem ofRules_shows_stale :
    Document.parse readText = .ok readRules ∧
    ofRules cutText (some readRules) =
      [⟨⟨"m", .type, ⟨⟨0, 0⟩, ⟨1, 5⟩⟩, ⟨⟨0, 0⟩, ⟨0, 2⟩⟩⟩,
        some [⟨"t", .parameter, ⟨⟨1, 0⟩, ⟨1, 2⟩⟩, ⟨⟨1, 0⟩, ⟨1, 2⟩⟩⟩]⟩] ∧
    List.Forall₂ (fun r o => o.Shows cutText r)
      [.type ⟨"m", ⟨0, 1⟩⟩ ⟨0, 6⟩ (some [⟨"t", ⟨2, 3⟩⟩])] (ofRules cutText (some readRules)) ∧
    readRules.filter (·.span.fits readText) = readRules ∧
    (ofRules readText (some readRules)).Pairwise
      fun o p => o.entry.range.stop ≤ p.entry.range.start := by
  have hparse : Document.parse readText = .ok readRules := by decide +kernel
  obtain ⟨hcut, hall, -⟩ := ofRules_shows hparse cutText
  obtain ⟨-, -, hapart⟩ := ofRules_shows hparse readText
  exact ⟨hparse, by decide +kernel, hcut, hall, hapart⟩

end Outline

end Cddl

import Cddl.Proofs.Breakage
import Cddl.Proofs.Position
import Cddl.Proofs.Usage
import Cddl.Service.Diagnostic

/-!
The diagnostics of a text that is not accepted. The problems of a text lie inside it and begin at
ever greater offsets, whether they are syntax errors or undefined names; so each of them can be
placed, and its diagnostic leads back to its span.
-/
namespace Cddl

/-! ### Problems of a text -/

namespace Document

variable {text : List Char} {problems : List Problem}

/-- Each problem fits the text, and begins in front of those behind it in the list. -/
structure Placed (text : List Char) (problems : List Problem) : Prop where
  fits : ∀ p ∈ problems, p.span.fits text
  ordered : problems.Pairwise fun p q => p.span.start < q.span.start

theorem placed_syntaxErrors (text : List Char) : Placed text (syntaxErrors text) := by
  have hmarked : List.Forall₂ (fun c p => c ∈ Chunk.split text ∧ p.MarksIn text c)
      ((Chunk.split text).filter fun c => ¬ IsRule (c.slice text)) (syntaxErrors text) := by
    rw [syntaxErrors_eq_broken]
    refine forall₂_broken fun c hc hbad => ?_
    obtain ⟨p, hp, -, hin⟩ := exists_problem hc hbad
    exact ⟨p, hp, hc, hin⟩
  constructor
  · intro p hp
    obtain ⟨c, -, hc, hin⟩ := exists_of_forall₂ hmarked hp
    have hle := (Chunk.bounds_of_mem_split hc).2
    have hstart := hin.start_le
    have hstop := hin.stop_le
    exact Span.fits_iff.mpr ⟨by omega, hin.ordered, by omega⟩
  · refine pairwise_of_forall₂ hmarked ((Chunk.pairwise_split text).filter _) ?_
    rintro c p d q ⟨-, hp⟩ ⟨hd, hq⟩ hcd
    exact start_lt_start hp hq hd hcd

theorem placed_unresolved (h : syntaxErrors text = []) :
    Placed text ((unresolved (definitions (readings text))).map undefined) := by
  obtain ⟨hmem, hordered⟩ := unresolved_placed h
  constructor
  · intro p hp
    obtain ⟨n, hn, rfl⟩ := List.mem_map.mp hp
    obtain ⟨c, hc, hmissing⟩ := (hmem n).mp hn
    obtain ⟨d, hd⟩ := readChunk_of_isRule (syntaxErrors_eq_nil_iff.mp h c hc)
    obtain ⟨-, hstart, hlt, hstop⟩ :=
      (references_placed hc hd).1 n ((uses_iff hd).mp hmissing.uses)
    have hle := (Chunk.bounds_of_mem_split hc).2
    have hfits : n.span.fits text := Span.fits_iff.mpr (by omega)
    exact hfits
  · exact List.pairwise_map.mpr hordered

theorem placed_of_parse (h : parse text = .error problems) : Placed text problems := by
  by_cases hsyn : syntaxErrors text = []
  · rw [parse_of_syntaxErrors hsyn] at h
    have hplaced := placed_unresolved hsyn
    split at h
    next => contradiction
    next => exact Except.error.inj h ▸ hplaced
  · rw [parse_eq_error hsyn] at h
    exact Except.error.inj h ▸ placed_syntaxErrors text

end Document

/-! ### Diagnostics -/

namespace Diagnostic

/-- The diagnostic is one of the text, not of the server, and says what the problem is and where. -/
structure Shows (d : Diagnostic) (text : List Char) (p : Problem) : Prop where
  source : d.source = "cddl"
  external : ∀ failure, d ≠ internal failure
  message : d.message = p.message
  range : d.range.span? text = some p.span

variable {text : List Char} {p : Problem} {problems : List Problem} {cap larger : Int}

theorem shows_ofReport (h : p.span.fits text) : (ofReport text p.report).Shows text p := by
  refine ⟨rfl, fun failure heq => ?_, rfl, Span.span?_range h⟩
  have hsource := congrArg source heq
  simp [ofReport, Problem.report, placed, internal] at hsource

theorem ofProblems_eq (h : 0 ≤ cap) :
    ofProblems text cap problems =
      (problems.take cap.toNat).map fun p => ofReport text p.report := by
  rw [ofProblems, ofReports, capped, if_pos h, ← List.map_take, List.map_map]
  rfl

/-- What is shown for a text that is not accepted: its first problems, as many as the cap allows,
one by one and in order. The range of each diagnostic leads back to the span of its problem, and
begins in front of the ranges behind it. A larger cap only adds to the list. -/
theorem ofProblems_shows (h : Document.parse text = .error problems) (hcap : 1 ≤ cap)
    (hle : cap ≤ larger) :
    (ofProblems text cap problems).length = min cap.toNat problems.length ∧
    List.Forall₂ (fun p d => d.Shows text p) (problems.take cap.toNat)
      (ofProblems text cap problems) ∧
    (ofProblems text cap problems).Pairwise (fun d e => d.range.start < e.range.start) ∧
    ofProblems text cap problems <+: ofProblems text larger problems := by
  obtain ⟨hfits, hordered⟩ := Document.placed_of_parse h
  have htaken := List.take_sublist cap.toNat problems
  rw [ofProblems_eq (show 0 ≤ cap by omega), ofProblems_eq (show 0 ≤ larger by omega)]
  refine ⟨by simp, ?_, ?_, ?_⟩
  · rw [List.forall₂_map_right_iff, List.forall₂_same]
    exact fun p hp => shows_ofReport (hfits p (htaken.mem hp))
  · rw [List.pairwise_map]
    refine (List.Pairwise.and_mem.mp (hordered.sublist htaken)).imp ?_
    rintro p q ⟨hp, hq, hlt⟩
    obtain ⟨hp₀, -, -⟩ := Span.fits_iff.mp (hfits p (htaken.mem hp))
    obtain ⟨-, hq₁, hq₂⟩ := Span.fits_iff.mp (hfits q (htaken.mem hq))
    exact Position.ofOffset_strictMono hp₀ hlt (by omega)
  · exact (List.take_prefix_take_left (Int.toNat_le_toNat hle)).map _

/-- A bracket too many behind a character of two units, on a line that ends in two characters, and a
rule that lacks a name at the end of the text. -/
def wideText : List Char := ['a', '=', '"', '😀', '"', '\x7d', '\r', '\n', 'b', '=', '~']

def wideProblems : List Problem :=
  [⟨.unexpectedCharacter '\x7d' ["COLON", "CIRCUMFLEX", "_ARROW", "SLASH", "RANGEOP", "CTLOP"],
      ⟨5, 6⟩⟩,
    ⟨.unexpectedEnd ["ID", "ID"], ⟨11, 11⟩⟩]

theorem ofProblems_shows_wide :
    Document.parse wideText = .error wideProblems ∧ (1 : Int) ≤ 2 ∧ (2 : Int) ≤ 1000 ∧
    (ofProblems wideText 2 wideProblems).map (·.range) =
      [⟨⟨0, 6⟩, ⟨0, 7⟩⟩, ⟨⟨1, 3⟩, ⟨1, 3⟩⟩] ∧
    (ofProblems wideText 2 wideProblems).length = 2 ∧
    List.Forall₂ (fun p d => d.Shows wideText p) wideProblems (ofProblems wideText 2 wideProblems) ∧
    (ofProblems wideText 2 wideProblems).Pairwise (fun d e => d.range.start < e.range.start) ∧
    ofProblems wideText 2 wideProblems <+: ofProblems wideText 1000 wideProblems := by
  have hparse : Document.parse wideText = .error wideProblems := by decide +kernel
  exact ⟨hparse, by decide, by decide, by decide +kernel,
    ofProblems_shows hparse (by decide) (by decide)⟩

end Diagnostic

end Cddl

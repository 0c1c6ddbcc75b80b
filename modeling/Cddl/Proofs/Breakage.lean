import Cddl.Proofs.Acceptance
import Cddl.Proofs.Layout

/-!
What is reported for a text with broken chunks: one problem for each of them, inside it, and nothing
about names. A premature end is shown on the blanks behind the last word of the chunk; there are
some unless the chunk ends with the text, because a chunk in front of another one ends its line.
-/
namespace Cddl

namespace Blank

theorem trimEnd_length_lt {text : List Char} {c : Char} (h : text.getLast? = some c)
    (hc : isBlank c = true) : (trimEnd text).length < text.length := by
  obtain ⟨rest, rfl⟩ := List.getLast?_eq_some_iff.mp h
  have hle := (List.dropWhile_suffix isBlank (l := rest.reverse)).length_le
  simp only [trimEnd, List.reverse_append, List.reverse_cons, List.reverse_nil, List.nil_append,
    List.cons_append, List.dropWhile_cons_of_pos hc, List.length_reverse, List.length_append,
    List.length_cons, List.length_nil] at hle ⊢
  omega

end Blank

namespace Problem

/-- The problem is shown on one character of a chunk, or behind the last one of the text. -/
structure MarksIn (p : Problem) (text : List Char) (c : Chunk) : Prop extends p.LiesIn c where
  short : p.span.stop ≤ p.span.start + 1
  empty : p.span.stop = p.span.start → p.span.start = text.length

end Problem

namespace Document

variable {text : List Char} {c d : Chunk}

theorem getLast?_slice (h : c ∈ Chunk.split text) (hline : text[c.stop - 1]? = some '\n') :
    (c.slice text).getLast? = some '\n' := by
  obtain ⟨hlt, hle⟩ := Chunk.bounds_of_mem_split h
  rw [List.getLast?_eq_getElem?, Chunk.length_slice hle, Chunk.slice, List.getElem?_drop,
    List.getElem?_take_of_lt (by omega), ← hline]
  congr 1
  omega

/-- A premature end is shown on blanks, unless nothing stands behind the chunk. -/
theorem trimEnd_slice_lt (hc : c ∈ Chunk.split text) :
    c.stop = text.length ∨ (Blank.trimEnd (c.slice text)).length < c.stop - c.start := by
  rcases Chunk.line_before_stop hc with hstop | hline
  · exact .inl hstop
  · right
    rw [← Chunk.length_slice (Chunk.bounds_of_mem_split hc).2]
    exact Blank.trimEnd_length_lt (getLast?_slice hc hline) rfl

/-- A chunk that is no rule has one problem, which marks a place in it. -/
theorem exists_problem (hc : c ∈ Chunk.split text) (h : ¬ IsRule (c.slice text)) :
    ∃ p, readChunk text c = .error p ∧ p.cause.isSyntactic = true ∧ p.MarksIn text c := by
  obtain ⟨hlt, hle⟩ := Chunk.bounds_of_mem_split hc
  have hlen := Chunk.length_slice hle
  obtain ⟨p, hp, hsyn, hin⟩ := readChunk_of_not_isRule hc h
  obtain ⟨r, htree, -⟩ := Tree.ofText_of_not_isRule h
  obtain rfl : r.problem (c.slice text) c.start = p := by simpa [readChunk, htree] using hp
  refine ⟨_, hp, hsyn, hin, ?_, ?_⟩
  · cases r with
    | unexpected place ch expected => exact Int.le_refl _
    | incomplete expected => exact Int.min_le_left _ _
  · cases r with
    | unexpected place ch expected =>
      simp only [Rejection.problem, Problem.unexpected]
      omega
    | incomplete expected =>
      simp only [Rejection.problem, Problem.incomplete]
      intro hempty
      rcases trimEnd_slice_lt hc with hstop | hshort
      · omega
      · omega

/-- Where a chunk is broken, the problems that are reported are the syntax errors. -/
theorem parse_eq_error (h : syntaxErrors text ≠ []) : parse text = .error (syntaxErrors text) := by
  rw [syntaxErrors_eq_broken] at h ⊢
  cases hb : broken (readings text) with
  | nil => exact absurd hb h
  | cons p rest => simp only [parse, resolve, problems, hb]

theorem isSyntactic_of_mem {p : Problem} (h : p ∈ syntaxErrors text) :
    p.cause.isSyntactic = true := by
  unfold syntaxErrors at h
  split at h
  · contradiction
  · exact (List.mem_filter.mp h).2

/-- A problem comes before those of the chunks behind its own. -/
theorem start_lt_start {p q : Problem} (hp : p.MarksIn text c) (hq : q.MarksIn text d)
    (hd : d ∈ Chunk.split text) (hcd : c.stop ≤ d.start) : p.span.start < q.span.start := by
  obtain ⟨hlt, hle⟩ := Chunk.bounds_of_mem_split hd
  have hordered := hp.ordered
  have hstop := hp.stop_le
  have hstart := hq.start_le
  -- only behind the last character of the text is a problem empty
  by_contra hnot
  have hempty := hp.empty (by omega)
  omega

/-- The problems of a text with broken chunks: one for each of these chunks, in their order and none
else. Each is shown inside its chunk, on one character or behind the last one of the text, and they
begin at ever greater offsets. -/
theorem parse_broken (h : ∃ c ∈ Chunk.split text, ¬ IsRule (c.slice text)) :
    ∃ problems, parse text = .error problems ∧
      List.Forall₂ (fun c p => readChunk text c = .error p ∧ p.MarksIn text c)
        ((Chunk.split text).filter fun c => ¬ IsRule (c.slice text)) problems ∧
      (∀ p ∈ problems, p.cause.isSyntactic = true) ∧
      problems.Pairwise fun p q => p.span.start < q.span.start := by
  have hne : syntaxErrors text ≠ [] := by
    obtain ⟨c, hc, hbad⟩ := h
    exact fun hnil => hbad (syntaxErrors_eq_nil_iff.mp hnil c hc)
  have hforall : List.Forall₂ (fun c p => readChunk text c = .error p ∧ p.MarksIn text c)
      ((Chunk.split text).filter fun c => ¬ IsRule (c.slice text)) (syntaxErrors text) := by
    rw [syntaxErrors_eq_broken]
    refine forall₂_broken fun c hc hbad => ?_
    obtain ⟨p, hp, -, hin⟩ := exists_problem hc hbad
    exact ⟨p, hp, hp, hin⟩
  have hchunks := (List.Pairwise.and_mem.mp (Chunk.pairwise_split text)).filter
    fun c => ¬ IsRule (c.slice text)
  refine ⟨_, parse_eq_error hne, hforall, fun p hp => isSyntactic_of_mem hp, ?_⟩
  refine pairwise_of_forall₂ hforall hchunks ?_
  rintro c p d q ⟨-, hp⟩ ⟨-, hq⟩ ⟨-, hd, hcd⟩
  exact start_lt_start hp hq hd hcd

/-- Two broken chunks around a rule: on the second line a bracket is closed that is not open, and the
last line ends too early, without a line feed behind it. -/
def brokenText : List Char :=
  ['a', '=', '1', '\n', 'b', '=', '}', '\n', 'c', '=']

theorem parse_broken_twice :
    (∃ c ∈ Chunk.split brokenText, ¬ IsRule (c.slice brokenText)) ∧
    ∃ problems, parse brokenText = .error problems ∧
      List.Forall₂ (fun c p => readChunk brokenText c = .error p ∧ p.MarksIn brokenText c)
        [⟨4, 8⟩, ⟨8, 10⟩] problems ∧
      (∀ p ∈ problems, p.cause.isSyntactic = true) ∧
      problems.Pairwise fun p q => p.span.start < q.span.start := by
  have hbroken : (Chunk.split brokenText).filter (fun c => ¬ IsRule (c.slice brokenText)) =
      [⟨4, 8⟩, ⟨8, 10⟩] := by
    decide +kernel
  have hex : ∃ c ∈ Chunk.split brokenText, ¬ IsRule (c.slice brokenText) := by
    have hmem : (⟨4, 8⟩ : Chunk) ∈
        (Chunk.split brokenText).filter (fun c => ¬ IsRule (c.slice brokenText)) := by
      rw [hbroken]
      exact List.mem_cons_self
    obtain ⟨hsplit, hbad⟩ := List.mem_filter.mp hmem
    exact ⟨_, hsplit, of_decide_eq_true hbad⟩
  have hproblems := parse_broken hex
  rw [hbroken] at hproblems
  exact ⟨hex, hproblems⟩

end Document

end Cddl

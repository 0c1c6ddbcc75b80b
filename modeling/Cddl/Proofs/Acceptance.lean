import Mathlib.Data.List.Forall2
import Cddl.Document.Parse
import Cddl.Proofs.Reading
import Cddl.Proofs.Split

/-!
Which texts are accepted: those all of whose chunks are rules of the grammar. Every other chunk
gives rise to one syntax error, which lies in it.
-/
namespace Cddl

/-- Whether a text is a rule is decided by reading it. -/
instance (text : List Char) : Decidable (IsRule text) :=
  decidable_of_iff ((Front.initial.run 0 text).toOption.isSome = true) <| by
    rw [← Front.run_initial_isOk_iff]
    cases Front.initial.run 0 text <;> simp [Except.toOption]

/-- The cause lies in the form of a chunk, not in the names that it uses. -/
def Cause.isSyntactic : Cause → Bool
  | undefinedName _ => false
  | _ => true

namespace Problem

/-- The problem is shown inside a chunk. -/
structure LiesIn (p : Problem) (c : Chunk) : Prop where
  start_le : (c.start : Int) ≤ p.span.start
  ordered : p.span.start ≤ p.span.stop
  stop_le : p.span.stop ≤ c.stop

end Problem

namespace Document

/-- The syntax errors that the analysis of a text reports. -/
def syntaxErrors (text : List Char) : List Problem :=
  match parse text with
  | .ok _ => []
  | .error problems => problems.filter (·.cause.isSyntactic)

variable {text : List Char} {c : Chunk}

theorem readChunk_of_isRule (h : IsRule (c.slice text)) : ∃ d, readChunk text c = .ok d := by
  obtain ⟨p, children, htree, hp, hc⟩ := Tree.ofText_of_isRule h
  obtain ⟨d, hd⟩ := Definition.exists_ofTree? (c.slice text) c.start hp hc
  exact ⟨d, by simp [readChunk, htree, hd]⟩

theorem readChunk_of_not_isRule (hc : c ∈ Chunk.split text) (h : ¬ IsRule (c.slice text)) :
    ∃ p, readChunk text c = .error p ∧ p.cause.isSyntactic = true ∧ p.LiesIn c := by
  obtain ⟨hlt, hle⟩ := Chunk.bounds_of_mem_split hc
  have hlen := Chunk.length_slice hle
  obtain ⟨r, htree, ho⟩ := Tree.ofText_of_not_isRule h
  refine ⟨r.problem (c.slice text) c.start, by simp [readChunk, htree], ?_⟩
  cases ho with
  | incomplete =>
    have htrim := (Blank.trimEnd_prefix (c.slice text)).length_le
    refine ⟨rfl, ?_, ?_, ?_⟩ <;> simp only [Rejection.problem, Problem.incomplete] <;> omega
  | @unexpected k _ _ _ _ hget =>
    have hk := (List.getElem?_eq_some_iff.mp hget).1
    refine ⟨rfl, ?_, ?_, ?_⟩ <;> simp only [Rejection.problem, Problem.unexpected] <;> omega

theorem mem_broken_iff {rs : List (Except Problem Definition)} {p : Problem} :
    p ∈ broken rs ↔ .error p ∈ rs := by
  simp only [broken, List.mem_filterMap]
  constructor
  · rintro ⟨r, hr, heq⟩
    cases r with
    | error q =>
      cases heq
      exact hr
    | ok => contradiction
  · intro h
    exact ⟨_, h, rfl⟩

/-- The syntax errors are those of the broken chunks, whatever the names in the others mean. -/
theorem syntaxErrors_eq_broken (text : List Char) : syntaxErrors text = broken (readings text) := by
  have hsyn : ∀ p ∈ broken (readings text), p.cause.isSyntactic = true := by
    intro p hp
    obtain ⟨c, hc, heq⟩ := List.mem_map.mp (mem_broken_iff.mp hp)
    by_cases h : IsRule (c.slice text)
    · obtain ⟨d, hd⟩ := readChunk_of_isRule h
      simp [hd] at heq
    · obtain ⟨q, hq, hs, -⟩ := readChunk_of_not_isRule hc h
      rw [hq] at heq
      cases heq
      exact hs
  simp only [syntaxErrors, parse, resolve, problems]
  cases hb : broken (readings text) with
  | nil =>
    simp only
    cases hu : unresolved (definitions (readings text)) with
    | nil => rfl
    | cons r rest => simp [Cause.isSyntactic]
  | cons p rest =>
    rw [hb] at hsyn
    exact List.filter_eq_self.mpr hsyn

/-- What is true of the problem of each chunk that is no rule is true of the problems one by one. -/
theorem forall₂_broken {P : Chunk → Problem → Prop} {l : List Chunk}
    (hl : ∀ c ∈ l, ¬ IsRule (c.slice text) → ∃ p, readChunk text c = .error p ∧ P c p) :
    List.Forall₂ P (l.filter fun c => ¬ IsRule (c.slice text))
      (broken (l.map (readChunk text))) := by
  induction l with
  | nil => exact .nil
  | cons c l ih =>
    have hrec := ih fun d hd => hl d (List.mem_cons_of_mem _ hd)
    by_cases h : IsRule (c.slice text)
    · obtain ⟨d, hd⟩ := readChunk_of_isRule h
      simpa [broken, h, hd] using hrec
    · obtain ⟨p, hp, hin⟩ := hl c List.mem_cons_self h
      have hb : broken ((c :: l).map (readChunk text)) = p :: broken (l.map (readChunk text)) := by
        simp [broken, hp]
      rw [hb, List.filter_cons_of_pos (by simpa using h)]
      exact .cons hin hrec

theorem forall₂_syntaxErrors (text : List Char) :
    List.Forall₂ (fun c p => p.LiesIn c)
      ((Chunk.split text).filter fun c => ¬ IsRule (c.slice text)) (syntaxErrors text) := by
  rw [syntaxErrors_eq_broken]
  refine forall₂_broken fun c hc h => ?_
  obtain ⟨p, hp, -, hin⟩ := readChunk_of_not_isRule hc h
  exact ⟨p, hp, hin⟩

theorem syntaxErrors_eq_nil_iff {text : List Char} :
    syntaxErrors text = [] ↔ ∀ c ∈ Chunk.split text, IsRule (c.slice text) := by
  rw [← List.length_eq_zero_iff, ← (forall₂_syntaxErrors text).length_eq, List.length_eq_zero_iff,
    List.filter_eq_nil_iff]
  simp

/-- Acceptance is exactly the grammar: no syntax error is reported if and only if every chunk can be
tiled by matches of terminals whose sequence the grammar derives, and the syntax errors that are
reported belong one by one, in order, to the chunks that cannot. -/
theorem syntaxErrors_iff_not_isRule (text : List Char) :
    (syntaxErrors text = [] ↔ ∀ c ∈ Chunk.split text, IsRule (c.slice text)) ∧
    List.Forall₂ (fun c p => p.LiesIn c)
      ((Chunk.split text).filter fun c => ¬ IsRule (c.slice text)) (syntaxErrors text) :=
  ⟨syntaxErrors_eq_nil_iff, forall₂_syntaxErrors text⟩

end Document

end Cddl

import Cddl.Proofs.Margin
import Cddl.Proofs.Acceptance

/-!
What stands in front of the first chunk. It is never read: the search for rules finds it to be white
space and comments, in a sense of white space that is wider than what may stand between two tokens. A
character that is white space in the wider sense only goes unnoticed there, and is an error anywhere
else.
-/
namespace Cddl

namespace Blank

/-- The characters outside comments that are white space, but not such as may stand between tokens. -/
def strays (inComment : Bool) : List Char → List Char
  | [] => []
  | c :: rest =>
    if inComment then strays (c != '\n') rest
    else if c == ';' then strays true rest
    else if isBlank c && !Lexeme.isSpace c then c :: strays false rest
    else strays false rest

end Blank

namespace Lexeme

variable {text : List Char} {n : Nat}

theorem strays_comment : Blank.strays true text =
    Blank.strays false (text.drop (run (· != '\n') text)) := by
  induction text with
  | nil => rfl
  | cons c rest ih =>
    by_cases hc : c = '\n'
    · subst hc
      rfl
    · have hrun : run (· != '\n') (c :: rest) = run (· != '\n') rest + 1 := by
        simp [run, hc]
      rw [hrun, List.drop_succ_cons, ← ih, Blank.strays, if_pos rfl, bne_iff_ne.mpr hc]

theorem strays_spaces (h : ∀ c ∈ text.take n, isSpace c = true) :
    Blank.strays false text = Blank.strays false (text.drop n) := by
  induction n generalizing text with
  | zero => rfl
  | succ n ih =>
    cases text with
    | nil => rfl
    | cons c rest =>
      have hc := h c (by simp)
      have hsemi : (c == ';') = false := beq_eq_false_iff_ne.mpr (ne_of_isSpace (by decide) hc)
      rw [List.drop_succ_cons, ← ih fun d hd => h d (by simp [hd])]
      simp [Blank.strays, hsemi, hc]

theorem strays_ignored (h : ignored? text = some n) :
    Blank.strays false text = Blank.strays false (text.drop n) := by
  rcases ignored?_cases h with ⟨rest, rfl, rfl⟩ | ⟨-, rfl, -⟩
  · exact strays_comment
  · exact strays_spaces fun c hc => of_mem_take_run hc

end Lexeme

variable {text : List Char} {i k : Nat}

/-- What is ignored holds no stray white space. -/
theorem Ignored.strays (h : Ignored text i k) :
    Blank.strays false (text.drop i) = Blank.strays false (text.drop k) := by
  induction h with
  | done => rfl
  | next hn _ ih => rw [Lexeme.strays_ignored hn, List.drop_drop, ih]

/-- White space and comments without stray characters are ignored. -/
theorem ignored_of_strays (hvoid : Blank.isVoid false text = true)
    (hstrays : Blank.strays false text = []) : Ignored text 0 text.length := by
  induction hlen : text.length using Nat.strong_induction_on generalizing text with
  | _ l ih =>
    subst hlen
    cases hn : Lexeme.ignored? text with
    | some n =>
      have hpos := Lexeme.ignored?_pos hn
      have hle := Lexeme.ignored?_le hn
      rw [Lexeme.isVoid_ignored hn] at hvoid
      rw [Lexeme.strays_ignored hn] at hstrays
      have hrest := ih (text.drop n).length (by rw [List.length_drop]; omega) hvoid hstrays rfl
      have hshift := hrest.shift (a := text.take n)
      rw [List.take_append_drop, List.length_take_of_le hle, List.length_drop, Nat.add_zero,
        Nat.add_sub_cancel' hle] at hshift
      refine .next hn ?_
      rwa [Nat.zero_add]
    | none =>
      -- the first character, if there is one, is white space that is not ignored
      cases text with
      | nil => exact .done 0
      | cons c rest =>
        have hspace : Lexeme.isSpace c = false := by
          rw [← Bool.not_eq_true]
          intro hc
          exact Lexeme.ignored?_of_isSpace hc hn
        by_cases hc : c = ';'
        · subst hc
          simp [Lexeme.ignored?] at hn
        · have hsemi : (c == ';') = false := beq_eq_false_iff_ne.mpr hc
          have hblank : Blank.isBlank c = true := by
            simp only [Blank.isVoid, hsemi, Bool.false_eq_true, if_false] at hvoid
            exact (Bool.and_eq_true_iff.mp hvoid).1
          simp [Blank.strays, hsemi, hblank, hspace] at hstrays

theorem ignored_iff_strays (hvoid : Blank.isVoid false text = true) :
    Ignored text 0 text.length ↔ Blank.strays false text = [] := by
  constructor
  · intro h
    have hstrays := h.strays
    rwa [List.drop_zero, List.drop_length] at hstrays
  · exact ignored_of_strays hvoid

namespace Chunk

/-- The part of a text in front of its first chunk; the whole text if there is none. -/
def prologue (text : List Char) : List Char :=
  text.take (((split text).head?.map (·.start)).getD text.length)

theorem prologue_eq (text : List Char) :
    prologue text = text.take ((starts text).headD text.length) := by
  rw [prologue, split]
  cases starts text with
  | nil => rfl
  | cons k l =>
    cases l with
    | nil => rfl
    | cons j l => rfl

theorem isVoid_prologue (text : List Char) : Blank.isVoid false (prologue text) = true := by
  rw [prologue_eq, starts]
  split
  next hvoid => exact hvoid
  next => rfl

theorem flatMap_between {l : List Nat} (hp : (k :: l).Pairwise (· < ·))
    (hl : ∀ j ∈ k :: l, j < text.length) :
    (between text.length (k :: l)).flatMap (·.slice text) = text.drop k := by
  induction l generalizing k with
  | nil => simp [between, slice]
  | cons j l ih =>
    obtain ⟨hk, hrest⟩ := List.pairwise_cons.mp hp
    have hle : k ≤ (text.take j).length := by
      rw [List.length_take_of_le (Nat.le_of_lt (hl j (by simp)))]
      exact Nat.le_of_lt (hk j List.mem_cons_self)
    rw [between, List.flatMap_cons, ih hrest fun i hi => hl i (List.mem_cons_of_mem k hi), slice,
      ← List.drop_append_of_le_length hle, List.take_append_drop]

/-- The chunks of a text cover all that stands behind its prologue. -/
theorem prologue_append (text : List Char) :
    prologue text ++ (split text).flatMap (·.slice text) = text := by
  have hp := pairwise_starts text
  have hl : ∀ k ∈ starts text, k < text.length := fun k hk => mem_starts hk
  rw [prologue_eq, split]
  cases hstarts : starts text with
  | nil =>
    rw [List.headD_nil, List.take_length]
    exact List.append_nil text
  | cons k l =>
    rw [hstarts] at hp hl
    rw [List.headD_cons, flatMap_between hp hl, List.take_append_drop]

end Chunk

namespace Document

/-- A text is its prologue and its chunks. The prologue is white space and comments, and all of it can
stand between two tokens unless it holds a stray character; an accepted text has rules for its
chunks. -/
theorem parse_prologue (text : List Char) :
    Chunk.prologue text ++ (Chunk.split text).flatMap (·.slice text) = text ∧
    Blank.isVoid false (Chunk.prologue text) = true ∧
    (Ignored (Chunk.prologue text) 0 (Chunk.prologue text).length ↔
      Blank.strays false (Chunk.prologue text) = []) ∧
    ((∃ rules, parse text = .ok rules) → ∀ c ∈ Chunk.split text, IsRule (c.slice text)) := by
  have hvoid := Chunk.isVoid_prologue text
  refine ⟨Chunk.prologue_append text, hvoid, ignored_iff_strays hvoid, ?_⟩
  rintro ⟨rules, hparse⟩
  rw [← syntaxErrors_eq_nil_iff, syntaxErrors, hparse]

/-- A space that must not be broken is passed over in front of all chunks, though no rule may contain
it. -/
theorem prologue_stray :
    parse ['\u00a0'] = .ok [] ∧ Chunk.split ['\u00a0'] = [] ∧
      ¬ Ignored (Chunk.prologue ['\u00a0']) 0 (Chunk.prologue ['\u00a0']).length := by
  refine ⟨by decide, by decide, ?_⟩
  rw [ignored_iff_strays (Chunk.isVoid_prologue _)]
  decide

end Document

end Cddl

import Cddl.Proofs.LineReading
import Cddl.Proofs.Surround

/-!
Documents whose lines end with a carriage return as well. The search for rules finds the same heads, so
that the chunks of the one document are those of the other, and what is read from them differs in its
spans only. Of the problems only those may differ that show how far a reading went on: a comment that
is under way where nothing can go on takes the blanks behind its line with it.
-/
namespace Cddl

variable {text l line rest : List Char} {c : Char} {i j k n u : Nat}

/-! ### White space -/

namespace Blank

theorem isVoid_crlf {inComment : Bool} : isVoid inComment (crlf l) = isVoid inComment l := by
  induction l generalizing inComment with
  | nil => rfl
  | cons c l ih =>
    by_cases hc : c = '\n'
    · subst hc
      cases inComment with
      | true => exact ih
      | false => exact ih
    · rw [crlf_cons hc, isVoid, isVoid, ih, ih, ih]

theorem trimEnd_concat_blank (hc : isBlank c = true) : trimEnd (l ++ [c]) = trimEnd l := by
  rw [trimEnd, List.reverse_append, List.reverse_singleton, List.singleton_append,
    List.dropWhile_cons_of_pos hc, trimEnd]

theorem trimEnd_concat (hc : isBlank c = false) : trimEnd (l ++ [c]) = l ++ [c] := by
  rw [trimEnd, List.reverse_append, List.reverse_singleton, List.singleton_append,
    List.dropWhile_cons_of_neg (by simp [hc]), List.reverse_cons, List.reverse_reverse]

theorem trimEnd_crlf : trimEnd (crlf l) = crlf (trimEnd l) := by
  induction l using List.reverseRecOn with
  | nil => rfl
  | append_singleton l c ih =>
    rw [crlf_append]
    by_cases hc : c = '\n'
    · subst hc
      rw [trimEnd_concat_blank rfl, ← ih, crlf_line, crlf_nil, ← List.singleton_append,
        ← List.append_assoc, trimEnd_concat_blank rfl, trimEnd_concat_blank rfl]
    · rw [crlf_cons hc, crlf_nil]
      cases hblank : isBlank c with
      | true => rw [trimEnd_concat_blank hblank, trimEnd_concat_blank hblank, ih]
      | false =>
        rw [trimEnd_concat hblank, trimEnd_concat hblank, crlf_append, crlf_cons hc, crlf_nil]

/-- Where the text ends, but for white space, corresponds. -/
theorem length_trimEnd_crlf : (trimEnd (crlf l)).length = crlfAt l (trimEnd l).length := by
  have htake : l.take (trimEnd l).length = trimEnd l :=
    (List.prefix_iff_eq_take.mp ( trimEnd_prefix l)).symm
  have hat : crlfAt (l.take (trimEnd l).length) (trimEnd l).length = crlfAt l (trimEnd l).length :=
    crlfAt_take (Nat.le_refl _)
  rw [htake] at hat
  rw [trimEnd_crlf, length_crlf, hat]

end Blank

/-! ### The search for rules -/

namespace Chunk

/-- A parameter list that stays open takes the carriage return, and stays open. -/
theorem dropParams?_return : dropParams? (line ++ ['\r']) = (dropParams? line).map (· ++ ['\r']) := by
  cases line with
  | nil => rfl
  | cons c line =>
    by_cases hc : c = '<'
    · subst hc
      rw [List.cons_append, dropParams?, List.dropWhile_append, dropParams?]
      cases line.dropWhile fun c => c != '<' && c != '>' && c != '\n' with
      | nil => rfl
      | cons d l =>
        by_cases hd : d = '>'
        · subst hd
          rfl
        · simp [hd]
    · simp [dropParams?, hc]

theorem isHead_return : isHead (line ++ ['\r']) = isHead line := by
  rw [isHead, Lexeme.name?_gap rfl, isHead]
  cases hname : Lexeme.name? line with
  | none => rfl
  | some n =>
    simp only
    rw [List.drop_append_of_le_length (name?_le hname), dropWhile_gap rfl, dropParams?_return]
    cases dropParams? ((line.drop n).dropWhile isInlineBlank) with
    | none => rfl
    | some r =>
      simp only [Option.map_some]
      rw [dropWhile_gap rfl, isAssignment_gap (by decide)]

theorem isHead_crlf : isHead (crlf l) = isHead l := by
  by_cases hline : '\n' ∈ l
  · obtain ⟨line, rest, rfl, hfirst⟩ := List.eq_append_cons_of_mem hline
    have hreturn : '\n' ∉ line ++ ['\r'] := by simp [hfirst]
    rw [crlf_append, crlf_eq_self hfirst, crlf_line, isHead_line hfirst, ← List.singleton_append,
      ← List.append_assoc, isHead_line hreturn, isHead_return]
  · rw [crlf_eq_self hline]

/-- The search passes over no line feed behind a double quote. Only one behind a backslash could be
passed over. `skip` characters are not looked at first. -/
def keepsLines : (skip : Nat) → List Char → Bool
  | _, [] => true
  | skip + 1, _ :: rest => keepsLines skip rest
  | 0, c :: rest =>
    !(c == '"' && (rest.take (unread c rest)).contains '\n') && keepsLines (unread c rest) rest

theorem keepsLines_skip : keepsLines n l = keepsLines 0 (l.drop n) := by
  induction n generalizing l with
  | zero => rfl
  | succ n ih =>
    cases l with
    | nil => rfl
    | cons c l => exact ih

theorem keepsLines_cons (h : keepsLines 0 (c :: l) = true) :
    (c = '"' → '\n' ∉ l.take (unread c l)) ∧ keepsLines 0 (l.drop (unread c l)) = true := by
  rw [keepsLines, keepsLines_skip, Bool.and_eq_true_iff] at h
  refine ⟨?_, h.2⟩
  rintro rfl
  simpa using h.1

theorem unread_crlf (h : c = '"' → '\n' ∉ l.take (unread c l)) :
    Beside l (unread c l) (unread c (crlf l)) := by
  unfold unread at h ⊢
  by_cases hsemi : c = ';'
  · rw [if_pos hsemi, if_pos hsemi]
    exact Lexeme.run_comment_crlf
  rw [if_neg hsemi, if_neg hsemi]
  by_cases hquote : c = '"' ∨ c = '\''
  · rw [if_neg hsemi, if_pos hquote] at h
    rw [if_pos hquote, if_pos hquote]
    exact Literal.tail_crlf hquote h
  · rw [if_neg hquote, if_neg hquote]
    exact .zero

theorem drop_behind (h : l.drop i = c :: rest) : l.drop (i + (n + 1)) = rest.drop n := by
  rw [Nat.add_comm n, ← Nat.add_assoc, ← List.drop_drop, drop_succ_of_drop h]

/-- Over a line end the search goes on to the next line, from in front of the carriage return or from
behind it. -/
theorem heads_crlf_line {depth : Nat} {lineStart : Bool} (hline : text[i]? = some '\n')
    (hb : Beside text i u) :
    heads 0 depth lineStart u ((crlf text).drop u) =
      heads 0 depth true (crlfAt text (i + 1)) ((crlf text).drop (crlfAt text (i + 1))) := by
  have hend := drop_crlf_line hline
  rw [crlfAt_succ_line hline, ← List.drop_drop, hend]
  cases hb with
  | same =>
    rw [hend, heads_space rfl, heads_space rfl]
    rfl
  | inside =>
    rw [drop_succ_of_drop hend, heads_space rfl]
    rfl

/-- Two searches beside each other find the same heads. -/
theorem heads_crlf (depth : Nat) (lineStart : Bool) (hb : Beside text i u)
    (h : keepsLines 0 (text.drop i) = true) :
    heads 0 depth lineStart u ((crlf text).drop u) =
      (heads 0 depth lineStart i (text.drop i)).map (crlfAt text) := by
  induction hleft : text.length - i using Nat.strong_induction_on
    generalizing i u depth lineStart with
  | _ left ih =>
    cases hdrop : text.drop i with
    | nil =>
      have hnone : text[i]? = none := by rw [← List.head?_drop, hdrop, List.head?_nil]
      rw [hb.eq_of_ne (by simp [hnone]), drop_crlf, hdrop]
      simp [heads]
    | cons c rest =>
      have hget : text[i]? = some c := by rw [← List.head?_drop, hdrop, List.head?_cons]
      have hlt := (List.getElem?_eq_some_iff.mp hget).1
      rw [hdrop] at h
      obtain ⟨hpassed, hkeeps⟩ := keepsLines_cons h
      by_cases hc : c = '\n'
      · subst hc
        have hrest : text.drop (i + 1) = rest := drop_succ_of_drop hdrop
        have hnext := ih (text.length - (i + 1)) (by omega) depth true (.same (i := i + 1))
          (by rw [hrest]; exact hkeeps) rfl
        rw [heads_crlf_line hget hb, hnext, hrest, heads_space rfl]
        rfl
      · have hu := hb.eq_of_ne (by simpa [hget] using hc)
        subst hu
        have hcrlf : (crlf text).drop (crlfAt text i) = c :: crlf rest := by
          rw [drop_crlf, hdrop, crlf_cons hc]
        -- both searches pass over the same behind the character
        have hbeside := (unread_crlf hpassed).cons hc
        rw [← hdrop] at hbeside
        have hnext := ih (text.length - (i + (unread c rest + 1))) (by omega) (depthAfter c depth)
          (c == '\n') hbeside.add (by rw [drop_behind hdrop]; exact hkeeps) rfl
        rw [drop_behind hcrlf, drop_behind hdrop, Nat.add_comm _ 1, Nat.add_comm _ 1,
          ← Nat.add_assoc, ← Nat.add_assoc] at hnext
        rw [hcrlf, heads_cons, heads_cons, hnext, List.map_append, headAt, headAt, ← crlf_cons hc,
          isHead_crlf]
        congr 1
        split
        · rfl
        · rfl

theorem starts_crlf (h : keepsLines 0 text = true) :
    starts (crlf text) = (starts text).map (crlfAt text) := by
  have hheads := heads_crlf 0 true .zero h
  rw [List.drop_zero, List.drop_zero] at hheads
  have hfirst : (heads 0 0 true 0 (crlf text)).headD (crlf text).length =
      crlfAt text ((heads 0 0 true 0 text).headD text.length) := by
    rw [hheads, length_crlf]
    cases heads 0 0 true 0 text with
    | nil => rfl
    | cons k l => rfl
  rw [starts, hfirst, take_crlf, Blank.isVoid_crlf, hheads, starts]
  split
  · rfl
  · rw [List.map_cons, crlfAt_zero]

/-- The chunk between the offsets that others correspond to. -/
def map (f : Nat → Nat) (c : Chunk) : Chunk := ⟨f c.start, f c.stop⟩

theorem between_map_eq {f : Nat → Nat} {stop : Nat} (l : List Nat) :
    between (f stop) (l.map f) = (between stop l).map (·.map f) := by
  fun_induction between stop l with
  | case1 => rfl
  | case2 => rfl
  | case3 start next l ih =>
    rw [List.map_cons] at ih
    rw [List.map_cons, List.map_cons, between, ih, List.map_cons]
    rfl

/-- The chunks of the two texts correspond. -/
theorem split_crlf (h : keepsLines 0 text = true) :
    split (crlf text) = (split text).map (·.map (crlfAt text)) := by
  rw [split, starts_crlf h, length_crlf, between_map_eq, split]

theorem slice_crlf (text : List Char) {c : Chunk} (hc : c.start ≤ c.stop) :
    (c.map (crlfAt text)).slice (crlf text) = crlf (c.slice text) := by
  show ((crlf text).take (crlfAt text c.stop)).drop (crlfAt text c.start) = _
  rw [take_crlf, ← crlfAt_take hc, drop_crlf, slice]

/-- Offsets in a chunk correspond as those of the text do. -/
theorem crlfAt_slice {c : Chunk} {x : Nat} (hx : x ≤ (c.slice text).length) :
    crlfAt text c.start + crlfAt (c.slice text) x = crlfAt text (c.start + x) := by
  have hle : x ≤ c.stop - c.start := by
    rw [slice, List.length_drop, List.length_take] at hx
    omega
  rw [crlfAt_add, slice, List.drop_take, crlfAt_take hle]

end Chunk

/-! ### What is read from corresponding chunks -/

/-- The place in the text with carriage returns that corresponds to one of the text. -/
def crlfPlace (text : List Char) (x : Int) : Int := crlfAt text x.toNat

theorem crlfPlace_natCast : crlfPlace text (n : Int) = crlfAt text n := rfl

namespace Problem

/-- What is reported in place of a problem when the lines end with carriage returns: the same at the
place that corresponds, or, for an unexpected character, one that is found later, behind spaces,
because the reading has gone on too long. -/
inductive Carried (text : List Char) (p q : Problem) : Prop where
  | same : q.cause = p.cause → q.span.start = crlfPlace text p.span.start → Carried text p q
  | later {c : Chunk} {k m : Nat} {d : Char} {expected : List String} :
      p.cause = .unexpectedCharacter d expected → p.span.start = k → q.span.start = m →
      crlfAt text k < m → Spaces (crlf text) (crlfAt text k + 1) (m + 1) →
      c ∈ Chunk.split (crlf text) → q.Late (crlf text) c → Carried text p q

variable {c : Chunk} {r s : Rejection}

theorem spaces_of_slice (h : Spaces (c.slice text) i j) :
    Spaces text (c.start + i) (c.start + j) := by
  intro k hk hk'
  obtain ⟨l, rfl⟩ := Nat.exists_eq_add_of_le (Nat.le_of_add_right_le hk)
  obtain ⟨d, hd, hspace⟩ := h l (by omega) (by omega)
  rw [Chunk.slice, List.getElem?_drop, List.getElem?_take] at hd
  split at hd
  · exact ⟨d, hd, hspace⟩
  · contradiction

theorem crlfPlace_slice (hn : n ≤ (c.slice text).length) :
    crlfPlace text (c.start + n) = crlfAt text c.start + crlfAt (c.slice text) n := by
  rw [← Int.natCast_add, crlfPlace_natCast, ← Chunk.crlfAt_slice hn, Int.natCast_add]

/-- A rejection of a chunk leads to a problem that corresponds. -/
theorem carried_problem (hkeeps : Chunk.keepsLines 0 text = true) (hc : c ∈ Chunk.split text)
    (hr : r.Ends (c.slice text)) (hs : Rejection.Kept (c.slice text) r s) :
    Carried text (r.problem (c.slice text) c.start)
      (s.problem (crlf (c.slice text)) (crlfAt text c.start)) := by
  have hbounds := Chunk.bounds_of_mem_split hc
  cases hs with
  | same r =>
    cases r with
    | unexpected m d expected =>
      have hm : m ≤ (c.slice text).length := by
        cases hr with
        | unexpected _ _ hget => exact Nat.le_of_lt (List.getElem?_eq_some_iff.mp hget).1
      exact .same rfl (crlfPlace_slice hm).symm
    | incomplete expected =>
      refine .same rfl ?_
      simp only [Rejection.relabel, Rejection.problem, incomplete, Blank.length_trimEnd_crlf]
      exact (crlfPlace_slice ( Blank.trimEnd_prefix (c.slice text)).length_le).symm
  | @later m d u e expected hlate hlt hspaces =>
    have hm : m ≤ (c.slice text).length := by
      cases hr with
      | unexpected _ _ hget => exact Nat.le_of_lt (List.getElem?_eq_some_iff.mp hget).1
    have hat := Chunk.crlfAt_slice hm
    have hslice := Chunk.slice_crlf text (Nat.le_of_lt hbounds.1)
    rw [← hslice] at hlate hspaces
    have hspaces' := spaces_of_slice hspaces
    have hmem : c.map (crlfAt text) ∈ Chunk.split (crlf text) := by
      rw [Chunk.split_crlf hkeeps]
      exact List.mem_map_of_mem hc
    have hlate' := late_problem hlate
    rw [hslice] at hlate'
    refine .later (k := c.start + m) (m := crlfAt text c.start + u) rfl rfl rfl ?_ ?_ hmem hlate'
    · omega
    · rw [← hat]
      exact hspaces'

end Problem

namespace Document

/-- No line feed stands behind a backslash in a literal that comes to its end in a chunk, nor in what
the search for rules passes over behind a double quote. -/
def keepsLines (text : List Char) : Bool :=
  Chunk.keepsLines 0 text &&
    (Chunk.split text).all fun c => Mode.keepsLines .code (c.slice text)

theorem keepsLines_iff : keepsLines text = true ↔ Chunk.keepsLines 0 text = true ∧
    ∀ c ∈ Chunk.split text, Mode.keepsLines .code (c.slice text) = true := by
  rw [keepsLines, Bool.and_eq_true_iff, List.all_eq_true]

/-- What a chunk holds, and what the chunk with carriage returns holds. -/
inductive CarriedReading (text : List Char) :
    Except Problem Definition → Except Problem Definition → Prop where
  | ok (d) : CarriedReading text (.ok d) (.ok (d.map (crlfPlace text)))
  | error {p q} : p.Carried text q → CarriedReading text (.error p) (.error q)

variable {c : Chunk}

theorem relocates_crlf (c : Chunk) :
    Relocates (c.slice text) (crlf (c.slice text)) c.start (crlfAt text c.start)
      (crlfAt (c.slice text)) (crlfPlace text) := by
  constructor
  · intro x hx
    exact (Problem.crlfPlace_slice hx).symm
  · intro t k n ht hm
    have hline : '\n' ∉ ((c.slice text).drop k).take n := Terminal.line_not_mem ht hm
    rw [take_crlf, ← crlfAt_take (Nat.le_add_right k n), drop_crlf, List.drop_take,
      Nat.add_sub_cancel_left, crlf_eq_self hline]

theorem readChunk_crlf (h : keepsLines text = true) (hc : c ∈ Chunk.split text) :
    CarriedReading text (readChunk text c) (readChunk (crlf text) (c.map (crlfAt text))) := by
  obtain ⟨hkeeps, hchunks⟩ := keepsLines_iff.mp h
  have hchunk := hchunks c hc
  have hbounds := Chunk.bounds_of_mem_split hc
  have hslice := Chunk.slice_crlf text (Nat.le_of_lt hbounds.1)
  by_cases hrule : IsRule (c.slice text)
  · obtain ⟨p, children, ht, hp, hchildren⟩ := Tree.ofText_of_isRule hrule
    obtain ⟨e, he⟩ := Definition.exists_ofTree? (c.slice text) c.start hp hchildren
    obtain ⟨stop, hreads⟩ := Tree.reads_ofText ht
    have hcarried := (relocates_crlf c).ofTree? hreads he
    have hread : readChunk text c = .ok e := by simp only [readChunk, ht, he]
    have hread' : readChunk (crlf text) (c.map (crlfAt text)) = .ok (e.map (crlfPlace text)) := by
      have hstart : (c.map (crlfAt text)).start = crlfAt text c.start := rfl
      simp only [readChunk, hslice, Tree.ofText_crlf hchunk ht, hstart, hcarried]
    rw [hread, hread']
    exact .ok e
  · obtain ⟨r, hr, hends⟩ := Rejection.exists_ends hrule
    obtain ⟨s, hs, hkept⟩ := Rejection.exists_ends_crlf hchunk hends
    have hnot : ¬ IsRule (crlf (c.slice text)) := by rwa [← isRule_crlf_iff hchunk]
    have hread : readChunk text c = .error (r.problem (c.slice text) c.start) := by
      simp only [readChunk, hr]
    have hread' : readChunk (crlf text) (c.map (crlfAt text)) =
        .error (s.problem (crlf (c.slice text)) (crlfAt text c.start)) := by
      simp only [readChunk, hslice, Rejection.ofText_eq_error hnot hs]
      rfl
    rw [hread, hread']
    exact .error (Problem.carried_problem hkeeps hc hends hkept)

theorem readings_crlf (h : keepsLines text = true) :
    List.Forall₂ (CarriedReading text) (readings text) (readings (crlf text)) := by
  rw [readings, readings, Chunk.split_crlf (keepsLines_iff.mp h).1, List.map_map,
    List.forall₂_map_left_iff, List.forall₂_map_right_iff, List.forall₂_same]
  intro c hc
  exact readChunk_crlf h hc

theorem definitions_carried {rs ss : List (Except Problem Definition)}
    (h : List.Forall₂ (CarriedReading text) rs ss) :
    definitions ss = (definitions rs).map (·.map (crlfPlace text)) := by
  induction h with
  | nil => rfl
  | cons hr _ ih =>
    cases hr with
    | ok d => exact congrArg (d.map (crlfPlace text) :: ·) ih
    | error => exact ih

theorem broken_carried {rs ss : List (Except Problem Definition)}
    (h : List.Forall₂ (CarriedReading text) rs ss) :
    List.Forall₂ (Problem.Carried text) (broken rs) (broken ss) := by
  induction h with
  | nil => exact .nil
  | cons hr _ ih =>
    cases hr with
    | ok d => exact ih
    | error hp => exact .cons hp ih

theorem problems_carried {rs ss : List (Except Problem Definition)}
    (h : List.Forall₂ (CarriedReading text) rs ss) :
    List.Forall₂ (Problem.Carried text) (problems rs) (problems ss) := by
  have hbroken := broken_carried h
  rw [problems, problems, definitions_carried h, unresolved_map]
  generalize broken rs = found at hbroken
  generalize broken ss = found' at hbroken
  cases hbroken with
  | cons hp hrest => exact .cons hp hrest
  | nil =>
    simp only [List.map_map]
    rw [List.forall₂_map_left_iff, List.forall₂_map_right_iff, List.forall₂_same]
    intro n _
    exact .same rfl rfl

/-- A document is read alike with a carriage return in front of every line feed, unless a line feed
stands behind a backslash in a literal of a chunk, or in what the search for rules passes over behind a
double quote. An accepted document has the same rules with their spans at the places that correspond. A
document that is not accepted has as many problems in the same order, with the same causes, and so the
same messages, at the places that correspond, but for those that are found later because the reading
goes on too long. -/
theorem parse_crlf (h : keepsLines text = true) :
    (∀ rules, parse text = .ok rules →
      parse (crlf text) = .ok (rules.map (·.map (crlfPlace text)))) ∧
    ∀ problems, parse text = .error problems →
      ∃ carried, parse (crlf text) = .error carried ∧
        List.Forall₂ (Problem.Carried text) problems carried := by
  have hreadings := readings_crlf h
  have hproblems := problems_carried hreadings
  have hrules : (definitions (readings (crlf text))).map (·.rule) =
      ((definitions (readings text)).map (·.rule)).map (·.map (crlfPlace text)) := by
    rw [definitions_carried hreadings, List.map_map, List.map_map]
    rfl
  simp only [parse, resolve]
  generalize problems (readings text) = found at hproblems
  generalize problems (readings (crlf text)) = found' at hproblems
  cases hproblems with
  | nil =>
    constructor
    · intro rules hok
      cases hok
      simp only [hrules]
    · intro problems herror
      cases herror
  | cons hp hrest =>
    constructor
    · intro rules hok
      cases hok
    · intro problems herror
      cases herror
      exact ⟨_, rfl, .cons hp hrest⟩

/-- A byte string that nothing closes, with a backslash at the end of its line. -/
def openText : List Char := ['a', '=', '\'', '\\', '\n']

def openProblem : Problem :=
  ⟨.unexpectedCharacter '\'' ["LPAR", "OCCUR", "LPAR", "LBRACE", "LSQB", "TILDE", "AMPERSAND",
    "AMPERSAND", "TAG", "MAJOR", "HASH", "ID", "ID", "NUMBER", "TEXT", "BYTES", "ID"], ⟨2, 3⟩⟩

/-- Two rules, where a comment holds a quote and a backslash at the end of its line; and an open byte
string, which is no literal in either text. -/
theorem parse_crlf_comment :
    keepsLines ['a', '=', '1', ';', '\'', '\\', '\n', 'b', '=', 'a', '\n'] = true ∧
    parse ['a', '=', '1', ';', '\'', '\\', '\n', 'b', '=', 'a', '\n'] =
      .ok [.type ⟨"a", ⟨0, 1⟩⟩ ⟨0, 3⟩ none, .type ⟨"b", ⟨7, 8⟩⟩ ⟨7, 10⟩ none] ∧
    parse ['a', '=', '1', ';', '\'', '\\', '\r', '\n', 'b', '=', 'a', '\r', '\n'] =
      .ok [.type ⟨"a", ⟨0, 1⟩⟩ ⟨0, 3⟩ none, .type ⟨"b", ⟨8, 9⟩⟩ ⟨8, 11⟩ none] ∧
    keepsLines openText = true ∧ parse openText = .error [openProblem] ∧
    ∃ carried, parse (crlf openText) = .error carried ∧
      List.Forall₂ (Problem.Carried openText) [openProblem] carried := by
  have hkeeps :
      keepsLines ['a', '=', '1', ';', '\'', '\\', '\n', 'b', '=', 'a', '\n'] = true := by
    decide +kernel
  have hparse : parse ['a', '=', '1', ';', '\'', '\\', '\n', 'b', '=', 'a', '\n'] =
      .ok [.type ⟨"a", ⟨0, 1⟩⟩ ⟨0, 3⟩ none, .type ⟨"b", ⟨7, 8⟩⟩ ⟨7, 10⟩ none] := by
    decide +kernel
  have hopen : keepsLines openText = true := by decide +kernel
  have hproblem : parse openText = .error [openProblem] := by decide +kernel
  exact ⟨hkeeps, hparse, (parse_crlf hkeeps).1 _ hparse, hopen, hproblem,
    (parse_crlf hopen).2 _ hproblem⟩

/-- A comment that begins inside a literal takes the carriage return with it, so that another character
is reported. A literal in which a backslash stands in front of a line feed is read with a carriage
return only. -/
theorem parse_crlf_differs :
    parse ['a', '=', '"', ';', '"', '!', 'x', '\n'] =
      .error [⟨.unexpectedCharacter 'x' [], ⟨6, 7⟩⟩] ∧
    parse (crlf ['a', '=', '"', ';', '"', '!', 'x', '\n']) =
      .error [⟨.unexpectedCharacter '\n' [], ⟨8, 9⟩⟩] ∧
    crlfPlace ['a', '=', '"', ';', '"', '!', 'x', '\n'] 6 = 6 ∧
    (parse ['a', '=', '\'', '\\', '\n', '\'']).isOk = false ∧
    parse (crlf ['a', '=', '\'', '\\', '\n', '\'']) =
      .ok [.type ⟨"a", ⟨0, 1⟩⟩ ⟨0, 7⟩ none] :=
  ⟨by decide +kernel, by decide +kernel, by decide, by decide +kernel, by decide +kernel⟩

end Document

end Cddl

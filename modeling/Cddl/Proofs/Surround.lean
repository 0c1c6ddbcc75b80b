import Cddl.Proofs.Margin
import Cddl.Proofs.Relocation

/-!
Blanks and comments around a document. Whole lines of them in front move what is found by their
length: the search for rules comes out of them as it came in, and the chunk in front of the first
rule, if there is one, takes them in. Behind a document they hold no head, whatever the search takes
them for, so that only the last rule has more to pass over.
-/
namespace Cddl

namespace Blank

variable {x later : List Char} {inComment : Bool}

theorem isVoid_of_blank (h : ∀ c ∈ x, isBlank c = true) : isVoid false x = true := by
  induction x with
  | nil => rfl
  | cons c x ih =>
    have hc := h c List.mem_cons_self
    have hsemi : (c == ';') = false := by
      apply beq_eq_false_iff_ne.mpr
      rintro rfl
      contradiction
    simp [isVoid, hsemi, hc, ih fun d hd => h d (List.mem_cons_of_mem c hd)]

/-- What stands in front of a text that is not blank does not change where the text ends. -/
theorem trimEnd_append {a : List Char} (h : isVoid false x = false) :
    trimEnd (a ++ x) = a ++ trimEnd x := by
  have hne : x.reverse.dropWhile isBlank ≠ [] := by
    intro hnil
    have hall := List.dropWhile_eq_nil_iff.mp hnil
    rw [isVoid_of_blank fun c hc => hall c (List.mem_reverse.mpr hc)] at h
    contradiction
  rw [trimEnd, List.reverse_append, List.dropWhile_append,
    if_neg (fun hempty => hne (List.isEmpty_iff.mp hempty)), List.reverse_append,
    List.reverse_reverse, trimEnd]

theorem isVoid_append_line (h : isVoid false later = true) :
    isVoid inComment (x ++ '\n' :: later) = isVoid inComment x := by
  induction x generalizing inComment with
  | nil =>
    cases inComment with
    | true => exact h
    | false => exact h
  | cons c x ih => rw [List.cons_append, isVoid, isVoid, ih, ih, ih]

end Blank

namespace Chunk

variable {x y later : List Char} {c : Char} {skip depth i k : Nat} {lineStart : Bool}

theorem between_cons {stop start : Nat} {l : List Nat} :
    between stop (start :: l) = ⟨start, l.headD stop⟩ :: between stop l := by
  cases l with
  | nil => rfl
  | cons next l => rfl

/-- An offset that the search finds is one of a head. -/
theorem isHead_of_mem_heads (h : k ∈ heads skip depth lineStart i x) :
    isHead (x.drop (k - i)) = true := by
  fun_induction heads skip depth lineStart i x with
  | case1 => contradiction
  | case2 skip depth lineStart i c x ih =>
    obtain ⟨hle, -⟩ := mem_heads h
    rw [show k - i = k - (i + 1) + 1 by omega, List.drop_succ_cons]
    exact ih h
  | case3 depth lineStart i c x ih =>
    rcases List.mem_append.mp h with h | h
    · split at h
      next hcond =>
        rw [List.mem_singleton.mp h, Nat.sub_self]
        exact (Bool.and_eq_true_iff.mp hcond).2
      next => contradiction
    · obtain ⟨hle, -⟩ := mem_heads h
      rw [show k - i = k - (i + 1) + 1 by omega, List.drop_succ_cons]
      exact ih h

end Chunk

/-! ### In front of a document -/

namespace BlankLines

open Chunk (heads starts between split startsLine)

variable {a b x : List Char}

theorem startsLine_add (h : BlankLines a) (k : Nat) :
    startsLine (a ++ b) (a.length + k) = startsLine b k := by
  rcases h.ended with rfl | hend
  · rw [List.nil_append, List.length_nil, Nat.zero_add]
  cases k with
  | zero =>
    have hpos := List.length_pos_of_mem (List.mem_of_getLast? hend)
    rw [List.getLast?_eq_getElem?] at hend
    simp [startsLine, List.getElem?_append_left (Nat.sub_lt hpos Nat.zero_lt_one), hend]
  | succ k =>
    rw [startsLine, startsLine, Nat.add_sub_assoc (Nat.succ_pos k),
      List.getElem?_append_right (Nat.le_add_right _ _), Nat.add_sub_cancel_left,
      beq_eq_false_iff_ne.mpr (by omega), beq_eq_false_iff_ne.mpr (Nat.succ_ne_zero k)]

/-- The search for rules comes out of the lines as it came in. -/
theorem heads_eq (h : BlankLines a) :
    heads 0 0 true 0 (a ++ b) = (heads 0 0 true 0 b).map (· + a.length) := by
  have hfront := @Chunk.heads_ignored_trans _ 0 _ _ (h.ignored_indent (b := b))
  have hspaces := @Chunk.heads_ignored_trans _ 0 _ _ (Cddl.ignored_indent b)
  rw [h.startsLine_add, List.drop_length_add_append, Nat.add_comm a.length, Chunk.heads_add,
    ← hspaces] at hfront
  exact hfront

theorem isVoid_append (h : BlankLines a) : Blank.isVoid false (a ++ x) = Blank.isVoid false x := by
  have hfront := (h.ignored_indent (b := x)).isVoid
  have hspaces := (Cddl.ignored_indent x).isVoid
  rw [List.drop_length_add_append, ← hspaces] at hfront
  exact hfront

theorem headD_add {l : List Nat} {stop k : Nat} :
    (l.map (· + k)).headD (k + stop) = l.headD stop + k := by
  cases l with
  | nil => exact Nat.add_comm k stop
  | cons s l => rfl

theorem take_add (s : Nat) : (a ++ b).take (s + a.length) = a ++ b.take s := by
  rw [Nat.add_comm, List.take_length_add_append]

theorem starts_eq (h : BlankLines a) :
    starts (a ++ b) =
      if Blank.isVoid false (b.take ((heads 0 0 true 0 b).headD b.length)) then
        (heads 0 0 true 0 b).map (· + a.length)
      else 0 :: (heads 0 0 true 0 b).map (· + a.length) := by
  rw [starts, h.heads_eq, List.length_append, headD_add, take_add, h.isVoid_append]

/-- A chunk that is more than blanks is read behind the lines as it is alone. -/
theorem relocates : Relocates x (a ++ x) 0 0 (a.length + ·) (a.length + ·) := by
  constructor
  · intro k _
    omega
  · intro t k n _ _
    rw [List.take_length_add_append, List.drop_length_add_append]

theorem readChunk_zero (h : BlankLines a) {s : Nat}
    (hvoid : Blank.isVoid false (b.take s) = false) :
    Document.readChunk (a ++ b) ⟨0, s + a.length⟩ =
      Document.shiftReading a.length (Document.readChunk b ⟨0, s⟩) := by
  have hslice : (⟨0, s + a.length⟩ : Chunk).slice (a ++ b) = a ++ b.take s := take_add s
  have hslice' : (⟨0, s⟩ : Chunk).slice b = b.take s := rfl
  simp only [Document.readChunk, hslice, hslice', h.ofText]
  generalize b.take s = x at hvoid
  cases ht : Tree.ofText x with
  | error r =>
    simp only [Document.shiftReading, Except.error.injEq]
    cases r with
    | unexpected place c expected =>
      simp only [Rejection.relabel, Rejection.problem, Problem.unexpected, Problem.shift,
        Span.shift, Problem.mk.injEq, Span.mk.injEq, true_and]
      omega
    | incomplete expected =>
      simp only [Rejection.relabel, Rejection.problem, Problem.incomplete, Problem.shift,
        Span.shift, Blank.trimEnd_append hvoid, List.length_append, Problem.mk.injEq,
        Span.mk.injEq, true_and]
      omega
  | ok t =>
    obtain ⟨stop, hreads⟩ := Tree.reads_ofText ht
    have hrule : IsRule x := isRule_iff_tokens.mpr ⟨_, hreads.isRuleOf⟩
    obtain ⟨p, children, ht', hp, hc⟩ := Tree.ofText_of_isRule hrule
    rw [ht] at ht'
    cases ht'
    obtain ⟨d, hd⟩ := Definition.exists_ofTree? x 0 hp hc
    simp only [relocates.ofTree? hreads hd, hd, Definition.map_shift, Document.shiftReading]

/-- Lines of blanks and comments in front of a text move what each chunk holds. -/
theorem readings_eq (h : BlankLines a) :
    Document.readings (a ++ b) = (Document.readings b).map (Document.shiftReading a.length) := by
  have hlength : (a ++ b).length = b.length + a.length := by
    rw [List.length_append, Nat.add_comm]
  have hrules : ((between b.length (heads 0 0 true 0 b)).map (·.shift a.length)).map
        (Document.readChunk (a ++ b)) =
      ((between b.length (heads 0 0 true 0 b)).map (Document.readChunk b)).map
        (Document.shiftReading a.length) := by
    rw [List.map_map, List.map_map]
    apply List.map_congr_left
    intro c _
    exact Document.readChunk_shift c
  cases hvoid : Blank.isVoid false (b.take ((heads 0 0 true 0 b).headD b.length)) with
  | true =>
    have hstarts : starts b = heads 0 0 true 0 b := by simp only [starts, hvoid, if_true]
    rw [Document.readings, split, h.starts_eq, hvoid, if_pos rfl, hlength, Chunk.between_map,
      hrules, Document.readings, split, hstarts]
  | false =>
    have hstarts : starts b = 0 :: heads 0 0 true 0 b := by
      simp only [starts, hvoid, Bool.false_eq_true, if_false]
    rw [Document.readings, split, h.starts_eq, hvoid, if_neg Bool.false_ne_true, hlength,
      Chunk.between_cons, Chunk.between_map, List.map_cons, hrules, Document.readings, split,
      hstarts, Chunk.between_cons, List.map_cons, List.map_cons, Nat.add_comm b.length, headD_add,
      h.readChunk_zero hvoid]

end BlankLines

/-! ### Behind a document -/

namespace Literal

variable {quote : Char} {l rest : List Char}

/-- A literal that is not closed reaches to the end of the text, and beyond it if more text
follows. -/
theorem tail_open (h : closes quote l = false) :
    tail quote l = l.length ∧ l.length ≤ tail quote (l ++ rest) := by
  fun_induction closes quote l with
  | case1 => exact ⟨rfl, Nat.zero_le _⟩
  | case2 =>
    refine ⟨rfl, ?_⟩
    cases rest with
    | nil => exact Nat.le_refl _
    | cons d rest =>
      rw [List.singleton_append, tail_escape]
      exact Nat.succ_le_succ (Nat.zero_le _)
  | case3 d l ih =>
    obtain ⟨htail, hle⟩ := ih h
    rw [List.cons_append, List.cons_append, tail_escape, tail_escape, htail]
    exact ⟨rfl, Nat.add_le_add_right hle 2⟩
  | case4 => contradiction
  | case5 => contradiction
  | case6 c l hesc hc hline ih =>
    obtain ⟨htail, hle⟩ := ih h
    rw [List.cons_append, tail_other hesc hc hline, tail_other hesc hc hline, htail]
    exact ⟨rfl, Nat.add_le_add_right hle 1⟩

end Literal

namespace Chunk

variable {x later : List Char} {c : Char} {skip depth i k : Nat} {lineStart : Bool}

theorem isHead_append_line : isHead (x ++ '\n' :: later) = isHead x := by
  by_cases h : '\n' ∈ x
  · exact isHead_append h
  · exact isHead_line h

/-- What is passed over is the same with more lines behind the text, or else it reaches to the end
of the text both times. -/
theorem unread_append_line : unread c (x ++ '\n' :: later) = unread c x ∨
    unread c x = x.length ∧ x.length ≤ unread c (x ++ '\n' :: later) := by
  unfold unread
  by_cases hsemi : c = ';'
  · rw [if_pos hsemi, if_pos hsemi]
    left
    by_cases h : '\n' ∈ x
    · exact (run_append h).1
    · have hall : ∀ d ∈ x, (d != '\n') = true := fun d hd =>
        bne_iff_ne.mpr (ne_of_mem_of_not_mem hd h)
      rw [run_line h, Lexeme.run, List.takeWhile_eq_self_iff.mpr hall]
  rw [if_neg hsemi, if_neg hsemi]
  by_cases hquote : c = '"' ∨ c = '\''
  · rw [if_pos hquote, if_pos hquote]
    cases hcloses : Literal.closes c x with
    | true => exact .inl (Literal.tail_append hcloses)
    | false => exact .inr (Literal.tail_open hcloses)
  · rw [if_neg hquote, if_neg hquote]
    exact .inl rfl

/-- In a text of blanks and comments a line begins with neither a name nor anything else that opens
a rule. -/
theorem heads_ignorable (h : Ignored x 0 x.length) (hskip : skip = 0 ∨ lineStart = false) :
    heads skip depth lineStart i x = [] := by
  refine List.eq_nil_iff_forall_not_mem.mpr fun k hk => ?_
  have hpassed := (Resting.ignored h (.inl rfl)).2
  obtain ⟨hle, hlt⟩ := mem_heads hk
  have hcode : modeAt x (k - i) = .code := by
    rcases line_of_mem_heads hskip hk with ⟨rfl, -⟩ | ⟨hik, hline⟩
    · rw [Nat.sub_self]
      rfl
    · -- a line feed that is passed over ends a comment, if one is open
      have hline' := hpassed (k - i - 1) (Nat.zero_le _) (by omega)
      rw [isPassed_of_getElem? hline] at hline'
      rw [show k - i = k - i - 1 + 1 by omega, modeAt_succ hline]
      cases hmode : modeAt x (k - i - 1) with
      | code => rfl
      | comment => rfl
      | literal => rw [hmode, Mode.passes_of_isQuoted rfl] at hline'; contradiction
      | escape => rw [hmode, Mode.passes_of_isQuoted rfl] at hline'; contradiction
  have hhead := isHead_of_mem_heads hk
  have hget : x[k - i]? = some x[k - i] := List.getElem?_eq_getElem (by omega)
  have hfirst := hpassed (k - i) (Nat.zero_le _) (by omega)
  rw [isPassed_of_getElem? hget, hcode] at hfirst
  rw [List.drop_eq_getElem_cons (by omega)] at hhead
  have hname : Lexeme.isNameStart x[k - i] = false := by
    generalize x[k - i] = c at hfirst
    simp only [Mode.passes, Lexeme.isSpace, Bool.or_eq_true, beq_iff_eq] at hfirst
    rcases hfirst with ((((rfl | rfl) | rfl) | rfl) | rfl) | rfl <;> rfl
  rw [isHead_cons hname] at hhead
  contradiction

theorem heads_add_skip {n : Nat} (h : x.length ≤ n) :
    heads n depth lineStart i (x ++ later) =
      heads (n - x.length) depth lineStart (i + x.length) later := by
  induction x generalizing n i with
  | nil => rfl
  | cons c x ih =>
    obtain ⟨m, rfl⟩ : ∃ m, n = m + 1 := ⟨n - 1, by rw [List.length_cons] at h; omega⟩
    rw [List.length_cons] at h
    rw [List.cons_append, heads, ih (by omega), List.length_cons, Nat.add_sub_add_right,
      Nat.add_assoc, Nat.add_comm 1]

/-- Lines of blanks and comments behind a text hold no head, also where a literal of the text is left
open. -/
theorem heads_append_line (h : Ignored ('\n' :: later) 0 ('\n' :: later).length)
    (hskip : skip = 0 ∨ lineStart = false) :
    heads skip depth lineStart i (x ++ '\n' :: later) = heads skip depth lineStart i x := by
  fun_induction heads skip depth lineStart i x with
  | case1 => exact heads_ignorable h hskip
  | case2 skip depth lineStart i c x ih =>
    rw [List.cons_append, heads]
    refine ih (.inr ?_)
    simpa using hskip
  | case3 depth lineStart i c x ih =>
    have hunread : ∀ {l}, unread c l = 0 ∨ (c == '\n') = false := by
      intro l
      by_cases hc : c = '\n'
      · subst hc
        exact .inl rfl
      · exact .inr (beq_eq_false_iff_ne.mpr hc)
    rw [List.cons_append, heads, ← List.cons_append, isHead_append_line]
    congr 1
    rcases @unread_append_line x later c with heq | ⟨heq, hle⟩
    · rw [heq]
      exact ih hunread
    · have hover : heads (unread c x) (depthAfter c depth) (c == '\n') (i + 1) x = [] := by
        rw [heads_skip, List.drop_eq_nil_of_le (Nat.le_of_eq heq.symm), heads]
      rw [hover, heads_add_skip hle]
      refine heads_ignorable h ?_
      rcases hunread (l := x ++ '\n' :: later) with hzero | hline
      · exact .inl (by rw [hzero, Nat.zero_sub])
      · exact .inr hline

theorem starts_append_line (h : Ignored ('\n' :: later) 0 ('\n' :: later).length) :
    starts (x ++ '\n' :: later) = starts x := by
  have hvoid : Blank.isVoid false later = true := by
    have hend := h.isVoid
    rw [List.drop_length] at hend
    exact hend
  rw [starts, heads_append_line h (.inl rfl), starts]
  cases hheads : heads 0 0 true 0 x with
  | nil =>
    rw [List.headD_nil, List.headD_nil, List.take_length, List.take_length,
      Blank.isVoid_append_line hvoid]
  | cons s l =>
    have hs := (mem_heads (k := s) (by rw [hheads]; exact List.mem_cons_self)).2
    rw [List.headD_cons, List.headD_cons, List.take_append_of_le_length (by omega)]

/-- The last chunk of a text takes in the lines behind it. -/
theorem split_append_line (h : Ignored ('\n' :: later) 0 ('\n' :: later).length) :
    split x = [] ∧ split (x ++ '\n' :: later) = [] ∨
      ∃ front k, split x = front ++ [⟨k, x.length⟩] ∧
        split (x ++ '\n' :: later) = front ++ [⟨k, (x ++ '\n' :: later).length⟩] := by
  rw [split, split, starts_append_line h]
  rcases List.eq_nil_or_concat (starts x) with hnil | ⟨l, k, hconcat⟩
  · rw [hnil]
    exact .inl ⟨rfl, rfl⟩
  · rw [hconcat, List.concat_eq_append, between_append, between_append]
    exact .inr ⟨between k l, k, rfl, rfl⟩

end Chunk

namespace Document

variable {text later : List Char} {rules : List Rule}

/-- A rule at the end of a text is read as before with more lines of blanks and comments behind. -/
theorem readChunk_append_line (h : Ignored ('\n' :: later) 0 ('\n' :: later).length) {k : Nat}
    {d : Definition} (hd : readChunk text ⟨k, text.length⟩ = .ok d) (hk : k ≤ text.length) :
    readChunk (text ++ '\n' :: later) ⟨k, (text ++ '\n' :: later).length⟩ = .ok d := by
  have hslice : (⟨k, text.length⟩ : Chunk).slice text = text.drop k := by
    rw [Chunk.slice, List.take_length]
  have hslice' : (⟨k, (text ++ '\n' :: later).length⟩ : Chunk).slice (text ++ '\n' :: later) =
      text.drop k ++ '\n' :: later := by
    rw [Chunk.slice, List.take_length, List.drop_append_of_le_length hk]
  rw [readChunk, hslice] at hd
  simp only [readChunk, hslice']
  generalize text.drop k = x at hd
  cases ht : Tree.ofText x with
  | error r => simp [ht] at hd
  | ok t =>
    obtain ⟨stop, hreads⟩ := Tree.reads_ofText ht
    have hrelocates : Relocates x (x ++ '\n' :: later) k k id id := by
      constructor
      · intro i _
        rfl
      · intro t i n _ hm
        have hle := Terminal.match?_le hm
        have hpos := Terminal.match?_pos hm
        rw [List.length_drop] at hle
        show ((x ++ '\n' :: later).take (i + n)).drop i = (x.take (i + n)).drop i
        rw [List.take_append_of_le_length (by omega)]
    cases he : Definition.ofTree? x k t with
    | none => simp [ht, he] at hd
    | some e =>
      simp only [ht, he, Except.ok.injEq] at hd
      simp only [Tree.ofText_append_lines h ht, hrelocates.ofTree? hreads he, Definition.map_id, hd]

/-- Lines of blanks and comments behind an accepted text change nothing. -/
theorem parse_append_line (h : Ignored ('\n' :: later) 0 ('\n' :: later).length)
    (hparse : parse text = .ok rules) : parse (text ++ '\n' :: later) = .ok rules := by
  have hreadings : readings (text ++ '\n' :: later) = readings text := by
    rcases Chunk.split_append_line (x := text) h with ⟨hsplit, hsplit'⟩ | ⟨front, k, hsplit, hsplit'⟩
    · rw [readings, hsplit', readings, hsplit]
      rfl
    · have hmem : (⟨k, text.length⟩ : Chunk) ∈ Chunk.split text := by simp [hsplit]
      obtain ⟨hlt, -⟩ := Chunk.bounds_of_mem_split hmem
      have hbounds : ∀ c ∈ front, c.stop ≤ text.length := by
        intro c hc
        exact (Chunk.bounds_of_mem_split (by simp [hsplit, hc])).2
      have hforall := forall₂_of_syntaxErrors (rules_of_parse hparse).1
      obtain ⟨d, -, hd⟩ := exists_of_forall₂ hforall.flip hmem
      rw [readings, hsplit', List.map_append, readings, hsplit, List.map_append]
      congr 1
      · apply List.map_congr_left
        intro c hc
        exact readChunk_append (hbounds c hc)
      · rw [List.map_singleton, List.map_singleton, hd,
          readChunk_append_line h hd (Nat.le_of_lt hlt)]
  rw [parse, hreadings]
  exact hparse

/-- An answer for a text that is moved. -/
def shiftAnswer (k : Nat) : Except (List Problem) (List Rule) → Except (List Problem) (List Rule)
  | .ok rules => .ok (rules.map (·.shift k))
  | .error problems => .error (problems.map (·.shift k))

theorem unresolved_shift {k : Nat} (ds : List Definition) :
    unresolved (ds.map (·.shift k)) = (unresolved ds).map (·.shift k) := by
  simp only [← Definition.map_shift, unresolved_map, Name.map_shift]

theorem problems_shift {k : Nat} (rs : List (Except Problem Definition)) :
    problems (rs.map (shiftReading k)) = (problems rs).map (·.shift k) := by
  rw [problems, broken_shift, definitions_shift, unresolved_shift, problems]
  cases broken rs with
  | nil =>
    simp only [List.map_nil, List.map_map]
    rfl
  | cons p ps => rfl

theorem resolve_shift {k : Nat} (rs : List (Except Problem Definition)) :
    resolve (rs.map (shiftReading k)) = shiftAnswer k (resolve rs) := by
  rw [resolve, problems_shift, definitions_shift, resolve]
  cases problems rs with
  | nil =>
    simp only [List.map_nil, List.map_map, shiftAnswer]
    rfl
  | cons p ps => rfl

/-- Blanks and comments around a document only move it. Whole lines of them in front shift every span
by their length, in the rules as in the problems; behind an accepted document a line feed and what
is ignored after it change nothing. -/
theorem parse_surrounded {before behind text : List Char} (hbefore : BlankLines before)
    (hbehind : Ignored behind 0 behind.length) :
    parse (before ++ text) = shiftAnswer before.length (parse text) ∧
      ∀ rules, parse text = .ok rules → parse (text ++ '\n' :: behind) = .ok rules := by
  constructor
  · rw [parse, hbefore.readings_eq, resolve_shift]
    rfl
  · intro rules hparse
    have hline : BlankLines ['\n'] := ⟨.next (n := 1) rfl (.done 1), .inr rfl⟩
    have hlater := (hline.ignored_iff (indent_le behind)).mp hbehind
    rw [List.length_singleton, Nat.add_comm] at hlater
    exact parse_append_line hlater hparse

/-- A rule between two comments that hold a quote each. -/
theorem parse_surrounded_quotes :
    BlankLines [';', '\'', '\n'] ∧ Ignored [';', '"'] 0 2 ∧
    parse ['a', '=', '1'] = .ok [.type ⟨"a", ⟨0, 1⟩⟩ ⟨0, 3⟩ none] ∧
    parse [';', '\'', '\n', 'a', '=', '1'] = .ok [.type ⟨"a", ⟨3, 4⟩⟩ ⟨3, 6⟩ none] ∧
    parse ['a', '=', '1', '\n', ';', '"'] = .ok [.type ⟨"a", ⟨0, 1⟩⟩ ⟨0, 3⟩ none] := by
  have hbefore : BlankLines [';', '\'', '\n'] :=
    ⟨.next (n := 2) rfl (.next (n := 1) rfl (.done 3)), .inr rfl⟩
  have hbehind : Ignored [';', '"'] 0 2 := .next (n := 2) rfl (.done 2)
  have hparse : parse ['a', '=', '1'] = .ok [.type ⟨"a", ⟨0, 1⟩⟩ ⟨0, 3⟩ none] := by
    decide +kernel
  obtain ⟨hfront, hend⟩ := @parse_surrounded _ _ ['a', '=', '1'] hbefore hbehind
  rw [hparse] at hfront
  exact ⟨hbefore, hbehind, hparse, hfront, hend _ hparse⟩

end Document

end Cddl

import Mathlib.Data.List.DropRight
import Mathlib.Data.List.Chain
import Cddl.Proofs.Prologue
import Cddl.Proofs.Surround

/-!
How the chunks divide a text. The way of the search through the text is described here by one rule
for each kind of character: it goes to the end of the line from the mark of a comment, to the end of
a literal from its quote, and to the next character from any other. Every chunk but perhaps the first
begins with a head to which the search comes with no bracket open, and what stands in front of the
first chunk is white space and comments.
-/
namespace Cddl

/-! ### White space and comments -/

namespace Blank

/-- The character at an offset is no white space, and no comment is open on its line. -/
def Visible (text : List Char) (i : Nat) : Prop :=
  ∃ c, text[i]? = some c ∧ isBlank c = false ∧ ';' ∉ (text.take (i + 1)).rtakeWhile (· != '\n')

/-- The same where a comment may be open in front of the text. -/
def VisibleBehind (inComment : Bool) (text : List Char) (i : Nat) : Prop :=
  Visible text i ∧ (inComment = true → '\n' ∈ text.take (i + 1))

variable {text rest : List Char} {c : Char} {i k : Nat} {inComment : Bool}

theorem mem_rtakeWhile_cons : ';' ∈ (c :: text).rtakeWhile (· != '\n') ↔
    ';' ∈ text.rtakeWhile (· != '\n') ∨ c = ';' ∧ '\n' ∉ text := by
  rw [List.rtakeWhile, List.rtakeWhile, List.reverse_cons, List.takeWhile_append,
    List.mem_reverse, List.mem_reverse]
  by_cases hline : '\n' ∈ text
  · have hstop : (text.reverse.takeWhile (· != '\n')).length ≠ text.reverse.length := by
      intro heq
      have hall := (List.takeWhile_prefix (· != '\n') (l := text.reverse)).eq_of_length heq
      have hmem : '\n' ∈ text.reverse.takeWhile (· != '\n') := by simpa [hall] using hline
      simpa using List.mem_takeWhile_imp hmem
    rw [if_neg hstop]
    simp [hline]
  · have hall : text.reverse.takeWhile (· != '\n') = text.reverse := by
      refine List.takeWhile_eq_self_iff.mpr fun d hd => ?_
      exact bne_iff_ne.mpr (ne_of_mem_of_not_mem (List.mem_reverse.mp hd) hline)
    rw [hall, if_pos rfl, List.mem_append]
    by_cases hc : c = '\n'
    · simp [hc]
    · rw [List.takeWhile_cons_of_pos (by simp [hc]), List.takeWhile_nil, List.mem_reverse,
        List.mem_singleton]
      exact or_congr_right ⟨fun h => ⟨h.symm, hline⟩, fun h => h.1.symm⟩

theorem visibleBehind_succ : VisibleBehind inComment (c :: rest) (i + 1) ↔
    VisibleBehind (if inComment then c != '\n' else c == ';') rest i := by
  simp only [VisibleBehind, Visible, List.getElem?_cons_succ, List.take_succ_cons,
    mem_rtakeWhile_cons, List.mem_cons]
  cases inComment with
  | false => simp only [Bool.false_eq_true, if_false, beq_iff_eq]; grind
  | true => simp only [if_true, bne_iff_ne]; grind

theorem visibleBehind_zero : VisibleBehind inComment (c :: rest) 0 ↔
    inComment = false ∧ c ≠ ';' ∧ isBlank c = false := by
  have hline : isBlank '\n' = true := by decide
  simp only [VisibleBehind, Visible, List.getElem?_cons_zero, List.take_succ_cons, List.take_zero,
    mem_rtakeWhile_cons]
  cases inComment with
  | false => simp; grind
  | true => simp; grind

theorem isVoid_eq_false_iff :
    isVoid inComment text = false ↔ ∃ i, VisibleBehind inComment text i := by
  induction text generalizing inComment with
  | nil => simp [isVoid, VisibleBehind, Visible]
  | cons c rest ih =>
    have hsplit : (∃ i, VisibleBehind inComment (c :: rest) i) ↔
        VisibleBehind inComment (c :: rest) 0 ∨
          ∃ i, VisibleBehind (if inComment then c != '\n' else c == ';') rest i := by
      constructor
      · rintro ⟨_ | i, hi⟩
        · exact .inl hi
        · exact .inr ⟨i, visibleBehind_succ.mp hi⟩
      · rintro (hzero | ⟨i, hi⟩)
        · exact ⟨0, hzero⟩
        · exact ⟨i + 1, visibleBehind_succ.mpr hi⟩
    rw [hsplit, visibleBehind_zero, ← ih, isVoid]
    cases inComment with
    | true => simp
    | false =>
      by_cases hc : c = ';'
      · simp [hc]
      · have hmark : (c == ';') = false := beq_eq_false_iff_ne.mpr hc
        simp only [hmark, Bool.false_eq_true, if_false, Bool.and_eq_false_iff]
        simp [hc]

/-- A stretch at the front of a text that is not white space and comments holds a visible
character. -/
theorem exists_visible (h : isVoid false (text.take k) = false) : ∃ i < k, Visible text i := by
  obtain ⟨i, ⟨c, hc, hblank, hline⟩, -⟩ := isVoid_eq_false_iff.mp h
  have hi : i < k := by
    have hlt := (List.getElem?_eq_some_iff.mp hc).1
    rw [List.length_take] at hlt
    omega
  rw [List.getElem?_take_of_lt hi] at hc
  rw [List.take_take, Nat.min_eq_left (Nat.succ_le_of_lt hi)] at hline
  exact ⟨i, hi, c, hc, hblank, hline⟩

end Blank

namespace Chunk

/-- The offset of the line feed that ends the line, or of the end of the text. -/
def endOfLine (text : List Char) (i : Nat) : Nat := i + Lexeme.run (· != '\n') (text.drop i)

/-- The search for rules comes to the offset `i`, with so many brackets open. -/
inductive ComesTo (text : List Char) : (i depth : Nat) → Prop where
  | start : ComesTo text 0 0
  | comment {i depth} : ComesTo text i depth → text[i]? = some ';' →
      ComesTo text (endOfLine text i) depth
  | literal {i depth quote} : ComesTo text i depth → text[i]? = some quote →
      quote = '"' ∨ quote = '\'' → ComesTo text (Literal.stop text i) depth
  | character {i depth c} : ComesTo text i depth → text[i]? = some c → c ≠ ';' →
      ¬ (c = '"' ∨ c = '\'') → ComesTo text (i + 1) (depthAfter c depth)

/-- A comment that the search passes over goes on at the offset. -/
def InComment (text : List Char) (o : Nat) : Prop :=
  ∃ i depth, ComesTo text i depth ∧ text[i]? = some ';' ∧ i < o ∧ o < endOfLine text i

/-- A literal that the search passes over goes on at the offset. -/
def InLiteral (text : List Char) (o : Nat) : Prop :=
  ∃ i depth quote, ComesTo text i depth ∧ text[i]? = some quote ∧ (quote = '"' ∨ quote = '\'') ∧
    i < o ∧ o < Literal.stop text i

/-- A rule may begin at the offset: a head stands there in the first column. -/
structure Heads (text : List Char) (i : Nat) : Prop where
  column : i = 0 ∨ text[i - 1]? = some '\n'
  head : isHead (text.drop i) = true

/-- The chunks divide the text. -/
structure Divides (text : List Char) (chunks : List Chunk) : Prop where
  nonempty : ∀ c ∈ chunks, c.start < c.stop
  adjacent : chunks.IsChain fun a b => a.stop = b.start
  ending : ∀ c ∈ chunks.getLast?, c.stop = text.length
  /-- What stands in front of the first chunk is white space and comments. -/
  before : Blank.isVoid false (text.take ((chunks.head?.map (·.start)).getD text.length)) = true
  headed : ∀ c ∈ chunks.tail, Heads text c.start
  first : ∀ c ∈ chunks.head?, Heads text c.start ∨
    c.start = 0 ∧ isHead text = false ∧ ∃ i < c.stop, Blank.Visible text i
  reached : ∀ c ∈ chunks, ComesTo text c.start 0
  unbracketed : ∀ c ∈ chunks, ∀ depth, ComesTo text c.start depth → depth = 0
  outside : ∀ c ∈ chunks, ¬ InComment text c.start ∧ ¬ InLiteral text c.start

/-! ### The way of the search -/

variable {text rest : List Char} {c d : Char} {i j k n depth depth' : Nat}

/-- Where the search goes on behind a character. -/
def further (text : List Char) (i : Nat) (c : Char) : Nat := i + 1 + unread c (text.drop (i + 1))

theorem endOfLine_eq (h : text[i]? = some ';') : endOfLine text i = further text i ';' := by
  rw [endOfLine, List.drop_eq_getElem?_toList_append, h, Option.toList_some, List.singleton_append,
    Lexeme.run_cons_pos (by decide), further, unread, if_pos rfl, Nat.add_assoc, Nat.add_comm 1]

theorem stop_eq (h : text[i]? = some c) (hc : c = '"' ∨ c = '\'') :
    Literal.stop text i = further text i c := by
  have hne : c ≠ ';' := by
    rcases hc with rfl | rfl <;> decide
  rw [Literal.stop, List.drop_eq_getElem?_toList_append, h, Option.toList_some,
    List.singleton_append, further, unread, if_neg hne, if_pos hc]

theorem ComesTo.next (h : ComesTo text i depth) (hc : text[i]? = some c) :
    ComesTo text (further text i c) (depthAfter c depth) := by
  by_cases hcomment : c = ';'
  · subst hcomment
    rw [← endOfLine_eq hc]
    exact h.comment hc
  by_cases hliteral : c = '"' ∨ c = '\''
  · have hdepth : depthAfter c depth = depth := by
      rcases hliteral with rfl | rfl <;> rfl
    rw [← stop_eq hc hliteral, hdepth]
    exact h.literal hc hliteral
  · have hnone : further text i c = i + 1 := by
      rw [further, unread, if_neg hcomment, if_neg hliteral]
    rw [hnone]
    exact h.character hc hcomment hliteral

/-- The search comes to an offset from the beginning, or from a character further in front. -/
theorem ComesTo.cases_next (h : ComesTo text k depth) : k = 0 ∧ depth = 0 ∨
    ∃ i e c, ComesTo text i e ∧ text[i]? = some c ∧ k = further text i c ∧
      depth = depthAfter c e := by
  cases h with
  | start => exact .inl ⟨rfl, rfl⟩
  | @comment i _ hi hc => exact .inr ⟨i, depth, ';', hi, hc, endOfLine_eq hc, rfl⟩
  | @literal i _ quote hi hc hquote =>
    refine .inr ⟨i, depth, quote, hi, hc, stop_eq hc hquote, ?_⟩
    rcases hquote with rfl | rfl <;> rfl
  | @character i e c hi hc hcomment hliteral =>
    refine .inr ⟨i, e, c, hi, hc, ?_, rfl⟩
    rw [further, unread, if_neg hcomment, if_neg hliteral]

theorem lt_further (text : List Char) (i : Nat) (c : Char) : i < further text i c := by
  unfold further
  omega

/-- The search comes to no offset that it passes over. -/
theorem ComesTo.further_le (hi : ComesTo text i depth) (hk : ComesTo text k depth')
    (hc : text[i]? = some c) (h : i < k) : further text i c ≤ k := by
  induction hn : i + k using Nat.strong_induction_on generalizing i k depth depth' c with
  | _ n ih =>
    subst hn
    rcases hk.cases_next with ⟨rfl, -⟩ | ⟨j, e, d, hj, hd, rfl, -⟩
    · contradiction
    have hlt := lt_further text j d
    -- the search comes to `k` from `j`, which lies behind `i`, at `i` or in front of `i`
    rcases Nat.lt_trichotomy i j with hij | rfl | hji
    · exact Nat.le_trans (ih (i + j) (by omega) hi hj hc hij rfl) (Nat.le_of_lt hlt)
    · rw [hc] at hd
      cases hd
      exact Nat.le_refl _
    · have hle := ih (j + i) (by omega) hj hi hd hji rfl
      omega

theorem ComesTo.depth_unique (h : ComesTo text k depth) (h' : ComesTo text k depth') :
    depth = depth' := by
  induction k using Nat.strong_induction_on generalizing depth depth' with
  | _ k ih =>
    rcases h.cases_next with ⟨rfl, rfl⟩ | ⟨i, e, c, hi, hc, rfl, rfl⟩
    · rcases h'.cases_next with ⟨-, rfl⟩ | ⟨j, e, d, -, -, heq, -⟩
      · rfl
      · have hlt := lt_further text j d
        omega
    · have hlt := lt_further text i c
      rcases h'.cases_next with ⟨heq, -⟩ | ⟨j, e', d, hj, hd, heq, rfl⟩
      · omega
      have hlt' := lt_further text j d
      have hij : i = j := by
        by_contra hne
        rcases Nat.lt_or_gt_of_ne hne with hlt'' | hgt
        · have hle := hi.further_le hj hc hlt''
          omega
        · have hle := hj.further_le hi hd hgt
          omega
      subst hij
      rw [hc] at hd
      cases hd
      rw [ih i hlt hi hj]

/-- The offsets at which rules begin are reached outside brackets. -/
theorem ComesTo.of_mem_heads {skip : Nat} {lineStart : Bool} {l : List Char}
    (hi : ComesTo text (i + skip) depth) (hl : text.drop i = l)
    (h : k ∈ heads skip depth lineStart i l) : ComesTo text k 0 := by
  fun_induction heads skip depth lineStart i l with
  | case1 => contradiction
  | case2 skip depth lineStart i c rest ih =>
    rw [Nat.add_right_comm, Nat.add_assoc] at ih
    exact ih hi (drop_succ_of_drop hl) h
  | case3 depth lineStart i c rest ih =>
    rw [Nat.add_zero] at hi
    have hc : text[i]? = some c := by
      rw [← List.head?_drop, hl, List.head?_cons]
    have hrest := drop_succ_of_drop hl
    rcases List.mem_append.mp h with h | h
    · split at h
      next hcond =>
        simp only [Bool.and_eq_true, beq_iff_eq] at hcond
        obtain rfl := List.mem_singleton.mp h
        rw [← hcond.1.2]
        exact hi
      next => contradiction
    · refine ih ?_ hrest h
      have hnext := hi.next hc
      rwa [further, hrest] at hnext

theorem ComesTo.not_inComment (h : ComesTo text k depth) : ¬ InComment text k := by
  rintro ⟨i, e, hi, hc, hik, hki⟩
  have hle := hi.further_le h hc hik
  rw [← endOfLine_eq hc] at hle
  omega

theorem ComesTo.not_inLiteral (h : ComesTo text k depth) : ¬ InLiteral text k := by
  rintro ⟨i, e, quote, hi, hc, hquote, hik, hki⟩
  have hle := hi.further_le h hc hik
  rw [← stop_eq hc hquote] at hle
  omega

/-! ### Chunks -/

theorem heads_of_mem (h : k ∈ heads 0 0 true 0 text) : Heads text k := by
  have hhead := isHead_of_mem_heads h
  rw [Nat.sub_zero] at hhead
  refine ⟨?_, hhead⟩
  rcases line_of_mem_heads (.inl rfl) h with ⟨hzero, -⟩ | ⟨-, hline⟩
  · exact .inl hzero
  · exact .inr hline

theorem comesTo_of_mem_starts (h : k ∈ starts text) : ComesTo text k 0 := by
  rw [starts] at h
  split at h
  next => exact .of_mem_heads .start (List.drop_zero) h
  next =>
    rcases List.mem_cons.mp h with rfl | h
    · exact .start
    · exact .of_mem_heads .start (List.drop_zero) h

theorem map_start_between (stop : Nat) (l : List Nat) : (between stop l).map start = l := by
  fun_induction between stop l with
  | case1 => rfl
  | case2 => rfl
  | case3 k next l ih => rw [List.map_cons, ih]

theorem isChain_between (stop : Nat) (l : List Nat) :
    (between stop l).IsChain fun a b => a.stop = b.start := by
  fun_induction between stop l with
  | case1 => exact .nil
  | case2 => exact .singleton _
  | case3 k next l ih =>
    refine List.isChain_cons.mpr ⟨fun b hb => ?_, ih⟩
    cases l <;> cases hb <;> rfl

theorem getLast_between {stop : Nat} {l : List Nat} : ∀ c ∈ (between stop l).getLast?, c.stop = stop := by
  fun_induction between stop l with
  | case1 => simp
  | case2 => simp
  | case3 k next l ih =>
    intro c hc
    cases hl : between stop (next :: l) with
    | nil => cases l <;> contradiction
    | cons b bs =>
      rw [hl] at hc ih
      exact ih c (by simpa using hc)

/-- A chunk begins with a head, unless it is the first one and holds what stands in front of all
heads. -/
theorem starts_cases (text : List Char) :
    (∀ k ∈ (starts text).tail, Heads text k) ∧ ∀ k ∈ (starts text).head?, Heads text k ∨
      k = 0 ∧ isHead text = false ∧
        ∃ i < (starts text).tail.headD text.length, Blank.Visible text i := by
  rw [starts]
  split
  next hvoid =>
    refine ⟨fun k hk => heads_of_mem (List.mem_of_mem_tail hk), fun k hk => .inl ?_⟩
    exact heads_of_mem (List.mem_of_mem_head? hk)
  next hvoid =>
    refine ⟨fun k hk => heads_of_mem hk, fun k hk => ?_⟩
    obtain rfl : 0 = k := Option.some.inj hk
    cases hhead : isHead text with
    | true => exact .inl ⟨.inl rfl, hhead⟩
    | false => exact .inr ⟨rfl, rfl, Blank.exists_visible (Bool.not_eq_true _ ▸ hvoid)⟩

/-- The chunks of a text divide it: behind white space and comments they follow each other up to the
end of the text, and each of them but perhaps the first begins with a head in the first column,
outside brackets, comments and literals. -/
theorem split_divides (text : List Char) : Divides text (split text) := by
  have hstart : ∀ c ∈ split text, c.start ∈ starts text := by
    intro c hc
    rw [← map_start_between text.length (starts text)]
    exact List.mem_map_of_mem hc
  have hreached : ∀ c ∈ split text, ComesTo text c.start 0 := fun c hc =>
    comesTo_of_mem_starts (hstart c hc)
  obtain ⟨htail, hhead⟩ := starts_cases text
  constructor
  · exact fun c hc => (bounds_of_mem_split hc).1
  · exact isChain_between text.length (starts text)
  · exact getLast_between
  · exact isVoid_prologue text
  · intro c hc
    refine htail c.start ?_
    rw [← map_start_between text.length (starts text), ← List.map_tail]
    exact List.mem_map_of_mem hc
  · intro c hc
    rw [split] at hc
    cases hs : starts text with
    | nil =>
      rw [hs] at hc
      contradiction
    | cons k l =>
      rw [hs, between_cons] at hc
      cases hc
      rw [hs] at hhead
      exact hhead k rfl
  · exact hreached
  · exact fun c hc depth h => h.depth_unique (hreached c hc)
  · exact fun c hc => ⟨(hreached c hc).not_inComment, (hreached c hc).not_inLiteral⟩

/-- What stands in front of the first head is a chunk of its own where it is more than comments; a
head behind an open bracket begins no chunk. -/
example : split "x\na=(\nb=1)\nc=2".toList = [⟨0, 2⟩, ⟨2, 11⟩, ⟨11, 14⟩] := by decide

end Chunk

end Cddl

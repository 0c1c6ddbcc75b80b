import Cddl.Proofs.Head
import Cddl.Proofs.Tokens

/-!
What the search for rules makes of the tokens of a rule. Blanks, comments and the inside of
literals hold no head and leave the depth as it is, so that only the first characters of tokens
need to be looked at.
-/
namespace Cddl

namespace Literal

variable {quote c : Char} {rest : List Char}

theorem tail_escape : tail quote ('\\' :: c :: rest) = tail quote rest + 2 := by
  rw [tail, if_pos rfl]

theorem tail_quote (hq : quote ≠ '\\') : tail quote (quote :: rest) = 1 := by
  rw [tail.eq_def]
  simp only [if_neg hq, if_pos]

theorem tail_line : tail '"' ('\n' :: rest) = 0 := by
  rw [tail.eq_def]
  rfl

theorem tail_other (hesc : c ≠ '\\') (hc : c ≠ quote) (hline : ¬(c = '\n' ∧ quote = '"')) :
    tail quote (c :: rest) = tail quote rest + 1 := by
  rw [tail.eq_def]
  simp only [if_neg hesc, if_neg hc, if_neg hline]

end Literal

namespace Lexeme

variable {text : List Char} {n : Nat}

/-- The search and the grammar agree on where a literal ends, unless a line feed stands in a text
literal. -/
theorem tail_of_literalTail? {quote : Char} (hq : quote ≠ '\\')
    (h : literalTail? quote text = some n) (hline : quote = '"' → '\n' ∉ text.take n) :
    Literal.tail quote text = n := by
  fun_induction literalTail? quote text generalizing n with
  | case1 => contradiction
  | case2 rest =>
    cases h
    exact Literal.tail_quote hq
  | case3 => contradiction
  | case4 => contradiction
  | case5 rest hc d hd ih =>
    obtain ⟨m, hm, rfl⟩ := Option.map_eq_some_iff.mp h
    rw [Literal.tail_escape, ih hm fun he hmem => hline he (by simp [hmem])]
  | case6 c rest hc hesc ih =>
    obtain ⟨m, hm, rfl⟩ := Option.map_eq_some_iff.mp h
    have hopen : ¬(c = '\n' ∧ quote = '"') := by
      rintro ⟨rfl, he⟩
      exact hline he (by simp)
    rw [Literal.tail_other hesc hc hopen, ih hm fun he hmem => hline he (by simp [hmem])]

end Lexeme

namespace Chunk

/-- The offset is in the first column. -/
def startsLine (text : List Char) (i : Nat) : Bool := i == 0 || text[i - 1]? == some '\n'

/-- The number of open brackets behind a token. -/
def depthAfterToken (t : Terminal) (depth : Nat) : Nat :=
  match t with
  | .openBrace | .openParen | .openBracket => depth + 1
  | .closeBrace | .closeParen | .closeBracket => depth - 1
  | _ => depth

/-- The offset of a head at the front of a text, where one is recorded. -/
def headAt (depth : Nat) (lineStart : Bool) (i : Nat) (text : List Char) : List Nat :=
  if lineStart && depth == 0 && isHead text then [i] else []

variable {text rest : List Char} {c : Char} {depth i k n : Nat} {lineStart : Bool}

theorem heads_skip : heads n depth lineStart i text =
    heads 0 depth lineStart (i + n) (text.drop n) := by
  induction n generalizing i text with
  | zero => rfl
  | succ n ih =>
    cases text with
    | nil => simp [heads]
    | cons c rest =>
      rw [heads, ih, List.drop_succ_cons, Nat.add_right_comm, Nat.add_assoc]

theorem heads_cons : heads 0 depth lineStart i (c :: rest) =
    headAt depth lineStart i (c :: rest) ++
      heads 0 (depthAfter c depth) (c == '\n') (i + 1 + unread c rest)
        (rest.drop (unread c rest)) := by
  rw [heads, heads_skip, headAt]

theorem unread_of_not_mark (hc : c ∉ Lexeme.marks) : unread c rest = 0 := by
  simp only [Lexeme.marks, List.mem_cons, not_or] at hc
  simp [unread, hc]

theorem depthAfter_of_not_mark (hc : c ∉ Lexeme.marks) : depthAfter c depth = depth := by
  simp only [Lexeme.marks, List.mem_cons, not_or] at hc
  simp [depthAfter, hc]

theorem not_line_of_not_mark (hc : c ∉ Lexeme.marks) : (c == '\n') = false := by
  simp only [Lexeme.marks, List.mem_cons, not_or] at hc
  simp [hc]

@[simp] theorem headAt_false : headAt depth false i text = [] := by
  simp [headAt]

theorem heads_plain (h : Lexeme.Plain n text) :
    heads 0 depth false i text = heads 0 depth false (i + n) (text.drop n) := by
  induction n generalizing i text with
  | zero => rfl
  | succ n ih =>
    cases text with
    | nil => simp [heads]
    | cons c rest =>
      have hc : c ∉ Lexeme.marks := h c (by simp)
      have hrest : Lexeme.Plain n rest := fun d hd => h d (by simp [hd])
      rw [heads_cons, unread_of_not_mark hc, depthAfter_of_not_mark hc, not_line_of_not_mark hc,
        headAt_false, List.nil_append, List.drop_zero, ih hrest, List.drop_succ_cons]
      congr 1
      omega

theorem heads_plain_match (hpos : 0 < n) (h : Lexeme.Plain n text) :
    heads 0 depth lineStart i text =
      headAt depth lineStart i text ++ heads 0 depth false (i + n) (text.drop n) := by
  obtain ⟨m, rfl⟩ : ∃ m, n = m + 1 := ⟨n - 1, by omega⟩
  cases text with
  | nil => simp [heads, headAt, isHead, Lexeme.name?]
  | cons c rest =>
    have hc : c ∉ Lexeme.marks := h c (by simp)
    have hrest : Lexeme.Plain m rest := fun d hd => h d (by simp [hd])
    rw [heads_cons, unread_of_not_mark hc, depthAfter_of_not_mark hc, not_line_of_not_mark hc,
      List.drop_zero, heads_plain hrest, List.drop_succ_cons]
    congr 2
    omega

theorem heads_literal {quote : Char} (hq : quote = '"' ∨ quote = '\'')
    (h : Lexeme.literalTail? quote rest = some n) (hline : quote = '"' → '\n' ∉ rest.take n) :
    heads 0 depth lineStart i (quote :: rest) =
      headAt depth lineStart i (quote :: rest) ++
        heads 0 depth false (i + (n + 1)) (rest.drop n) := by
  have htail : Literal.tail quote rest = n := by
    refine Lexeme.tail_of_literalTail? ?_ h hline
    rcases hq with rfl | rfl <;> decide
  have hunread : unread quote rest = n := by
    rw [← htail]
    rcases hq with rfl | rfl <;> rfl
  have hdepth : depthAfter quote depth = depth := by
    rcases hq with rfl | rfl <;> rfl
  have hstart : (quote == '\n') = false := by
    rcases hq with rfl | rfl <;> rfl
  rw [heads_cons, hunread, hdepth, hstart, Nat.add_assoc, Nat.add_comm 1]

/-- A byte string behind its base mark. -/
theorem heads_based (base : List Char) (hbase : Lexeme.marks.any base.contains = false)
    (hne : base ≠ [])
    (h : Lexeme.literalTail? '\'' rest = some n) :
    heads 0 depth lineStart i (base ++ '\'' :: rest) =
      headAt depth lineStart i (base ++ '\'' :: rest) ++
        heads 0 depth false (i + (n + 1 + base.length)) (rest.drop n) := by
  have hplain : Lexeme.Plain base.length (base ++ '\'' :: rest) := by
    intro c hc
    rw [List.take_left] at hc
    exact Lexeme.not_mem_of_any hbase (List.contains_iff_mem.mpr hc)
  rw [heads_plain_match (List.length_pos_iff.mpr hne) hplain, List.drop_left,
    heads_literal (.inr rfl) h nofun, headAt_false, List.nil_append, Nat.add_comm (n + 1),
    Nat.add_assoc]

theorem heads_bracket (hb : c ∈ ['(', ')', '[', ']', '\x7b', '\x7d'])
    (h : Lexeme.spelled? [[c]] text = some n) :
    heads 0 depth lineStart i text =
      headAt depth lineStart i text ++
        heads 0 (depthAfter c depth) false (i + n) (text.drop n) := by
  obtain ⟨rfl, rest, rfl⟩ := Lexeme.eq_append_of_spelled? h
  have hunread : unread c rest = 0 := by
    simp only [List.mem_cons, List.not_mem_nil, or_false] at hb
    rcases hb with rfl | rfl | rfl | rfl | rfl | rfl <;> rfl
  have hstart : (c == '\n') = false := by
    simp only [List.mem_cons, List.not_mem_nil, or_false] at hb
    rcases hb with rfl | rfl | rfl | rfl | rfl | rfl <;> rfl
  show heads 0 depth lineStart i (c :: rest) =
    headAt depth lineStart i (c :: rest) ++ heads 0 (depthAfter c depth) false (i + 1) rest
  rw [heads_cons, hunread, hstart, Nat.add_zero, List.drop_zero]

/-- A token holds no head behind its first character. -/
theorem heads_token {t : Terminal} (h : t.match? text = some n)
    (hline : t = .text → '\n' ∉ text.take n) :
    heads 0 depth lineStart i text =
      headAt depth lineStart i text ++
        heads 0 (depthAfterToken t depth) false (i + n) (text.drop n) := by
  cases t with
  | openBrace | closeBrace | openParen | closeParen | openBracket | closeBracket =>
    exact heads_bracket (by decide) h
  | text =>
    simp only [Terminal.match?, Lexeme.text?] at h
    split at h
    next rest =>
      obtain ⟨m, hm, rfl⟩ := Option.map_eq_some_iff.mp h
      exact heads_literal (.inl rfl) hm fun _ hmem => hline rfl (by simp [hmem])
    next => contradiction
  | bytes =>
    simp only [Terminal.match?, Lexeme.bytes?] at h
    split at h
    next rest =>
      obtain ⟨m, hm, rfl⟩ := Option.map_eq_some_iff.mp h
      exact heads_literal (.inr rfl) hm nofun
    next rest =>
      obtain ⟨m, hm, rfl⟩ := Option.map_eq_some_iff.mp h
      exact heads_based ['h'] (by decide) (by decide) hm
    next rest =>
      obtain ⟨m, hm, rfl⟩ := Option.map_eq_some_iff.mp h
      exact heads_based ['b', '6', '4'] (by decide) (by decide) hm
    next => contradiction
  | _ => exact heads_plain_match (Terminal.match?_pos h) (Terminal.plain_match? rfl h)

theorem startsLine_succ (h : text.drop i = c :: rest) : startsLine text (i + 1) = (c == '\n') := by
  have hget : text[i]? = some c := by
    rw [← List.head?_drop, h, List.head?_cons]
  simp [startsLine, hget]

theorem startsLine_add (hn : 0 < n) (h : (text.drop i)[n - 1]? ≠ some '\n') :
    startsLine text (i + n) = false := by
  rw [List.getElem?_drop, ← Nat.add_sub_assoc hn] at h
  rw [startsLine, Bool.or_eq_false_iff]
  exact ⟨beq_eq_false_iff_ne.mpr (by omega), beq_eq_false_iff_ne.mpr h⟩

theorem drop_succ_of_drop (h : text.drop i = c :: rest) : text.drop (i + 1) = rest := by
  rw [← List.drop_drop, h, List.drop_one, List.tail_cons]

theorem heads_space (hc : Lexeme.isSpace c = true) :
    heads 0 depth lineStart i (c :: rest) = heads 0 depth (c == '\n') (i + 1) rest := by
  have hhead : isHead (c :: rest) = false := by
    refine isHead_cons ?_
    simp only [Lexeme.isSpace, Bool.or_eq_true, beq_iff_eq] at hc
    rcases hc with (((rfl | rfl) | rfl) | rfl) | rfl <;> rfl
  simp only [Lexeme.isSpace, Bool.or_eq_true, beq_iff_eq] at hc
  rw [heads, hhead, Bool.and_false, if_neg Bool.false_ne_true, List.nil_append]
  rcases hc with (((rfl | rfl) | rfl) | rfl) | rfl <;> rfl

theorem heads_comment : heads 0 depth lineStart i (';' :: rest) =
    heads 0 depth false (i + (Lexeme.run (· != '\n') rest + 1))
      (rest.drop (Lexeme.run (· != '\n') rest)) := by
  have hunread : unread ';' rest = Lexeme.run (· != '\n') rest := rfl
  have hdepth : depthAfter ';' depth = depth := rfl
  have hstart : (';' == '\n') = false := rfl
  rw [heads_cons, headAt, isHead_cons (by decide), hunread, hdepth, hstart, Bool.and_false,
    if_neg Bool.false_ne_true, List.nil_append, Nat.add_assoc, Nat.add_comm 1]

theorem heads_spaces (h : ∀ c ∈ (text.drop i).take n, Lexeme.isSpace c = true) :
    heads 0 depth (startsLine text i) i (text.drop i) =
      heads 0 depth (startsLine text (i + n)) (i + n) (text.drop (i + n)) := by
  induction n generalizing i with
  | zero => rfl
  | succ n ih =>
    cases htext : text.drop i with
    | nil =>
      have hlen : text.length ≤ i := List.drop_eq_nil_iff.mp htext
      rw [List.drop_eq_nil_of_le (by omega), heads, heads]
    | cons c rest =>
      have hrest := drop_succ_of_drop htext
      have hnext := ih (i := i + 1) fun d hd => h d (by
        rw [hrest] at hd
        simp [htext, hd])
      rw [hrest, startsLine_succ htext, Nat.add_assoc, Nat.add_comm 1] at hnext
      rw [heads_space (h c (by simp [htext])), hnext]

/-- Blanks and comments hold no head. -/
theorem heads_ignored (h : Lexeme.ignored? (text.drop i) = some n) :
    heads 0 depth (startsLine text i) i (text.drop i) =
      heads 0 depth (startsLine text (i + n)) (i + n) (text.drop (i + n)) := by
  rcases Lexeme.ignored?_cases h with ⟨rest, htext, rfl⟩ | ⟨-, rfl, -⟩
  · have hline : startsLine text (i + (Lexeme.run (· != '\n') rest + 1)) = false := by
      refine startsLine_add (Nat.succ_pos _) ?_
      rw [htext, Nat.add_sub_cancel]
      intro hget
      have hmem := Lexeme.mem_take_of_last (n := _ + 1) (Nat.succ_pos _) hget
      rw [List.take_succ_cons] at hmem
      rcases List.mem_cons.mp hmem with hmem | hmem
      · contradiction
      · simpa using Lexeme.of_mem_take_run hmem
    rw [htext, heads_comment, hline, ← drop_succ_of_drop htext, List.drop_drop, Nat.add_assoc,
      Nat.add_comm 1]
  · exact heads_spaces fun c hc => Lexeme.of_mem_take_run hc

theorem heads_ignored_trans (h : Ignored text i k) :
    heads 0 depth (startsLine text i) i (text.drop i) =
      heads 0 depth (startsLine text k) k (text.drop k) := by
  induction h with
  | done => rfl
  | next hn _ ih => rw [heads_ignored hn, ih]

/-- The heads at the front of tokens, where `depth` brackets are open before the first one. -/
def headsOf (text : List Char) : Nat → List Token → List Nat
  | _, [] => []
  | depth, t :: rest =>
    headAt depth (startsLine text t.start) t.start (text.drop t.start) ++
      headsOf text (depthAfterToken t.terminal depth) rest

/-- The search finds heads at the front of tokens only. -/
theorem heads_tokens {toks : List Token} {j : Nat} (h : Tokens text i toks j)
    (hend : Ignored text j text.length)
    (hline : ∀ t ∈ toks, t.terminal = .text → '\n' ∉ t.slice text) :
    heads 0 depth (startsLine text i) i (text.drop i) = headsOf text depth toks := by
  -- each token hands the search on, with its own depth, to the offset behind it
  induction h generalizing depth with
  | done i =>
    rw [heads_ignored_trans hend, List.drop_length, heads, headsOf]
  | @token i k n j t toks hi ht _ ih =>
    have hslice : '\n' ∈ (text.drop k).take n → '\n' ∈ Token.slice ⟨t, k, k + n⟩ text := by
      rw [Token.slice, List.drop_take, Nat.add_sub_cancel_left]
      exact id
    -- no token ends a line, so that the next one is in the first column only behind a line feed
    have hlast : startsLine text (k + n) = false :=
      startsLine_add (Terminal.match?_pos ht) (Terminal.last_ne_line ht)
    have hrest := @ih (depthAfterToken t depth) hend fun u hu =>
      hline u (List.mem_cons_of_mem _ hu)
    rw [hlast] at hrest
    rw [heads_ignored_trans hi, heads_token ht fun he hmem => hline _ (by simp) he (hslice hmem),
      List.drop_drop, hrest, headsOf]

theorem mem_headsOf {toks : List Token} (h : k ∈ headsOf text depth toks) :
    ∃ before t after, toks = before ++ t :: after ∧ k = t.start ∧
      before.foldl (fun d u => depthAfterToken u.terminal d) depth = 0 ∧
      startsLine text t.start = true ∧ isHead (text.drop t.start) = true := by
  induction toks generalizing depth with
  | nil => contradiction
  | cons t toks ih =>
    rcases List.mem_append.mp h with h | h
    · rw [headAt] at h
      split at h
      next hcond =>
        simp only [Bool.and_eq_true, beq_iff_eq] at hcond
        obtain ⟨⟨hline, hdepth⟩, hhead⟩ := hcond
        exact ⟨[], t, toks, rfl, List.mem_singleton.mp h, hdepth, hline, hhead⟩
      next => contradiction
    · obtain ⟨before, u, after, rfl, hk, hdepth, hline, hhead⟩ := ih h
      exact ⟨t :: before, u, after, rfl, hk, hdepth, hline, hhead⟩

end Chunk

end Cddl

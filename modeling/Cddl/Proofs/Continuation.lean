import Cddl.Proofs.Acceptance
import Cddl.Proofs.Neighbours
import Cddl.Proofs.Scan

/-!
The search for rules against the grammar: a text that is one rule is not divided. A line inside the
rule looks like a head only where a name is followed by an assignment sign, and behind the first
name the grammar puts no such sign. The search does not know of comments and literals between the
angles of a parameter list, so that lines which it reads past a hidden `>` are left out.
-/
namespace Cddl

namespace Chunk

variable {text : List Char} {i j k m n : Nat}

/-- The number of open brackets behind tokens. -/
def depthBehind (toks : List Token) : Nat :=
  toks.foldl (fun depth t => depthAfterToken t.terminal depth) 0

/-- Outside brackets a line of a rule begins with the token `t`, which is not the first one, and
looks like a head by means of a `>` that ends no token: it stands in a comment or in a literal. -/
structure Misleads (text : List Char) (before : List Token) (t : Token) (after : List Token) :
    Prop where
  inside : before ≠ []
  unbracketed : depthBehind before = 0
  column : startsLine text t.start = true
  head : isHead (text.drop t.start) = true
  hidden : ∃ m, ParamsCloseAt text t.stop m ∧ ∀ u ∈ after, u.stop ≠ m + 1

/-! ### Assignment signs behind blanks -/

theorem isSpace_of_isInlineBlank {c : Char} (h : isInlineBlank c = true) :
    Lexeme.isSpace c = true := by
  simp only [isInlineBlank, Bool.or_eq_true, beq_iff_eq] at h
  rcases h with rfl | rfl <;> rfl

theorem not_isInlineBlank_of_starts {t : Terminal} {c : Char} (h : t.starts c = true) :
    isInlineBlank c = false := by
  rw [Bool.eq_false_iff]
  intro hblank
  have hspace := @Lexeme.ignored?_of_isSpace c [] (isSpace_of_isInlineBlank hblank)
  exact hspace (Lexeme.ignored?_of_starts [] h)

theorem dropWhile_spaces {l : List Char} (h : ∀ c ∈ l.take n, Lexeme.isSpace c = true) :
    l.dropWhile isInlineBlank = (l.drop n).dropWhile isInlineBlank ∨
      Lexeme.ignored? (l.dropWhile isInlineBlank) ≠ none := by
  induction n generalizing l with
  | zero => exact .inl rfl
  | succ n ih =>
    cases l with
    | nil => exact .inl rfl
    | cons c l =>
      cases hc : isInlineBlank c with
      | true =>
        rw [List.dropWhile_cons_of_pos hc, List.drop_succ_cons]
        exact ih fun d hd => h d (by simp [hd])
      | false =>
        rw [List.dropWhile_cons_of_neg (by simp [hc])]
        exact .inr (Lexeme.ignored?_of_isSpace (h c (by simp)))

/-- Behind inline blanks stands what is behind all blanks and comments, unless these go on. -/
theorem dropWhile_ignored (h : Ignored text i k) :
    (text.drop i).dropWhile isInlineBlank = (text.drop k).dropWhile isInlineBlank ∨
      Lexeme.ignored? ((text.drop i).dropWhile isInlineBlank) ≠ none := by
  induction h with
  | done => exact .inl rfl
  | @next i n j hn _ ih =>
    rcases Lexeme.ignored?_cases hn with ⟨rest, htext, -⟩ | ⟨-, rfl, -⟩
    · right
      rw [htext, List.dropWhile_cons_of_neg (by decide)]
      exact Option.some_ne_none _
    · rcases dropWhile_spaces fun c hc => Lexeme.of_mem_take_run hc with heq | hne
      · rw [heq, List.drop_drop]
        exact ih
      · exact .inr hne

/-- What stands behind inline blanks: the end of the text, the next token, or more blanks. -/
theorem behind_blanks {toks : List Token} (h : Tokens text i toks j)
    (hend : Ignored text j text.length) :
    (text.drop i).dropWhile isInlineBlank = [] ∨
      (∃ t k n after, toks = ⟨t, k, k + n⟩ :: after ∧
        (text.drop i).dropWhile isInlineBlank = text.drop k ∧ t.match? (text.drop k) = some n ∧
        Tokens text (k + n) after j) ∨
      Lexeme.ignored? ((text.drop i).dropWhile isInlineBlank) ≠ none := by
  cases h with
  | done =>
    rcases dropWhile_ignored hend with heq | hne
    · left
      rw [heq, List.drop_length, List.dropWhile_nil]
    · exact .inr (.inr hne)
  | @token _ k n _ t after hi ht hafter =>
    rcases dropWhile_ignored hi with heq | hne
    · right
      left
      refine ⟨t, k, n, after, rfl, ?_, ht, hafter⟩
      obtain ⟨c, rest, htext, hc⟩ := Terminal.exists_starts ht
      rw [heq, htext, List.dropWhile_cons_of_neg (by simp [not_isInlineBlank_of_starts hc])]
    · exact .inr (.inr hne)

theorem starts_slash {t : Terminal} (h : t.starts '/' = true) :
    t = .assign ∨ t = .slash ∨ t = .groupChoice := by
  revert h
  cases t <;> decide

theorem starts_equals {t : Terminal} (h : t.starts '=' = true) : t = .assign ∨ t = .arrow := by
  revert h
  cases t <;> decide

/-- A slash is not followed by a token that would make it an assignment sign. -/
theorem not_adjacent {t : Terminal} {toks : List Token} {c : Char} {rest : List Char}
    (h : Tokens text i toks j) (hend : Ignored text j text.length)
    (hassign : ∀ u ∈ toks, u.terminal ≠ .assign)
    (hchain : (t :: toks.map Token.terminal).IsChain Terminal.MayPrecede)
    (hc : (t, c) ∈ [(.slash, '/'), (.slash, '='), (.groupChoice, '=')]) :
    text.drop i ≠ c :: rest := by
  intro htext
  have hv : Lexeme.ignored? (c :: rest) = none := by
    simp only [List.mem_cons, Prod.mk.injEq, List.not_mem_nil, or_false] at hc
    rcases hc with ⟨-, rfl⟩ | ⟨-, rfl⟩ | ⟨-, rfl⟩ <;> rfl
  obtain ⟨u, n, after, rfl, -, -, hstarts⟩ := h.cons_of_visible hend htext hv
  have hnext : t.MayPrecede u := (List.isChain_cons_cons.mp hchain).1
  have hu' : u ≠ .assign := hassign _ List.mem_cons_self
  simp only [List.mem_cons, Prod.mk.injEq, List.not_mem_nil, or_false] at hc
  rcases hc with ⟨rfl, rfl⟩ | ⟨rfl, rfl⟩ | ⟨rfl, rfl⟩
  · rcases starts_slash hstarts with rfl | rfl | rfl
    · exact hu' rfl
    · exact Terminal.not_mayPrecede (by decide) hnext
    · exact Terminal.not_mayPrecede (by decide) hnext
  · rcases starts_equals hstarts with rfl | rfl
    · exact hu' rfl
    · exact Terminal.not_mayPrecede (by decide) hnext
  · rcases starts_equals hstarts with rfl | rfl
    · exact hu' rfl
    · exact Terminal.not_mayPrecede (by decide) hnext

/-- Where a token begins that is no assignment sign, none begins. -/
theorem not_isAssignment_front {t : Terminal} {after : List Token}
    (ht : t.match? (text.drop k) = some n) (hafter : Tokens text (k + n) after j)
    (hend : Ignored text j text.length) (hne : t ≠ .assign)
    (hassign : ∀ u ∈ after, u.terminal ≠ .assign)
    (hchain : (t :: after.map Token.terminal).IsChain Terminal.MayPrecede) :
    isAssignment (text.drop k) = false := by
  rw [Bool.eq_false_iff]
  intro hsign
  obtain ⟨c, r, hc, hstarts⟩ := Terminal.exists_starts ht
  rcases isAssignment_cases hsign with ⟨rest, hl⟩ | ⟨rest, hl⟩ | ⟨rest, hl, harrow⟩
  · rw [hl] at hc ht
    obtain ⟨rfl, -⟩ := List.cons.inj hc
    rcases starts_slash hstarts with rfl | rfl | rfl
    · exact hne rfl
    · obtain ⟨rfl, -⟩ := Lexeme.eq_append_of_spelled? ht
      exact not_adjacent hafter hend hassign hchain (by simp) (drop_succ_of_drop hl)
    · obtain ⟨rfl, -⟩ := Lexeme.eq_append_of_spelled? ht
      exact not_adjacent hafter hend hassign hchain (by simp)
        (drop_succ_of_drop (drop_succ_of_drop hl))
  · rw [hl] at hc ht
    obtain ⟨rfl, -⟩ := List.cons.inj hc
    rcases starts_slash hstarts with rfl | rfl | rfl
    · exact hne rfl
    · obtain ⟨rfl, -⟩ := Lexeme.eq_append_of_spelled? ht
      exact not_adjacent hafter hend hassign hchain (by simp) (drop_succ_of_drop hl)
    · contradiction
  · rw [hl] at hc ht
    obtain ⟨rfl, -⟩ := List.cons.inj hc
    rcases starts_equals hstarts with rfl | rfl
    · exact hne rfl
    · obtain ⟨-, r, hr⟩ := Lexeme.eq_append_of_spelled? ht
      exact harrow r (List.cons.inj hr).2

/-- Tokens behind each other do not make up an assignment sign. -/
theorem not_isAssignment {toks : List Token} (h : Tokens text i toks j)
    (hend : Ignored text j text.length) (hassign : ∀ t ∈ toks, t.terminal ≠ .assign)
    (hchain : (toks.map Token.terminal).IsChain Terminal.MayPrecede) :
    isAssignment ((text.drop i).dropWhile isInlineBlank) = false := by
  rcases behind_blanks h hend with hnil | ⟨t, k, n, after, rfl, heq, ht, hafter⟩ | hne
  · rw [hnil]
    rfl
  · rw [heq]
    exact not_isAssignment_front ht hafter hend (hassign _ List.mem_cons_self)
      (fun u hu => hassign u (List.mem_cons_of_mem _ hu)) hchain
  · rw [Bool.eq_false_iff]
    intro hsign
    rcases isAssignment_cases hsign with ⟨rest, hl⟩ | ⟨rest, hl⟩ | ⟨rest, hl, -⟩ <;>
      rw [hl] at hne <;> exact hne rfl

/-! ### Heads inside a rule -/

/-- Behind a parameter stands no assignment sign, and no list of its own. -/
theorem not_head_behind_param {t : Token} {toks : List Token} {c : Char} {rest : List Char}
    (h : Tokens text i (t :: toks) j) (hend : Ignored text j text.length)
    (ht : t.terminal = .name ∨ t.terminal = .comma ∨ t.terminal = .greater)
    (hc : c ∈ ['/', '=', '<']) : (text.drop i).dropWhile isInlineBlank ≠ c :: rest := by
  intro heq
  simp only [List.mem_cons, List.not_mem_nil, or_false] at hc
  rcases behind_blanks h hend with hnil | ⟨u, k, n, after, hcons, hdrop, hu, -⟩ | hne
  · rw [heq] at hnil
    contradiction
  · obtain ⟨rfl, -⟩ := List.cons.inj hcons
    obtain ⟨d, r, hd, hstarts⟩ := Terminal.exists_starts hu
    rw [← hdrop, heq] at hd
    obtain ⟨rfl, -⟩ := List.cons.inj hd
    simp only at ht
    rcases ht with rfl | rfl | rfl <;> rcases hc with rfl | rfl | rfl <;> contradiction
  · rw [heq] at hne
    rcases hc with rfl | rfl | rfl <;> exact hne rfl

/-- A `>` that ends a token closes no list with an assignment sign behind it. -/
theorem hidden_of_isAssignment {toks : List Token} (h : Tokens text i toks j)
    (hend : Ignored text j text.length) (hassign : ∀ t ∈ toks, t.terminal ≠ .assign)
    (hchain : (toks.map Token.terminal).IsChain Terminal.MayPrecede)
    (hsign : isAssignment ((text.drop (m + 1)).dropWhile isInlineBlank) = true) :
    ∀ u ∈ toks, u.stop ≠ m + 1 := by
  intro u hu hstop
  obtain ⟨before, after, rfl⟩ := List.append_of_mem hu
  obtain ⟨l, -, hsuffix⟩ := h.split
  cases hsuffix with
  | @token _ k n _ t _ _ _ hafter =>
    rw [List.map_append, List.map_cons] at hchain
    have hrest := (List.isChain_append.mp hchain).2.1.tail
    have hnone := not_isAssignment hafter hend (fun v hv => hassign v (by simp [hv])) hrest
    have hk : k + n = m + 1 := hstop
    rw [hk, hsign] at hnone
    contradiction

/-- A head inside a rule is none but for a `>` that ends no token. -/
theorem hidden_of_isHead {before after : List Token} {t : Token}
    (h : IsRuleOf text (before ++ t :: after)) (hb : before ≠ [])
    (hhead : isHead (text.drop t.start) = true) :
    ∃ m, ParamsCloseAt text t.stop m ∧ ∀ u ∈ after, u.stop ≠ m + 1 := by
  obtain ⟨stop, htoks, hend, hderives⟩ := h
  obtain ⟨i, -, hsplit⟩ := htoks.split
  cases hsplit with
  | @token _ k n _ t _ hi ht hafter =>
    obtain rfl := name_of_isHead hhead ht
    obtain ⟨n', hn, hsign⟩ := isHead_cases hhead
    obtain rfl : n' = n := Option.some.inj (hn.symm.trans ht)
    have hchain := hderives.isChain (by simp [Symbol.joins, Symbol.firstsOf])
    rw [List.map_append, List.map_cons] at hchain hderives
    have hrest := (List.isChain_append.mp hchain).2.1.tail
    -- the one sign of the rule stands behind this name only if the name is a parameter
    rcases hderives.name_inside_rule (by simpa using hb) with hassign | ⟨u, us, hus, hu⟩
    · have hassign' : ∀ u ∈ after, u.terminal ≠ .assign := fun u hu he =>
        hassign (he ▸ List.mem_map_of_mem hu)
      rcases hsign with hsign | ⟨-, m, hclose, hsign⟩
      · rw [not_isAssignment hafter hend hassign' hrest] at hsign
        contradiction
      · exact ⟨m, hclose, hidden_of_isAssignment hafter hend hassign' hrest hsign⟩
    · cases after with
      | nil => contradiction
      | cons v vs =>
        obtain ⟨rfl, -⟩ := List.cons.inj hus
        rcases hsign with hsign | ⟨⟨rest, heq⟩, -⟩
        · rcases isAssignment_cases hsign with ⟨r, hr⟩ | ⟨r, hr⟩ | ⟨r, hr, -⟩
          · exact absurd hr (not_head_behind_param hafter hend hu (by decide))
          · exact absurd hr (not_head_behind_param hafter hend hu (by decide))
          · exact absurd hr (not_head_behind_param hafter hend hu (by decide))
        · exact absurd heq (not_head_behind_param hafter hend hu (by decide))

/-! ### One chunk for one rule -/

/-- Of the tokens of a rule the first one alone is a head. -/
theorem headsOf_rule {first : Token} {rest : List Token} (h : IsRuleOf text (first :: rest))
    (hclear : ∀ before t after, first :: rest = before ++ t :: after →
      ¬ Misleads text before t after) :
    headsOf text 0 (first :: rest) =
      headAt 0 (startsLine text first.start) first.start (text.drop first.start) := by
  have hrest : headsOf text (depthAfterToken first.terminal 0) rest = [] := by
    rw [List.eq_nil_iff_forall_not_mem]
    intro k hk
    obtain ⟨before, t, after, rfl, -, hdepth, hcolumn, hhead⟩ := mem_headsOf hk
    have hrule : IsRuleOf text ((first :: before) ++ t :: after) := h
    have hhidden := hidden_of_isHead hrule (List.cons_ne_nil _ _) hhead
    exact hclear (first :: before) t after rfl
      ⟨List.cons_ne_nil _ _, hdepth, hcolumn, hhead, hhidden⟩
  rw [headsOf, hrest, List.append_nil]

/-- The text in front of the name of a rule is void, the whole text is not. -/
theorem isVoid_first {first : Token} {rest : List Token} (h : Tokens text 0 (first :: rest) j)
    (hname : first.terminal = .name) :
    Ignored text 0 first.start ∧ Blank.isVoid false (text.take first.start) = true ∧
      Blank.isVoid false text = false := by
  cases h with
  | @token _ k n _ t _ hi ht _ =>
    refine ⟨hi, hi.isVoid_take, ?_⟩
    obtain rfl : t = .name := hname
    obtain ⟨c, r, htext, hc⟩ := Terminal.exists_starts ht
    have hsemi : (c == ';') = false := by
      refine beq_eq_false_iff_ne.mpr ?_
      rintro rfl
      contradiction
    have hwhole := hi.isVoid
    rw [List.drop_zero, htext] at hwhole
    rw [hwhole, Blank.isVoid, hsemi, Lexeme.not_isBlank_of_isNameStart hc]
    rfl

/-- One head, or none, makes one chunk, if nothing but void stands in front of the head. -/
theorem split_of_heads {b : Bool} (hheads : heads 0 0 true 0 text = if b then [k] else [])
    (htake : Blank.isVoid false (text.take k) = true) (hvoid : Blank.isVoid false text = false) :
    split text = [⟨if b then k else 0, text.length⟩] := by
  cases b with
  | true =>
    rw [if_pos rfl] at hheads
    rw [if_pos rfl, split, starts, hheads]
    simp only [List.headD_cons, htake, if_pos, between]
  | false =>
    rw [if_neg Bool.false_ne_true] at hheads
    rw [if_neg Bool.false_ne_true, split, starts, hheads]
    simp only [List.headD_nil, List.take_length, hvoid, Bool.false_eq_true, if_false, between]

/-! ### Rules on several lines -/

/-- A rule on several lines, each in the first column; a comment, a byte string and a text literal
look like heads and open brackets. -/
def spreadRule : List Char :=
  ['a', ' ', '=', ' ', ';', 'b', '=', '\n', 'c', '<', '\'', '\n', 'd', '=', '\'', ',', '[', 'e',
    ']', '>', '\n', '/', '"', '(', '"']

def spreadTokens : List Token :=
  [⟨.name, 0, 0 + 1⟩, ⟨.assign, 2, 2 + 1⟩, ⟨.name, 8, 8 + 1⟩, ⟨.less, 9, 9 + 1⟩,
    ⟨.bytes, 10, 10 + 5⟩, ⟨.comma, 15, 15 + 1⟩, ⟨.openBracket, 16, 16 + 1⟩, ⟨.name, 17, 17 + 1⟩,
    ⟨.closeBracket, 18, 18 + 1⟩, ⟨.greater, 19, 19 + 1⟩, ⟨.slash, 21, 21 + 1⟩,
    ⟨.text, 22, 22 + 3⟩]

theorem tokens_spreadRule : Tokens spreadRule 0 spreadTokens 25 := by
  refine .token (.done _) rfl (.token (.next (n := 1) rfl (.done _)) rfl ?_)
  refine .token (.next (n := 1) rfl (.next (n := 3) rfl (.next (n := 1) rfl (.done _)))) rfl ?_
  refine .token (.done _) rfl (.token (.done _) rfl (.token (.done _) rfl ?_))
  refine .token (.done _) rfl (.token (.done _) rfl (.token (.done _) rfl ?_))
  refine .token (.done _) rfl (.token (.next (n := 1) rfl (.done _)) rfl ?_)
  exact .token (.done _) rfl (.done _)

theorem derives_operand {ts : List Terminal} (h : Derives [.nonterminal .type2] ts) :
    Derives [.nonterminal .type1] ts :=
  .of_production .type1Operand h

theorem derives_name : Derives [.nonterminal .typeName] [.name] :=
  .of_production .typeNamePlain (.terminal .done)

theorem derives_spreadRule :
    Derives [.nonterminal .rule] (spreadTokens.map Token.terminal) := by
  have hbytes : Derives [.nonterminal .type1] [.bytes] :=
    derives_operand (.of_production .type2Value (.of_production .valueBytes (.terminal .done)))
  have htext : Derives [.nonterminal .type1] [.text] :=
    derives_operand (.of_production .type2Value (.of_production .valueText (.terminal .done)))
  have helem : Derives [.nonterminal .entry] [.name] :=
    .of_production .entryType (.of_production .typeOne
      (derives_operand (.of_production .type2Name derives_name)))
  have hgroup : Derives [.nonterminal .group] [.name] :=
    .of_production .groupOne (.of_production .choiceEntries (.of_production .entriesOne helem))
  have harray : Derives [.nonterminal .type1] [.openBracket, .name, .closeBracket] :=
    derives_operand (.of_production .type2Array
      (.terminal (hgroup.append (.terminal .done))))
  have hargs : Derives [.nonterminal .args]
      [.less, .bytes, .comma, .openBracket, .name, .closeBracket, .greater] :=
    .of_production .argsMany (.terminal (hbytes.append
      ((Derives.of_production .moreArgsOne (.terminal harray)).append (.terminal .done))))
  have hgeneric : Derives [.nonterminal .type1]
      [.name, .less, .bytes, .comma, .openBracket, .name, .closeBracket, .greater] :=
    derives_operand (.of_production .type2Name
      (.of_production .typeNameGeneric (.terminal hargs)))
  have hchoice : Derives [.nonterminal .alternatives] [.slash, .text] :=
    .of_production .alternativesOne (.terminal htext)
  have hentry : Derives [.nonterminal .entry] _ :=
    .of_production .entryType (.of_production .typeMany (hgeneric.append hchoice))
  exact .of_production .rulePlain (.terminal (.terminal hentry))

/-- A rule behind an empty line, which belongs to no chunk. -/
def laterRule : List Char := ['\n', 'a', ' ', '=', ' ', '1']

/-- A rule whose second line looks like a head by the `>` in its literal. -/
def hiddenRule : List Char := ['a', ' ', '=', '\n', 'b', '<', '"', '>', ' ', '=', '"', '>']

theorem isRuleOf_laterRule :
    IsRuleOf laterRule [⟨.name, 1, 1 + 1⟩, ⟨.assign, 3, 3 + 1⟩, ⟨.number, 5, 5 + 1⟩] := by
  refine ⟨6, ?_, .done _, ?_⟩
  · refine .token (.next (n := 1) rfl (.done _)) rfl (.token (.next (n := 1) rfl (.done _)) rfl ?_)
    exact .token (.next (n := 1) rfl (.done _)) rfl (.done _)
  · have hnumber : Derives [.nonterminal .type1] [.number] :=
      derives_operand (.of_production .type2Value (.of_production .valueNumber (.terminal .done)))
    exact .of_production .rulePlain (.terminal (.terminal
      (.of_production .entryType (.of_production .typeOne hnumber))))

theorem isRuleOf_hiddenRule :
    IsRuleOf hiddenRule [⟨.name, 0, 0 + 1⟩, ⟨.assign, 2, 2 + 1⟩, ⟨.name, 4, 4 + 1⟩,
      ⟨.less, 5, 5 + 1⟩, ⟨.text, 6, 6 + 5⟩, ⟨.greater, 11, 11 + 1⟩] := by
  refine ⟨12, ?_, .done _, ?_⟩
  · refine .token (.done _) rfl (.token (.next (n := 1) rfl (.done _)) rfl ?_)
    refine .token (.next (n := 1) rfl (.done _)) rfl (.token (.done _) rfl (.token (.done _) rfl ?_))
    exact .token (.done _) rfl (.done _)
  · have htext : Derives [.nonterminal .type1] [.text] :=
      derives_operand (.of_production .type2Value (.of_production .valueText (.terminal .done)))
    have hargs : Derives [.nonterminal .args] [.less, .text, .greater] :=
      .of_production .argsOne (.terminal (htext.append (.terminal .done)))
    have hgeneric : Derives [.nonterminal .type1] [.name, .less, .text, .greater] :=
      derives_operand (.of_production .type2Name
        (.of_production .typeNameGeneric (.terminal hargs)))
    exact .of_production .rulePlain (.terminal (.terminal
      (.of_production .entryType (.of_production .typeOne hgeneric))))

/-- The search does not cut a rule: a text that is one rule, whatever lines, comments, literals and
brackets it has, is one chunk. The chunk begins with the rule if its head is on a line of its own,
and otherwise with the blanks and comments before it. No text literal goes over a line, and no line
of the rule is mistaken for a head by a `>` in a comment or a literal. -/
theorem split_eq_singleton {first : Token} {rest : List Token} (h : IsRuleOf text (first :: rest))
    (hline : ∀ t ∈ first :: rest, t.terminal = .text → '\n' ∉ t.slice text)
    (hclear : ∀ before t after, first :: rest = before ++ t :: after →
      ¬ Misleads text before t after) :
    split text =
        [⟨if startsLine text first.start && isHead (text.drop first.start) then first.start else 0,
          text.length⟩] ∧
      Ignored text 0 first.start ∧ Document.syntaxErrors text = [] := by
  -- the derivation is needed for the first name only; the rest was used up for the heads
  obtain ⟨stop, htoks, hend, hderives⟩ := id h
  obtain ⟨ps, es, hts, -⟩ := hderives.rule_cases
  obtain ⟨hfront, htake, hvoid⟩ := isVoid_first htoks (List.cons.inj hts).1
  have hheads : heads 0 0 true 0 text =
      headAt 0 (startsLine text first.start) first.start (text.drop first.start) := by
    rw [← headsOf_rule h hclear]
    exact heads_tokens htoks hend hline
  rw [headAt, beq_self_eq_true, Bool.and_true] at hheads
  have hsplit := split_of_heads hheads htake hvoid
  refine ⟨hsplit, hfront, Document.syntaxErrors_eq_nil_iff.mpr fun c hc => ?_⟩
  rw [hsplit] at hc
  rw [List.mem_singleton.mp hc, slice, List.take_length]
  split
  · exact h.isRule_drop
  · exact isRule_iff_tokens.mpr ⟨_, h⟩

theorem split_eq_singleton_spread :
    split spreadRule = [⟨0, 25⟩] ∧ Ignored spreadRule 0 0 ∧
      Document.syntaxErrors spreadRule = [] := by
  have hrule : IsRuleOf spreadRule spreadTokens :=
    ⟨25, tokens_spreadRule, .done _, derives_spreadRule⟩
  have hheads : ∀ t ∈ spreadTokens.tail, isHead (spreadRule.drop t.start) = false := by
    decide
  refine split_eq_singleton hrule (by decide) fun before t after htoks hmis => ?_
  obtain ⟨u, before, rfl⟩ := List.exists_cons_of_ne_nil hmis.inside
  have hmem : t ∈ spreadTokens.tail := by
    rw [show spreadTokens = _ from htoks]
    simp
  exact Bool.false_ne_true ((hheads t hmem).symm.trans hmis.head)

/-- Not every rule is one chunk from the beginning of its text to the end: the blanks in front of it
may be left away, and a hidden `>` may divide it. -/
theorem split_ne_whole :
    (∃ toks, IsRuleOf laterRule toks ∧
      (∀ t ∈ toks, t.terminal = .text → '\n' ∉ t.slice laterRule) ∧
      split laterRule ≠ [⟨0, laterRule.length⟩]) ∧
    ∃ toks, IsRuleOf hiddenRule toks ∧
      (∀ t ∈ toks, t.terminal = .text → '\n' ∉ t.slice hiddenRule) ∧
      split hiddenRule ≠ [⟨0, hiddenRule.length⟩] :=
  ⟨⟨_, isRuleOf_laterRule, by decide, by decide⟩, ⟨_, isRuleOf_hiddenRule, by decide, by decide⟩⟩

end Chunk

end Cddl

import Cddl.Proofs.Breakage
import Cddl.Proofs.Neighbours
import Cddl.Proofs.Usage

/-!
Entries of a group that stand next to each other. No comma is needed between them, and nowhere else
can a name stand in front of a quoted byte string. So where a name is reported as undefined right in
front of an apostrophe, an entry ends with the name and the next one begins with the apostrophe: this
is how the mark of a byte string comes to be taken for a name.
-/
namespace Cddl

variable {text : List Char} {i j : Nat} {t u : Token}

/-- Somewhere in the tree an entry of a group ends with the first token and the entry behind it
begins with the second. -/
inductive Tree.Meets (t u : Token) : Tree → Prop where
  | here {p entries entry rest} : p = .entriesNext ∨ p = .entriesNextComma →
      entries.tokens.getLast? = some t → entry.tokens.head? = some u →
      Meets t u (.node p (entries :: entry :: rest))
  | inside {p children c} : c ∈ children → Meets t u c → Meets t u (.node p children)

namespace Production

theorem entries_of_joins (p : Production) : ∀ k < p.rhs.length,
    .name ∈ ((p.rhs[k]?.map Symbol.lasts).getD []) →
    .bytes ∈ Symbol.firstsOf (p.rhs.drop (k + 1)) →
      k = 0 ∧ (p = .entriesNext ∨ p = .entriesNextComma) := by
  cases p <;> decide

/-- Of all productions only those for more than one entry let a byte string follow a name. -/
theorem entries_of_split {p : Production} {front rest : List Symbol} {s : Symbol}
    (h : p.rhs = front ++ s :: rest) (hname : .name ∈ s.lasts)
    (hbytes : .bytes ∈ Symbol.firstsOf rest) :
    front = [] ∧ (p = .entriesNext ∨ p = .entriesNextComma) := by
  have hlt : front.length < p.rhs.length := by
    rw [h, List.length_append, List.length_cons]
    omega
  have hdrop : p.rhs.drop (front.length + 1) = rest := by
    rw [h, ← List.drop_drop, List.drop_left]
    rfl
  have htable := p.entries_of_joins front.length hlt (by simpa [h] using hname)
    (by rw [hdrop]; exact hbytes)
  exact ⟨List.length_eq_zero_iff.mp htable.1, htable.2⟩

end Production

/-! ### Tokens next to each other in a tree -/

namespace Forest

variable {trees : List Tree} {before after : List Token}

theorem of_append {front rest : List Tree} (h : Forest text i (front ++ rest) j) :
    ∃ k, Forest text i front k ∧ Forest text k rest j := by
  induction front generalizing i with
  | nil => exact ⟨i, .done i, h⟩
  | cons c front ih =>
    cases h with
    | leaf hi hm hrest =>
      obtain ⟨k, hfront, hback⟩ := ih hrest
      exact ⟨k, .leaf hi hm hfront, hback⟩
    | node hc hchildren hrest =>
      obtain ⟨k, hfront, hback⟩ := ih hrest
      exact ⟨k, .node hc hchildren hfront, hback⟩

/-- Below a node with a name in front of a byte string, one at the end of a child and the other at the
beginning of the next, the children are entries. -/
theorem meets_of_split {p : Production} {front rest : List Tree} {c : Tree}
    (h : Forest text i (front ++ c :: rest) j)
    (hsyms : (front ++ c :: rest).map Tree.symbol = p.rhs)
    (ht : c.tokens.getLast? = some t) (hu : (Tree.tokensOfList rest).head? = some u)
    (hname : t.terminal = .name) (hbytes : u.terminal = .bytes) :
    Tree.Meets t u (.node p (front ++ c :: rest)) := by
  obtain ⟨k, -, hback⟩ := h.of_append
  rw [← List.singleton_append] at hback
  obtain ⟨l, hchild, hrest⟩ := hback.of_append
  have hlast := hchild.derives.last_mem_lastsOf t.terminal (by simp [Tree.tokensOfList, ht])
  have hfirst := hrest.derives.head_mem_firstsOf u.terminal (by simp [hu])
  rw [hname] at hlast
  rw [hbytes] at hfirst
  rw [List.map_append, List.map_cons] at hsyms
  obtain ⟨hnil, hp⟩ := Production.entries_of_split hsyms.symm
    (by simpa [Symbol.lastsOf] using hlast) hfirst
  obtain rfl := List.map_eq_nil_iff.mp hnil
  cases rest with
  | nil => contradiction
  | cons e rest =>
    -- an entry is not empty, so that the byte string is its first token
    have hentry : e.symbol = .nonterminal .entry := by
      rcases hp with rfl | rfl <;> simp [Production.rhs] at hsyms <;> exact hsyms.2.1
    have hne : e.tokens ≠ [] := by
      intro hnone
      rw [← List.singleton_append] at hrest
      obtain ⟨m, hsingle, -⟩ := hrest.of_append
      have hnull := hsingle.derives
      simp only [Tree.tokensOfList, hnone, List.append_nil, List.map_nil, List.map_cons] at hnull
      have hall := hnull.all_nullable
      rw [hentry] at hall
      contradiction
    refine .here hp ht ?_
    rwa [Tree.tokensOfList, List.head?_append_of_ne_nil _ hne] at hu

/-- Where a name stands in front of a byte string, two entries meet, or two of the trees do. -/
theorem meets_or_split (h : Forest text i trees j) (hname : t.terminal = .name)
    (hbytes : u.terminal = .bytes) (htoks : Tree.tokensOfList trees = before ++ t :: u :: after) :
    (∃ c ∈ trees, c.Meets t u) ∨
      ∃ front c rest, trees = front ++ c :: rest ∧ c.tokens.getLast? = some t ∧
        (Tree.tokensOfList rest).head? = some u := by
  induction h generalizing before after with
  | done => simp [Tree.tokensOfList] at htoks
  | @leaf i k n j s rest hi hm hrest ih =>
    rw [Tree.tokensOfList, Tree.tokens, List.singleton_append] at htoks
    cases before with
    | nil =>
      obtain ⟨rfl, hrest⟩ := List.cons.inj htoks
      exact .inr ⟨[], _, rest, rfl, rfl, by rw [hrest]; rfl⟩
    | cons v before =>
      obtain ⟨-, hrest⟩ := List.cons.inj htoks
      rcases ih hrest with ⟨c, hc, hmeets⟩ | ⟨front, c, back, rfl, ht, hu⟩
      · exact .inl ⟨c, List.mem_cons_of_mem _ hc, hmeets⟩
      · exact .inr ⟨_ :: front, c, back, rfl, ht, hu⟩
  | @node i k j p children rest hsyms hchildren hrest ih ih' =>
    rw [Tree.tokensOfList, Tree.tokens] at htoks
    rcases List.append_eq_append_iff.mp htoks with ⟨more, hbefore, hback⟩ | ⟨more, hfront, hafter⟩
    · -- the name stands behind the node
      rcases ih' hback with ⟨c, hc, hmeets⟩ | ⟨front, c, back, rfl, ht, hu⟩
      · exact .inl ⟨c, List.mem_cons_of_mem _ hc, hmeets⟩
      · exact .inr ⟨_ :: front, c, back, rfl, ht, hu⟩
    · cases more with
      | nil =>
        rw [List.append_nil] at hfront
        rw [List.nil_append] at hafter
        rcases @ih' [] _ hafter.symm with ⟨c, hc, hmeets⟩ | ⟨front, c, back, rfl, ht, hu⟩
        · exact .inl ⟨c, List.mem_cons_of_mem _ hc, hmeets⟩
        · exact .inr ⟨_ :: front, c, back, rfl, ht, hu⟩
      | cons v more =>
        obtain ⟨rfl, hbehind⟩ := List.cons.inj hafter
        cases more with
        | nil =>
          -- the node ends with the name, and the byte string stands behind it
          refine .inr ⟨[], _, rest, rfl, ?_, ?_⟩
          · rw [Tree.tokens, hfront, List.getLast?_concat]
          · rw [show Tree.tokensOfList rest = u :: after from hbehind.symm]
            rfl
        | cons w more =>
          obtain ⟨rfl, -⟩ := List.cons.inj hbehind
          left
          rcases ih hfront with ⟨c, hc, hmeets⟩ | ⟨front, c, back, rfl, ht, hu⟩
          · exact ⟨_, List.mem_cons_self, .inside hc hmeets⟩
          · exact ⟨_, List.mem_cons_self, hchildren.meets_of_split hsyms ht hu hname hbytes⟩

end Forest

/-- In the tree of a rule a name stands in front of a byte string only where two entries meet. -/
theorem Tree.Reads.meets {tree : Tree} {stop : Nat} {before after : List Token}
    (h : tree.Reads text stop) (hname : t.terminal = .name) (hbytes : u.terminal = .bytes)
    (htoks : tree.tokens = before ++ t :: u :: after) : tree.Meets t u := by
  have htoks' : Tree.tokensOfList [tree] = before ++ t :: u :: after := by
    rw [Tree.tokensOfList, Tree.tokensOfList, List.append_nil, htoks]
  rcases h.forest.meets_or_split hname hbytes htoks' with ⟨c, hc, hmeets⟩ | ⟨front, c, rest, heq, -, hu⟩
  · rwa [List.mem_singleton.mp hc] at hmeets
  · have hrest : rest = [] := by
      have hlength := congrArg List.length heq
      simp only [List.length_append, List.length_cons, List.length_nil] at hlength
      exact List.length_eq_zero_iff.mp (by omega)
    rw [hrest] at hu
    contradiction

namespace Terminal

/-- What begins with an apostrophe is a byte string without a mark. -/
theorem starts_apostrophe {t : Terminal} (h : t.starts '\'' = true) : t = .bytes := by
  revert h
  cases t <;> decide

end Terminal

namespace Document

variable {c : Chunk} {d : Definition} {n : Name}

theorem undefined_injective : Function.Injective undefined := by
  rintro ⟨ident, span⟩ ⟨ident', span'⟩ heq
  simpa [undefined] using heq

/-- What stands behind a token of a chunk belongs to the chunk: a chunk ends with the text or with a
line, and no token does. -/
theorem getElem?_behind {t : Terminal} {k m : Nat} {x : Char} (hc : c ∈ Chunk.split text)
    (hm : t.match? ((c.slice text).drop k) = some m) (hle : k + m ≤ (c.slice text).length)
    (hx : text[c.start + (k + m)]? = some x) : (c.slice text)[k + m]? = some x := by
  obtain ⟨hlt, hstop⟩ := Chunk.bounds_of_mem_split hc
  have hlen := Chunk.length_slice hstop
  have hpos := Terminal.match?_pos hm
  have hin : c.start + (k + m) < c.stop := by
    by_contra hend
    have hlast : c.start + (k + m) = c.stop := by omega
    rw [hlast] at hx
    rcases Chunk.line_before_stop hc with hend | hline
    · rw [hend, List.getElem?_eq_none (Nat.le_refl _)] at hx
      contradiction
    · refine Terminal.last_ne_line hm ?_
      rw [List.getElem?_drop, Chunk.slice, List.getElem?_drop, List.getElem?_take_of_lt (by omega),
        ← hline]
      congr 1
      omega
  rw [Chunk.slice, List.getElem?_drop, List.getElem?_take_of_lt hin, hx]

/-- A name in front of an apostrophe, in the chunk that uses it. -/
theorem meets_of_reference (hc : c ∈ Chunk.split text) (hd : readChunk text c = .ok d)
    (hn : n ∈ d.references) (hquote : text[n.span.stop.toNat]? = some '\'') :
    ∃ tree t u, Tree.ofText (c.slice text) = .ok tree ∧ tree.Meets t u ∧
      Definition.nameOf (c.slice text) c.start t = n ∧ u.terminal = .bytes ∧ u.start = t.stop := by
  obtain ⟨tree, stop, name, params, assign, content, htree, hreads, hparts, rfl⟩ := exists_parts hd
  rw [Definition.build_references, List.mem_map] at hn
  obtain ⟨t, ht, rfl⟩ := hn
  obtain ⟨hentry, _, _, hforest⟩ := hparts.content_forest hreads
  obtain ⟨hmem, hname, -⟩ := (hforest.mem_references_iff hentry).mp ht
  have hmem : t ∈ tree.tokens := by
    rw [hparts.tokens_eq]
    simp [hmem]
  have htoks := hreads.forest.tokens
  simp only [Tree.tokensOfList, List.append_nil] at htoks
  have hstop := (htoks.bounds t hmem).2.2
  obtain ⟨before, after, heq⟩ := List.append_of_mem hmem
  rw [heq] at htoks
  obtain ⟨i, -, hback⟩ := htoks.split
  cases hback with
  | @token _ k m _ s _ _ hm hafter =>
    have hplace : (Definition.nameOf (c.slice text) c.start ⟨s, k, k + m⟩).span.stop.toNat =
        c.start + (k + m) := by
      simp only [Definition.nameOf, Span.shift]
      omega
    rw [hplace] at hquote
    have hget := getElem?_behind hc hm (hstop.trans hreads.behind.le) hquote
    obtain ⟨hlength, hchar⟩ := List.getElem?_eq_some_iff.mp hget
    have hdrop := List.drop_eq_getElem_cons hlength
    rw [hchar] at hdrop
    obtain ⟨u, l, rest, rfl, -, -, hstarts⟩ := hafter.cons_of_visible hreads.behind hdrop rfl
    obtain rfl := Terminal.starts_apostrophe hstarts
    exact ⟨tree, _, _, htree, hreads.meets hname rfl heq, rfl, rfl, rfl⟩

/-- A name is reported as undefined right in front of an apostrophe only if it ends an entry of a
group, and the entry behind it begins with the apostrophe. So a byte string with a mark in front of
it can be split in this way only where two entries meet. -/
theorem undefined_before_quote {problems : List Problem} (h : parse text = .error problems)
    (hn : undefined n ∈ problems) (hquote : text[n.span.stop.toNat]? = some '\'') :
    ∃ c ∈ Chunk.split text, Missing text c n ∧
      ∃ tree t u, Tree.ofText (c.slice text) = .ok tree ∧ tree.Meets t u ∧
        Definition.nameOf (c.slice text) c.start t = n ∧ u.terminal = .bytes ∧
        u.start = t.stop := by
  have hsyn : syntaxErrors text = [] := by
    by_contra hne
    rw [parse_eq_error hne] at h
    cases h
    have hsyntactic := isSyntactic_of_mem hn
    contradiction
  have hparse := parse_of_syntaxErrors hsyn
  rw [h] at hparse
  obtain ⟨hmem, -⟩ := unresolved_placed hsyn
  generalize unresolved (definitions (readings text)) = missing at hparse hmem
  have hn : n ∈ missing := by
    cases missing with
    | nil => contradiction
    | cons m rest =>
      simp only [Except.error.injEq] at hparse
      rw [hparse] at hn
      obtain ⟨r, hr, heq⟩ := List.mem_map.mp hn
      rwa [← undefined_injective heq]
  obtain ⟨c, hc, hmissing⟩ := (hmem n).mp hn
  obtain ⟨d, -, hd⟩ := exists_of_forall₂ (forall₂_of_syntaxErrors hsyn).flip hc
  exact ⟨c, hc, hmissing, meets_of_reference hc hd ((uses_iff hd).mp hmissing.uses) hquote⟩

/-- An array of a number and a byte string. -/
def markedText : List Char := ['x', '=', '[', '1', ',', 'h', '\'', '0', '0', '\'', ']']

theorem undefined_before_quote_marked :
    parse markedText = .error [undefined ⟨"h", ⟨5, 6⟩⟩] ∧
    ∃ c ∈ Chunk.split markedText, Missing markedText c ⟨"h", ⟨5, 6⟩⟩ ∧
      ∃ tree t u, Tree.ofText (c.slice markedText) = .ok tree ∧ tree.Meets t u ∧
        Definition.nameOf (c.slice markedText) c.start t = ⟨"h", ⟨5, 6⟩⟩ ∧ u.terminal = .bytes ∧
        u.start = t.stop := by
  have hparse : parse markedText = .error [undefined ⟨"h", ⟨5, 6⟩⟩] := by decide +kernel
  exact ⟨hparse, undefined_before_quote hparse List.mem_cons_self rfl⟩

def markedTokens : List Token :=
  [⟨.name, 0, 0 + 1⟩, ⟨.assign, 1, 1 + 1⟩, ⟨.openBracket, 2, 2 + 1⟩, ⟨.number, 3, 3 + 1⟩,
    ⟨.comma, 4, 4 + 1⟩, ⟨.bytes, 5, 5 + 5⟩, ⟨.closeBracket, 10, 10 + 1⟩]

theorem derives_entry {ts : List Terminal} (h : Derives [.nonterminal .type2] ts) :
    Derives [.nonterminal .entry] ts :=
  .of_production .entryType (.of_production .typeOne (.of_production .type1Operand h))

theorem isRuleOf_markedText : IsRuleOf markedText markedTokens := by
  refine ⟨11, ?_, .done 11, ?_⟩
  · refine .token (.done _) rfl (.token (.done _) rfl (.token (.done _) rfl ?_))
    refine .token (.done _) rfl (.token (.done _) rfl (.token (.done _) rfl ?_))
    exact .token (.done _) rfl (.done _)
  · have hnumber : Derives [.nonterminal .entry] [.number] :=
      derives_entry (.of_production .type2Value (.of_production .valueNumber (.terminal .done)))
    have hbytes : Derives [.nonterminal .entry] [.bytes] :=
      derives_entry (.of_production .type2Value (.of_production .valueBytes (.terminal .done)))
    have hfirst : Derives [.nonterminal .entries] [.number, .comma] :=
      .of_production .entriesOneComma (hnumber.append (.terminal .done))
    have hentries : Derives [.nonterminal .entries] [.number, .comma, .bytes] :=
      .of_production .entriesNext (hfirst.append hbytes)
    have hgroup : Derives [.nonterminal .group] [.number, .comma, .bytes] :=
      .of_production .groupOne (.of_production .choiceEntries hentries)
    have harray : Derives [.nonterminal .type2]
        [.openBracket, .number, .comma, .bytes, .closeBracket] :=
      .of_production .type2Array (.terminal (hgroup.append (.terminal .done)))
    exact .of_production .rulePlain (.terminal (.terminal (derives_entry harray)))

/-- The grammar accepts the array with the byte string as one value, and yet its mark is reported as
an undefined name. -/
theorem marked_value_split :
    IsRuleOf markedText markedTokens ∧ ⟨.bytes, 5, 10⟩ ∈ markedTokens ∧
      parse markedText = .error [undefined ⟨"h", ⟨5, 6⟩⟩] ∧ markedText[6]? = some '\'' := by
  refine ⟨isRuleOf_markedText, ?_, ?_, rfl⟩
  · decide
  · decide +kernel

end Document

end Cddl

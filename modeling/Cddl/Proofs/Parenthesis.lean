import Cddl.Proofs.Declaration
import Cddl.Proofs.Preference

/-!
Redundant parentheses. A definition whose content is put between parentheses is still a rule, and
one of the same kind: between the parentheses the content is read as before, and with them it is a
plain type if and only if it is one without. The closing parenthesis stands on a line of its own,
because the content may end in a comment.
-/
namespace Cddl

/-- The terminals tile the whole text, but for blanks and comments. -/
def Covered (text : List Char) (ts : List Terminal) : Prop :=
  ∃ stop, Tiled text 0 ts stop ∧ Ignored text stop text.length

/-- The text can be the content of a rule. -/
def IsEntry (text : List Char) : Prop := ∃ ts, Derives [.nonterminal .entry] ts ∧ Covered text ts

/-- The text can be read as a type, perhaps between parentheses. -/
def IsPlain (text : List Char) : Prop := ∃ ts, PlainType ts ∧ Covered text ts

/-- The rule that gives a name its content. -/
def define (name content : List Char) : List Char := name ++ ' ' :: '=' :: ' ' :: content

def parenthesize (content : List Char) : List Char := '(' :: (content ++ ['\n', ')'])

variable {text name content : List Char} {i j k n : Nat} {t u : Terminal} {ts us : List Terminal}

/-! ### Tilings of whole texts -/

namespace Tiled

theorem shift {a : List Char} (h : Tiled text i ts j) :
    Tiled (a ++ text) (a.length + i) ts (a.length + j) := by
  induction h with
  | done => exact .done _
  | @token i k n j t ts hi hm _ ih =>
    refine .token (n := n) hi.shift ?_ ?_
    · rwa [List.drop_length_add_append]
    · rw [Nat.add_assoc]
      exact ih

/-- Tokens in front of a line feed are tokens of the text up to there. -/
theorem seen {later : List Char} (h : Tiled (text ++ '\n' :: later) i ts j)
    (hj : j ≤ text.length) : Tiled text i ts j := by
  induction h with
  | done => exact .done _
  | @token i k n j t ts hi hm hrest ih =>
    have hle := hrest.le
    have htake := hi.take_of_le (m := text.length) (by omega)
    rw [List.take_left] at htake
    rw [List.drop_append_of_le_length (by omega)] at hm
    exact .token htake (Terminal.match?_seen hm (by rw [List.length_drop]; omega)) (ih hj)

/-- Given terminals tile a text from one place to one other only. -/
theorem stop_unique (h : Tiled text i ts j) (h' : Tiled text i ts k) : j = k := by
  induction h with
  | done =>
    cases h'
    rfl
  | token hi hm _ ih =>
    obtain ⟨b, n, hb, hm', hrest⟩ := h'.cons_cases
    obtain rfl := hi.eq_of_match hb hm hm'
    rw [hm] at hm'
    cases hm'
    exact ih hrest

theorem covered_drop (h : Tiled text i ts j) (hend : Ignored text j text.length) :
    Covered (text.drop i) ts := by
  have hfront := h.drop (Nat.le_refl i)
  rw [Nat.sub_self] at hfront
  refine ⟨j - i, hfront, ?_⟩
  rw [List.length_drop]
  exact hend.drop h.le

end Tiled

namespace Covered

theorem exists_tiled (hi : i ≤ text.length) (h : Covered (text.drop i) ts) :
    ∃ stop, Tiled text i ts stop ∧ Ignored text stop text.length := by
  obtain ⟨stop, ht, hend⟩ := h
  have hfront := ht.shift (a := text.take i)
  have hbehind := hend.shift (a := text.take i)
  rw [List.take_append_drop, List.length_take_of_le hi] at hfront hbehind
  rw [List.length_drop, Nat.add_sub_cancel' hi] at hbehind
  exact ⟨i + stop, hfront, hbehind⟩

theorem nil_iff : Covered text [] ↔ Ignored text 0 text.length := by
  constructor
  · rintro ⟨stop, ht, hend⟩
    cases ht
    exact hend
  · intro h
    exact ⟨0, .done 0, h⟩

theorem cons_iff : Covered text (t :: ts) ↔
    ∃ k n, Ignored text 0 k ∧ t.match? (text.drop k) = some n ∧ Covered (text.drop (k + n)) ts := by
  constructor
  · rintro ⟨stop, ht, hend⟩
    obtain ⟨k, n, hk, hm, hrest⟩ := ht.cons_cases
    exact ⟨k, n, hk, hm, hrest.covered_drop hend⟩
  · rintro ⟨k, n, hk, hm, hrest⟩
    have hle := Terminal.match?_le hm
    have hpos := Terminal.match?_pos hm
    rw [List.length_drop] at hle
    obtain ⟨stop, ht, hend⟩ := hrest.exists_tiled (by omega)
    exact ⟨stop, .token hk hm ht, hend⟩

/-- Where one token stands at the front of a text, every other first token stands there as well. -/
theorem match_of_match (hm : t.match? text = some n) (h : Covered text (u :: us)) :
    ∃ m, u.match? text = some m ∧ Covered (text.drop m) us := by
  obtain ⟨k, m, hk, hu, hrest⟩ := cons_iff.mp h
  obtain rfl := (Ignored.done 0).eq_of_match hk hm hu
  rw [Nat.zero_add] at hrest
  exact ⟨m, hu, hrest⟩

theorem cons_iff_of_match (hm : t.match? text = some n) :
    Covered text (t :: ts) ↔ Covered (text.drop n) ts := by
  constructor
  · intro h
    obtain ⟨m, hm', hrest⟩ := h.match_of_match hm
    rw [hm] at hm'
    cases hm'
    exact hrest
  · intro h
    exact cons_iff.mpr ⟨0, n, .done 0, hm, by rwa [Nat.zero_add]⟩

/-- A text is covered up to one place only. -/
theorem stop_unique (h : Tiled text 0 ts i) (hi : Ignored text i text.length)
    (h' : Tiled text 0 us j) (hj : Ignored text j text.length) : i = j :=
  (ReadTo.zero.tiled h).unique (ReadTo.zero.tiled h') hi hj

end Covered

/-! ### A space in front -/

section Space

variable {c : Char} (hc : Lexeme.isSpace c = true)
include hc

theorem indent_cons : indent (c :: text) = indent text + 1 := Lexeme.run_cons_pos hc

theorem ignored_cons_iff (hi : indent text ≤ i) :
    Ignored (c :: text) 0 (i + 1) ↔ Ignored text 0 i := by
  constructor
  · intro h
    have hle : indent (c :: text) ≤ i + 1 := by rw [indent_cons hc]; omega
    have hrest := (ignored_indent (c :: text)).rest h hle
    rw [indent_cons hc, Nat.add_comm _ 1, Nat.add_comm i 1] at hrest
    exact (ignored_indent text).trans (hrest.of_append (a := [c]))
  · intro h
    have hrest := ((ignored_indent text).rest h hi).shift (a := [c])
    have hfront := ignored_indent (c :: text)
    rw [indent_cons hc, Nat.add_comm _ 1] at hfront
    rw [Nat.add_comm i 1]
    exact hfront.trans hrest

/-- A space in front of a text does not matter. -/
theorem Covered.space_iff : Covered (c :: text) ts ↔ Covered text ts := by
  cases ts with
  | nil =>
    rw [nil_iff, nil_iff]
    exact ignored_cons_iff hc (indent_le text)
  | cons t ts =>
    rw [cons_iff, cons_iff]
    constructor
    · rintro ⟨k, n, hk, hm, hrest⟩
      have hle := indent_le_of_match hm
      rw [indent_cons hc] at hle
      obtain ⟨k, rfl⟩ : ∃ m, k = m + 1 := ⟨k - 1, by omega⟩
      rw [Nat.add_right_comm] at hrest
      exact ⟨k, n, (ignored_cons_iff hc (Nat.le_of_succ_le_succ hle)).mp hk, hm, hrest⟩
    · rintro ⟨k, n, hk, hm, hrest⟩
      refine ⟨k + 1, n, (ignored_cons_iff hc (indent_le_of_match hm)).mpr hk, hm, ?_⟩
      rwa [Nat.add_right_comm]

end Space

/-! ### Between parentheses -/

/-- What covers a text is read alike in front of a line with a parenthesis, and up to it. -/
theorem Tiled.closed (ht : Tiled content 0 ts j) (hend : Ignored content j content.length) :
    Tiled (content ++ ['\n', ')']) 0 ts j ∧
      Ignored (content ++ ['\n', ')']) j (content.length + 1) := by
  obtain ⟨toks, htoks, rfl⟩ := ht.exists_tokens
  have hle := hend.le
  rw [← List.append_nil content] at htoks
  have hclosed : Tokens (content ++ ['\n', ')']) 0 toks j := htoks.cut hle
  have hblank : Ignored (content ++ []) j content.length := by rwa [List.append_nil]
  exact ⟨hclosed.tiled, hblank.cut rfl⟩

/-- A last closing parenthesis that is read at the end of such a text is the one on that line. -/
theorem Tiled.closed_iff : Tiled (content ++ ['\n', ')']) 0 (ts ++ [.closeParen])
      (content ++ ['\n', ')']).length ↔
    ∃ j, Tiled (content ++ ['\n', ')']) 0 ts j ∧
      Ignored (content ++ ['\n', ')']) j (content.length + 1) := by
  have hlen : (content ++ ['\n', ')']).length = content.length + 1 + 1 := by simp
  constructor
  · intro h
    obtain ⟨j, hts, hclose⟩ := h.split
    obtain ⟨b, n, hb, hm, hrest⟩ := hclose.cons_cases
    obtain rfl : n = 1 := (Lexeme.eq_append_of_spelled? hm).1
    generalize hstop : (content ++ ['\n', ')']).length = stop at hrest
    cases hrest
    obtain rfl : b = content.length + 1 := by omega
    exact ⟨j, hts, hb⟩
  · rintro ⟨j, hts, hb⟩
    have hm : Terminal.closeParen.match? ((content ++ ['\n', ')']).drop (content.length + 1)) =
        some 1 := by
      rw [List.drop_length_add_append]
      rfl
    rw [hlen]
    exact hts.append (.token hb hm (.done _))

namespace Covered

theorem closed (h : Covered content ts) :
    Covered (content ++ ['\n', ')']) (ts ++ [.closeParen]) := by
  obtain ⟨j, ht, hend⟩ := h
  exact ⟨_, Tiled.closed_iff.mpr ⟨j, ht.closed hend⟩, .done _⟩

theorem of_closed (h : Covered content us)
    (h' : Covered (content ++ ['\n', ')']) (ts ++ [.closeParen])) : Covered content ts := by
  obtain ⟨stop, ht, hend⟩ := h'
  obtain ⟨j, hus, hblank⟩ := h
  obtain ⟨hus', hblank'⟩ := hus.closed hblank
  obtain rfl := stop_unique ht hend (Tiled.closed_iff.mpr ⟨j, hus', hblank'⟩) (.done _)
  obtain ⟨l, hts, hl⟩ := Tiled.closed_iff.mp ht
  obtain rfl := (ReadTo.zero.tiled hts).unique (ReadTo.zero.tiled hus') hl hblank'
  exact ⟨l, hts.seen hblank.le, hblank⟩

theorem parenthesize_iff (h : Covered content us) :
    Covered (parenthesize content) (.openParen :: (ts ++ [.closeParen])) ↔ Covered content ts := by
  have hopen : Terminal.openParen.match? (parenthesize content) = some 1 := rfl
  rw [cons_iff_of_match hopen]
  exact ⟨h.of_closed, closed⟩

end Covered

/-! ### Contents between parentheses -/

namespace IsEntry

theorem parenthesized (h : IsEntry content) : IsEntry (parenthesize content) := by
  obtain ⟨ts, hd, hcovered⟩ := h
  have hgroup : Derives [.nonterminal .entry] (.openParen :: (ts ++ [.closeParen])) :=
    .of_production .entryGroup (PlainType.paren_rhs hd)
  exact ⟨_, hgroup, hcovered.parenthesize_iff.mpr hcovered⟩

/-- A content is a plain type between parentheses if and only if it is one without. -/
theorem isPlain_parenthesize_iff (h : IsEntry content) :
    IsPlain (parenthesize content) ↔ IsPlain content := by
  obtain ⟨us, hd, hcovered⟩ := h
  constructor
  · rintro ⟨ts, hplain, hts⟩
    cases hplain with
    | type htype =>
      -- the parenthesis in front may belong to a type, but then that type ends with the text
      obtain ⟨stop, ht, hend⟩ := hts
      obtain ⟨stop', ht', hend'⟩ := hcovered.parenthesize_iff.mpr hcovered
      obtain rfl := Covered.stop_unique ht hend ht' hend'
      obtain ⟨vs, rfl, hvs⟩ := type_of_entryGroup ht htype ht' (PlainType.paren_rhs hd)
      exact ⟨vs, .type hvs, hcovered.parenthesize_iff.mp ⟨stop, ht, hend⟩⟩
    | @paren ts hts' => exact ⟨ts, hts', hcovered.parenthesize_iff.mp hts⟩
    | @parenComma ts hts' =>
      rw [List.append_cons] at hts
      obtain ⟨stop, ht, hend⟩ := hcovered.parenthesize_iff.mp hts
      obtain ⟨stop', ht', hend'⟩ := hcovered
      obtain rfl := Covered.stop_unique ht hend ht' hend'
      have hentries : Derives Production.entriesOne.rhs us := hd
      exact absurd ht (not_entriesOneComma hentries ht' hts'.derives.entriesOneComma_rhs)
  · rintro ⟨ts, hplain, hts⟩
    exact ⟨_, hplain.paren, hcovered.parenthesize_iff.mpr hts⟩

theorem iterate (h : IsEntry content) (n : Nat) : IsEntry (parenthesize^[n] content) := by
  induction n with
  | zero => exact h
  | succ n ih =>
    rw [Function.iterate_succ_apply']
    exact ih.parenthesized

theorem isPlain_iterate_iff (h : IsEntry content) (n : Nat) :
    IsPlain (parenthesize^[n] content) ↔ IsPlain content := by
  induction n with
  | zero => exact Iff.rfl
  | succ n ih =>
    rw [Function.iterate_succ_apply', (h.iterate n).isPlain_parenthesize_iff, ih]

end IsEntry

/-! ### The content of a definition -/

namespace Best

variable {x y : Token} {e : Tree}

theorem exists_tokens (h : Best text 0 [.leaf x, .leaf y, e] j) :
    ∃ k, Tokens text 0 [x, y] k ∧ Best text k [e] j := by
  cases h with
  | leaf hi hm hrest =>
    cases hrest with
    | leaf hi' hm' hrest => exact ⟨_, .token hi hm (.token hi' hm' (.done _)), hrest⟩

/-- Whether a content is a plain type does not depend on its tree. -/
theorem isPlainType_iff_covered (h : Best text 0 [.leaf x, .leaf y, e] j)
    (he : e.symbol = .nonterminal .entry) (hend : Ignored text j text.length) :
    e.isPlainType = true ↔
      ∃ ts, PlainType ts ∧ Covered text (x.terminal :: y.terminal :: ts) := by
  obtain ⟨k, htoks, hcontent⟩ := h.exists_tokens
  rw [hcontent.isPlainType_iff he]
  constructor
  · rintro ⟨ts, hplain, hts⟩
    exact ⟨ts, hplain, j, htoks.tiled.append hts, hend⟩
  · rintro ⟨ts, hplain, stop, ht, hstop⟩
    rw [← List.singleton_append, List.append_cons] at ht
    obtain ⟨m, hfront, hts⟩ := ht.split
    obtain rfl := htoks.tiled.stop_unique hfront
    have hcontent' := htoks.tiled.append hcontent.forest.tokens.tiled
    obtain rfl := Covered.stop_unique ht hstop hcontent' hend
    exact ⟨ts, hplain, hts⟩

end Best

theorem Definition.isGroup_build_iff {chunk : List Char} {offset : Nat} {x y : Token}
    {params : Option Tree} {e : Tree} :
    (build chunk offset x y params e).rule.IsGroup ↔
      isGroup (Assignment.ofChars ((⟨y.start, y.stop⟩ : Span).slice chunk)) e = true := by
  simp only [build]
  split
  next h => exact ⟨fun _ => h, fun _ => ⟨_, _, rfl⟩⟩
  next h =>
    constructor
    · rintro ⟨_, _, heq⟩
      contradiction
    · intro hgroup
      contradiction

theorem match_sign : Terminal.assign.match? ('=' :: ' ' :: content) = some 1 := rfl

section Define

variable (hname : Lexeme.name? name = some name.length)
include hname

theorem match_define : Terminal.name.match? (define name content) = some name.length := by
  rw [← hname]
  exact Lexeme.name?_gap rfl

theorem covered_define_iff : Covered (define name content) (.name :: us) ↔
    Covered ('=' :: ' ' :: content) us := by
  rw [Covered.cons_iff_of_match (match_define hname), define, List.drop_left,
    Covered.space_iff rfl]

/-- What covers a definition is a name and a sign, and what covers its content. -/
theorem covered_define_assign_iff : Covered (define name content) (.name :: .assign :: ts) ↔
    Covered content ts := by
  rw [covered_define_iff hname, Covered.cons_iff_of_match match_sign, List.drop_one,
    List.tail_cons, Covered.space_iff rfl]

/-- No parameters stand behind the name. -/
theorem not_ruleGeneric (hd : Derives Production.ruleGeneric.rhs us) :
    ¬ Covered (define name content) us := by
  intro h
  obtain ⟨_, rfl, hrest⟩ := hd.terminal_cases
  obtain ⟨ps, vs, rfl, hparams, -⟩ := hrest.nonterminal_cases
  have hless : ∃ rest, ps = .less :: rest := by
    obtain ⟨p, hp, hd⟩ := hparams.exists_production
    cases p <;> try contradiction
    case paramsMany => exact hd.terminal_cases.imp fun _ h => h.1
    case paramsOne => exact hd.terminal_cases.imp fun _ h => h.1
  obtain ⟨rest, rfl⟩ := hless
  obtain ⟨m, hm, -⟩ := ((covered_define_iff hname).mp h).match_of_match match_sign
  obtain ⟨c, _, htext, hc⟩ := Terminal.exists_starts hm
  cases htext
  contradiction

/-- A definition is a rule if and only if its content can be one's. -/
theorem isRule_define_iff : IsRule (define name content) ↔ IsEntry content := by
  constructor
  · rintro ⟨ts, stop, ht, hend, hd⟩
    have hcovered : Covered (define name content) ts := ⟨stop, ht, hend⟩
    obtain ⟨p, hp, hd⟩ := hd.exists_production
    cases p <;> try contradiction
    case ruleGeneric => exact absurd hcovered (not_ruleGeneric hname hd)
    case rulePlain =>
      obtain ⟨_, rfl, hrest⟩ := hd.terminal_cases
      obtain ⟨vs, rfl, hentry⟩ := hrest.terminal_cases
      exact ⟨vs, hentry, (covered_define_assign_iff hname).mp hcovered⟩
  · rintro ⟨ts, hd, h⟩
    obtain ⟨stop, ht, hend⟩ := (covered_define_assign_iff hname).mpr h
    exact ⟨_, stop, ht, hend, .of_production .rulePlain (.terminal (.terminal hd))⟩

/-- The tree of a definition has three parts. -/
theorem Tree.ofText_define {t : Tree} (ht : Tree.ofText (define name content) = .ok t) :
    ∃ x y e stop, t = .node .rulePlain [.leaf x, .leaf y, e] ∧ x.terminal = .name ∧
      y.terminal = .assign ∧ e.symbol = .nonterminal .entry ∧
      Best (define name content) 0 [.leaf x, .leaf y, e] stop ∧
      Ignored (define name content) stop (define name content).length := by
  obtain ⟨stop, hsym, hbest, hend⟩ := Tree.best_ofText ht
  obtain ⟨p, children, rfl, hp⟩ := Tree.exists_node hsym
  obtain ⟨hpref, hsyms, hchildren⟩ := hbest.node_cases
  obtain ⟨us, hd, hus⟩ := hpref.read
  cases p <;> try contradiction
  case ruleGeneric => exact absurd ⟨stop, hus, hend⟩ (not_ruleGeneric hname hd)
  case rulePlain =>
    simp only [Production.rhs, List.map_eq_cons_iff, List.map_eq_nil_iff] at hsyms
    obtain ⟨x, _, rfl, hx, y, _, rfl, hy, e, _, rfl, he, rfl⟩ := hsyms
    obtain ⟨x, rfl⟩ := Tree.exists_leaf hx
    obtain ⟨y, rfl⟩ := Tree.exists_leaf hy
    exact ⟨x, y, e, stop, rfl, Symbol.terminal.inj hx, Symbol.terminal.inj hy, he, hchildren, hend⟩

/-- The place of the sign in a definition. -/
theorem assign_define {x y : Token} (hx : x.terminal = .name) (hy : y.terminal = .assign)
    (h : Tokens (define name content) 0 [x, y] j) :
    y = ⟨.assign, name.length + 1, name.length + 2⟩ := by
  have hbehind : (define name content).drop name.length = ' ' :: '=' :: ' ' :: content :=
    List.drop_left
  have hsign : (define name content).drop (name.length + 1) = '=' :: ' ' :: content :=
    List.drop_length_add_append 1
  cases h with
  | token hi hm hrest =>
    subst hx
    obtain rfl := (Ignored.done 0).eq_of_match hi (match_define hname) hm
    rw [List.drop_zero, match_define hname] at hm
    cases hm
    cases hrest with
    | token hi' hm' _ =>
      subst hy
      have hspace : Ignored (define name content) (0 + name.length) (name.length + 1) := by
        rw [Nat.zero_add]
        exact .next (n := 1) (by rw [hbehind]; rfl) (.done _)
      have hassign :
          Terminal.assign.match? ((define name content).drop (name.length + 1)) = some 1 := by
        rw [hsign, match_sign]
      obtain rfl := hspace.eq_of_match hi' hassign hm'
      rw [hassign] at hm'
      cases hm'
      rfl

/-- The rule that a definition makes is one for a group unless its content is a plain type. -/
theorem Document.isGroup_iff_of_define {c : Chunk} {d : Definition}
    (hc : c.slice text = define name content) (h : readChunk text c = .ok d) :
    d.rule.IsGroup ↔ ¬ IsPlain content := by
  obtain ⟨t, _, _, _, _, _, ht, -, hparts, rfl⟩ := exists_parts h
  rw [hc] at ht ⊢
  obtain ⟨x, y, e, stop, rfl, hx, hy, he, hbest, hend⟩ := Tree.ofText_define hname ht
  obtain ⟨j, htoks, -⟩ := hbest.exists_tokens
  have hplain : e.isPlainType = true ↔ IsPlain content := by
    rw [hbest.isPlainType_iff_covered he hend, hx, hy]
    simp only [covered_define_assign_iff hname, IsPlain]
  have hassign : Assignment.ofChars ((⟨y.start, y.stop⟩ : Span).slice (define name content)) =
      .define := by
    rw [assign_define hname hx hy htoks, Span.slice, Int.toNat_natCast, Int.toNat_natCast, define,
      List.take_length_add_append, List.drop_length_add_append]
    rfl
  cases hparts
  rw [Definition.isGroup_build_iff, hassign, Definition.isGroup, Bool.not_eq_true', ← hplain,
    Bool.not_eq_true]

/-- However often the content of a rule is put between parentheses, it stays a rule, and one of the
same kind. -/
theorem Document.isGroup_iff_of_parenthesize {text' : List Char} {c c' : Chunk}
    (h : IsRule (define name content)) (n : Nat) (hc : c.slice text = define name content)
    (hc' : c'.slice text' = define name (parenthesize^[n] content)) :
    IsRule (define name (parenthesize^[n] content)) ∧
      ∃ d d', readChunk text c = .ok d ∧ readChunk text' c' = .ok d' ∧
        (d.rule.IsGroup ↔ d'.rule.IsGroup) := by
  have hentry := (isRule_define_iff hname).mp h
  have hrule := (isRule_define_iff hname).mpr (hentry.iterate n)
  obtain ⟨d, hd⟩ := readChunk_of_isRule (hc ▸ h)
  obtain ⟨d', hd'⟩ := readChunk_of_isRule (hc' ▸ hrule)
  refine ⟨hrule, d, d', hd, hd', ?_⟩
  rw [isGroup_iff_of_define hname hc hd, isGroup_iff_of_define hname hc' hd',
    hentry.isPlain_iterate_iff n]

end Define

/-- A key with its type makes a group, also between two pairs of parentheses. -/
theorem Document.isGroup_of_parenthesize_key :
    Lexeme.name? ['m'] = some 1 ∧ IsRule (define ['m'] ['b', ':', '1']) ∧
      IsRule (define ['m'] (parenthesize^[2] ['b', ':', '1'])) ∧
      ∃ d, readChunk (define ['m'] (parenthesize^[2] ['b', ':', '1'])) ⟨0, 13⟩ = .ok d ∧
        d.rule.IsGroup := by
  have hname : Lexeme.name? ['m'] = some ['m'].length := by decide
  have hrule : IsRule (define ['m'] ['b', ':', '1']) := by decide +kernel
  have hread : readChunk (define ['m'] ['b', ':', '1']) ⟨0, 7⟩ =
      .ok ⟨.group ⟨"m", ⟨0, 1⟩⟩ ⟨0, 7⟩, [], []⟩ := by decide +kernel
  have hslice : (⟨0, 7⟩ : Chunk).slice (define ['m'] ['b', ':', '1']) =
      define ['m'] ['b', ':', '1'] := rfl
  have hslice' : (⟨0, 13⟩ : Chunk).slice (define ['m'] (parenthesize^[2] ['b', ':', '1'])) =
      define ['m'] (parenthesize^[2] ['b', ':', '1']) := rfl
  obtain ⟨hrule', d, d', hd, hd', hkind⟩ :=
    isGroup_iff_of_parenthesize hname hrule 2 hslice hslice'
  rw [hread] at hd
  cases hd
  exact ⟨hname, hrule, hrule', d', hd', hkind.mp ⟨_, _, rfl⟩⟩

end Cddl

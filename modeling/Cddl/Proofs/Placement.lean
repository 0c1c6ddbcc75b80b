import Cddl.Proofs.Composition
import Cddl.Proofs.Layout

/-!
The spans of rules. A rule reaches from the first character of its name to the last character of its
last token, and its parameters stand between its name and its assignment sign; since the chunks of a
text lie behind each other, the rules do so as well.
-/
namespace Cddl

namespace Rule

/-- The span of a rule reaches from its first token to its last one, and covers neither blanks nor
comments behind it. -/
structure Reaches (r : Rule) (text : List Char) (c : Chunk) (first last : Token) : Prop where
  tokens : ∃ toks, IsRuleOf (c.slice text) toks ∧ toks.head? = some first ∧
    toks.getLast? = some last
  name : r.name.span = (⟨first.start, first.stop⟩ : Span).shift c.start
  span : r.span = (⟨first.start, last.stop⟩ : Span).shift c.start
  behind : Ignored (c.slice text) last.stop (c.slice text).length

/-- The rule is placed in a chunk of a text as its tokens are. -/
structure PlacedIn (r : Rule) (text : List Char) (c : Chunk) : Prop where
  reaches : ∃ first last, r.Reaches text c first last
  start_le : (c.start : Int) ≤ r.span.start
  stop_le : r.span.stop ≤ c.stop
  nonempty : r.span.start < r.span.stop
  name_start : r.name.span.start = r.span.start
  name_stop : r.name.span.stop ≤ r.span.stop
  name_stands : r.name.StandsIn text
  params_inside : ∀ p ∈ r.params, r.name.span.stop ≤ p.span.start ∧
    p.span.start < p.span.stop ∧ p.span.stop ≤ r.span.stop
  params_ordered : r.params.Pairwise fun p q => p.span.stop ≤ q.span.start
  params_stand : ∀ p ∈ r.params, p.StandsIn text

end Rule

/-! ### The tokens of a definition -/

namespace Definition

variable {chunk : List Char} {stop : Nat} {name assign : Token} {params : Option Tree}
  {content : Tree}

theorem getLast?_tokens (ps : List Token) :
    (name :: (ps ++ assign :: content.tokens)).getLast? = some (lastToken assign content) := by
  simp [lastToken, List.getLast?_cons]

/-- How the tokens of a rule follow each other. -/
structure Ordered (name : Token) (ps : List Token) (assign last : Token) : Prop where
  name_lt : name.start < name.stop
  name_le : name.stop ≤ assign.start
  assign_lt : assign.start < assign.stop
  assign_le : assign.stop ≤ last.stop
  params_between : ∀ p ∈ ps, name.stop ≤ p.start ∧ p.start < p.stop ∧ p.stop ≤ assign.start
  params_ordered : ps.Pairwise fun p q => p.stop ≤ q.start

theorem ordered {ps : List Token}
    (h : Tokens chunk 0 (name :: (ps ++ assign :: content.tokens)) stop) :
    Ordered name ps assign (lastToken assign content) := by
  obtain ⟨hname, hrest⟩ := List.pairwise_cons.mp h.pairwise
  obtain ⟨hps, -, hassign⟩ := List.pairwise_append.mp hrest
  have hlast := h.getLast_stop _ (getLast?_tokens ps)
  have hbounds := h.bounds
  refine ⟨(hbounds name (by simp)).2.1, hname assign (by simp), (hbounds assign (by simp)).2.1,
    hlast ▸ (hbounds assign (by simp)).2.2, fun p hp => ?_, hps⟩
  exact ⟨hname p (by simp [hp]), (hbounds p (by simp [hp])).2.1, hassign p hp assign (by simp)⟩

theorem exists_token_of_param {offset : Nat} {p : Name}
    (h : p ∈ (build chunk offset name assign params content).rule.params) :
    ∃ t ∈ Tree.paramTokens params, nameOf chunk offset t = p := by
  have hmem := params_sublist.mem h
  rw [build_params] at hmem
  obtain ⟨t, ht, hp⟩ := List.mem_map.mp hmem
  exact ⟨t, List.mem_of_mem_filter ht, hp⟩

end Definition

namespace Document

variable {text : List Char} {c : Chunk} {d : Definition} {rules : List Rule}

/-- A rule that is read from a chunk is placed in it. -/
theorem placedIn_of_readChunk (hc : c ∈ Chunk.split text) (h : readChunk text c = .ok d) :
    d.rule.PlacedIn text c := by
  obtain ⟨hlt, hle⟩ := Chunk.bounds_of_mem_split hc
  have hlen := Chunk.length_slice hle
  obtain ⟨tree, _, name, params, assign, content, -, hreads, hparts, rfl⟩ := exists_parts h
  have hrule := hreads.isRuleOf
  rw [hparts.tokens_eq] at hrule
  obtain ⟨stop, htoks, hbehind, -⟩ := id hrule
  have hstop := hbehind.le
  have hlast := htoks.getLast_stop _ (Definition.getLast?_tokens _)
  have hord := Definition.ordered htoks
  obtain ⟨hname, hnamele, hassign, hassignle, hps, hpairs⟩ := id hord
  -- no token ends behind the last one, so that all of them stand in the chunk
  have hstands : ∀ t : Token, t.stop ≤ stop →
      (Definition.nameOf (c.slice text) c.start t).StandsIn text := fun t ht =>
    Definition.standsIn_nameOf (by omega)
  constructor
  · refine ⟨name, Definition.lastToken assign content, ⟨_, hrule, rfl, ?_⟩, ?_, ?_, hlast ▸ hbehind⟩
    · exact Definition.getLast?_tokens _
    · rw [Definition.build_name]
      rfl
    · exact Definition.build_span
  · simp only [Definition.build_span, Span.shift]
    omega
  · simp only [Definition.build_span, Span.shift]
    omega
  · simp only [Definition.build_span, Span.shift]
    omega
  · simp only [Definition.build_name, Definition.build_span, Definition.nameOf, Span.shift]
  · simp only [Definition.build_name, Definition.build_span, Definition.nameOf, Span.shift]
    omega
  · rw [Definition.build_name]
    exact hstands name (by omega)
  · intro p hp
    obtain ⟨t, ht, rfl⟩ := Definition.exists_token_of_param hp
    have hbetween := hps t ht
    simp only [Definition.build_name, Definition.build_span, Definition.nameOf, Span.shift]
    omega
  · refine List.Pairwise.sublist Definition.params_sublist ?_
    rw [Definition.build_params, List.pairwise_map]
    refine List.Pairwise.filter _ (hpairs.imp fun {t u} htu => ?_)
    simp only [Definition.nameOf, Span.shift]
    omega
  · intro p hp
    obtain ⟨t, ht, rfl⟩ := Definition.exists_token_of_param hp
    have hbetween := hps t ht
    exact hstands t (by omega)

theorem forall₂_placedIn {l : List Chunk} {ds : List Definition}
    (hl : ∀ c ∈ l, c ∈ Chunk.split text)
    (h : List.Forall₂ (fun c d => readChunk text c = .ok d) l ds) :
    List.Forall₂ (fun c r => r.PlacedIn text c) l (ds.map (·.rule)) := by
  induction h with
  | nil => exact .nil
  | cons hd _ ih =>
    exact .cons (placedIn_of_readChunk (hl _ (by simp)) hd)
      (ih fun c hc => hl c (List.mem_cons_of_mem _ hc))

/-- A text that is accepted has the rules of its chunks. -/
theorem rules_of_parse (h : parse text = .ok rules) :
    syntaxErrors text = [] ∧ rules = Document.rules text := by
  have hsyn : syntaxErrors text = [] := by rw [syntaxErrors, h]
  have hrules := parse_of_syntaxErrors hsyn
  rw [h] at hrules
  refine ⟨hsyn, ?_⟩
  split at hrules
  · exact Except.ok.inj hrules
  · contradiction

/-- The rules of an accepted text belong to its chunks one by one, in order. Each is placed in its
chunk as its tokens are, from the first character of its name to the last one of its last token,
with its parameters behind each other inside it; so the rules stand behind each other in the
text. -/
theorem rules_placedIn (h : parse text = .ok rules) :
    List.Forall₂ (fun c r => r.PlacedIn text c) (Chunk.split text) rules ∧
    rules.Pairwise (fun r s => r.span.stop ≤ s.span.start) ∧
    rules.Pairwise (fun r s => r.span.start < s.span.start) := by
  obtain ⟨hsyn, rfl⟩ := rules_of_parse h
  have hplaced := forall₂_placedIn (fun _ hc => hc) (forall₂_of_syntaxErrors hsyn)
  refine ⟨hplaced, ?_, ?_⟩
  · refine pairwise_of_forall₂ hplaced (Chunk.pairwise_split text) ?_
    intro c r e s hr hs hce
    have hstop := hr.stop_le
    have hstart := hs.start_le
    omega
  · refine pairwise_of_forall₂ hplaced (Chunk.pairwise_split text) ?_
    intro c r e s hr hs hce
    have hlt := hr.nonempty
    have hstop := hr.stop_le
    have hstart := hs.start_le
    omega

/-- An indented rule with a parameter and a comment behind it, and a rule that uses it. -/
def indentedText : List Char :=
  [' ', 'm', '<', 't', '>', '=', '[', 't', ']', ' ', ';', '=', '\n', 'a', '=', 'm', '<', 'a', '>']

def indentedRules : List Rule :=
  [.type ⟨"m", ⟨1, 2⟩⟩ ⟨1, 9⟩ (some [⟨"t", ⟨3, 4⟩⟩]), .type ⟨"a", ⟨13, 14⟩⟩ ⟨13, 19⟩ none]

theorem rules_placedIn_indented :
    parse indentedText = .ok indentedRules ∧
    List.Forall₂ (fun c r => r.PlacedIn indentedText c) [⟨0, 13⟩, ⟨13, 19⟩] indentedRules ∧
    indentedRules.Pairwise (fun r s => r.span.stop ≤ s.span.start) ∧
    indentedRules.Pairwise (fun r s => r.span.start < s.span.start) := by
  have hparse : parse indentedText = .ok indentedRules := by decide +kernel
  have hsplit : Chunk.split indentedText = [⟨0, 13⟩, ⟨13, 19⟩] := by decide
  obtain ⟨hplaced, hrest⟩ := rules_placedIn hparse
  rw [hsplit] at hplaced
  exact ⟨hparse, hplaced, hrest⟩

end Document

end Cddl

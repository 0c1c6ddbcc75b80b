import Cddl.Proofs.Acceptance
import Cddl.Proofs.Forest

/-!
How a definition lies in its document. The tokens of a rule stand behind each other in their chunk:
its name, the tokens of a parameter list, the assignment sign and the tokens of its content. A span
that is moved to the place of the chunk covers the same characters in the document.
-/
namespace Cddl

/-! ### Tokens in order -/

namespace Tokens

variable {text : List Char} {i j : Nat} {toks : List Token}

theorem bounds (h : Tokens text i toks j) :
    ∀ t ∈ toks, i ≤ t.start ∧ t.start < t.stop ∧ t.stop ≤ j := by
  induction h with
  | done => simp
  | @token i k n j t toks hi ht hrest ih =>
    intro u hu
    have hik := hi.le
    have hpos := Terminal.match?_pos ht
    have hle := hrest.tiled.le
    rcases List.mem_cons.mp hu with rfl | hu
    · exact ⟨hik, Nat.lt_add_of_pos_right hpos, hle⟩
    · obtain ⟨hstart, hlt, hstop⟩ := ih u hu
      exact ⟨by omega, hlt, hstop⟩

theorem pairwise (h : Tokens text i toks j) :
    toks.Pairwise fun t u => t.stop ≤ u.start := by
  induction h with
  | done => exact .nil
  | token _ _ hrest ih => exact .cons (fun u hu => (hrest.bounds u hu).1) ih

theorem getLast_stop (h : Tokens text i toks j) : ∀ t ∈ toks.getLast?, t.stop = j := by
  induction h with
  | done => simp
  | @token _ _ _ _ _ toks _ _ hrest ih =>
    intro u hu
    cases toks with
    | nil =>
      cases hrest
      simp only [List.getLast?_singleton, Option.mem_some_iff] at hu
      rw [← hu]
    | cons v toks => exact ih u (by simpa using hu)

end Tokens

/-! ### The parts of a rule -/

namespace Tree

/-- The tree is one for a rule and has these parts. -/
inductive HasParts : Tree → Token → Option Tree → Token → Tree → Prop where
  | generic (name params assign content) :
    HasParts (.node .ruleGeneric [.leaf name, params, .leaf assign, content]) name (some params)
      assign content
  | plain (name assign content) :
    HasParts (.node .rulePlain [.leaf name, .leaf assign, content]) name none assign content

/-- The tokens of a parameter list, if there is one. -/
def paramTokens (params : Option Tree) : List Token := (params.map tokens).getD []

variable {text : List Char} {tree content : Tree} {name assign : Token} {params : Option Tree}

namespace HasParts

theorem tokens_eq (h : tree.HasParts name params assign content) :
    tree.tokens = name :: (paramTokens params ++ assign :: content.tokens) := by
  cases h <;> simp [tokens, tokensOfList, paramTokens]

theorem content_forest {stop : Nat} (h : tree.HasParts name params assign content)
    (hreads : tree.Reads text stop) :
    content.symbol = .nonterminal .entry ∧ ∃ i j, Forest text i [content] j := by
  have hforest := hreads.forest
  cases h with
  | generic =>
    cases hforest with
    | node hsyms hchildren _ =>
      simp only [Production.rhs, List.map_cons, List.cons.injEq] at hsyms
      exact ⟨hsyms.2.2.2.1, hchildren.of_mem (by simp)⟩
  | plain =>
    cases hforest with
    | node hsyms hchildren _ =>
      simp only [Production.rhs, List.map_cons, List.cons.injEq] at hsyms
      exact ⟨hsyms.2.2.1, hchildren.of_mem (by simp)⟩

end HasParts

end Tree

namespace Definition

variable {chunk : List Char} {offset : Nat} {tree : Tree} {d : Definition}

theorem exists_parts (h : ofTree? chunk offset tree = some d) :
    ∃ name params assign content, tree.HasParts name params assign content ∧
      d = build chunk offset name assign params content := by
  unfold ofTree? at h
  split at h
  · cases h
    exact ⟨_, _, _, _, .generic .., rfl⟩
  · cases h
    exact ⟨_, _, _, _, .plain .., rfl⟩
  · contradiction

/-- The last token of a rule. -/
def lastToken (assign : Token) (content : Tree) : Token := content.tokens.getLast?.getD assign

variable {name assign : Token} {params : Option Tree} {content : Tree}

@[simp] theorem build_name :
    (build chunk offset name assign params content).rule.name = nameOf chunk offset name := by
  simp only [build]
  split <;> rfl

@[simp] theorem build_span :
    (build chunk offset name assign params content).rule.span =
      (⟨name.start, (lastToken assign content).stop⟩ : Span).shift offset := by
  simp only [build]
  split <;> rfl

@[simp] theorem build_references :
    (build chunk offset name assign params content).references =
      content.references.map (nameOf chunk offset) := rfl

@[simp] theorem build_params :
    (build chunk offset name assign params content).params =
      ((Tree.paramTokens params).filter (·.terminal = .name)).map (nameOf chunk offset) := by
  cases params <;> rfl

/-- A rule shows its own parameters, or none. -/
theorem params_sublist :
    (build chunk offset name assign params content).rule.params.Sublist
      (build chunk offset name assign params content).params := by
  simp only [build]
  split
  · exact List.nil_sublist _
  · exact List.Sublist.refl _

end Definition

namespace Document

variable {text : List Char} {c : Chunk} {d : Definition}

/-- A chunk that can be read has a tree, and the parts of the tree make up its definition. -/
theorem exists_parts (h : readChunk text c = .ok d) :
    ∃ tree stop name params assign content, Tree.ofText (c.slice text) = .ok tree ∧
      tree.Reads (c.slice text) stop ∧ tree.HasParts name params assign content ∧
      d = .build (c.slice text) c.start name assign params content := by
  simp only [readChunk] at h
  split at h
  next => contradiction
  next tree htree =>
    split at h
    next e he =>
      cases h
      obtain ⟨stop, hreads⟩ := Tree.reads_ofText htree
      obtain ⟨name, params, assign, content, hparts, hd⟩ := Definition.exists_parts he
      exact ⟨tree, stop, name, params, assign, content, htree, hreads, hparts, hd⟩
    next => contradiction

/-! ### From chunks to the document -/

theorem forall₂_definitions {l : List Chunk} (h : broken (l.map (readChunk text)) = []) :
    List.Forall₂ (fun c d => readChunk text c = .ok d) l
      (definitions (l.map (readChunk text))) := by
  induction l with
  | nil => exact .nil
  | cons c l ih =>
    cases hc : readChunk text c with
    | error p => simp [broken, hc] at h
    | ok d =>
      have hrec := ih (by simpa [broken, hc] using h)
      simpa [definitions, hc] using hrec

/-- The chunks of a text without syntax errors and its definitions belong to each other one by
one. -/
theorem forall₂_of_syntaxErrors (h : syntaxErrors text = []) :
    List.Forall₂ (fun c d => readChunk text c = .ok d) (Chunk.split text)
      (definitions (readings text)) := by
  rw [syntaxErrors_eq_broken] at h
  exact forall₂_definitions h

end Document

/-! ### Lists that belong to each other one by one -/

section

variable {α β : Type} {R : α → β → Prop} {l : List α} {m : List β}

theorem exists_of_forall₂ (h : List.Forall₂ R l m) {b : β} (hb : b ∈ m) : ∃ a ∈ l, R a b := by
  induction h with
  | nil => contradiction
  | @cons a b' l m hab _ ih =>
    rcases List.mem_cons.mp hb with rfl | hb
    · exact ⟨a, List.mem_cons_self, hab⟩
    · obtain ⟨a', ha', hab'⟩ := ih hb
      exact ⟨a', List.mem_cons_of_mem _ ha', hab'⟩

/-- What belongs one by one to things in order is in order. -/
theorem pairwise_of_forall₂ {P : α → α → Prop} {Q : β → β → Prop} (h : List.Forall₂ R l m)
    (hl : l.Pairwise P) (himp : ∀ a b c d, R a b → R c d → P a c → Q b d) : m.Pairwise Q := by
  induction h with
  | nil => exact .nil
  | @cons a b l m hab hrest ih =>
    obtain ⟨ha, hl⟩ := List.pairwise_cons.mp hl
    refine .cons (fun d hd => ?_) (ih hl)
    obtain ⟨c, hc, hcd⟩ := exists_of_forall₂ hrest hd
    exact himp a b c d hab hcd (ha c hc)

end

/-! ### Spans in a chunk and in the document -/

namespace Chunk

variable {text : List Char} {c : Chunk}

/-- A stretch of a chunk is a stretch of the text, further behind. -/
theorem slice_shift {start stop : Nat} (h : c.start + stop ≤ c.stop) :
    ((⟨start, stop⟩ : Span).shift c.start).slice text =
      (⟨start, stop⟩ : Span).slice (c.slice text) := by
  have hstart : ((c.start : Int) + start).toNat = c.start + start := by omega
  have hstop : ((c.start : Int) + stop).toNat = c.start + stop := by omega
  simp only [Span.slice, Span.shift, slice, hstart, hstop, Int.toNat_natCast]
  rw [List.take_drop, List.drop_drop, List.take_take, Nat.min_eq_left h]

end Chunk

/-- The text spells the name at its place. -/
def Name.StandsIn (n : Name) (text : List Char) : Prop := n.span.slice text = n.ident.toList

theorem Definition.standsIn_nameOf {text : List Char} {c : Chunk} {t : Token}
    (h : c.start + t.stop ≤ c.stop) : (nameOf (c.slice text) c.start t).StandsIn text := by
  simp only [Name.StandsIn, nameOf, String.toList_ofList]
  exact Chunk.slice_shift h

end Cddl

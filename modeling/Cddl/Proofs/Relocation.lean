import Cddl.Proofs.Placement
import Cddl.Proofs.Reach
import Cddl.Proofs.Usage

/-!
Definitions that are read at other places. Where the tokens of a chunk stand in another chunk, spelled
as they were, the renamed tree makes the same definition there, and only the spans are others.
-/
namespace Cddl

/-! ### Spans, names and rules with other offsets -/

def Span.map (g : Int → Int) (s : Span) : Span := ⟨g s.start, g s.stop⟩

def Name.map (g : Int → Int) (n : Name) : Name := ⟨n.ident, n.span.map g⟩

def Rule.map (g : Int → Int) : Rule → Rule
  | .type name span params => .type (name.map g) (span.map g) (params.map fun l => l.map (·.map g))
  | .group name span => .group (name.map g) (span.map g)

def Definition.map (g : Int → Int) (d : Definition) : Definition :=
  ⟨d.rule.map g, d.params.map (·.map g), d.references.map (·.map g)⟩

theorem Name.map_shift (n : Name) (k : Nat) : n.map (k + ·) = n.shift k := rfl

theorem Rule.map_shift (r : Rule) (k : Nat) : r.map (k + ·) = r.shift k := by
  cases r <;> rfl

theorem Definition.map_shift (d : Definition) (k : Nat) : d.map (k + ·) = d.shift k := by
  rw [Definition.map, Rule.map_shift]
  rfl

theorem Span.map_id (s : Span) : s.map id = s := rfl

theorem Name.map_id (n : Name) : n.map id = n := rfl

theorem Rule.map_id (r : Rule) : r.map id = r := by
  cases r with
  | type name span params =>
    cases params with
    | none => rfl
    | some l => simp [map, Name.map_id, Span.map_id]
  | group name span => rfl

theorem Definition.map_id (d : Definition) : d.map id = d := by
  simp [map, Rule.map_id, Name.map_id]

@[simp] theorem Rule.name_map (g : Int → Int) (r : Rule) : (r.map g).name = r.name.map g := by
  cases r <;> rfl

/-! ### Renamed trees -/

namespace Tree

variable {place : Nat → Nat}

mutual

theorem tokens_relabel : ∀ t : Tree, (t.relabel place).tokens = t.tokens.map (·.relabel place)
  | leaf _ => rfl
  | node _ children => by
    rw [relabel, tokens, tokens]
    exact tokensOfList_relabel children

theorem tokensOfList_relabel : ∀ ts : List Tree,
    tokensOfList (relabelList place ts) = (tokensOfList ts).map (·.relabel place)
  | [] => rfl
  | t :: ts => by
    rw [relabelList, tokensOfList, tokensOfList, tokens_relabel t, tokensOfList_relabel ts,
      List.map_append]

end

theorem firstLeaf_relabel (ts : List Tree) :
    firstLeaf (relabelList place ts) = (firstLeaf ts).map (·.relabel place) := by
  cases ts with
  | nil => rfl
  | cons t ts =>
    cases t with
    | leaf t => rfl
    | node p children => rfl

mutual

theorem references_relabel : ∀ t : Tree,
    (t.relabel place).references = t.references.map (·.relabel place)
  | leaf _ => rfl
  | node p children => by
    rw [relabel, references, references, referencesOfList_relabel children, firstLeaf_relabel,
      List.map_append]
    split
    · rfl
    · rfl

theorem referencesOfList_relabel : ∀ ts : List Tree,
    referencesOfList (relabelList place ts) = (referencesOfList ts).map (·.relabel place)
  | [] => rfl
  | t :: ts => by
    rw [relabelList, referencesOfList, referencesOfList, references_relabel t,
      referencesOfList_relabel ts, List.map_append]

end

theorem relabel_eq_node {t : Tree} {p : Production} {children : List Tree}
    (h : t.relabel place = node p children) :
    ∃ below, t = node p below ∧ relabelList place below = children := by
  cases t with
  | leaf t =>
    rw [relabel] at h
    contradiction
  | node q below =>
    rw [relabel, node.injEq] at h
    obtain ⟨rfl, hbelow⟩ := h
    exact ⟨below, rfl, hbelow⟩

theorem relabelList_eq_cons {ts us : List Tree} {u : Tree} (h : relabelList place ts = u :: us) :
    ∃ t rest, ts = t :: rest ∧ t.relabel place = u ∧ relabelList place rest = us := by
  cases ts with
  | nil =>
    rw [relabelList] at h
    contradiction
  | cons t rest =>
    rw [relabelList, List.cons.injEq] at h
    exact ⟨t, rest, rfl, h⟩

theorem relabelList_eq_nil {ts : List Tree} (h : relabelList place ts = []) : ts = [] := by
  cases ts with
  | nil => rfl
  | cons t rest =>
    rw [relabelList] at h
    contradiction

theorem relabelList_eq_singleton {ts : List Tree} {u : Tree} (h : relabelList place ts = [u]) :
    ∃ t, ts = [t] ∧ t.relabel place = u := by
  obtain ⟨t, rest, rfl, ht, hrest⟩ := relabelList_eq_cons h
  obtain rfl := relabelList_eq_nil hrest
  exact ⟨t, rfl, ht⟩

/-- A renamed entry in parentheses is one of which the inside is a single choice of entries. -/
theorem relabel_eq_entryGroup {t x y : Tree} {p : Production} {inside : List Tree}
    (h : t.relabel place =
      node .entryGroup [x, node .groupOne [node .choiceEntries [node p inside]], y]) :
    ∃ a below b, t = node .entryGroup [a, node .groupOne [node .choiceEntries [node p below]], b] ∧
      relabelList place below = inside := by
  obtain ⟨_, rfl, houter⟩ := relabel_eq_node h
  obtain ⟨a, _, rfl, -, hrest⟩ := relabelList_eq_cons houter
  obtain ⟨_, _, rfl, hgroup, hlast⟩ := relabelList_eq_cons hrest
  obtain ⟨b, rfl, -⟩ := relabelList_eq_singleton hlast
  obtain ⟨_, rfl, hchoices⟩ := relabel_eq_node hgroup
  obtain ⟨_, rfl, hchoice⟩ := relabelList_eq_singleton hchoices
  obtain ⟨_, rfl, hentries⟩ := relabel_eq_node hchoice
  obtain ⟨_, rfl, hentry⟩ := relabelList_eq_singleton hentries
  obtain ⟨below, rfl, hbelow⟩ := relabel_eq_node hentry
  exact ⟨a, below, b, rfl, hbelow⟩

/-- Whether an entry is a type does not depend on where it stands. -/
theorem isPlainType_relabel (t : Tree) : (t.relabel place).isPlainType = t.isPlainType := by
  fun_induction isPlainType t with
  | case1 children => rfl
  | case2 x e y ih =>
    simp only [relabel, relabelList, isPlainType]
    exact ih
  | case3 x e y z ih =>
    simp only [relabel, relabelList, isPlainType]
    exact ih
  | case4 t hplain hgroup hcomma =>
    rw [isPlainType.eq_4]
    · intro children heq
      obtain ⟨below, rfl, -⟩ := relabel_eq_node heq
      exact hplain below rfl
    · intro x e y heq
      obtain ⟨a, below, b, rfl, hbelow⟩ := relabel_eq_entryGroup heq
      obtain ⟨i, rfl, -⟩ := relabelList_eq_singleton hbelow
      exact hgroup a i b rfl
    · intro x e y z heq
      obtain ⟨a, below, b, rfl, hbelow⟩ := relabel_eq_entryGroup heq
      obtain ⟨i, _, rfl, -, hrest⟩ := relabelList_eq_cons hbelow
      obtain ⟨j, rfl, -⟩ := relabelList_eq_singleton hrest
      exact hcomma a i j b rfl

end Tree

theorem Tree.HasParts.terminals {text : List Char} {stop : Nat} {tree content : Tree}
    {name assign : Token} {params : Option Tree} (h : tree.HasParts name params assign content)
    (hreads : tree.Reads text stop) : name.terminal = .name ∧ assign.terminal = .assign := by
  have hforest := hreads.forest
  cases h with
  | generic =>
    cases hforest with
    | node hsyms _ _ =>
      simp only [Production.rhs, List.map_cons, List.cons.injEq, symbol] at hsyms
      exact ⟨Symbol.terminal.inj hsyms.1, Symbol.terminal.inj hsyms.2.2.1⟩
  | plain =>
    cases hforest with
    | node hsyms _ _ =>
      simp only [Production.rhs, List.map_cons, List.cons.injEq, symbol] at hsyms
      exact ⟨Symbol.terminal.inj hsyms.1, Symbol.terminal.inj hsyms.2.1⟩

/-! ### Definitions -/

/-- A chunk at `offset` is found again in a chunk at `offset'`: its offsets are those that `place`
leads to, `g` leads from one document to the other, and all tokens but quoted literals are spelled
as they were. -/
structure Relocates (chunk chunk' : List Char) (offset offset' : Nat) (place : Nat → Nat)
    (g : Int → Int) : Prop where
  offsets : ∀ x ≤ chunk.length, (offset' : Int) + (place x : Nat) = g (offset + x)
  spelled : ∀ {t : Terminal} {k n}, t ≠ .text ∧ t ≠ .bytes → t.match? (chunk.drop k) = some n →
    (chunk'.take (place (k + n))).drop (place k) = (chunk.take (k + n)).drop k

namespace Relocates

variable {chunk chunk' : List Char} {offset offset' stop i j : Nat} {place : Nat → Nat}
  {g : Int → Int}

theorem span (h : Relocates chunk chunk' offset offset' place g) (hi : i ≤ chunk.length)
    (hj : j ≤ chunk.length) :
    (⟨place i, place j⟩ : Span).shift offset' = ((⟨i, j⟩ : Span).shift offset).map g := by
  rw [Span.shift, Span.shift, Span.map, Span.mk.injEq]
  exact ⟨h.offsets i hi, h.offsets j hj⟩

/-- A token of the chunk lies in it. -/
theorem exists_match {toks : List Token} (htoks : Tokens chunk i toks stop) {t : Token}
    (ht : t ∈ toks) : ∃ n, t.stop = t.start + n ∧
      t.terminal.match? (chunk.drop t.start) = some n ∧ t.stop ≤ chunk.length := by
  induction htoks with
  | done => contradiction
  | @token _ k n _ u rest _ hm hrest ih =>
    rcases List.mem_cons.mp ht with rfl | ht
    · have hle := Terminal.match?_le hm
      have hpos := Terminal.match?_pos hm
      rw [List.length_drop] at hle
      exact ⟨n, rfl, hm, by simp only; omega⟩
    · exact ih ht

variable {toks : List Token} {t : Token}

theorem slice (h : Relocates chunk chunk' offset offset' place g)
    (htoks : Tokens chunk i toks stop) (ht : t ∈ toks)
    (hplain : t.terminal ≠ .text ∧ t.terminal ≠ .bytes) :
    (⟨place t.start, place t.stop⟩ : Span).slice chunk' =
      (⟨t.start, t.stop⟩ : Span).slice chunk := by
  obtain ⟨n, hstop, hm, -⟩ := exists_match htoks ht
  simp only [Span.slice, Int.toNat_natCast, hstop]
  exact h.spelled hplain hm

theorem nameOf (h : Relocates chunk chunk' offset offset' place g)
    (htoks : Tokens chunk i toks stop) (ht : t ∈ toks) (hname : t.terminal = .name) :
    Definition.nameOf chunk' offset' (t.relabel place) =
      (Definition.nameOf chunk offset t).map g := by
  have hslice := h.slice htoks ht (by rw [hname]; decide)
  obtain ⟨n, hstop, -, hle⟩ := exists_match htoks ht
  simp only [Definition.nameOf, Name.map, Token.relabel, hslice, Name.mk.injEq, true_and]
  exact h.span (by omega) hle

theorem map_nameOf (h : Relocates chunk chunk' offset offset' place g)
    (htoks : Tokens chunk i toks stop) {l : List Token} (hl : ∀ t ∈ l, t ∈ toks ∧ t.terminal = .name) :
    (l.map (·.relabel place)).map (Definition.nameOf chunk' offset') =
      (l.map (Definition.nameOf chunk offset)).map (·.map g) := by
  rw [List.map_map, List.map_map]
  apply List.map_congr_left
  intro t ht
  exact h.nameOf htoks (hl t ht).1 (hl t ht).2

section

variable {name assign : Token} {params : Option Tree} {content : Tree}

theorem map_params (h : Relocates chunk chunk' offset offset' place g)
    (htoks : Tokens chunk i (name :: (Tree.paramTokens params ++ assign :: content.tokens)) stop) :
    (params.map (·.relabel place)).map (fun t =>
        (t.tokens.filter (·.terminal = .name)).map (Definition.nameOf chunk' offset')) =
      (params.map fun t => (t.tokens.filter (·.terminal = .name)).map
        (Definition.nameOf chunk offset)).map fun l => l.map (·.map g) := by
  cases params with
  | none => rfl
  | some t =>
    simp only [Option.map_some, Option.some.injEq]
    rw [← h.map_nameOf htoks, Tree.tokens_relabel, List.filter_map]
    · rfl
    · intro u hu
      obtain ⟨hu, hterminal⟩ := List.mem_filter.mp hu
      exact ⟨by simp [Tree.paramTokens, hu], of_decide_eq_true hterminal⟩

theorem map_references (h : Relocates chunk chunk' offset offset' place g)
    (htoks : Tokens chunk i (name :: (Tree.paramTokens params ++ assign :: content.tokens)) stop)
    (hcontent : ∀ t ∈ content.references, t ∈ content.tokens ∧ t.terminal = .name) :
    (content.relabel place).references.map (Definition.nameOf chunk' offset') =
      (content.references.map (Definition.nameOf chunk offset)).map (·.map g) := by
  rw [Tree.references_relabel, h.map_nameOf htoks]
  intro t ht
  obtain ⟨htok, hterminal⟩ := hcontent t ht
  exact ⟨by simp [htok], hterminal⟩

/-- A rule reaches from its name to its last token. -/
theorem span_rule (h : Relocates chunk chunk' offset offset' place g)
    (htoks : Tokens chunk i (name :: (Tree.paramTokens params ++ assign :: content.tokens)) stop) :
    (⟨(name.relabel place).start,
      ((content.relabel place).tokens.getLast?.getD (assign.relabel place)).stop⟩ : Span).shift
        offset' =
      ((⟨name.start, (content.tokens.getLast?.getD assign).stop⟩ : Span).shift offset).map g := by
  have hlast : ((content.relabel place).tokens.getLast?.getD (assign.relabel place)).stop =
      place (content.tokens.getLast?.getD assign).stop := by
    rw [Tree.tokens_relabel, List.getLast?_map]
    cases content.tokens.getLast? with
    | none => rfl
    | some t => rfl
  obtain ⟨n, hstop, -, hle⟩ := exists_match htoks (t := name) List.mem_cons_self
  have hmem : (name :: (Tree.paramTokens params ++ assign :: content.tokens)).getLast? =
      some (Definition.lastToken assign content) :=
    Definition.getLast?_tokens (Tree.paramTokens params)
  obtain ⟨-, -, -, hle'⟩ := exists_match htoks (List.mem_of_getLast? hmem)
  rw [hlast]
  exact h.span (by omega) hle'

theorem isGroup_relabel (a : Assignment) :
    Definition.isGroup a (content.relabel place) = Definition.isGroup a content := by
  cases a with
  | define => rw [Definition.isGroup, Tree.isPlainType_relabel, Definition.isGroup]
  | addType => rfl
  | addGroup => rfl

/-- The parts of a rule make the same definition at their new places. -/
theorem build (h : Relocates chunk chunk' offset offset' place g)
    (htoks : Tokens chunk i (name :: (Tree.paramTokens params ++ assign :: content.tokens)) stop)
    (hname : name.terminal = .name) (hassign : assign.terminal = .assign)
    (hcontent : ∀ t ∈ content.references, t ∈ content.tokens ∧ t.terminal = .name) :
    Definition.build chunk' offset' (name.relabel place) (assign.relabel place)
        (params.map (·.relabel place)) (content.relabel place) =
      (Definition.build chunk offset name assign params content).map g := by
  have hplace := h.nameOf htoks List.mem_cons_self hname
  have hsign :
      (⟨(assign.relabel place).start, (assign.relabel place).stop⟩ : Span).slice chunk' =
        (⟨assign.start, assign.stop⟩ : Span).slice chunk :=
    h.slice htoks (by simp) (by rw [hassign]; decide)
  simp only [Definition.build, Definition.map, h.map_params htoks, h.map_references htoks hcontent,
    h.span_rule htoks, hplace, isGroup_relabel, hsign, Definition.mk.injEq, and_true]
  constructor
  · split
    · rfl
    · rfl
  · cases params with
    | none => rfl
    | some t => rfl

end

/-- The definition that the renamed tree stands for is the definition with other spans. -/
theorem ofTree? (h : Relocates chunk chunk' offset offset' place g) {tree : Tree}
    (hreads : tree.Reads chunk stop) {d : Definition}
    (hd : Definition.ofTree? chunk offset tree = some d) :
    Definition.ofTree? chunk' offset' (tree.relabel place) = some (d.map g) := by
  obtain ⟨name, params, assign, content, hparts, rfl⟩ := Definition.exists_parts hd
  have htoks := hreads.forest.tokens
  simp only [Tree.tokensOfList, List.append_nil, hparts.tokens_eq] at htoks
  obtain ⟨hentry, k, l, hcontent⟩ := hparts.content_forest hreads
  have hbuild := h.build htoks (hparts.terminals hreads).1 (hparts.terminals hreads).2 fun t ht => by
    obtain ⟨htok, hterminal, -⟩ := (hcontent.mem_references_iff hentry).mp ht
    exact ⟨htok, hterminal⟩
  rw [← hbuild]
  cases hparts with
  | generic => rfl
  | plain => rfl

end Relocates

namespace Document

/-- Names that nothing defines stay so at other places. -/
theorem unresolved_map (g : Int → Int) (ds : List Definition) :
    unresolved (ds.map (·.map g)) = (unresolved ds).map (·.map g) := by
  have hnames : (ds.map (·.map g)).map (·.rule.name.ident) = ds.map (·.rule.name.ident) := by
    rw [List.map_map]
    apply List.map_congr_left
    intro d _
    show (d.rule.map g).name.ident = d.rule.name.ident
    rw [Rule.name_map]
    rfl
  rw [unresolved_eq, unresolved_eq, hnames, List.flatMap_map, List.map_flatMap]
  apply List.flatMap_congr
  intro d _
  rw [openNames, openNames, Definition.map, List.filter_map]
  congr 2
  funext r
  simp only [Function.comp_apply, Name.map, List.any_map]
  rfl

end Document

end Cddl

import Cddl.Proofs.Composition
import Cddl.Proofs.Layout

/-!
Which names a text uses and which of them are reported as undefined. In the content of a rule every
name is used as a type, but for the keys that stand before a colon; the uses are found in the order
of the text, each one once, wherever in the content they stand.
-/
namespace Cddl

namespace Tree

mutual

/-- The names that are keys and no types, from left to right; a colon stands behind each. -/
def barewords : Tree → List Token
  | leaf _ => []
  | node p children =>
    (if p.lhs = .bareword then firstLeaf children else []) ++ barewordsOfList children

def barewordsOfList : List Tree → List Token
  | [] => []
  | t :: ts => barewords t ++ barewordsOfList ts

end

/-- The names among the leaves that are not inside a node. -/
def topNames : List Tree → List Token
  | [] => []
  | leaf t :: rest => if t.terminal = .name then t :: topNames rest else topNames rest
  | node _ _ :: rest => topNames rest

theorem topNames_eq_nil {trees : List Tree} (h : .terminal .name ∉ trees.map symbol) :
    topNames trees = [] := by
  induction trees with
  | nil => rfl
  | cons t trees ih =>
    obtain ⟨hne, hrest⟩ := not_or.mp (fun hor => h (List.mem_cons.mpr hor))
    cases t with
    | leaf u =>
      have hu : u.terminal ≠ .name := fun heq => hne (by rw [symbol, heq])
      rw [topNames, if_neg hu]
      exact ih hrest
    | node => exact ih hrest

mutual

theorem references_sublist (t : Tree) : t.references.Sublist t.tokens := by
  match t with
  | leaf _ => exact List.nil_sublist _
  | node p [] => simp [references, referencesOfList, firstLeaf]
  | node p (node q below :: rest) =>
    have hrec := referencesOfList_sublist (node q below :: rest)
    simpa [references, firstLeaf, tokens] using hrec
  | node p (leaf t :: rest) =>
    have hrest := referencesOfList_sublist rest
    have hfirst : (if p.lhs = .typeName then [t] else []).Sublist [t] := by
      split
      · exact List.Sublist.refl _
      · exact List.nil_sublist _
    exact hfirst.append hrest

theorem referencesOfList_sublist (trees : List Tree) :
    (referencesOfList trees).Sublist (tokensOfList trees) := by
  cases trees with
  | nil => exact List.nil_sublist _
  | cons t trees => exact (references_sublist t).append (referencesOfList_sublist trees)

end

/-- A tree has its parts in one way. -/
theorem HasParts.unique {tree content content' : Tree} {name name' assign assign' : Token}
    {params params' : Option Tree} (h : tree.HasParts name params assign content)
    (h' : tree.HasParts name' params' assign' content') :
    name = name' ∧ params = params' ∧ assign = assign' ∧ content = content' := by
  cases h <;> cases h' <;> exact ⟨rfl, rfl, rfl, rfl⟩

end Tree

namespace Symbol

/-- The symbol may stand inside the content of a rule. -/
def isInner (s : Symbol) : Bool :=
  !([Symbol.nonterminal .rule, .nonterminal .params, .nonterminal .moreParams].contains s)

end Symbol

namespace Production

theorem isInner_of_mem (p : Production) (hp : (Symbol.nonterminal p.lhs).isInner = true) :
    ∀ s ∈ p.rhs, s.isInner = true := by
  revert hp
  cases p <;> decide

/-- Inside the content of a rule a name begins a type name or is a bareword. -/
theorem name_cases (p : Production) (hp : (Symbol.nonterminal p.lhs).isInner = true) :
    (p.lhs ≠ .typeName ∧ p.lhs ≠ .bareword ∧ .terminal .name ∉ p.rhs) ∨
      (p.lhs = .typeName ∨ p.lhs = .bareword) ∧
        p.rhs.head? = some (.terminal .name) ∧ .terminal .name ∉ p.rhs.tail := by
  revert hp
  cases p <;> decide

end Production

/-! ### The names in the content of a rule -/

namespace Forest

variable {text : List Char} {i j : Nat} {trees : List Tree}

/-- A name right below a node begins a type name or is a key. -/
theorem topNames_eq {p : Production} {children : List Tree}
    (hp : (Symbol.nonterminal p.lhs).isInner = true) (hc : children.map Tree.symbol = p.rhs) :
    Tree.topNames children =
      (if p.lhs = .typeName then Tree.firstLeaf children else []) ++
        if p.lhs = .bareword then Tree.firstLeaf children else [] := by
  rcases p.name_cases hp with ⟨htype, hkey, hnone⟩ | ⟨hor, hhead, htail⟩
  · rw [if_neg htype, if_neg hkey]
    exact Tree.topNames_eq_nil (hc ▸ hnone)
  · have hfirst : Tree.topNames children = Tree.firstLeaf children := by
      rw [← hc] at hhead htail
      cases children with
      | nil => contradiction
      | cons t rest =>
        obtain ⟨u, rfl⟩ := Tree.exists_leaf (Option.some.inj hhead)
        have hu : u.terminal = .name := by simpa [Tree.symbol] using hhead
        rw [Tree.topNames, if_pos hu, Tree.topNames_eq_nil (by simpa using htail), Tree.firstLeaf]
    rcases hor with heq | heq <;> simp [heq, hfirst]

/-- Inside the content of a rule every name stands outside the nodes, or is used as a type, or is a
key. -/
theorem names_perm (h : Forest text i trees j) (hin : ∀ t ∈ trees, t.symbol.isInner = true) :
    ((Tree.tokensOfList trees).filter (·.terminal = .name)).Perm
      (Tree.topNames trees ++ (Tree.referencesOfList trees ++ Tree.barewordsOfList trees)) := by
  induction h with
  | done => exact .nil
  | @leaf i k n j t rest _ _ _ ih =>
    have hrec := ih fun u hu => hin u (List.mem_cons_of_mem _ hu)
    by_cases ht : t = .name
    · subst ht
      simpa [Tree.tokensOfList, Tree.tokens, Tree.topNames, Tree.referencesOfList,
        Tree.references, Tree.barewordsOfList, Tree.barewords] using hrec
    · simpa [Tree.tokensOfList, Tree.tokens, Tree.topNames, Tree.referencesOfList,
        Tree.references, Tree.barewordsOfList, Tree.barewords, ht] using hrec
  | @node i k j p children rest hsyms hchildren _ ih ih' =>
    have hp : (Symbol.nonterminal p.lhs).isInner = true := hin _ List.mem_cons_self
    have hrest := ih' fun u hu => hin u (List.mem_cons_of_mem _ hu)
    have hbelow := ih fun u hu =>
      p.isInner_of_mem hp _ (hsyms ▸ List.mem_map_of_mem hu)
    rw [topNames_eq hp hsyms, List.perm_iff_count] at hbelow
    rw [List.perm_iff_count] at hrest ⊢
    intro u
    have hu := hbelow u
    have hu' := hrest u
    simp only [List.count_append] at hu hu'
    simp only [Tree.tokensOfList, Tree.tokens, Tree.topNames, Tree.referencesOfList,
      Tree.references, Tree.barewordsOfList, Tree.barewords, List.filter_append, List.count_append]
    omega

/-- The names used as types are the names of the content but for the keys. -/
theorem mem_references_iff {content : Tree} (h : Forest text i [content] j)
    (hc : content.symbol = .nonterminal .entry) {u : Token} :
    u ∈ content.references ↔
      u ∈ content.tokens ∧ u.terminal = .name ∧ u ∉ content.barewords := by
  have htop : Tree.topNames [content] = [] := Tree.topNames_eq_nil (by simp [hc])
  have hin : ∀ t ∈ [content], t.symbol.isInner = true := by
    intro t ht
    rw [List.mem_singleton.mp ht, hc]
    decide
  have hperm := h.names_perm hin
  have hpairs := h.tokens.pairwise
  have hbounds := h.tokens.bounds
  simp only [htop, Tree.tokensOfList, Tree.referencesOfList, Tree.barewordsOfList,
    List.append_nil, List.nil_append] at hperm hpairs hbounds
  -- every token takes up room, so that none is read twice
  have hnodup : content.tokens.Nodup := by
    refine hpairs.imp_of_mem fun {t u} ht _ hle => ?_
    rintro rfl
    have hlt := (hbounds t ht).2.1
    omega
  have hdisjoint := (List.nodup_append.mp (hperm.nodup_iff.mp (hnodup.filter _))).2.2
  have hmem := hperm.mem_iff (a := u)
  simp only [List.mem_filter, decide_eq_true_eq, List.mem_append] at hmem
  constructor
  · intro hu
    obtain ⟨htok, hname⟩ := hmem.mpr (.inl hu)
    exact ⟨htok, hname, fun hkey => hdisjoint u hu u hkey rfl⟩
  · rintro ⟨htok, hname, hkey⟩
    exact (hmem.mp ⟨htok, hname⟩).resolve_right hkey

end Forest

namespace Document

variable {text : List Char} {c : Chunk} {d : Definition}

/-- The chunk is read as a rule with these parameters and this content. -/
def Holds (text : List Char) (c : Chunk) (params : Option Tree) (content : Tree) : Prop :=
  ∃ tree name assign, Tree.ofText (c.slice text) = .ok tree ∧
    tree.HasParts name params assign content

/-- A name stands in the content of the rule that the chunk holds, and is no key before a colon. -/
def Uses (text : List Char) (c : Chunk) (n : Name) : Prop :=
  ∃ params content, Holds text c params content ∧
    ∃ t ∈ content.tokens, t.terminal = .name ∧ t ∉ content.barewords ∧
      Definition.nameOf (c.slice text) c.start t = n

/-- A name is a parameter of the rule that the chunk holds. -/
def Binds (text : List Char) (c : Chunk) (n : Name) : Prop :=
  ∃ params content, Holds text c params content ∧
    ∃ t ∈ Tree.paramTokens params, t.terminal = .name ∧
      Definition.nameOf (c.slice text) c.start t = n

/-- What gives a name of a chunk a meaning: a rule anywhere in the document, a parameter of its own
rule, or the prelude; a socket needs none. -/
inductive Known (text : List Char) (c : Chunk) (ident : String) : Prop where
  | rule : ident ∈ defined text → Known text c ident
  | param {n} : Binds text c n → n.ident = ident → Known text c ident
  | prelude : Reference.isPreludeName ident = true → Known text c ident
  | socket : ident.toList.head? = some '$' → Known text c ident

/-- A name that its chunk uses and that nothing gives a meaning. -/
structure Missing (text : List Char) (c : Chunk) (n : Name) : Prop where
  uses : Uses text c n
  unknown : ¬ Known text c n.ident

/-- The problem that reports a name as undefined. -/
def undefined (n : Name) : Problem := ⟨.undefinedName n.ident, n.span⟩

theorem message_undefined {n : Name} (h : n.StandsIn text) :
    (undefined n).message =
      "definição ausente para a regra '" ++ String.ofList (n.span.slice text) ++ "'" := by
  rw [h, String.ofList_toList]
  rfl

theorem Holds.unique {params params' : Option Tree} {content content' : Tree}
    (h : Holds text c params content) (h' : Holds text c params' content') :
    params = params' ∧ content = content' := by
  obtain ⟨tree, _, _, htree, hparts⟩ := h
  obtain ⟨tree', _, _, htree', hparts'⟩ := h'
  obtain rfl : tree = tree' := Except.ok.inj (htree.symm.trans htree')
  obtain ⟨-, hparams, -, hcontent⟩ := hparts.unique hparts'
  exact ⟨hparams, hcontent⟩

theorem uses_iff (h : readChunk text c = .ok d) {n : Name} : Uses text c n ↔ n ∈ d.references := by
  obtain ⟨tree, _, name, params, assign, content, htree, hreads, hparts, rfl⟩ := exists_parts h
  obtain ⟨hc, i, j, hforest⟩ := hparts.content_forest hreads
  have hholds : Holds text c params content := ⟨tree, name, assign, htree, hparts⟩
  rw [Definition.build_references, List.mem_map]
  constructor
  · rintro ⟨_, _, hholds', t, ht, hname, hkey, rfl⟩
    obtain ⟨-, rfl⟩ := hholds.unique hholds'
    exact ⟨t, (hforest.mem_references_iff hc).mpr ⟨ht, hname, hkey⟩, rfl⟩
  · rintro ⟨t, ht, rfl⟩
    obtain ⟨ht, hname, hkey⟩ := (hforest.mem_references_iff hc).mp ht
    exact ⟨params, content, hholds, t, ht, hname, hkey, rfl⟩

theorem binds_iff (h : readChunk text c = .ok d) {n : Name} : Binds text c n ↔ n ∈ d.params := by
  obtain ⟨tree, _, name, params, assign, content, htree, -, hparts, rfl⟩ := exists_parts h
  have hholds : Holds text c params content := ⟨tree, name, assign, htree, hparts⟩
  rw [Definition.build_params, List.mem_map]
  constructor
  · rintro ⟨_, _, hholds', t, ht, hname, rfl⟩
    obtain ⟨rfl, -⟩ := hholds.unique hholds'
    exact ⟨t, List.mem_filter.mpr ⟨ht, decide_eq_true hname⟩, rfl⟩
  · rintro ⟨t, ht, rfl⟩
    obtain ⟨ht, hname⟩ := List.mem_filter.mp ht
    exact ⟨params, content, hholds, t, ht, of_decide_eq_true hname, rfl⟩

theorem known_iff (h : readChunk text c = .ok d) {ident : String} :
    Known text c ident ↔
      ((defined text).contains ident || d.params.any (·.ident == ident) ||
        Reference.isPreludeName ident || isSocket ident) = true := by
  simp only [Bool.or_eq_true, List.contains_iff_mem, List.any_eq_true, beq_iff_eq, isSocket]
  constructor
  · intro hk
    cases hk with
    | rule hr => exact .inl (.inl (.inl hr))
    | param hp heq => exact .inl (.inl (.inr ⟨_, (binds_iff h).mp hp, heq⟩))
    | prelude hp => exact .inl (.inr hp)
    | socket hs => exact .inr hs
  · rintro (((hr | ⟨n, hn, heq⟩) | hp) | hs)
    · exact .rule hr
    · exact .param ((binds_iff h).mpr hn) heq
    · exact .prelude hp
    · exact .socket hs

theorem mem_openNames_iff (h : readChunk text c = .ok d) {n : Name} :
    n ∈ openNames (defined text) d ↔ Missing text c n := by
  rw [openNames, List.mem_filter, ← uses_iff h, Bool.not_eq_true', ← Bool.not_eq_true, ← known_iff h]
  exact ⟨fun hn => ⟨hn.1, hn.2⟩, fun hn => ⟨hn.uses, hn.unknown⟩⟩

/-- The names that a definition uses stand in its chunk, from left to right. -/
theorem references_placed (hc : c ∈ Chunk.split text) (h : readChunk text c = .ok d) :
    (∀ n ∈ d.references, n.StandsIn text ∧ (c.start : Int) ≤ n.span.start ∧
      n.span.start < n.span.stop ∧ n.span.stop ≤ c.stop) ∧
    d.references.Pairwise fun m n => m.span.start < n.span.start := by
  obtain ⟨hlt, hle⟩ := Chunk.bounds_of_mem_split hc
  have hlen := Chunk.length_slice hle
  obtain ⟨tree, stop, name, params, assign, content, -, hreads, hparts, rfl⟩ := exists_parts h
  have htoks := hreads.forest.tokens
  simp only [Tree.tokensOfList, List.append_nil] at htoks
  have hsub : content.references.Sublist tree.tokens := by
    rw [hparts.tokens_eq]
    refine (Tree.references_sublist content).trans ?_
    exact ((List.sublist_cons_self assign _).trans (List.sublist_append_right _ _)).cons name
  have hstop := hreads.behind.le
  rw [Definition.build_references]
  constructor
  · intro n hn
    obtain ⟨t, ht, rfl⟩ := List.mem_map.mp hn
    obtain ⟨-, hlt', hle'⟩ := htoks.bounds t (hsub.mem ht)
    refine ⟨Definition.standsIn_nameOf (by omega), ?_, ?_, ?_⟩ <;>
      simp only [Definition.nameOf, Span.shift] <;> omega
  · rw [List.pairwise_map]
    refine (List.Pairwise.and_mem.mp htoks.pairwise).sublist hsub |>.imp ?_
    rintro t u ⟨ht, -, htu⟩
    have hlt' := (htoks.bounds t ht).2.1
    simp only [Definition.nameOf, Span.shift]
    omega

/-- The names that are reported for a text without syntax errors are those that are missing, in the
order of the text. -/
theorem unresolved_placed (h : syntaxErrors text = []) :
    (∀ n, n ∈ unresolved (definitions (readings text)) ↔
      ∃ c ∈ Chunk.split text, Missing text c n) ∧
    (unresolved (definitions (readings text))).Pairwise
      fun m n => m.span.start < n.span.start := by
  have hforall := forall₂_of_syntaxErrors h
  have hnames : (definitions (readings text)).map (·.rule.name.ident) = defined text := by
    rw [defined, rules, List.map_map]
    rfl
  rw [unresolved_eq, hnames]
  constructor
  · intro n
    rw [List.mem_flatMap]
    constructor
    · rintro ⟨d, hd, hn⟩
      obtain ⟨c, hc, hread⟩ := exists_of_forall₂ hforall hd
      exact ⟨c, hc, (mem_openNames_iff hread).mp hn⟩
    · rintro ⟨c, hc, hn⟩
      obtain ⟨d, hd, hread⟩ := exists_of_forall₂ hforall.flip hc
      exact ⟨d, hd, (mem_openNames_iff hread).mpr hn⟩
  · rw [List.pairwise_flatMap]
    constructor
    · intro d hd
      obtain ⟨c, hc, hread⟩ := exists_of_forall₂ hforall hd
      exact (references_placed hc hread).2.filter _
    · have hchunks := List.Pairwise.and_mem.mp (Chunk.pairwise_split text)
      refine pairwise_of_forall₂ hforall hchunks ?_
      rintro c d c' d' hd hd' ⟨hc, hc', hle⟩ m hm n hn
      have hm := (references_placed hc hd).1 m (List.mem_of_mem_filter hm)
      have hn := (references_placed hc' hd').1 n (List.mem_of_mem_filter hn)
      omega

/-- What is reported where every chunk is a rule. The text is accepted if and only if every name that
is used as a type in a rule is the name of a rule, a parameter of its own rule, in the prelude or a
socket. Otherwise each use of a name that is none of these is reported once, where it stands, in
the order of the text. -/
theorem parse_names (h : ∀ c ∈ Chunk.split text, IsRule (c.slice text)) :
    ((∃ rules, parse text = .ok rules) ↔
      ∀ c ∈ Chunk.split text, ∀ n, Uses text c n → Known text c n.ident) ∧
    ∀ problems, parse text = .error problems →
      ∃ missing : List Name, problems = missing.map undefined ∧
        (∀ n, n ∈ missing ↔ ∃ c ∈ Chunk.split text, Missing text c n) ∧
        missing.Pairwise (fun m n => m.span.start < n.span.start) ∧
        ∀ n ∈ missing, n.StandsIn text ∧ (undefined n).message =
          "definição ausente para a regra '" ++ String.ofList (n.span.slice text) ++ "'" := by
  have hsyn := syntaxErrors_eq_nil_iff.mpr h
  have hparse := parse_of_syntaxErrors hsyn
  obtain ⟨hmem, hpairs⟩ := unresolved_placed hsyn
  generalize unresolved (definitions (readings text)) = missing at hparse hmem hpairs
  have hstands : ∀ n ∈ missing, n.StandsIn text := by
    intro n hn
    obtain ⟨c, hc, hmissing⟩ := (hmem n).mp hn
    obtain ⟨d, hd⟩ := readChunk_of_isRule (h c hc)
    exact ((references_placed hc hd).1 n ((uses_iff hd).mp hmissing.uses)).1
  constructor
  · constructor
    · rintro ⟨rules, hrules⟩ c hc n huses
      by_contra hunknown
      have hn : n ∈ missing := (hmem n).mpr ⟨c, hc, huses, hunknown⟩
      cases missing with
      | nil => contradiction
      | cons m rest => simp [hrules] at hparse
    · intro hknown
      cases missing with
      | nil => exact ⟨_, hparse⟩
      | cons m rest =>
        obtain ⟨c, hc, huses, hunknown⟩ := (hmem m).mp List.mem_cons_self
        exact absurd (hknown c hc m huses) hunknown
  · intro problems hproblems
    rw [hproblems] at hparse
    refine ⟨missing, ?_, hmem, hpairs, fun n hn => ⟨hstands n hn, message_undefined (hstands n hn)⟩⟩
    cases missing with
    | nil => contradiction
    | cons m rest => exact Except.error.inj hparse

/-- A rule whose parameter is a key and a type, with a rule used before it is defined, and a rule
that uses the first one; a name in each of them is not defined. -/
def namesText : List Char :=
  ['m', '<', 't', '>', '=', '\x7b', 't', ':', 't', ',', 'b', '=', '>', 'x', '\x7d', '\n',
    'b', '=', 'm', '<', 'y', '>']

theorem parse_names_forward :
    (∀ c ∈ Chunk.split namesText, IsRule (c.slice namesText)) ∧
    parse namesText = .error [undefined ⟨"x", ⟨13, 14⟩⟩, undefined ⟨"y", ⟨20, 21⟩⟩] ∧
    (¬ ∀ c ∈ Chunk.split namesText, ∀ n, Uses namesText c n → Known namesText c n.ident) ∧
    ∀ n, n ∈ [⟨"x", ⟨13, 14⟩⟩, ⟨"y", ⟨20, 21⟩⟩] ↔
      ∃ c ∈ Chunk.split namesText, Missing namesText c n := by
  have hparse : parse namesText =
      .error ([⟨"x", ⟨13, 14⟩⟩, ⟨"y", ⟨20, 21⟩⟩].map undefined) := by decide +kernel
  have hrules : ∀ c ∈ Chunk.split namesText, IsRule (c.slice namesText) := by
    rw [← syntaxErrors_eq_nil_iff, syntaxErrors, hparse]
    rfl
  obtain ⟨hiff, herror⟩ := parse_names hrules
  obtain ⟨missing, hmissing, hmem, -⟩ := herror _ hparse
  have hinj : Function.Injective undefined := by
    rintro ⟨ident, span⟩ ⟨ident', span'⟩ heq
    simpa [undefined] using heq
  obtain rfl := List.map_injective_iff.mpr hinj hmissing
  refine ⟨hrules, hparse, ?_, hmem⟩
  rw [← hiff, hparse]
  rintro ⟨rules, haccepted⟩
  cases haccepted

end Document

end Cddl

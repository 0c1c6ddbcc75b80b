import Cddl.Proofs.Placement
import Cddl.Proofs.Usage
import Cddl.Service.Declaration

/-!
Declarations in a text that is accepted. A rule declares its name, and a type rule its parameters
as well. The search for a declaration finds one for every name that a rule uses and that the
document has to declare, but for the parameters of group rules, which are shown to nobody.
-/
namespace Cddl

/-- The rule is one for a group, and so shows no parameters. -/
def Rule.IsGroup (r : Rule) : Prop := ∃ name span, r = .group name span

theorem Rule.params_of_isGroup {r : Rule} (h : r.IsGroup) : r.params = [] := by
  obtain ⟨name, span, rfl⟩ := h
  rfl

/-- A type rule shows all parameters that its content may use. -/
theorem Definition.isGroup_or_params (chunk : List Char) (offset : Nat) (name assign : Token)
    (params : Option Tree) (content : Tree) :
    (build chunk offset name assign params content).rule.IsGroup ∨
      (build chunk offset name assign params content).rule.params =
        (build chunk offset name assign params content).params := by
  simp only [build]
  split
  · exact .inl ⟨_, _, rfl⟩
  · exact .inr rfl

namespace Declaration

variable {rules : List Rule} {r : Rule} {ident : String} {s : Span}

/-- A rule is called so, and there its name stands. -/
def NamesRule (rules : List Rule) (ident : String) (s : Span) : Prop :=
  ∃ r ∈ rules, r.name.ident = ident ∧ r.name.span = s

/-- The rule lists a parameter that is called so and stands there. -/
def ListsParam (r : Rule) (ident : String) (s : Span) : Prop :=
  ∃ p ∈ r.params, p.ident = ident ∧ p.span = s

/-- The name is declared there. -/
def Declared (rules : List Rule) (ident : String) (s : Span) : Prop :=
  NamesRule rules ident s ∨ ∃ r ∈ rules, ListsParam r ident s

theorem declared_iff :
    Declared rules ident s ↔ ∃ m ∈ rules.flatMap names, m.ident = ident ∧ m.span = s := by
  simp only [Declared, NamesRule, ListsParam, List.mem_flatMap, names, List.mem_cons]
  constructor
  · rintro (⟨r, hr, hm⟩ | ⟨r, hr, p, hp, hm⟩)
    · exact ⟨r.name, ⟨r, hr, .inl rfl⟩, hm⟩
    · exact ⟨p, ⟨r, hr, .inr hp⟩, hm⟩
  · rintro ⟨m, ⟨r, hr, rfl | hp⟩, hm⟩
    · exact .inl ⟨r, hr, hm⟩
    · exact .inr ⟨r, hr, m, hp, hm⟩

/-- The search fails on names that are not declared, and on no others. -/
theorem find?_eq_none_iff : find? rules ident = none ↔ ∀ s, ¬ Declared rules ident s := by
  simp only [find?, Option.map_eq_none_iff, List.find?_eq_none, beq_iff_eq, declared_iff]
  constructor
  · rintro h s ⟨m, hm, hident, -⟩
    exact h m hm hident
  · intro h m hm hident
    exact h m.span ⟨m, hm, hident, rfl⟩

end Declaration

namespace Document

open Declaration

variable {text : List Char} {rules : List Rule} {c : Chunk} {r : Rule} {n : Name} {d : Definition}

/-- In a text that is accepted every name that a rule uses is known. -/
theorem known_of_uses (h : parse text = .ok rules) (hc : c ∈ Chunk.split text)
    (hn : Uses text c n) : Known text c n.ident := by
  obtain ⟨hsyn, -⟩ := rules_of_parse h
  have hparse := parse_of_syntaxErrors hsyn
  -- a name that is not known would have been reported, and the text rejected
  by_contra hunknown
  have hmem : n ∈ unresolved (definitions (readings text)) :=
    ((unresolved_placed hsyn).1 n).mpr ⟨c, hc, hn, hunknown⟩
  rw [h] at hparse
  split at hparse
  next hnil => simp [hnil] at hmem
  next => contradiction

/-- The rules of a text that is accepted are those that its chunks are read as. -/
theorem forall₂_rules (h : parse text = .ok rules) :
    List.Forall₂ (fun c r => ∃ d, readChunk text c = .ok d ∧ d.rule = r) (Chunk.split text)
      rules := by
  obtain ⟨hsyn, rfl⟩ := rules_of_parse h
  rw [Document.rules, List.forall₂_map_right_iff]
  exact (forall₂_of_syntaxErrors hsyn).imp fun c d hd => ⟨d, hd, rfl⟩

theorem exists_definition (h : parse text = .ok rules) (hr : (c, r) ∈ (Chunk.split text).zip rules) :
    ∃ d, readChunk text c = .ok d ∧ d.rule = r :=
  (List.forall₂_iff_zip.mp (forall₂_rules h)).2 hr

theorem isGroup_or_params (h : readChunk text c = .ok d) :
    d.rule.IsGroup ∨ d.rule.params = d.params := by
  obtain ⟨_, _, name, params, assign, content, -, -, -, rfl⟩ := exists_parts h
  exact Definition.isGroup_or_params ..

/-- What makes a name known is a rule that is called so, a parameter of its own rule, the prelude or
its first character. -/
theorem known_cases (h : parse text = .ok rules) (hr : (c, r) ∈ (Chunk.split text).zip rules)
    {ident : String} (hk : Known text c ident) :
    (∃ s, NamesRule rules ident s) ∨ (r.IsGroup ∧ ∃ p, Binds text c p ∧ p.ident = ident) ∨
      (∃ s, ListsParam r ident s) ∨ Reference.isPreludeName ident = true ∨
      ident.toList.head? = some '$' := by
  obtain ⟨d, hd, rfl⟩ := exists_definition h hr
  cases hk with
  | rule hident =>
    rw [defined, ← (rules_of_parse h).2] at hident
    obtain ⟨q, hq, rfl⟩ := List.mem_map.mp hident
    exact .inl ⟨q.name.span, q, hq, rfl, rfl⟩
  | @param p hp heq =>
    rcases isGroup_or_params hd with hgroup | hparams
    · exact .inr (.inl ⟨hgroup, p, hp, heq⟩)
    · exact .inr (.inr (.inl ⟨p.span, p, hparams ▸ (binds_iff hd).mp hp, heq, rfl⟩))
  | prelude hprelude => exact .inr (.inr (.inr (.inl hprelude)))
  | socket hsocket => exact .inr (.inr (.inr (.inr hsocket)))

/-- Whatever is accepted can be found, but for one thing: of the names that a rule uses and that are
neither in the prelude nor sockets, the search misses exactly the parameters of a group rule for
which there is no rule and no parameter of a type rule that is called the same. -/
theorem find?_eq_none_iff_hidden (h : parse text = .ok rules)
    (hr : (c, r) ∈ (Chunk.split text).zip rules) (hn : Uses text c n)
    (hprelude : Reference.isPreludeName n.ident = false)
    (hsocket : n.ident.toList.head? ≠ some '$') :
    find? rules n.ident = none ↔
      r.IsGroup ∧ (∃ p, Binds text c p ∧ p.ident = n.ident) ∧
        (∀ q ∈ rules, q.name.ident ≠ n.ident) ∧
        ∀ q ∈ rules, ¬ q.IsGroup → ∀ p ∈ q.params, p.ident ≠ n.ident := by
  have hmem := List.of_mem_zip hr
  rw [Declaration.find?_eq_none_iff]
  constructor
  · intro hnone
    have hnames : ∀ q ∈ rules, q.name.ident ≠ n.ident := fun q hq heq =>
      hnone q.name.span (.inl ⟨q, hq, heq, rfl⟩)
    have hparams : ∀ q ∈ rules, ∀ p ∈ q.params, p.ident ≠ n.ident := fun q hq p hp heq =>
      hnone p.span (.inr ⟨q, hq, p, hp, heq, rfl⟩)
    rcases known_cases h hr (known_of_uses h hmem.1 hn) with
      ⟨s, hs⟩ | ⟨hgroup, hbinds⟩ | ⟨s, hs⟩ | hp | hs
    · exact absurd (.inl hs) (hnone s)
    · exact ⟨hgroup, hbinds, hnames, fun q hq _ => hparams q hq⟩
    · exact absurd (.inr ⟨r, hmem.2, hs⟩) (hnone s)
    · simp [hprelude] at hp
    · exact absurd hs hsocket
  · rintro ⟨-, -, hnames, hparams⟩ s (⟨q, hq, heq, -⟩ | ⟨q, hq, p, hp, heq, -⟩)
    · exact hnames q hq heq
    · by_cases hgroup : q.IsGroup
      · rw [Rule.params_of_isGroup hgroup] at hp
        contradiction
      · exact hparams q hq hgroup p hp heq

/-- A group rule with a parameter, and a type rule with another one. -/
def shownText : List Char :=
  ['g', '<', 't', '>', '=', '(', 't', ',', '1', ')', '\n', 'm', '<', 'u', '>', '=', 'u']

def shownRules : List Rule :=
  [.group ⟨"g", ⟨0, 1⟩⟩ ⟨0, 10⟩, .type ⟨"m", ⟨11, 12⟩⟩ ⟨11, 17⟩ (some [⟨"u", ⟨13, 14⟩⟩])]

theorem find?_eq_none_iff_shown :
    parse shownText = .ok shownRules ∧
    Uses shownText ⟨0, 11⟩ ⟨"t", ⟨6, 7⟩⟩ ∧ find? shownRules "t" = none ∧
    Uses shownText ⟨11, 17⟩ ⟨"u", ⟨16, 17⟩⟩ ∧ find? shownRules "u" ≠ none := by
  have hparse : parse shownText = .ok shownRules := by decide +kernel
  have hgroup : readChunk shownText ⟨0, 11⟩ =
      .ok ⟨.group ⟨"g", ⟨0, 1⟩⟩ ⟨0, 10⟩, [⟨"t", ⟨2, 3⟩⟩], [⟨"t", ⟨6, 7⟩⟩]⟩ := by decide +kernel
  have htype : readChunk shownText ⟨11, 17⟩ =
      .ok ⟨.type ⟨"m", ⟨11, 12⟩⟩ ⟨11, 17⟩ (some [⟨"u", ⟨13, 14⟩⟩]), [⟨"u", ⟨13, 14⟩⟩],
        [⟨"u", ⟨16, 17⟩⟩]⟩ := by decide +kernel
  have hsplit : Chunk.split shownText = [⟨0, 11⟩, ⟨11, 17⟩] := by decide
  have husesT : Uses shownText ⟨0, 11⟩ ⟨"t", ⟨6, 7⟩⟩ := (uses_iff hgroup).mpr (by simp)
  have husesU : Uses shownText ⟨11, 17⟩ ⟨"u", ⟨16, 17⟩⟩ := (uses_iff htype).mpr (by simp)
  have hbinds : Binds shownText ⟨0, 11⟩ ⟨"t", ⟨2, 3⟩⟩ := (binds_iff hgroup).mpr (by simp)
  have hT := find?_eq_none_iff_hidden hparse (by rw [hsplit]; exact .head _) husesT
    (by decide +kernel) (by simp)
  have hU := find?_eq_none_iff_hidden hparse (by rw [hsplit]; exact .tail _ (.head _)) husesU
    (by decide +kernel) (by simp)
  refine ⟨hparse, husesT, hT.mpr ⟨⟨_, _, rfl⟩, ⟨_, hbinds, rfl⟩, ?_, ?_⟩, husesU, fun hnone => ?_⟩
  · simp [shownRules, Rule.name]
  · simp [shownRules, Rule.params, Rule.IsGroup]
  · obtain ⟨⟨_, _, heq⟩, -⟩ := hU.mp hnone
    cases heq

/-- A group rule whose parameter is declared nowhere else. -/
def hiddenText : List Char := ['g', '<', 't', '>', '=', '(', 'a', ':', ' ', 't', ' ', ')']

/-- What is accepted cannot always be found. -/
theorem find?_eq_none_hidden :
    parse hiddenText = .ok [.group ⟨"g", ⟨0, 1⟩⟩ ⟨0, 12⟩] ∧ ⟨0, 12⟩ ∈ Chunk.split hiddenText ∧
    Uses hiddenText ⟨0, 12⟩ ⟨"t", ⟨9, 10⟩⟩ ∧ Reference.isPreludeName "t" = false ∧
    "t".toList.head? ≠ some '$' ∧ find? [.group ⟨"g", ⟨0, 1⟩⟩ ⟨0, 12⟩] "t" = none := by
  have hparse : parse hiddenText = .ok [.group ⟨"g", ⟨0, 1⟩⟩ ⟨0, 12⟩] := by decide +kernel
  have hread : readChunk hiddenText ⟨0, 12⟩ =
      .ok ⟨.group ⟨"g", ⟨0, 1⟩⟩ ⟨0, 12⟩, [⟨"t", ⟨2, 3⟩⟩], [⟨"t", ⟨9, 10⟩⟩]⟩ := by decide +kernel
  exact ⟨hparse, by decide, (uses_iff hread).mpr (by simp), by decide +kernel, by simp,
    by decide +kernel⟩

end Document

end Cddl

import Mathlib.Data.List.Pairwise
import Cddl.Proofs.Declaration

/-!
Which declaration the search finds, where a name has several. The declarations of an accepted text
stand in the order in which the search goes through them, so that it finds the leftmost one; it
knows nothing of the rule in which the name is used, and a parameter of another rule that stands
further to the left hides the parameter or the rule that is meant.
-/
namespace Cddl

open Declaration

/-! ### The order of declarations -/

namespace Rule.PlacedIn

variable {r : Rule} {text : List Char} {c : Chunk}

theorem name_lt (h : r.PlacedIn text c) : r.name.span.start < r.name.span.stop := by
  obtain ⟨first, last, hreaches⟩ := h.reaches
  obtain ⟨toks, ⟨stop, htoks, -⟩, hfirst, -⟩ := hreaches.tokens
  have hlt := (htoks.bounds first (List.mem_of_head? hfirst)).2.1
  rw [hreaches.name]
  simp only [Span.shift]
  omega

theorem names_inside (h : r.PlacedIn text c) :
    ∀ m ∈ names r, (c.start : Int) ≤ m.span.start ∧ m.span.start < c.stop := by
  have hname := h.name_lt
  have hstart := h.name_start
  have hle := h.start_le
  have hstop := h.stop_le
  have hnamestop := h.name_stop
  intro m hm
  rcases List.mem_cons.mp hm with rfl | hp
  · omega
  · have hinside := h.params_inside m hp
    omega

theorem names_ordered (h : r.PlacedIn text c) :
    (names r).Pairwise fun m n => m.span.start < n.span.start := by
  have hname := h.name_lt
  refine .cons (fun p hp => ?_) ?_
  · have hinside := h.params_inside p hp
    omega
  · refine (List.Pairwise.and_mem.mp h.params_ordered).imp ?_
    rintro p q ⟨hp, -, hpq⟩
    have hinside := h.params_inside p hp
    omega

/-- Where there is room for the rule there is room for all names that it declares. -/
theorem names_fit {current : List Char} (h : r.PlacedIn text c) (hr : r.span.fits current) :
    ∀ m ∈ names r, m.span.fits current := by
  obtain ⟨hstart, -, hstop⟩ := Span.fits_iff.mp hr
  have hname := h.name_lt
  have hnamestart := h.name_start
  have hnamestop := h.name_stop
  intro m hm
  rw [Span.fits_iff]
  rcases List.mem_cons.mp hm with rfl | hp
  · omega
  · have hinside := h.params_inside m hp
    omega

theorem names_stand (h : r.PlacedIn text c) : ∀ m ∈ names r, m.StandsIn text := by
  intro m hm
  rcases List.mem_cons.mp hm with rfl | hp
  · exact h.name_stands
  · exact h.params_stand m hp

theorem fits (h : r.PlacedIn text c) (hc : c ∈ Chunk.split text) : r.span.fits text := by
  have hle := (Chunk.bounds_of_mem_split hc).2
  have hstart := h.start_le
  have hstop := h.stop_le
  have hlt := h.nonempty
  rw [Span.fits_iff]
  omega

end Rule.PlacedIn

namespace Document

variable {text : List Char} {rules : List Rule} {c : Chunk} {k q r : Rule} {n p p' : Name}
  {ident : String} {s : Span}

theorem exists_placedIn (h : parse text = .ok rules) (hr : r ∈ rules) :
    ∃ c ∈ Chunk.split text, r.PlacedIn text c := by
  obtain ⟨hsyn, rfl⟩ := rules_of_parse h
  exact exists_of_forall₂ (forall₂_placedIn (fun _ hc => hc) (forall₂_of_syntaxErrors hsyn)) hr

/-- Names come before parameters in a rule, and rules behind each other. -/
theorem declarations_ordered (h : parse text = .ok rules) :
    (rules.flatMap names).Pairwise fun m n => m.span.start < n.span.start := by
  obtain ⟨hsyn, rfl⟩ := rules_of_parse h
  have hplaced := forall₂_placedIn (fun _ hc => hc) (forall₂_of_syntaxErrors hsyn)
  rw [List.pairwise_flatMap]
  constructor
  · intro r hr
    obtain ⟨c, -, hc⟩ := exists_of_forall₂ hplaced hr
    exact hc.names_ordered
  · refine pairwise_of_forall₂ hplaced (Chunk.pairwise_split text) ?_
    intro c r e s hr hs hce m hm n hn
    have hlt := (hr.names_inside m hm).2
    have hle := (hs.names_inside n hn).1
    omega

/-- No declaration of the one rule begins where one of the other begins. -/
def Apart (q r : Rule) : Prop := ∀ m ∈ names q, ∀ n ∈ names r, m.span.start ≠ n.span.start

theorem Apart.symm (h : Apart q r) : Apart r q := fun m hm n hn => (h n hn m hm).symm

theorem declarations_apart (h : parse text = .ok rules) (hq : q ∈ rules) (hr : r ∈ rules)
    (hne : q ≠ r) : Apart q r := by
  have hpairs := (List.pairwise_flatMap.mp (declarations_ordered h)).2
  have happart : rules.Pairwise Apart :=
    hpairs.imp fun hqr m hm n hn => Int.ne_of_lt (hqr m hm n hn)
  have : Std.Symm Apart := ⟨fun _ _ => Apart.symm⟩
  exact happart.forall hq hr hne

theorem name_ne_param (h : parse text = .ok rules) (hr : r ∈ rules) (hq : q ∈ rules)
    (hp : p ∈ q.params) : r.name.span ≠ p.span := by
  intro heq
  by_cases hrq : r = q
  · subst hrq
    have hordered := (List.pairwise_flatMap.mp (declarations_ordered h)).1 r hr
    have hlt := (List.pairwise_cons.mp hordered).1 p hp
    rw [heq] at hlt
    exact absurd hlt (Int.lt_irrefl _)
  · exact declarations_apart h hr hq hrq r.name List.mem_cons_self p (List.mem_cons_of_mem _ hp)
      (congrArg Span.start heq)

theorem eq_of_params (h : parse text = .ok rules) (hq : q ∈ rules) (hr : r ∈ rules)
    (hp : p ∈ q.params) (hp' : p' ∈ r.params) (heq : p.span = p'.span) : q = r := by
  by_contra hne
  exact declarations_apart h hq hr hne p (List.mem_cons_of_mem _ hp) p'
    (List.mem_cons_of_mem _ hp') (congrArg Span.start heq)

/-! ### The leftmost declaration -/

/-- The search finds the leftmost declaration of a name. -/
theorem find?_leftmost (h : parse text = .ok rules) (hs : find? rules ident = some s) :
    Declared rules ident s ∧ ∀ t, Declared rules ident t → t = s ∨ s.start < t.start := by
  obtain ⟨m, hfind, rfl⟩ := Option.map_eq_some_iff.mp hs
  obtain ⟨hident, before, behind, heq, hbefore⟩ := List.find?_eq_some_iff_append.mp hfind
  have hordered := declarations_ordered h
  rw [heq] at hordered
  have hbehind := (List.pairwise_cons.mp (List.pairwise_append.mp hordered).2.1).1
  refine ⟨declared_iff.mpr ⟨m, heq ▸ by simp, by simpa using hident, rfl⟩, fun t ht => ?_⟩
  obtain ⟨n, hn, hnident, rfl⟩ := declared_iff.mp ht
  rw [heq, List.mem_append, List.mem_cons] at hn
  -- the search has passed what is on the left, and what is behind stands further to the right
  rcases hn with hn | rfl | hn
  · have hother := hbefore n hn
    simp [hnident] at hother
  · exact .inl rfl
  · exact .inr (hbehind n hn)

/-- The name is declared there, but not by a parameter of this rule. -/
def DeclaredOutside (rules : List Rule) (k : Rule) (ident : String) (s : Span) : Prop :=
  NamesRule rules ident s ∨ ∃ r ∈ rules, r ≠ k ∧ ListsParam r ident s

theorem declared_iff_outside (hk : k ∈ rules) :
    Declared rules ident s ↔ ListsParam k ident s ∨ DeclaredOutside rules k ident s := by
  constructor
  · rintro (hname | ⟨r, hr, hparam⟩)
    · exact .inr (.inl hname)
    · by_cases hrk : r = k
      · exact .inl (hrk ▸ hparam)
      · exact .inr (.inr ⟨r, hr, hrk, hparam⟩)
  · rintro (hparam | hname | ⟨r, hr, -, hparam⟩)
    · exact .inr ⟨k, hk, hparam⟩
    · exact .inl hname
    · exact .inr ⟨r, hr, hparam⟩

theorem not_outside_of_listsParam (h : parse text = .ok rules) (hk : k ∈ rules)
    (hs : ListsParam k ident s) : ¬ DeclaredOutside rules k ident s := by
  obtain ⟨p, hp, -, rfl⟩ := hs
  rintro (⟨r, hr, -, heq⟩ | ⟨r, hr, hne, p', hp', -, heq⟩)
  · exact name_ne_param h hr hk hp heq
  · exact hne (eq_of_params h hr hk hp' hp heq)

/-- A parameter of a rule is found if it stands to the left of all other declarations of its name. -/
theorem listsParam_iff (h : parse text = .ok rules) (hk : k ∈ rules)
    (hs : find? rules ident = some s) :
    ListsParam k ident s ↔
      ∃ own, ListsParam k ident own ∧
        ∀ t, DeclaredOutside rules k ident t → own.start < t.start := by
  obtain ⟨hdeclared, hleft⟩ := find?_leftmost h hs
  constructor
  · intro hown
    refine ⟨s, hown, fun t ht => ?_⟩
    rcases hleft t ((declared_iff_outside hk).mpr (.inr ht)) with rfl | hlt
    · exact absurd ht (not_outside_of_listsParam h hk hown)
    · exact hlt
  · rintro ⟨own, hown, hbefore⟩
    refine ((declared_iff_outside hk).mp hdeclared).resolve_right fun houtside => ?_
    have hlt := hbefore s houtside
    rcases hleft own ((declared_iff_outside hk).mpr (.inl hown)) with rfl | hlt'
    · omega
    · omega

/-- The name of a rule is found if it stands to the left of all parameters that are called so. -/
theorem namesRule_iff (h : parse text = .ok rules) (hs : find? rules ident = some s) :
    NamesRule rules ident s ↔
      ∃ t, NamesRule rules ident t ∧
        ∀ q ∈ rules, ∀ u, ListsParam q ident u → t.start < u.start := by
  obtain ⟨hdeclared, hleft⟩ := find?_leftmost h hs
  constructor
  · intro hname
    refine ⟨s, hname, fun q hq u hu => ?_⟩
    rcases hleft u (.inr ⟨q, hq, hu⟩) with rfl | hlt
    · obtain ⟨r, hr, -, hrspan⟩ := hname
      obtain ⟨p, hp, -, hpspan⟩ := hu
      exact absurd (hrspan.trans hpspan.symm) (name_ne_param h hr hq hp)
    · exact hlt
  · rintro ⟨t, hname, hbefore⟩
    refine hdeclared.resolve_right ?_
    rintro ⟨q, hq, hparam⟩
    have hlt := hbefore q hq s hparam
    rcases hleft t (.inl hname) with rfl | hlt'
    · omega
    · omega

/-- What the search finds for a name that a type rule uses. It is the leftmost declaration of the
name: a parameter of the rule itself if and only if that stands to the left of every rule that is
called so and of every parameter of another rule. Where the rule has no such parameter, the name
was accepted because a rule is called so or because it is in the prelude or a socket; then the
name of a rule is found if and only if it stands to the left of every parameter that is called so,
and otherwise a parameter of another rule. -/
theorem find?_scope (h : parse text = .ok rules) (hk : (c, k) ∈ (Chunk.split text).zip rules)
    (htype : ¬ k.IsGroup) (hn : Uses text c n) (hs : find? rules n.ident = some s) :
    (Declared rules n.ident s ∧ ∀ t, Declared rules n.ident t → t = s ∨ s.start < t.start) ∧
    (ListsParam k n.ident s ↔
      ∃ own, ListsParam k n.ident own ∧
        ∀ t, DeclaredOutside rules k n.ident t → own.start < t.start) ∧
    ((∀ own, ¬ ListsParam k n.ident own) →
      ((∃ t, NamesRule rules n.ident t) ∨ Reference.isPreludeName n.ident = true ∨
        n.ident.toList.head? = some '$') ∧
      (NamesRule rules n.ident s ↔
        ∃ t, NamesRule rules n.ident t ∧
          ∀ q ∈ rules, ∀ u, ListsParam q n.ident u → t.start < u.start) ∧
      (¬ NamesRule rules n.ident s → ∃ q ∈ rules, q ≠ k ∧ ListsParam q n.ident s)) := by
  obtain ⟨hc, hmem⟩ := List.of_mem_zip hk
  have hleft := find?_leftmost h hs
  refine ⟨hleft, listsParam_iff h hmem hs, fun hnone => ⟨?_, namesRule_iff h hs, fun hname => ?_⟩⟩
  · rcases known_cases h hk (known_of_uses h hc hn) with hrule | ⟨hgroup, -⟩ | ⟨own, hown⟩ | hfree
    · exact .inl hrule
    · exact absurd hgroup htype
    · exact absurd hown (hnone own)
    · exact .inr hfree
  · obtain ⟨q, hq, hparam⟩ := hleft.1.resolve_left hname
    exact ⟨q, hq, fun heq => hnone s (heq ▸ hparam), hparam⟩

/-- A rule with a parameter, and a rule that is called like the parameter and uses its own name. -/
def recursiveText : List Char :=
  ['m', '<', 't', '>', '=', 't', '\n', 't', '=', 'm', '<', 't', '>']

def parametricRule : Rule := .type ⟨"m", ⟨0, 1⟩⟩ ⟨0, 6⟩ (some [⟨"t", ⟨2, 3⟩⟩])

def recursiveRule : Rule := .type ⟨"t", ⟨7, 8⟩⟩ ⟨7, 13⟩ none

/-- The first rule finds its parameter, and the second one, which means itself, finds it as well. -/
theorem find?_scope_recursive :
    parse recursiveText = .ok [parametricRule, recursiveRule] ∧
    find? [parametricRule, recursiveRule] "t" = some ⟨2, 3⟩ ∧
    Uses recursiveText ⟨0, 7⟩ ⟨"t", ⟨5, 6⟩⟩ ∧ ListsParam parametricRule "t" ⟨2, 3⟩ ∧
    Uses recursiveText ⟨7, 13⟩ ⟨"t", ⟨11, 12⟩⟩ ∧
    ¬ NamesRule [parametricRule, recursiveRule] "t" ⟨2, 3⟩ := by
  have hparse : parse recursiveText = .ok [parametricRule, recursiveRule] := by decide +kernel
  have hfirst : readChunk recursiveText ⟨0, 7⟩ =
      .ok ⟨parametricRule, [⟨"t", ⟨2, 3⟩⟩], [⟨"t", ⟨5, 6⟩⟩]⟩ := by decide +kernel
  have hsecond : readChunk recursiveText ⟨7, 13⟩ =
      .ok ⟨recursiveRule, [], [⟨"m", ⟨9, 10⟩⟩, ⟨"t", ⟨11, 12⟩⟩]⟩ := by decide +kernel
  have hsplit : Chunk.split recursiveText = [⟨0, 7⟩, ⟨7, 13⟩] := by decide
  have hfind : find? [parametricRule, recursiveRule] "t" = some ⟨2, 3⟩ := by decide +kernel
  have huses : Uses recursiveText ⟨0, 7⟩ ⟨"t", ⟨5, 6⟩⟩ := (uses_iff hfirst).mpr (by simp)
  have huses' : Uses recursiveText ⟨7, 13⟩ ⟨"t", ⟨11, 12⟩⟩ := (uses_iff hsecond).mpr (by simp)
  have hown := (find?_scope hparse (by rw [hsplit]; exact .head _)
    (by simp [parametricRule, Rule.IsGroup]) huses hfind).2.1
  have hother := (find?_scope hparse (by rw [hsplit]; exact .tail _ (.head _))
    (by simp [recursiveRule, Rule.IsGroup]) huses' hfind).2.2
  refine ⟨hparse, hfind, huses, hown.mpr ⟨⟨2, 3⟩, ?_, ?_⟩, huses', ?_⟩
  · simp [parametricRule, ListsParam, Rule.params]
  · simp [parametricRule, recursiveRule, DeclaredOutside, NamesRule, ListsParam, Rule.name,
      Rule.params]
  · have hnone : ∀ own, ¬ ListsParam recursiveRule "t" own := by
      simp [recursiveRule, ListsParam, Rule.params]
    rw [(hother hnone).2.1]
    simp [parametricRule, recursiveRule, NamesRule, ListsParam, Rule.name, Rule.params]

/-- Two rules with a parameter of the same name. -/
def repeatedText : List Char :=
  ['a', '<', 't', '>', '=', ' ', 't', '\n', 'b', '<', 't', '>', '=', ' ', 't']

def repeatedRule : Rule := .type ⟨"b", ⟨8, 9⟩⟩ ⟨8, 15⟩ (some [⟨"t", ⟨10, 11⟩⟩])

/-- A rule that uses its own parameter can be shown the parameter of another rule. -/
theorem find?_out_of_scope :
    let rules : List Rule := [.type ⟨"a", ⟨0, 1⟩⟩ ⟨0, 7⟩ (some [⟨"t", ⟨2, 3⟩⟩]), repeatedRule]
    parse repeatedText = .ok rules ∧
    (⟨8, 15⟩, repeatedRule) ∈ (Chunk.split repeatedText).zip rules ∧ ¬ repeatedRule.IsGroup ∧
    Uses repeatedText ⟨8, 15⟩ ⟨"t", ⟨14, 15⟩⟩ ∧ ListsParam repeatedRule "t" ⟨10, 11⟩ ∧
    find? rules "t" = some ⟨2, 3⟩ ∧ ¬ ListsParam repeatedRule "t" ⟨2, 3⟩ := by
  intro rules
  have hparse : parse repeatedText = .ok rules := by decide +kernel
  have hread : readChunk repeatedText ⟨8, 15⟩ =
      .ok ⟨repeatedRule, [⟨"t", ⟨10, 11⟩⟩], [⟨"t", ⟨14, 15⟩⟩]⟩ := by decide +kernel
  have hsplit : Chunk.split repeatedText = [⟨0, 8⟩, ⟨8, 15⟩] := by decide
  refine ⟨hparse, ?_, ?_, (uses_iff hread).mpr (by simp), ?_, by decide +kernel, ?_⟩
  · rw [hsplit]
    exact .tail _ (.head _)
  · simp [repeatedRule, Rule.IsGroup]
  · simp [repeatedRule, ListsParam, Rule.params]
  · simp [repeatedRule, ListsParam, Rule.params]

end Document

end Cddl

import Mathlib.Data.List.Chain
import Cddl.Proofs.Derivation

/-!
Which terminals may stand next to each other in a sequence that the grammar derives. A table says
for each nonterminal how its sequences begin and end; that the tables are right is checked once
for each production.
-/
namespace Cddl

namespace Nonterminal

/-- The terminals that a type may begin with. -/
def operandFirsts : List Terminal :=
  [.number, .text, .bytes, .name, .openParen, .openBrace, .openBracket, .tilde, .ampersand, .tag,
    .major, .hash]

/-- The terminals that a type may end with. -/
def operandLasts : List Terminal :=
  [.number, .text, .bytes, .name, .greater, .closeParen, .closeBrace, .closeBracket, .major, .hash]

/-- The terminals that a sequence for the nonterminal may begin with. -/
def firsts : Nonterminal → List Terminal
  | rule | typeName | bareword => [.name]
  | params | args => [.less]
  | moreParams | moreArgs => [.comma]
  | alternatives => [.slash]
  | operator => [.range, .control]
  | choices => [.groupChoice]
  | occur => [.occurrence]
  | value => [.number, .text, .bytes]
  | type | type1 | type2 | memberKey => operandFirsts
  | choice | entries | entry => .occurrence :: operandFirsts
  | group => .groupChoice :: .occurrence :: operandFirsts

/-- The terminals that a sequence for the nonterminal may end with. -/
def lasts : Nonterminal → List Terminal
  | params | args => [.greater]
  | moreParams | bareword => [.name]
  | typeName => [.name, .greater]
  | operator => [.range, .control]
  | occur => [.occurrence]
  | value => [.number, .text, .bytes]
  | memberKey => [.arrow, .colon]
  | rule | type | type1 | type2 | alternatives | moreArgs | entry => operandLasts
  | choice | entries => .comma :: operandLasts
  | choices | group => .groupChoice :: .comma :: operandLasts

end Nonterminal

namespace Symbol

def firsts : Symbol → List Terminal
  | terminal t => [t]
  | nonterminal n => n.firsts

def lasts : Symbol → List Terminal
  | terminal t => [t]
  | nonterminal n => n.lasts

/-- The terminals that a sequence for several symbols may begin with. -/
def firstsOf : List Symbol → List Terminal
  | [] => []
  | s :: rest => s.firsts ++ if s.nullable then firstsOf rest else []

/-- The terminals that a sequence for several symbols may end with. -/
def lastsOf : List Symbol → List Terminal
  | [] => []
  | s :: rest => lastsOf rest ++ if rest.all nullable then s.lasts else []

/-- The terminals `t` and `u` may meet where one of several symbols ends and the next begins. -/
def joins (t u : Terminal) : List Symbol → Bool
  | [] => false
  | s :: rest => (s.lasts.contains t && (firstsOf rest).contains u) || joins t u rest

end Symbol

/-- Some production lets `u` follow `t`. -/
def Terminal.MayPrecede (t u : Terminal) : Prop := ∃ p : Production, Symbol.joins t u p.rhs = true

/-- Two tokens next to each other never look like an assignment sign. -/
theorem Terminal.not_mayPrecede {t u : Terminal}
    (h : (t, u) ∈ [(slash, slash), (slash, groupChoice), (slash, arrow), (groupChoice, arrow)]) :
    ¬ t.MayPrecede u := by
  rintro ⟨p, hp⟩
  simp only [List.mem_cons, Prod.mk.injEq, List.not_mem_nil, or_false] at h
  rcases h with ⟨rfl, rfl⟩ | ⟨rfl, rfl⟩ | ⟨rfl, rfl⟩ | ⟨rfl, rfl⟩ <;> revert hp <;>
    cases p <;> decide

namespace Production

theorem firsts_subset (p : Production) : Symbol.firstsOf p.rhs ⊆ p.lhs.firsts := by
  cases p <;> decide

theorem lasts_subset (p : Production) : Symbol.lastsOf p.rhs ⊆ p.lhs.lasts := by
  cases p <;> decide

theorem assign_not_mem_rhs (p : Production) (hp : p.lhs ≠ .rule) :
    ∀ s ∈ p.rhs, s ≠ .terminal .assign ∧ s ≠ .nonterminal .rule := by
  revert hp
  cases p <;> decide

end Production

namespace Derives

variable {syms : List Symbol} {ts : List Terminal}

theorem nullable_of_nil {p : Production} (h : Derives p.rhs []) : p.lhs.nullable = true :=
  Production.nullable_lhs h.all_nullable

theorem head_mem_firstsOf (h : Derives syms ts) : ∀ u ∈ ts.head?, u ∈ Symbol.firstsOf syms := by
  induction h with
  | done => simp
  | terminal => simp [Symbol.firstsOf, Symbol.firsts]
  | @nonterminal rest us ts p hp _ ih ih' =>
    intro u hu
    cases us with
    | nil =>
      have hnull : (Symbol.nonterminal p.lhs).nullable = true := hp.nullable_of_nil
      rw [Symbol.firstsOf, if_pos hnull]
      exact List.mem_append_right _ (ih' u hu)
    | cons v us =>
      exact List.mem_append_left _ (p.firsts_subset (ih u hu))

theorem last_mem_lastsOf (h : Derives syms ts) : ∀ t ∈ ts.getLast?, t ∈ Symbol.lastsOf syms := by
  induction h with
  | done => simp
  | @terminal t rest ts hrest ih =>
    intro u hu
    cases ts with
    | nil =>
      rw [Symbol.lastsOf, if_pos hrest.all_nullable]
      exact List.mem_append_right _ (by simpa [Symbol.lasts, eq_comm] using hu)
    | cons v ts => exact List.mem_append_left _ (ih u (by simpa using hu))
  | @nonterminal rest us ts p hp hrest ih ih' =>
    intro u hu
    cases ts with
    | nil =>
      rw [Symbol.lastsOf, if_pos hrest.all_nullable]
      exact List.mem_append_right _ (p.lasts_subset (ih u (by simpa using hu)))
    | cons v ts =>
      refine List.mem_append_left _ (ih' u ?_)
      simpa [List.getLast?_append] using hu

/-- In a sequence that the grammar derives each terminal may precede the next one. -/
theorem isChain (h : Derives syms ts) (hj : ∀ t u, Symbol.joins t u syms = true → t.MayPrecede u) :
    ts.IsChain Terminal.MayPrecede := by
  induction h with
  | done => exact .nil
  | @terminal t rest ts hrest ih =>
    have hrec := ih fun t u h => hj t u (by simp [Symbol.joins, h])
    refine List.isChain_cons.mpr ⟨fun u hu => ?_, hrec⟩
    have hmem := hrest.head_mem_firstsOf u hu
    exact hj t u (by simp [Symbol.joins, Symbol.lasts, hmem])
  | @nonterminal rest us ts p hp hrest ih ih' =>
    have hrec := ih' fun t u h => hj t u (by simp [Symbol.joins, h])
    refine List.isChain_append.mpr ⟨ih fun t u h => ⟨p, h⟩, hrec, fun t ht u hu => ?_⟩
    have hlast : t ∈ p.lhs.lasts := p.lasts_subset (hp.last_mem_lastsOf t ht)
    have hmem := hrest.head_mem_firstsOf u hu
    exact hj t u (by simp [Symbol.joins, Symbol.lasts, hlast, hmem])

/-- Where a class of symbols is closed under the productions, no other terminal is derived. -/
theorem mem_of_closed {P : Symbol → Prop}
    (hP : ∀ p : Production, P (.nonterminal p.lhs) → ∀ s ∈ p.rhs, P s) (h : Derives syms ts)
    (hs : ∀ s ∈ syms, P s) : ∀ t ∈ ts, P (.terminal t) := by
  induction h with
  | done => simp
  | terminal _ ih =>
    intro t ht
    rcases List.mem_cons.mp ht with rfl | ht
    · exact hs _ (by simp)
    · exact ih (fun s hmem => hs s (List.mem_cons_of_mem _ hmem)) t ht
  | nonterminal p _ _ ih ih' =>
    intro t ht
    rcases List.mem_append.mp ht with ht | ht
    · exact ih (hP p (hs _ (by simp))) t ht
    · exact ih' (fun s hmem => hs s (List.mem_cons_of_mem _ hmem)) t ht

/-! ### Assignment signs -/

/-- Only a rule holds an assignment sign. -/
theorem assign_not_mem (h : Derives syms ts)
    (hs : ∀ s ∈ syms, s ≠ .terminal .assign ∧ s ≠ .nonterminal .rule) : .assign ∉ ts := by
  intro hmem
  exact (mem_of_closed (P := fun s => s ≠ .terminal .assign ∧ s ≠ .nonterminal .rule)
    (fun p hp => p.assign_not_mem_rhs (by simpa using hp.2)) h hs _ hmem).1 rfl

theorem assign_not_mem_entry (h : Derives [.nonterminal .entry] ts) : .assign ∉ ts :=
  h.assign_not_mem (by decide)

theorem moreParams_subset (h : Derives [.nonterminal .moreParams] ts) :
    ∀ t ∈ ts, t = .name ∨ t = .comma := by
  intro t ht
  have hclosed : ∀ p : Production,
      .nonterminal p.lhs ∈ [Symbol.nonterminal .moreParams, .terminal .name, .terminal .comma] →
      ∀ s ∈ p.rhs, s ∈ [Symbol.nonterminal .moreParams, .terminal .name, .terminal .comma] := by
    intro p
    cases p <;> decide
  have hmem := mem_of_closed hclosed h (by decide) t ht
  simpa using hmem

/-- A parameter list is closed by its last terminal, and holds names and commas only. -/
theorem params_cases (h : Derives [.nonterminal .params] ts) :
    ∃ us, ts = .less :: (us ++ [.greater]) ∧ ∀ u ∈ us, u = .name ∨ u = .comma := by
  obtain ⟨p, hp, hderives⟩ := h.exists_production
  cases p <;> try contradiction
  case paramsMany =>
    obtain ⟨_, rfl, hname⟩ := hderives.terminal_cases
    obtain ⟨_, rfl, hnames⟩ := hname.terminal_cases
    obtain ⟨us, _, rfl, hmore, hclose⟩ := hnames.nonterminal_cases
    obtain ⟨_, rfl, hend⟩ := hclose.terminal_cases
    obtain rfl := hend.nil_cases
    refine ⟨.name :: us, rfl, fun u hu => ?_⟩
    rcases List.mem_cons.mp hu with rfl | hu
    · exact .inl rfl
    · exact moreParams_subset hmore u hu
  case paramsOne =>
    obtain ⟨_, rfl, hname⟩ := hderives.terminal_cases
    obtain ⟨_, rfl, hclose⟩ := hname.terminal_cases
    obtain ⟨_, rfl, hend⟩ := hclose.terminal_cases
    obtain rfl := hend.nil_cases
    exact ⟨[.name], rfl, by simp⟩

/-- A rule is a name, perhaps with parameters, an assignment sign and an entry. -/
theorem rule_cases (h : Derives [.nonterminal .rule] ts) :
    ∃ ps es, ts = .name :: (ps ++ .assign :: es) ∧ .assign ∉ es ∧
      (ps = [] ∨ ∃ us, ps = .less :: (us ++ [.greater]) ∧ ∀ u ∈ us, u = .name ∨ u = .comma) := by
  obtain ⟨p, hp, hderives⟩ := h.exists_production
  cases p <;> try contradiction
  case ruleGeneric =>
    obtain ⟨_, rfl, hrest⟩ := hderives.terminal_cases
    obtain ⟨ps, _, rfl, hparams, hassign⟩ := hrest.nonterminal_cases
    obtain ⟨es, rfl, hentry⟩ := hassign.terminal_cases
    exact ⟨ps, es, rfl, hentry.assign_not_mem_entry, .inr hparams.params_cases⟩
  case rulePlain =>
    obtain ⟨_, rfl, hassign⟩ := hderives.terminal_cases
    obtain ⟨es, rfl, hentry⟩ := hassign.terminal_cases
    exact ⟨[], es, rfl, hentry.assign_not_mem_entry, .inl rfl⟩

/-- Behind a name inside a rule no assignment sign is left, unless the name is a parameter. -/
theorem name_inside_rule {before after : List Terminal}
    (h : Derives [.nonterminal .rule] (before ++ .name :: after)) (hb : before ≠ []) :
    .assign ∉ after ∨ ∃ u rest, after = u :: rest ∧ (u = .name ∨ u = .comma ∨ u = .greater) := by
  obtain ⟨ps, es, hts, hes, hps⟩ := h.rule_cases
  obtain ⟨t, before, rfl⟩ := List.exists_cons_of_ne_nil hb
  obtain ⟨-, hts⟩ := List.cons.inj hts
  -- the name stands in the parameter list or in the entry
  rcases List.append_eq_append_iff.mp hts with ⟨qs, rfl, hafter⟩ | ⟨qs, rfl, hafter⟩
  · cases qs with
    | nil => simp at hafter
    | cons q qs =>
      obtain ⟨rfl, rfl⟩ := List.cons.inj hafter
      right
      rcases hps with hps | ⟨us, hps, hus⟩
      · simp at hps
      -- the name stands between the angles, so that something stands behind it
      cases qs with
      | nil =>
        have hlast := congrArg List.getLast? hps
        rw [← List.cons_append, List.getLast?_concat, List.getLast?_concat] at hlast
        contradiction
      | cons u qs =>
        refine ⟨u, qs ++ .assign :: es, rfl, ?_⟩
        have hu : u ∈ us ++ [Terminal.greater] := by
          cases before with
          | nil => simp at hps
          | cons t before =>
            obtain ⟨-, hps⟩ := List.cons.inj hps
            rw [← hps]
            simp
        rcases List.mem_append.mp hu with hu | hu
        · exact (hus u hu).imp_right .inl
        · exact .inr (.inr (List.mem_singleton.mp hu))
  · cases qs with
    | nil => simp at hafter
    | cons q qs =>
      obtain ⟨-, rfl⟩ := List.cons.inj hafter
      left
      intro hmem
      exact hes (by simp [hmem])

end Derives

end Cddl

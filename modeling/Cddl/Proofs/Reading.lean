import Cddl.Document.Rule
import Cddl.Proofs.Recognition

/-!
The tree that a chart is read as. Every edge of a chart that has read something has a link, and
following the links from an edge gives one tree for each symbol before its dot. So whatever text is
a rule has a tree, and that tree has the form of a definition.
-/
namespace Cddl

namespace Tree

/-- What a tree is a reading of. -/
def symbol : Tree → Symbol
  | leaf t => .terminal t.terminal
  | node p _ => .nonterminal p.lhs

theorem exists_leaf {t : Tree} {a : Terminal} (h : t.symbol = .terminal a) : ∃ k, t = leaf k := by
  cases t with
  | leaf k => exact ⟨k, rfl⟩
  | node => simp [symbol] at h

end Tree

namespace Front

variable {text : List Char} {n i : Nat} {f : Front} {e : Edge}

theorem mem_edges_of_item (hf : at? text n = some f) (hi : i ≤ n) (h : Item text i e)
    (ht : e.terminal? = none) : e ∈ f.chart.edges i := by
  obtain ⟨g, hg, hs⟩ := stands_of_item h
  rw [(column_at? hg hf hi).1]
  exact hs.edge ht

theorem justified_firstLink (hf : at? text n = some f) {l : Link}
    (hl : f.chart.firstLink? e i = some l) : Justified text i ⟨e, some l⟩ := by
  obtain ⟨before, after, heq, -⟩ := List.lookup_eq_some_iff.mp hl
  exact (stage_at? hf).sound.links i e l (by simp [heq])

theorem exists_firstLink (hf : at? text n = some f) (hi : i ≤ n) (h : Item text i e)
    (hd : 0 < e.dot) : ∃ l, f.chart.firstLink? e i = some l := by
  obtain ⟨g, hg, hs⟩ := stands_of_item h
  obtain ⟨l, hl⟩ := hs.linked hd
  rw [← (column_at? hg hf hi).2] at hl
  exact Option.isSome_iff_exists.mp (List.lookup_isSome_iff.mpr ⟨_, hl, beq_self_eq_true e⟩)

/-- The constituent that a link names has been read by some production. -/
theorem exists_chosen (hf : at? text n = some f) (hi : i ≤ n) {k : Nat} {p : Production}
    (h : Item text i (.finished k p)) :
    ∃ q, f.chart.chosen? p.lhs k i = some q ∧ q.lhs = p.lhs ∧ Item text i (.finished k q) := by
  have hmem := mem_edges_of_item hf hi h (by simp [Edge.terminal?, Edge.next?_finished])
  have hsome : (f.chart.chosen? p.lhs k i).isSome := by
    rw [Chart.chosen?, List.find?_isSome]
    exact ⟨p, Production.mem_productions_iff.mpr rfl, decide_eq_true hmem⟩
  obtain ⟨q, hq⟩ := Option.isSome_iff_exists.mp hsome
  refine ⟨q, hq, Production.mem_productions_iff.mp (List.mem_of_find?_eq_some hq), ?_⟩
  unfold Chart.chosen? at hq
  have hfin := List.find?_some hq
  exact (stage_at? hf).sound.edges i _ (of_decide_eq_true hfin)

/-- Links lead from an edge to one tree for each symbol that it has read. -/
theorem symbols_children (hf : at? text n = some f) (hi : i ≤ n) (h : Item text i e)
    {depth : Nat} (hdepth : e.dot < depth) :
    (f.chart.children depth e i).map Tree.symbol = e.production.rhs.take e.dot := by
  induction depth generalizing e i with
  | zero => omega
  | succ depth ih =>
    rw [Chart.children]
    cases hl : f.chart.firstLink? e i with
    | none =>
      -- every edge that has read something has a link
      have hd : e.dot = 0 := by
        by_contra hd
        obtain ⟨l, hl'⟩ := exists_firstLink hf hi h (Nat.pos_of_ne_zero hd)
        simp [hl] at hl'
      simp [hd]
    | some l =>
      cases justified_firstLink hf hl with
      | @token j k m d t hd hn hig hm =>
        have := hig.le
        have hrec := ih (by omega) hd (by simpa using hdepth)
        simp only [Edge.advance_production, Edge.advance_dot, Edge.advance_start,
          Nat.add_sub_cancel, List.map_append, Edge.take_advance hn, Tree.symbol, List.map_cons,
          List.map_nil]
        exact congrArg (· ++ [Symbol.terminal t]) hrec
      | @constituent k _ d p hd hn hp =>
        -- the tree may use another production than the link, for the same nonterminal
        obtain ⟨q, hq, hlhs, -⟩ := exists_chosen hf hi hp
        have hrec := ih (Nat.le_trans hp.fits.start_le hi) hd (by simpa using hdepth)
        simp only [Edge.advance_production, Edge.advance_dot, Edge.advance_start,
          Nat.add_sub_cancel, List.map_append, Edge.take_advance hn, hq, Option.map_some,
          Option.toList_some, Tree.symbol, List.map_cons, List.map_nil, hlhs]
        exact congrArg (· ++ [Symbol.nonterminal p.lhs]) hrec

/-- At a place where a rule ends the chart is read as a tree for a rule. -/
theorem exists_tree (hf : at? text n = some f) {stop : Nat} (hstop : stop ≤ n) {p : Production}
    (hp : p.lhs = .rule) (h : Item text stop (.finished 0 p)) :
    ∃ q children, f.chart.tree? stop = some (.node q children) ∧ q.lhs = .rule ∧
      children.map Tree.symbol = q.rhs := by
  obtain ⟨q, hq, hlhs, hitem⟩ := exists_chosen hf hstop h
  rw [hp] at hq hlhs
  refine ⟨q, _, by rw [Chart.tree?, hq]; rfl, hlhs, ?_⟩
  have hshort : q.rhs.length ≤ 4 := by cases q <;> decide
  rw [symbols_children hf hstop hitem (by simp only [Edge.finished, Chart.depthBound]; omega)]
  simp [Edge.finished]

end Front

namespace Tree

variable {text : List Char}

/-- A text that is a rule is read as a tree for a rule. -/
theorem ofText_of_isRule (h : IsRule text) :
    ∃ q children, ofText text = .ok (.node q children) ∧ q.lhs = .rule ∧
      children.map Tree.symbol = q.rhs := by
  obtain ⟨⟨chart, stop⟩, hr⟩ := Front.run_initial_isOk_iff.mpr h
  have ho : Front.Outcome text (Front.initial.run 0 text) := Front.outcome_run rfl (Nat.zero_le _)
  rw [hr] at ho
  cases ho with
  | complete hf hc =>
    obtain ⟨⟨p, hp, hitem⟩, hi⟩ := (Front.stage_at? hf).complete _ hc
    obtain ⟨q, children, htree, hq, hsyms⟩ := Front.exists_tree hf hi.le hp hitem
    refine ⟨q, children, ?_, hq, hsyms⟩
    simp [ofText, hr, htree, bind, Except.bind]

/-- A text that is no rule is rejected, for the reason that ended its reading. -/
theorem ofText_of_not_isRule (h : ¬ IsRule text) :
    ∃ r, ofText text = .error r ∧ Front.Outcome text (.error r) := by
  have ho : Front.Outcome text (Front.initial.run 0 text) := Front.outcome_run rfl (Nat.zero_le _)
  cases hr : Front.initial.run 0 text with
  | ok result => exact absurd (Front.run_initial_isOk_iff.mp ⟨result, hr⟩) h
  | error r =>
    rw [hr] at ho
    exact ⟨r, by simp [ofText, hr, bind, Except.bind], ho⟩

end Tree

/-- A tree for a rule has the form of a definition. -/
theorem Definition.exists_ofTree? (chunk : List Char) (offset : Nat) {p : Production}
    {children : List Tree} (hp : p.lhs = .rule) (hc : children.map Tree.symbol = p.rhs) :
    ∃ d, ofTree? chunk offset (.node p children) = some d := by
  cases p with
  | ruleGeneric =>
    simp only [Production.rhs, List.map_eq_cons_iff, List.map_eq_nil_iff] at hc
    obtain ⟨name, _, rfl, hname, params, _, rfl, -, assign, _, rfl, hassign, content, _, rfl, -,
      rfl⟩ := hc
    obtain ⟨name, rfl⟩ := Tree.exists_leaf hname
    obtain ⟨assign, rfl⟩ := Tree.exists_leaf hassign
    exact ⟨_, rfl⟩
  | rulePlain =>
    simp only [Production.rhs, List.map_eq_cons_iff, List.map_eq_nil_iff] at hc
    obtain ⟨name, _, rfl, hname, assign, _, rfl, hassign, content, _, rfl, -, rfl⟩ := hc
    obtain ⟨name, rfl⟩ := Tree.exists_leaf hname
    obtain ⟨assign, rfl⟩ := Tree.exists_leaf hassign
    exact ⟨_, rfl⟩
  | _ => contradiction

end Cddl

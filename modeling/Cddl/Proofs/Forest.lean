import Cddl.Proofs.Reading
import Cddl.Proofs.Tokens

/-!
The tree that a text is read as is a whole reading of it: its leaves are tokens that tile the text,
and each of its nodes has one child for each symbol of its production, which is the preferred one of
those that read the same stretch. Following links comes to an end before the bound on the depth is
met, because every link that is followed lowers a weight: the stretch of text gets shorter, or else
the constituent gets smaller or the dot moves back.
-/
namespace Cddl

/-- The trees read the text between two offsets, from left to right. -/
inductive Forest (text : List Char) : Nat → List Tree → Nat → Prop where
  | done (i) : Forest text i [] i
  | leaf {i k n j t rest} : Ignored text i k → t.match? (text.drop k) = some n →
      Forest text (k + n) rest j → Forest text i (.leaf ⟨t, k, k + n⟩ :: rest) j
  | node {i k j p children rest} : children.map Tree.symbol = p.rhs →
      Forest text i children k → Forest text k rest j → Forest text i (.node p children :: rest) j

namespace Forest

variable {text : List Char} {i j k : Nat} {trees : List Tree}

theorem of_mem (h : Forest text i trees j) {t : Tree} (ht : t ∈ trees) :
    ∃ k l, Forest text k [t] l := by
  induction h with
  | done => contradiction
  | leaf hi hm _ ih =>
    rcases List.mem_cons.mp ht with rfl | ht
    · exact ⟨_, _, .leaf hi hm (.done _)⟩
    · exact ih ht
  | node hc hchildren _ _ ih =>
    rcases List.mem_cons.mp ht with rfl | ht
    · exact ⟨_, _, .node hc hchildren (.done _)⟩
    · exact ih ht

/-- The leaves of a forest are tokens that tile the text. -/
theorem tokens (h : Forest text i trees j) : Tokens text i (Tree.tokensOfList trees) j := by
  induction h with
  | done i => exact .done i
  | leaf hi hm _ ih => exact .token hi hm ih
  | node _ _ _ ih ih' => exact ih.append ih'

theorem derives (h : Forest text i trees j) :
    Derives (trees.map Tree.symbol) ((Tree.tokensOfList trees).map Token.terminal) := by
  induction h with
  | done => exact .done
  | leaf _ _ _ ih => exact .terminal ih
  | @node _ _ _ p _ _ hc _ _ ih ih' =>
    rw [hc] at ih
    simp only [Tree.tokensOfList, Tree.tokens, List.map_append]
    exact .nonterminal p ih ih'

end Forest

/-! ### Preferred readings -/

/-- The place of a production among those for its nonterminal. -/
def Production.place (p : Production) : Nat := p.lhs.productions.idxOf p

/-- The production reads the text between two offsets, and none in front of it does. -/
structure Preferred (text : List Char) (p : Production) (i j : Nat) : Prop where
  item : Item text j (.finished i p)
  first : ∀ q : Production, q.lhs = p.lhs → Item text j (.finished i q) → p.place ≤ q.place

/-- The trees read the text between two offsets, each node by the production that is preferred. -/
inductive Best (text : List Char) : Nat → List Tree → Nat → Prop where
  | done (i) : Best text i [] i
  | leaf {i k n j t rest} : Ignored text i k → t.match? (text.drop k) = some n →
      Best text (k + n) rest j → Best text i (.leaf ⟨t, k, k + n⟩ :: rest) j
  | node {i k j p children rest} : Preferred text p i k → children.map Tree.symbol = p.rhs →
      Best text i children k → Best text k rest j → Best text i (.node p children :: rest) j

namespace Best

variable {text : List Char} {i j k : Nat} {trees rest : List Tree}

theorem append (h : Best text i trees j) (h' : Best text j rest k) :
    Best text i (trees ++ rest) k := by
  induction h with
  | done => exact h'
  | leaf hi hm _ ih => exact .leaf hi hm (ih h')
  | node hp hc hchildren _ _ ih => exact .node hp hc hchildren (ih h')

theorem forest (h : Best text i trees j) : Forest text i trees j := by
  induction h with
  | done => exact .done _
  | leaf hi hm _ ih => exact .leaf hi hm ih
  | node _ hc _ _ ih ih' => exact .node hc ih ih'

end Best

/-! ### The weight of an edge -/

namespace Nonterminal

/-- A constituent that begins and ends where another one does, inside it, has a lower rank. -/
def rank : Nonterminal → Nat
  | group => 7
  | choice => 6
  | entries => 5
  | entry => 4
  | type | memberKey => 3
  | type1 => 2
  | type2 => 1
  | _ => 0

end Nonterminal

namespace Production

/-- The weight of the first `dot` symbols. A list that is extended on its right has been read as a
shorter list of the same rank, so that it weighs more than any list that is complete. -/
def weight (p : Production) (dot : Nat) : Nat :=
  if p.rhs.head? = some (.nonterminal p.lhs) ∧ dot = 1 then 64 else 6 * p.lhs.rank + dot

/-- Going back over an empty constituent lowers the weight, and so does going down to a constituent
in front of which everything is empty. -/
def lightens (p : Production) (dot : Nat) : Bool :=
  match p.rhs[dot]? with
  | some (.nonterminal n) =>
    (!n.nullable || p.weight dot < p.weight (dot + 1)) &&
      (!(p.rhs.take dot).all Symbol.nullable ||
        n.productions.all fun q => q.weight q.rhs.length < p.weight (dot + 1))
  | _ => true

theorem lightens_of_lt (p : Production) : ∀ dot < p.rhs.length, p.lightens dot = true := by
  cases p <;> decide

theorem le_weight (p : Production) (dot : Nat) : dot ≤ p.weight dot := by
  unfold weight
  split
  next h => omega
  next => omega

theorem weight_lt_of_le (p : Production) : ∀ dot < p.rhs.length + 1, p.weight dot < 128 := by
  cases p <;> decide

end Production

namespace Edge

/-- What following the links of an edge of the column `i` is worth. -/
def weight (e : Edge) (i : Nat) : Nat := 128 * (i - e.start) + e.production.weight e.dot

variable {e : Edge} {i k : Nat} {n : Nonterminal}

theorem lightens_of_next? {s : Symbol} (h : e.next? = some s) :
    e.production.lightens e.dot = true :=
  e.production.lightens_of_lt _ (dot_lt_of_next? h)

theorem Fits.weight_lt (h : e.Fits k) (hlt : k < i) (j : Nat) :
    e.weight k < 128 * (i - e.start) + j := by
  have hw := e.production.weight_lt_of_le e.dot (Nat.lt_succ_of_le h.dot_le)
  have hs := h.start_le
  simp only [weight]
  omega

/-- The edge before a constituent weighs less than the edge behind it. -/
theorem weight_lt_advance (h : e.Fits k) (hn : e.next? = some (.nonterminal n)) (hki : k ≤ i)
    (hnull : k = i → n.nullable = true) : e.weight k < e.advance.weight i := by
  rcases Nat.lt_or_eq_of_le hki with hlt | rfl
  · exact h.weight_lt hlt _
  · have hl := lightens_of_next? hn
    rw [next?_eq] at hn
    simp only [Production.lightens, hn, hnull rfl, Bool.and_eq_true, Bool.or_eq_true,
      Bool.not_true, Bool.false_eq_true, false_or, decide_eq_true_eq] at hl
    have hw := hl.1
    simp only [weight, advance_production, advance_dot, advance_start]
    omega

/-- A constituent weighs less than the edge behind it. -/
theorem weight_finished_lt_advance {q : Production} (hq : q.lhs = n)
    (hn : e.next? = some (.nonterminal n)) (hs : e.start ≤ k) (hki : k ≤ i)
    (hnull : e.start = k → (e.production.rhs.take e.dot).all Symbol.nullable = true) :
    (finished k q).weight i < e.advance.weight i := by
  have hw := q.weight_lt_of_le q.rhs.length (Nat.lt_succ_self _)
  simp only [weight, finished, advance_production, advance_dot, advance_start]
  rcases Nat.lt_or_eq_of_le hs with hlt | heq
  · omega
  · have hl := lightens_of_next? hn
    rw [next?_eq] at hn
    simp only [Production.lightens, hn, hnull heq, Bool.and_eq_true, Bool.or_eq_true,
      Bool.not_true, Bool.false_eq_true, false_or, List.all_eq_true, decide_eq_true_eq] at hl
    have hdown := hl.2 q (Production.mem_productions_iff.mpr hq)
    omega

end Edge

namespace Item

variable {text : List Char} {i : Nat} {e : Edge}

/-- An edge that has not moved on in the text has read symbols that may be empty. -/
theorem all_nullable (h : Item text e.start e) :
    (e.production.rhs.take e.dot).all Symbol.nullable = true := by
  obtain ⟨ts, hd, ht⟩ := h.read
  obtain rfl := Tiled.eq_nil ht
  exact hd.all_nullable

theorem start_eq (h : Item text i e) (hd : e.dot = 0) : e.start = i := by
  obtain ⟨ts, hderives, ht⟩ := h.read
  rw [hd, List.take_zero] at hderives
  obtain rfl := hderives.nil_cases
  cases ht
  rfl

end Item

namespace Front

variable {text : List Char} {n i : Nat} {f : Front} {e : Edge}

theorem symbols_finished (hf : at? text n = some f) (hi : i ≤ n) {k : Nat} {q : Production}
    (h : Item text i (.finished k q)) {depth : Nat}
    (hdepth : (Edge.finished k q).weight i < depth) :
    (f.chart.children depth (.finished k q) i).map Tree.symbol = q.rhs := by
  have hw := q.le_weight q.rhs.length
  have hdot : (Edge.finished k q).dot < depth := by
    simp only [Edge.weight, Edge.finished] at hdepth ⊢
    omega
  rw [symbols_children hf hi h hdot]
  simp [Edge.finished]

/-- The constituent that a link names is read by the preferred production. -/
theorem exists_preferred (hf : at? text n = some f) (hi : i ≤ n) {k : Nat} {p : Production}
    (h : Item text i (.finished k p)) :
    ∃ q, f.chart.chosen? p.lhs k i = some q ∧ q.lhs = p.lhs ∧ Preferred text q k i := by
  obtain ⟨q, hq, hlhs, hitem⟩ := exists_chosen hf hi h
  refine ⟨q, hq, hlhs, hitem, fun r hr hread => ?_⟩
  rw [Chart.chosen?, ← hlhs] at hq
  obtain ⟨hmem, before, after, hsplit, hbefore⟩ := List.find?_eq_some_iff_append.mp hq
  have hnot : ∀ s, .finished k s ∈ f.chart.edges i → s ∉ before := by
    intro s hs hmem
    simpa [hs] using hbefore s hmem
  have hread := mem_edges_of_item hf hi hread (by simp [Edge.terminal?, Edge.next?_finished])
  rw [Production.place, Production.place, hr, hsplit,
    List.idxOf_append_of_notMem (hnot q (of_decide_eq_true hmem)),
    List.idxOf_append_of_notMem (hnot r hread), List.idxOf_cons_self]
  exact Nat.le_add_right _ _

/-- The trees that an edge is read as read the text from its start to its column. -/
theorem best_children (hf : at? text n = some f) (hi : i ≤ n) (h : Item text i e) {depth : Nat}
    (hdepth : e.weight i < depth) : Best text e.start (f.chart.children depth e i) i := by
  induction depth generalizing e i with
  | zero => omega
  | succ depth ih =>
    rw [Chart.children]
    cases hl : f.chart.firstLink? e i with
    | none =>
      have hd : e.dot = 0 := by
        by_contra hd
        obtain ⟨l, hl'⟩ := exists_firstLink hf hi h (Nat.pos_of_ne_zero hd)
        simp [hl] at hl'
      obtain rfl := h.start_eq hd
      exact .done _
    | some l =>
      cases justified_firstLink hf hl with
      | @token j k m d t hd hn hig hm =>
        have hjk := hig.le
        have hpos := Terminal.match?_pos hm
        have hlt : d.weight j < d.advance.weight (k + m) := hd.fits.weight_lt (by omega) _
        exact (ih (by omega) hd (by omega)).append (.leaf hig hm (.done _))
      | @constituent k _ d p hd hn hp =>
        obtain ⟨q, hq, hlhs, hpref⟩ := exists_preferred hf hi hp
        have hki : k ≤ i := hp.fits.start_le
        have hback : d.weight k < d.advance.weight i := by
          refine Edge.weight_lt_advance hd.fits hn hki ?_
          rintro rfl
          exact hp.nullable
        have hdown : (Edge.finished k q).weight i < d.advance.weight i := by
          refine Edge.weight_finished_lt_advance hlhs hn hd.fits.start_le hki fun heq => ?_
          subst heq
          exact hd.all_nullable
        have hlt : (Edge.finished k q).weight i < depth := by omega
        have hsyms := symbols_finished hf hi hpref.item hlt
        have hchild := ih hi hpref.item hlt
        simp only [hq, Option.map_some, Option.toList_some]
        exact (ih (Nat.le_trans hki hi) hd (by omega)).append (.node hpref hsyms hchild (.done _))

/-- At a place where a rule ends the chart is read as one tree for the text up to there. -/
theorem best_tree (hf : at? text n = some f) {stop : Nat} (hstop : stop ≤ n) {p : Production}
    (hp : p.lhs = .rule) (h : Item text stop (.finished 0 p)) :
    ∃ t, f.chart.tree? stop = some t ∧ t.symbol = .nonterminal .rule ∧ Best text 0 [t] stop := by
  obtain ⟨q, hq, hlhs, hpref⟩ := exists_preferred hf hstop h
  rw [hp] at hq hlhs
  have hdepth : (Edge.finished 0 q).weight stop < Chart.depthBound stop := by
    have hw := q.weight_lt_of_le q.rhs.length (Nat.lt_succ_self _)
    simp only [Edge.weight, Edge.finished, Chart.depthBound]
    omega
  refine ⟨.node q (f.chart.children (Chart.depthBound stop) (.finished 0 q) stop), ?_,
    congrArg Symbol.nonterminal hlhs, ?_⟩
  · rw [Chart.tree?, hq, Option.map_some]
  · exact .node hpref (symbols_finished hf hstop hpref.item hdepth)
      (best_children hf hstop hpref.item hdepth) (.done _)

end Front

namespace Tree

variable {text : List Char}

/-- The tree of a text reads it up to a place behind which there are only blanks and comments. -/
structure Reads (text : List Char) (t : Tree) (stop : Nat) : Prop where
  symbol : t.symbol = .nonterminal .rule
  forest : Forest text 0 [t] stop
  behind : Ignored text stop text.length

/-- The tree of a text is read by preferred productions. -/
theorem best_ofText {t : Tree} (h : ofText text = .ok t) :
    ∃ stop, t.symbol = .nonterminal .rule ∧ Best text 0 [t] stop ∧
      Ignored text stop text.length := by
  have ho : Front.Outcome text (Front.initial.run 0 text) := Front.outcome_run rfl (Nat.zero_le _)
  unfold ofText at h
  generalize Front.initial.run 0 text = r at h ho
  cases ho with
  | incomplete => contradiction
  | unexpected => contradiction
  | @complete f stop hf hc =>
    obtain ⟨⟨p, hp, hitem⟩, hi⟩ := (Front.stage_at? hf).complete _ hc
    obtain ⟨t', ht', hsym, hbest⟩ := Front.best_tree hf hi.le hp hitem
    simp only [bind, Except.bind, ht', Except.ok.injEq] at h
    subst h
    exact ⟨stop, hsym, hbest, hi⟩

theorem reads_ofText {t : Tree} (h : ofText text = .ok t) : ∃ stop, t.Reads text stop := by
  obtain ⟨stop, hsym, hbest, hi⟩ := best_ofText h
  exact ⟨stop, hsym, hbest.forest, hi⟩

/-- The leaves of the tree of a text are the tokens of a rule. -/
theorem Reads.isRuleOf {t : Tree} {stop : Nat} (h : t.Reads text stop) :
    IsRuleOf text t.tokens := by
  have htoks := h.forest.tokens
  have hderives := h.forest.derives
  simp only [tokensOfList, List.append_nil, List.map_cons, List.map_nil, h.symbol] at htoks hderives
  exact ⟨stop, htoks, h.behind, hderives⟩

end Tree

end Cddl

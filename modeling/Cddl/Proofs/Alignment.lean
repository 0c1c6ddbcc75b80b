import Cddl.Proofs.Relabel

/-!
Two texts in which the same tokens stand at different places. Where each match that something waits
for in one text has its counterpart in the other, the two are read alike: the same items, in columns
that correspond, found in the same order, so that the tree of one is the renamed tree of the other.
-/
namespace Cddl

open Front (at? waitingAt reads readsTo)

/-- The matches that something waits for in the two texts correspond to each other; `place` leads
from the offsets of the one to those of the other. -/
structure Aligned (a b : List Char) (place : Nat → Nat) : Prop where
  mono : StrictMono place
  forth : ∀ {h e v n} {t : Terminal}, Item a h e → Ignored a h v → t.match? (a.drop v) = some n →
    ∃ m, Ignored b (columnAt place h) (place v) ∧ t.match? (b.drop (place v)) = some m ∧
      place v + m = place (v + n)
  back : ∀ {h e u m} {t : Terminal}, Item a h e → Ignored b (columnAt place h) u →
    t.match? (b.drop u) = some m →
    ∃ v n, u = place v ∧ Ignored a h v ∧ t.match? (a.drop v) = some n ∧ place (v + n) = u + m

namespace Aligned

variable {a b : List Char} {place : Nat → Nat} {k : Nat} {e : Edge}

/-! ### Columns that agree -/

/-- What stands in corresponding columns in the same order. -/
structure Agree (a b : List Char) (place : Nat → Nat) (k : Nat) : Prop where
  edges : ∀ f g, at? a k = some f → at? b (columnAt place k) = some g →
    g.chart.edges (columnAt place k) = (f.chart.edges k).map (·.relabel place)
  links : ∀ f g, at? a k = some f → at? b (columnAt place k) = some g →
    g.chart.links (columnAt place k) =
      (f.chart.links k).map fun l => (l.1.relabel place, l.2.relabel place)
  waiting : waitingAt b (columnAt place k) = (waitingAt a k).map (·.relabel place)

/-- The column of a front that has just been entered. -/
structure Entered (f : Front) (c : OpenColumn) (k : Nat) : Prop where
  edges : f.chart.edges k = c.edges
  links : f.chart.links k = c.links
  waiting : f.waiting = c.waiting

theorem entered (chart : Chart) (arrivals : List Arrival) (pending : List Pending)
    (carried? : Option Nat) :
    Entered (Front.enter chart arrivals pending carried?) (.ofArrivals chart arrivals)
      chart.size := by
  rw [Front.enter_eq]
  exact ⟨Chart.edges_push_size _ _, Chart.links_push_size _ _, rfl⟩

theorem entered_moved {text : List Char} {i : Nat} {f : Front} {e : Edge}
    (hf : at? text (i + 1) = some f) (he : Item text (i + 1) e) :
    ∃ g, at? text i = some g ∧
      Entered f (.ofArrivals g.chart ((readsTo text (i + 1)).map .found)) (i + 1) ∧
      ∀ d, Reached g.chart g.chart.size ((readsTo text (i + 1)).map .found) d →
        d.edge.Fits g.chart.size := by
  obtain ⟨g, hg, hstep⟩ := Option.bind_eq_some_iff.mp hf
  have hsize := (Front.stage_at? hg).size
  have hadmits := (Front.stage_at? hg).admits_moved
  rw [Front.arrivals_eq hg he] at hadmits
  refine ⟨g, hg, ?_, fun d hd => hadmits.fits hd⟩
  rw [Front.eq_moved_of_step? hstep, Front.moved, Front.arrivals_eq hg he, ← hsize]
  exact entered _ _ _ _

theorem agree_of_entered {f g : Front} {c : OpenColumn} (hf : at? a k = some f)
    (hg : at? b (columnAt place k) = some g) (hc : Entered f c k)
    (hc' : Entered g (c.relabel place) (columnAt place k)) : Agree a b place k := by
  constructor
  · intro f' g' hf' hg'
    rw [hf] at hf'
    rw [hg] at hg'
    cases hf'
    cases hg'
    rw [hc.edges, hc'.edges]
    rfl
  · intro f' g' hf' hg'
    rw [hf] at hf'
    rw [hg] at hg'
    cases hf'
    cases hg'
    rw [hc.links, hc'.links]
    rfl
  · rw [Front.waitingAt_eq hf, Front.waitingAt_eq hg, hc.waiting, hc'.waiting]
    rfl

/-! ### Columns without items -/

theorem edges_eq_nil {text : List Char} {n k : Nat} {f : Front} (hf : at? text n = some f)
    (hnone : ∀ e, ¬ Item text k e) : f.chart.edges k = [] :=
  List.eq_nil_iff_forall_not_mem.mpr fun e he =>
    hnone e ((Front.stage_at? hf).sound.edges k e he)

theorem links_eq_nil {text : List Char} {n k : Nat} {f : Front} (hf : at? text n = some f)
    (hnone : ∀ e, ¬ Item text k e) : f.chart.links k = [] :=
  List.eq_nil_iff_forall_not_mem.mpr fun l hl =>
    hnone l.1 ((Front.stage_at? hf).sound.links k l.1 l.2 hl).item

/-! ### Offsets in order -/

theorem flatMap_range_place {α : Type} {place : Nat → Nat} (hplace : StrictMono place)
    {f : Nat → List α} (k : Nat)
    (h : ∀ u < place k, (∀ v < k, u ≠ place v) → f u = []) :
    (List.range (place k)).flatMap f = (List.range k).flatMap fun v => f (place v) := by
  induction k with
  | zero =>
    rw [List.range_zero, List.flatMap_nil, List.flatMap_eq_nil_iff]
    intro u hu
    exact h u (List.mem_range.mp hu) fun v hv => absurd hv (Nat.not_lt_zero v)
  | succ k ih =>
    have hlt : place k < place (k + 1) := hplace (Nat.lt_succ_self k)
    obtain ⟨d, hd⟩ := Nat.exists_eq_add_of_lt hlt
    -- no offset between `place k` and `place (k + 1)` corresponds to any
    have hbetween : ((List.range d).map (place k + 1 + ·)).flatMap f = [] := by
      rw [List.flatMap_eq_nil_iff]
      intro u hu
      obtain ⟨i, hi, rfl⟩ := List.mem_map.mp hu
      have hi := List.mem_range.mp hi
      refine h _ (by omega) ?_
      intro v hv heq
      have hle : place v ≤ place k := hplace.monotone (Nat.lt_succ_iff.mp hv)
      omega
    rw [hd, Nat.add_right_comm, List.range_add, List.flatMap_append, hbetween, List.append_nil,
      List.range_succ, List.flatMap_append, List.flatMap_singleton, List.range_succ,
      List.flatMap_append, List.flatMap_singleton, ih]
    intro u hu hne
    refine h u (Nat.lt_trans hu hlt) ?_
    intro v hv
    rcases Nat.lt_succ_iff_lt_or_eq.mp hv with hv | rfl
    · exact hne v hv
    · exact Nat.ne_of_lt hu

variable (h : Aligned a b place)

include h

/-! ### Items -/

theorem item (he : Item a k e) : Item b (columnAt place k) (e.relabel place) := by
  induction he with
  | start p hp => exact .start p hp
  | predict p _ hn ih => exact ih.predict p hn
  | @scan i k n e t he hn hi hm ih =>
    obtain ⟨m, hi', hm', hplace⟩ := h.forth he hi hm
    have hpos := Terminal.match?_pos hm
    have hcolumn : columnAt place (k + n) = place (k + n) := columnAt_of_pos (by omega)
    rw [hcolumn, ← hplace]
    exact ih.scan hn hi' hm'
  | complete p _ hn _ ih ih' => exact ih.complete p hn ih'

/-- Every item of the second text is a renamed one of the first. -/
theorem exists_item {k' : Nat} {e' : Edge} (he : Item b k' e') :
    ∃ k e, Item a k e ∧ k' = columnAt place k ∧ e' = e.relabel place := by
  induction he with
  | start p hp => exact ⟨0, .fresh 0 p, .start p hp, rfl, rfl⟩
  | predict p _ hn ih =>
    obtain ⟨k, e, he, rfl, rfl⟩ := ih
    exact ⟨k, .fresh k p, he.predict p hn, rfl, rfl⟩
  | scan _ hn hi hm ih =>
    obtain ⟨k, e, he, rfl, rfl⟩ := ih
    obtain ⟨v, n, rfl, hi', hm', hplace⟩ := h.back he hi hm
    have hpos := Terminal.match?_pos hm'
    have hcolumn : columnAt place (v + n) = place (v + n) := columnAt_of_pos (by omega)
    exact ⟨v + n, e.advance, he.scan hn hi' hm', by rw [hcolumn, hplace], rfl⟩
  | complete p _ hn _ ih ih' =>
    obtain ⟨k, e, he, rfl, rfl⟩ := ih
    obtain ⟨j, d, hd, rfl, hfinished⟩ := ih'
    have hd' : d = .finished k p := by
      rw [← Edge.relabel_finished, eq_comm] at hfinished
      exact (Edge.relabel_inj h.mono).mp hfinished
    subst hd'
    exact ⟨j, e.advance, he.complete p hn hd, rfl, rfl⟩

theorem waits {w : Waiting} {i j : Nat} (hw : Waits a i w)
    (hj : Ignored b (columnAt place w.home) j) : Waits b j (w.relabel place) :=
  ⟨h.item hw.item, hw.terminal, hj⟩

/-! ### What is read, and in which order -/

/-- Where the columns agree, so does what was carried from them. -/
theorem waitingAt_of_agree {w : Waiting} {i j : Nat} (hw : Waits a i w)
    (hagree : Agree a b place w.home) (hj : Ignored b (columnAt place w.home) j) :
    waitingAt b j = (waitingAt a i).map (·.relabel place) := by
  have hb := Front.waitingAt_home (h.waits hw hj)
  rw [hb, Front.waitingAt_home hw]
  exact hagree.waiting

/-- No token stands at the corresponding place where none stands in the first text. -/
theorem match?_eq_none {u w : Waiting} {v : Nat} {s : Terminal} (hu : Waits a v u)
    (hw : Waits a v w) (hi : Ignored b (columnAt place w.home) (place v)) (hs : s.match? (a.drop v) = none) :
    s.match? (b.drop (place v)) = none := by
  cases hr : s.match? (b.drop (place v)) with
  | none => rfl
  | some r =>
    have hhome := hu.item.home_unique hw.item hu.ignored hw.ignored
    obtain ⟨v', l, hv, -, hl, -⟩ := h.back hu.item (hhome ▸ hi) hr
    rw [← h.mono.injective hv, hs] at hl
    contradiction

/-- Where a token stands, what waits for it in the one text waits for it in the other. -/
theorem reads_eq_of_match {v n : Nat} {w : Waiting} {t : Terminal}
    (hagree : ∀ l ≤ v, ∀ d, Item a l d → Agree a b place l) (hw : Waits a v w)
    (hm : t.match? (a.drop v) = some n) (k : Nat) :
    reads b (place v) (place k) = (reads a v k).map (·.relabel place) := by
  obtain ⟨-, hi, -, -⟩ := h.forth hw.item hw.ignored hm
  have hwaiting := h.waitingAt_of_agree hw (hagree _ hw.ignored.le _ hw.item) hi
  rw [reads, hwaiting, List.filterMap_map, reads, List.map_filterMap]
  apply List.filterMap_congr
  intro u hu
  have hu := Front.mem_waitingAt_iff.mp hu
  simp only [Function.comp_apply, Waiting.relabel, Edge.terminal?_relabel]
  cases ht : u.edge.terminal? with
  | none => rfl
  | some s =>
    simp only [Option.bind_eq_bind, Option.bind_some]
    cases hs : s.match? (a.drop v) with
    | some l =>
      obtain ⟨r, -, hr, hplace⟩ := h.forth hu.item hu.ignored hs
      rw [hr]
      simp only [Option.bind_some, hplace, h.mono.injective.eq_iff]
      split
      · rfl
      · rfl
    | none =>
      rw [h.match?_eq_none hu hw hi hs]
      rfl

theorem reads_eq {v : Nat} (hagree : ∀ l ≤ v, ∀ d, Item a l d → Agree a b place l) (k : Nat) :
    reads b (place v) (place k) = (reads a v k).map (·.relabel place) := by
  -- either nothing waits on either side, or the lists of what waits correspond
  cases hlist : reads a v k with
  | cons d ds =>
    have hd : d ∈ reads a v k := hlist ▸ List.mem_cons_self
    obtain ⟨w, t, n, hw, -, hm, -, -⟩ := Front.mem_reads_iff.mp hd
    rw [← hlist]
    exact h.reads_eq_of_match hagree hw hm k
  | nil =>
    cases hlist' : reads b (place v) (place k) with
    | nil => rfl
    | cons d ds =>
      have hd : d ∈ reads b (place v) (place k) := hlist' ▸ List.mem_cons_self
      obtain ⟨w', t, m, hw', -, hm, -, -⟩ := Front.mem_reads_iff.mp hd
      obtain ⟨l, d, hitem, hhome, hedge⟩ := h.exists_item hw'.item
      obtain ⟨v', n, hv, hi, hn, -⟩ := h.back hitem (hhome ▸ hw'.ignored) hm
      obtain rfl := h.mono.injective hv
      have hw : Waits a v ⟨d, l⟩ := ⟨hitem, by simpa [hedge] using hw'.terminal, hi⟩
      rw [← hlist', h.reads_eq_of_match hagree hw hn k, hlist]

/-- What is read up to corresponding columns corresponds, in the same order. -/
theorem readsTo_eq (hagree : ∀ l < k, ∀ d, Item a l d → Agree a b place l) :
    readsTo b (place k) = (readsTo a k).map (·.relabel place) := by
  rw [readsTo, flatMap_range_place h.mono, readsTo, List.map_flatMap]
  · apply List.flatMap_congr
    intro v hv
    have hv := List.mem_range.mp hv
    exact h.reads_eq (fun l hl => hagree l (by omega)) k
  · intro u hu hne
    refine List.eq_nil_iff_forall_not_mem.mpr fun d hd => ?_
    obtain ⟨w, t, m, hw, -, hm, -, -⟩ := Front.mem_reads_iff.mp hd
    obtain ⟨l, d, hitem, hhome, -⟩ := h.exists_item hw.item
    obtain ⟨v, n, rfl, -, -, -⟩ := h.back hitem (hhome ▸ hw.ignored) hm
    exact hne v (h.mono.lt_iff_lt.mp hu) rfl

/-! ### Columns -/

theorem no_item (hnone : ∀ e, ¬ Item a k e) (e : Edge) : ¬ Item b (columnAt place k) e := by
  intro he
  obtain ⟨l, d, hd, hk, -⟩ := h.exists_item he
  rw [← (columnAt_inj h.mono).mp hk] at hd
  exact hnone d hd

theorem edgesFollow_of_agree {n m : Nat} {f g : Front} (hf : at? a n = some f)
    (hg : at? b m = some g) {i : Nat} (hn : i ≤ n + 1) (hm : ∀ k < i, columnAt place k ≤ m)
    (hagree : ∀ l < i, ∀ d, Item a l d → Agree a b place l) :
    f.chart.EdgesFollow g.chart place i := by
  intro k hk
  by_cases hitem : ∃ e, Item a k e
  · obtain ⟨e, he⟩ := hitem
    obtain ⟨f', hf', -⟩ := Front.stands_of_item he
    obtain ⟨g', hg', -⟩ := Front.stands_of_item (h.item he)
    rw [(Front.column_at? hf' hf (by omega)).1, (Front.column_at? hg' hg (hm k hk)).1]
    exact (hagree k hk e he).edges f' g' hf' hg'
  · have hnone : ∀ e, ¬ Item a k e := not_exists.mp hitem
    rw [edges_eq_nil hf hnone, edges_eq_nil hg (h.no_item hnone)]
    rfl

/-- The first columns agree: both hold what the productions for rules call for. -/
theorem agree_zero : Agree a b place 0 := by
  have hfound : (Nonterminal.rule.productions.map fun p => Arrival.found ⟨.fresh 0 p, none⟩) =
      (Nonterminal.rule.productions.map fun p => (⟨.fresh 0 p, none⟩ : Found)).map .found := by
    rw [List.map_map]
    rfl
  have hfits := fun d hd => (Front.admits_initial a).fits (f := d) hd
  rw [hfound] at hfits
  have hcolumn := OpenColumn.ofArrivals_relabel (b := #[]) h.mono hfits rfl
    (fun k hk => absurd hk (Nat.not_lt_zero k))
  have hentered : Entered Front.initial _ 0 := entered _ _ _ _
  rw [hfound] at hentered
  refine agree_of_entered (f := Front.initial) (g := Front.initial) rfl rfl hentered ?_
  rw [← hcolumn]
  exact hentered

/-- Corresponding columns agree. -/
theorem agree (he : Item a k e) : Agree a b place k := by
  induction k using Nat.strong_induction_on generalizing e with
  | _ k ih =>
    rcases Nat.eq_zero_or_pos k with rfl | hpos
    · exact h.agree_zero
    obtain ⟨i, rfl⟩ : ∃ i, k = i + 1 := ⟨k - 1, by omega⟩
    have he' := h.item he
    obtain ⟨f, hf, -⟩ := Front.stands_of_item he
    obtain ⟨g, hg, -⟩ := Front.stands_of_item he'
    obtain ⟨f', hf', hentered, hfits⟩ := entered_moved hf he
    have hcolumn : columnAt place (i + 1) = place (i + 1) := columnAt_of_pos hpos
    have hplace : 0 < place (i + 1) :=
      Nat.lt_of_le_of_lt (Nat.zero_le _) (h.mono (Nat.lt_succ_self i))
    obtain ⟨j, hj⟩ : ∃ j, columnAt place (i + 1) = j + 1 := ⟨columnAt place (i + 1) - 1, by omega⟩
    have hg' := hg
    rw [hj] at hg' he'
    obtain ⟨g', hg', hentered', -⟩ := entered_moved hg' he'
    have hsize := (Front.stage_at? hf').size
    have hsize' := (Front.stage_at? hg').size
    have hreads := h.readsTo_eq (k := i + 1) fun l hl d hd => ih l hl hd
    rw [← hcolumn, hj] at hreads
    refine agree_of_entered hf hg hentered ?_
    rw [hj, ← OpenColumn.ofArrivals_relabel h.mono hfits (by rw [hsize', hsize, hj]), ← hreads]
    · exact hentered'
    · rw [hsize]
      refine h.edgesFollow_of_agree hf' hg' (Nat.le_refl _) ?_ fun l hl d hd => ih l hl hd
      intro l hl
      have hlt := strictMono_columnAt h.mono hl
      omega

/-- Corresponding charts: every column of the one is the renamed column of the other. -/
theorem follows {n m : Nat} {f g : Front} (hf : at? a n = some f) (hg : at? b m = some g)
    (hn : ∀ k e, Item a k e → k ≤ n ∧ columnAt place k ≤ m) : f.chart.Follows g.chart place := by
  constructor
  · intro k
    by_cases hitem : ∃ e, Item a k e
    · obtain ⟨e, he⟩ := hitem
      obtain ⟨hkn, hkm⟩ := hn k e he
      obtain ⟨f', hf', -⟩ := Front.stands_of_item he
      obtain ⟨g', hg', -⟩ := Front.stands_of_item (h.item he)
      rw [(Front.column_at? hf' hf hkn).1, (Front.column_at? hg' hg hkm).1]
      exact (h.agree he).edges f' g' hf' hg'
    · have hnone : ∀ e, ¬ Item a k e := not_exists.mp hitem
      rw [edges_eq_nil hf hnone, edges_eq_nil hg (h.no_item hnone)]
      rfl
  · intro k
    by_cases hitem : ∃ e, Item a k e
    · obtain ⟨e, he⟩ := hitem
      obtain ⟨hkn, hkm⟩ := hn k e he
      obtain ⟨f', hf', -⟩ := Front.stands_of_item he
      obtain ⟨g', hg', -⟩ := Front.stands_of_item (h.item he)
      rw [(Front.column_at? hf' hf hkn).2, (Front.column_at? hg' hg hkm).2]
      exact (h.agree he).links f' g' hf' hg'
    · have hnone : ∀ e, ¬ Item a k e := not_exists.mp hitem
      rw [links_eq_nil hf hnone, links_eq_nil hg (h.no_item hnone)]
      rfl

end Aligned

/-- Nothing is read beyond the end of a text. -/
theorem Item.le_length {text : List Char} {k : Nat} {e : Edge} (h : Item text k e) :
    k ≤ text.length := by
  induction h with
  | start p hp => exact Nat.zero_le _
  | predict p _ _ ih => exact ih
  | scan _ _ _ hm _ =>
    have hpos := Terminal.match?_pos hm
    have hle := Terminal.match?_le hm
    rw [List.length_drop] at hle
    omega
  | complete p _ _ _ _ ih' => exact ih'

namespace Aligned

variable {a b : List Char} {place : Nat → Nat} (h : Aligned a b place)

include h

theorem chart_follows {f g : Front} (hf : at? a a.length = some f) (hg : at? b b.length = some g) :
    f.chart.Follows g.chart place :=
  h.follows hf hg fun _ _ he => ⟨he.le_length, (h.item he).le_length⟩

/-- The tree of the one text is read where the tree of the other is. -/
theorem tree? {f g : Front} (hf : at? a a.length = some f) (hg : at? b b.length = some g)
    {stop : Nat} {p : Production} (hp : p.lhs = .rule) (he : Item a stop (.finished 0 p)) :
    g.chart.tree? (columnAt place stop) = (f.chart.tree? stop).map (·.relabel place) := by
  have hfollows := h.chart_follows hf hg
  have hchosen := hfollows.chosen? h.mono .rule 0 stop
  rw [columnAt_zero] at hchosen
  rw [Chart.tree?, Chart.tree?, hchosen]
  obtain ⟨q, hq, hlhs, hitem⟩ := Front.exists_chosen hf he.le_length he
  rw [hp] at hq
  have hmore : Chart.depthBound stop ≤ Chart.depthBound (columnAt place stop) := by
    have hle := (strictMono_columnAt h.mono).le_apply (x := stop)
    simp only [Chart.depthBound]
    omega
  have hdepth : (Edge.finished 0 q).weight stop < Chart.depthBound stop := by
    have hw := q.weight_lt_of_le q.rhs.length (Nat.lt_succ_self _)
    simp only [Edge.weight, Edge.finished, Chart.depthBound]
    omega
  have hchildren :=
    hfollows.children h.mono (Chart.depthBound (columnAt place stop)) (.finished 0 q) stop
  rw [Front.children_of_le hf he.le_length hitem hdepth hmore] at hchildren
  simp only [hq, Option.map_some, Tree.relabel, ← hchildren]
  rfl

/-- A text that is read alike up to its end has the renamed tree. -/
theorem ofText (hend : ∀ k e, Item a k e → Ignored a k a.length →
    Ignored b (columnAt place k) b.length) {t : Tree} (ht : Tree.ofText a = .ok t) :
    Tree.ofText b = .ok (t.relabel place) := by
  have ho : Front.Outcome a (Front.initial.run 0 a) := Front.outcome_run rfl (Nat.zero_le _)
  unfold Tree.ofText at ht
  generalize Front.initial.run 0 a = r at ht ho
  cases ho with
  | incomplete => contradiction
  | unexpected => contradiction
  | @complete f stop hf hc =>
    obtain ⟨⟨p, hp, hitem⟩, hi⟩ := (Front.stage_at? hf).complete _ hc
    have htree : f.chart.tree? stop = some t := by
      cases htree : f.chart.tree? stop with
      | none => simp [bind, Except.bind, htree] at ht
      | some t' =>
        simp only [bind, Except.bind, htree, Except.ok.injEq] at ht
        rw [ht]
    have hitem' := h.item hitem
    have hi' := hend stop _ hitem hi
    obtain ⟨⟨chart, stop'⟩, hrun⟩ :=
      Front.run_initial_isOk_iff.mpr (isRule_iff_item.mpr ⟨p, _, hp, hitem', hi'⟩)
    have ho' : Front.Outcome b (Front.initial.run 0 b) := Front.outcome_run rfl (Nat.zero_le _)
    rw [hrun] at ho'
    cases ho' with
    | @complete g _ hg hc' =>
      obtain ⟨⟨q, -, hq⟩, hiq⟩ := (Front.stage_at? hg).complete _ hc'
      obtain rfl := hq.home_unique hitem' hiq hi'
      simp only [Tree.ofText, hrun, bind, Except.bind, h.tree? hf hg hp hitem, htree,
        Option.map_some]

end Aligned

end Cddl

import Cddl.Proofs.Item

/-!
What the fronts of a reading stand for. Every edge and every link of a chart is justified by items
of the text, what waits or is pending stands for items as well, and a front that is complete has
passed the end of a rule. One step of the front preserves this.
-/
namespace Cddl

/-- What may be found in the column `k`: a fresh edge, or an edge that has read one more piece,
which its link names. -/
inductive Justified (text : List Char) : Nat → Found → Prop where
  | fresh {k p} : Item text k (.fresh k p) → Justified text k ⟨.fresh k p, none⟩
  | token {i k n e t} : Item text i e → e.next? = some (.terminal t) → Ignored text i k →
      t.match? (text.drop k) = some n →
      Justified text (k + n) ⟨e.advance, some ⟨i, .token ⟨t, k, k + n⟩⟩⟩
  | constituent {k j e} (p : Production) : Item text k e → e.next? = some (.nonterminal p.lhs) →
      Item text j (.finished k p) →
      Justified text j ⟨e.advance, some ⟨k, .constituent p.lhs⟩⟩

theorem Justified.item {text : List Char} {k : Nat} {f : Found} (h : Justified text k f) :
    Item text k f.edge := by
  cases h with
  | fresh h => exact h
  | token he hn hi hm => exact he.scan hn hi hm
  | constituent p he hn hp => exact he.complete p hn hp

theorem Justified.linked {text : List Char} {k : Nat} {f : Found} (h : Justified text k f)
    (hd : 0 < f.edge.dot) : ∃ l, f.link? = some l := by
  cases h with
  | fresh => contradiction
  | token => exact ⟨_, rfl⟩
  | constituent => exact ⟨_, rfl⟩

/-- Where a constituent that may be empty is called for, it is read as empty. -/
theorem Item.empty_constituent {text : List Char} {k : Nat} {e : Edge} {n : Nonterminal}
    (h : Item text k e) (hn : e.next? = some (.nonterminal n)) (hnull : n.nullable = true) :
    ∃ p : Production, p.lhs = n ∧ Item text k (.finished k p) := by
  have hchoice : ∀ {d : Edge}, Item text k d → d.next? = some (.nonterminal .choice) →
      Item text k (.finished k .choiceEmpty) := fun hd hn => hd.predict .choiceEmpty hn
  cases n with
  | choice => exact ⟨.choiceEmpty, rfl, hchoice h hn⟩
  | group =>
    have hg : Item text k (.fresh k .groupOne) := h.predict .groupOne hn
    exact ⟨.groupOne, rfl, hg.complete .choiceEmpty rfl (hchoice hg rfl)⟩
  | _ => contradiction

namespace Chart

theorem edges_push_of_lt {chart : Chart} {c : Column} {k : Nat} (h : k < chart.size) :
    edges (chart.push c) k = chart.edges k := by
  simp [edges, Array.getElem?_push, Nat.ne_of_lt h]

theorem edges_push_size (chart : Chart) (c : Column) :
    edges (chart.push c) chart.size = c.edges := by
  simp [edges]

theorem links_push_of_lt {chart : Chart} {c : Column} {k : Nat} (h : k < chart.size) :
    links (chart.push c) k = chart.links k := by
  simp [links, Array.getElem?_push, Nat.ne_of_lt h]

theorem links_push_size (chart : Chart) (c : Column) :
    links (chart.push c) chart.size = c.links := by
  simp [links]

theorem edges_of_size_le {chart : Chart} {k : Nat} (h : chart.size ≤ k) : chart.edges k = [] := by
  simp [edges, Array.getElem?_eq_none h]

theorem links_of_size_le {chart : Chart} {k : Nat} (h : chart.size ≤ k) : chart.links k = [] := by
  simp [links, Array.getElem?_eq_none h]

/-- The consequences of an edge of the last column depend on the columns before it only. -/
theorem consequences_push_size (chart : Chart) (c : Column) (e : Edge) :
    consequences (chart.push c) chart.size e = chart.consequences chart.size e := by
  unfold consequences
  split
  · split
    next h => rw [edges_push_of_lt h]
    next => rfl
  · rfl
  · rfl

/-- All that stands in the chart is justified by the text. -/
structure Sound (text : List Char) (chart : Chart) : Prop where
  edges : ∀ k, ∀ e ∈ chart.edges k, Item text k e
  links : ∀ k e l, (e, l) ∈ chart.links k → Justified text k ⟨e, some l⟩

theorem Sound.empty (text : List Char) : Sound text #[] :=
  ⟨fun k e he => by simp [Chart.edges] at he, fun k e l hl => by simp [Chart.links] at hl⟩

theorem Sound.push {text : List Char} {chart : Chart} {c : Column} (h : Sound text chart)
    (he : ∀ e ∈ c.edges, Item text chart.size e)
    (hl : ∀ e l, (e, l) ∈ c.links → Justified text chart.size ⟨e, some l⟩) :
    Sound text (chart.push c) := by
  constructor
  · intro k e hmem
    rcases Nat.lt_trichotomy k chart.size with hk | rfl | hk
    · exact h.edges k e (edges_push_of_lt hk ▸ hmem)
    · exact he e (edges_push_size chart c ▸ hmem)
    · rw [edges_of_size_le (by simpa using Nat.succ_le_of_lt hk)] at hmem
      contradiction
  · intro k e l hmem
    rcases Nat.lt_trichotomy k chart.size with hk | rfl | hk
    · exact h.links k e l (links_push_of_lt hk ▸ hmem)
    · exact hl e l (links_push_size chart c ▸ hmem)
    · rw [links_of_size_le (by simpa using Nat.succ_le_of_lt hk)] at hmem
      contradiction

theorem Sound.consequence {text : List Char} {chart : Chart} (h : Sound text chart) {k : Nat}
    {e : Edge} (he : Item text k e) {f : Found} (hf : f ∈ chart.consequences k e) :
    Justified text k f := by
  rcases mem_consequences_iff.mp hf with
    ⟨hnone, -, caller, hmem, hnext, rfl⟩ | ⟨p, hnext, rfl⟩ | ⟨n, hnext, hnull, rfl⟩
  · have hfin := he.fits.eq_finished hnone
    exact .constituent _ (h.edges _ _ hmem) hnext (hfin ▸ he)
  · exact .fresh (he.predict p hnext)
  · obtain ⟨p, rfl, hp⟩ := he.empty_constituent hnext hnull
    exact .constituent p he hnext hp

theorem Sound.reached {text : List Char} {chart : Chart} (h : Sound text chart)
    {arrivals : List Arrival} {k : Nat} (ha : ∀ f, .found f ∈ arrivals → Justified text k f)
    {f : Found} (hf : Reached chart k arrivals f) : Justified text k f := by
  induction hf with
  | arrival hf => exact ha _ hf
  | consequence _ hg ih => exact h.consequence ih.item hg

end Chart

/-- At the offset `i` an edge still waits for its terminal: behind its column are blanks only. -/
structure Waits (text : List Char) (i : Nat) (w : Waiting) : Prop where
  item : Item text w.home w.edge
  terminal : w.edge.terminal?.isSome
  ignored : Ignored text w.home i

/-- A rule ends in the column `k`, and there are blanks only from there to the offset `i`. -/
structure EndsAt (text : List Char) (k i : Nat) : Prop where
  item : ∃ p, p.lhs = .rule ∧ Item text k (.finished 0 p)
  ignored : Ignored text k i

/-- Blanks move what waits, and the end of a rule, from `i` to their end. -/
theorem Waits.over_blanks {text : List Char} {i n : Nat} {w : Waiting} (h : Waits text i w)
    (hn : Lexeme.ignored? (text.drop i) = some n) : Waits text (i + n) w :=
  ⟨h.item, h.terminal, h.ignored.trans (.next hn (.done _))⟩

theorem EndsAt.over_blanks {text : List Char} {k i n : Nat} (h : EndsAt text k i)
    (hn : Lexeme.ignored? (text.drop i) = some n) : EndsAt text k (i + n) :=
  ⟨h.item, h.ignored.trans (.next hn (.done _))⟩

/-- What a pending match stands for. -/
inductive Pending.Sound (text : List Char) : Pending → Prop where
  | token {w k n t} : Waits text k w → w.edge.next? = some (.terminal t) →
      t.match? (text.drop k) = some n → Sound text (.token w ⟨t, k, k + n⟩)
  | blanks {stop waiting complete?} : (∀ w ∈ waiting, Waits text stop w) →
      (∀ k, complete? = some k → EndsAt text k stop) →
      Sound text (.blanks stop waiting complete?)

theorem Pending.Sound.found {text : List Char} {q : Pending} (h : q.Sound text) {f : Found}
    (hf : .found f ∈ q.arrivals) : Justified text q.stop f := by
  cases h with
  | token hw hn hm =>
    cases List.mem_singleton.mp hf
    exact .token hw.item hn hw.ignored hm
  | blanks => simp [arrivals] at hf

theorem Pending.Sound.carried {text : List Char} {q : Pending} (h : q.Sound text) {w : Waiting}
    (hw : .carried w ∈ q.arrivals) : Waits text q.stop w := by
  cases h with
  | token => simp [arrivals] at hw
  | blanks hwaiting _ =>
    simp only [arrivals, List.mem_map, Arrival.carried.injEq, exists_eq_right] at hw
    exact hwaiting w hw

theorem Pending.Sound.complete {text : List Char} {q : Pending} (h : q.Sound text) {k : Nat}
    (hk : q.complete? = some k) : EndsAt text k q.stop := by
  cases h with
  | token => contradiction
  | blanks _ hcomplete => exact hcomplete k hk

namespace Front

/-- The edge is in the column `k` of a front that stands there, and has a link if it has read
anything. -/
structure Stands (f : Front) (k : Nat) (e : Edge) : Prop where
  edge : e.terminal? = none → e ∈ f.chart.edges k
  waiting : e.terminal?.isSome → ⟨e, k⟩ ∈ f.waiting
  linked : 0 < e.dot → ∃ l, (e, l) ∈ f.chart.links k

/-- A front that stands at the offset `i`: all it holds is sound, and its last column is closed. -/
structure Stage (text : List Char) (i : Nat) (f : Front) : Prop where
  size : f.chart.size = i + 1
  sound : f.chart.Sound text
  waiting : ∀ w ∈ f.waiting, Waits text i w
  pending : ∀ q ∈ f.pending, q.Sound text
  complete : ∀ k, f.complete? = some k → EndsAt text k i
  closed : ∀ e ∈ f.chart.edges i, ∀ g ∈ f.chart.consequences i e, f.Stands i g.edge
  ending : ∀ p, p.lhs = .rule → .finished 0 p ∈ f.chart.edges i → f.complete?.isSome

theorem enter_eq (chart : Chart) (arrivals : List Arrival) (pending : List Pending)
    (carried? : Option Nat) :
    enter chart arrivals pending carried? =
      ⟨chart.push (OpenColumn.ofArrivals chart arrivals).column,
        (OpenColumn.ofArrivals chart arrivals).waiting, pending,
        if Nonterminal.rule.productions.any fun p =>
            Edge.finished 0 p ∈ (OpenColumn.ofArrivals chart arrivals).edges
          then some chart.size else carried?⟩ := rfl

/-- What has to hold of all that a new column is made from. -/
structure Admits (text : List Char) (chart : Chart) (arrivals : List Arrival)
    (pending : List Pending) (carried? : Option Nat) : Prop where
  sound : chart.Sound text
  found : ∀ f, .found f ∈ arrivals → Justified text chart.size f
  carried : ∀ w, .carried w ∈ arrivals → Waits text chart.size w
  pending : ∀ q ∈ pending, q.Sound text
  complete : ∀ k, carried? = some k → EndsAt text k chart.size

namespace Admits

variable {text : List Char} {chart : Chart} {arrivals : List Arrival} {pending : List Pending}
  {carried? : Option Nat}

theorem justified (h : Admits text chart arrivals pending carried?) {f : Found}
    (hf : Reached chart chart.size arrivals f) : Justified text chart.size f :=
  h.sound.reached h.found hf

theorem fits (h : Admits text chart arrivals pending carried?) {f : Found}
    (hf : Reached chart chart.size arrivals f) : f.edge.Fits chart.size :=
  (h.justified hf).item.fits

theorem stands (h : Admits text chart arrivals pending carried?) {f : Found}
    (hf : Reached chart chart.size arrivals f) :
    (enter chart arrivals pending carried?).Stands chart.size f.edge := by
  have hr := OpenColumn.records_ofArrivals (fun _ hg => h.fits hg) hf
  rw [enter_eq]
  refine ⟨?_, hr.waiting, ?_⟩
  · intro ht
    simp only [Chart.edges_push_size]
    exact hr.edge ht
  · intro hd
    obtain ⟨l, hl⟩ := (h.justified hf).linked hd
    simp only [Chart.links_push_size]
    exact ⟨l, hr.link l hl⟩

theorem reached (h : Admits text chart arrivals pending carried?) {e : Edge}
    (he : e ∈ (enter chart arrivals pending carried?).chart.edges chart.size) :
    ∃ f, Reached chart chart.size arrivals f ∧ f.edge = e := by
  simp only [enter_eq, Chart.edges_push_size] at he
  exact ((OpenColumn.mem_edges_ofArrivals fun _ hg => h.fits hg).mp he).2

theorem sound_chart (h : Admits text chart arrivals pending carried?) :
    (enter chart arrivals pending carried?).chart.Sound text := by
  rw [enter_eq]
  refine h.sound.push ?_ ?_
  · intro e he
    obtain ⟨-, f, hf, rfl⟩ := (OpenColumn.mem_edges_ofArrivals fun _ hg => h.fits hg).mp he
    exact (h.justified hf).item
  · intro e l hl
    exact h.justified ((OpenColumn.mem_links_ofArrivals fun _ hg => h.fits hg).mp hl)

theorem sound_waiting (h : Admits text chart arrivals pending carried?) {w : Waiting}
    (hw : w ∈ (enter chart arrivals pending carried?).waiting) : Waits text chart.size w := by
  rw [enter_eq] at hw
  rcases (OpenColumn.mem_waiting_ofArrivals fun _ hg => h.fits hg).mp hw with
    hw | ⟨hhome, ht, f, hf, he⟩
  · exact h.carried w hw
  · exact ⟨by rw [hhome, ← he]; exact (h.justified hf).item, ht, hhome ▸ .done _⟩

theorem carries (h : Admits text chart arrivals pending carried?) {w : Waiting}
    (hw : .carried w ∈ arrivals) : w ∈ (enter chart arrivals pending carried?).waiting := by
  rw [enter_eq]
  exact (OpenColumn.mem_waiting_ofArrivals fun _ hg => h.fits hg).mpr (.inl hw)

theorem sound_complete (h : Admits text chart arrivals pending carried?) {k : Nat}
    (hk : (enter chart arrivals pending carried?).complete? = some k) :
    EndsAt text k chart.size := by
  simp only [enter_eq] at hk
  split at hk
  next hany =>
    cases hk
    obtain ⟨p, hp, hmem⟩ := List.any_eq_true.mp hany
    obtain ⟨-, f, hf, he⟩ := (OpenColumn.mem_edges_ofArrivals fun _ hg => h.fits hg).mp
      (of_decide_eq_true hmem)
    exact ⟨⟨p, Production.mem_productions_iff.mp hp, he ▸ (h.justified hf).item⟩, .done _⟩
  next => exact h.complete k hk

/-- A front at which a rule ends knows it. -/
theorem ends {p : Production} (hp : p.lhs = .rule)
    (hmem : .finished 0 p ∈ (enter chart arrivals pending carried?).chart.edges chart.size) :
    (enter chart arrivals pending carried?).complete?.isSome := by
  simp only [enter_eq, Chart.edges_push_size] at hmem
  have hany : Nonterminal.rule.productions.any (fun p =>
      Edge.finished 0 p ∈ (OpenColumn.ofArrivals chart arrivals).edges) = true :=
    List.any_eq_true.mpr ⟨p, Production.mem_productions_iff.mpr hp, decide_eq_true hmem⟩
  simp [enter_eq, hany]

theorem carries_end (hc : carried?.isSome) :
    (enter chart arrivals pending carried?).complete?.isSome := by
  rw [enter_eq]
  simp only
  split
  · rfl
  · exact hc

theorem stage (h : Admits text chart arrivals pending carried?) :
    Stage text chart.size (enter chart arrivals pending carried?) where
  size := by simp [enter_eq]
  sound := h.sound_chart
  waiting _ hw := h.sound_waiting hw
  pending := h.pending
  complete _ hk := h.sound_complete hk
  closed e he g hg := by
    obtain ⟨f, hf, rfl⟩ := h.reached he
    rw [enter_eq, Chart.consequences_push_size] at hg
    exact h.stands (.consequence hf hg)
  ending _ hp hmem := ends hp hmem

end Admits

theorem admits_initial (text : List Char) :
    Admits text #[] (Nonterminal.rule.productions.map fun p => .found ⟨.fresh 0 p, none⟩) []
      none where
  sound := .empty text
  found f hf := by
    obtain ⟨p, hp, heq⟩ := List.mem_map.mp hf
    cases heq
    exact .fresh (.start p (Production.mem_productions_iff.mp hp))
  carried w hw := by simp at hw
  pending := by simp
  complete := by simp

theorem stage_initial (text : List Char) : Stage text 0 initial := (admits_initial text).stage

/-- All matches that are pending when the front has read its offset. -/
def matched (f : Front) (i : Nat) (text : List Char) : List Pending := f.pending ++ f.scan i text

theorem Stage.sound_matched {text : List Char} {i : Nat} {f : Front} (h : Stage text i f)
    {q : Pending} (hq : q ∈ f.matched i (text.drop i)) : q.Sound text := by
  rcases List.mem_append.mp hq with hq | hq
  · exact h.pending q hq
  · rcases List.mem_append.mp hq with hq | hq
    · obtain ⟨w, hw, hq⟩ := List.mem_filterMap.mp hq
      simp only [Option.bind_eq_bind, Option.bind_eq_some_iff, Option.pure_def,
        Option.some.injEq] at hq
      obtain ⟨t, ht, n, hn, rfl⟩ := hq
      exact .token (h.waiting w hw) (Edge.terminal?_eq_some_iff.mp ht) hn
    · -- blanks at the offset take with them all that waits there
      obtain ⟨n, hn, rfl⟩ := List.mem_map.mp hq
      have hn := Option.mem_toList.mp hn
      exact .blanks (fun w hw => (h.waiting w hw).over_blanks hn)
        (fun k hk => (h.complete k hk).over_blanks hn)

end Front
end Cddl

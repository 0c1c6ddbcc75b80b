import Mathlib.Data.List.Nodup
import Mathlib.Data.List.Perm.Subperm
import Mathlib.Data.List.ProdSigma
import Cddl.Grammar.Chart

/-!
What a closed column holds: the least set of edges with the arrivals in it and with all
consequences of its edges. The order in which the agenda is worked off does not matter for that,
and the bound on the work is never met, because fewer edges can be told apart than it allows.
-/
namespace Cddl

namespace Production

/-- Every production, by what it is a production of. -/
def all : List Production :=
  [.rule, .params, .moreParams, .args, .moreArgs, .type, .alternatives, .type1, .operator, .type2,
    .typeName, .group, .choices, .choice, .entries, .entry, .memberKey, .bareword, .occur,
    .value].flatMap Nonterminal.productions

theorem mem_all (p : Production) : p ∈ all := by cases p <;> decide

end Production

namespace Edge

/-- The edge may stand in the column `i`: its dot is inside its production, and it does not begin
behind the column. -/
structure Fits (e : Edge) (i : Nat) : Prop where
  dot_le : e.dot ≤ e.production.rhs.length
  start_le : e.start ≤ i

theorem next?_eq (e : Edge) : e.next? = e.production.rhs[e.dot]? := by
  simp [next?, rest]

theorem fits_fresh (i : Nat) (p : Production) : (fresh i p).Fits i :=
  ⟨Nat.zero_le _, Nat.le_refl _⟩

theorem dot_lt_of_next? {e : Edge} {s : Symbol} (h : e.next? = some s) :
    e.dot < e.production.rhs.length := by
  rw [next?_eq] at h
  exact (List.getElem?_eq_some_iff.mp h).1

theorem Fits.advance {e : Edge} {i : Nat} {s : Symbol} (h : e.Fits i) (hn : e.next? = some s) :
    e.advance.Fits i :=
  ⟨dot_lt_of_next? hn, h.start_le⟩

theorem Fits.mono {e : Edge} {i j : Nat} (h : e.Fits i) (hij : i ≤ j) : e.Fits j :=
  ⟨h.dot_le, Nat.le_trans h.start_le hij⟩

theorem Fits.eq_finished {e : Edge} {i : Nat} (h : e.Fits i) (hn : e.next? = none) :
    e = finished e.start e.production := by
  rw [next?_eq, List.getElem?_eq_none_iff] at hn
  have := Nat.le_antisymm h.dot_le hn
  cases e
  simp_all [finished]

theorem next?_finished (i : Nat) (p : Production) : (finished i p).next? = none := by
  simp [next?, rest_finished]

theorem expects_iff {e : Edge} {n : Nonterminal} :
    e.expects n = true ↔ e.next? = some (.nonterminal n) := by
  simp [expects]

theorem terminal?_eq_some_iff {e : Edge} {t : Terminal} :
    e.terminal? = some t ↔ e.next? = some (.terminal t) := by
  unfold terminal?
  split <;> simp_all

theorem terminal?_eq_none_of_nonterminal {e : Edge} {n : Nonterminal}
    (h : e.next? = some (.nonterminal n)) : e.terminal? = none := by
  simp [terminal?, h]

/-- All productions with a dot in them. -/
def dotted : List (Production × Nat) :=
  Production.all.flatMap fun p => (List.range (p.rhs.length + 1)).map (p, ·)

/-- All edges that fit a column. -/
def positions (i : Nat) : List Edge :=
  (dotted ×ˢ List.range (i + 1)).map fun d => ⟨d.1.1, d.1.2, d.2⟩

theorem Fits.mem_positions {e : Edge} {i : Nat} (h : e.Fits i) : e ∈ positions i := by
  have hd : (e.production, e.dot) ∈ dotted := by
    simp only [dotted, List.mem_flatMap, List.mem_map, List.mem_range]
    exact ⟨_, Production.mem_all _, _, Nat.lt_succ_of_le h.dot_le, rfl⟩
  have hs : e.start ∈ List.range (i + 1) := List.mem_range.mpr (Nat.lt_succ_of_le h.start_le)
  exact List.mem_map.mpr ⟨((e.production, e.dot), e.start), List.pair_mem_product.mpr ⟨hd, hs⟩, rfl⟩

theorem length_positions_le (i : Nat) : (positions i).length ≤ Front.edgeBound i := by
  have hd : dotted.length ≤ 256 := by decide +kernel
  calc (positions i).length = dotted.length * (i + 1) := by simp [positions, List.length_product]
    _ ≤ 256 * (i + 1) := Nat.mul_le_mul_right _ hd

theorem length_le_edgeBound {l : List Edge} {i : Nat} (hn : l.Nodup) (hf : ∀ e ∈ l, e.Fits i) :
    l.length ≤ Front.edgeBound i := by
  have hsub : l ⊆ positions i := fun e he => (hf e he).mem_positions
  exact Nat.le_trans (List.subperm_of_subset hn hsub).length_le (length_positions_le i)

end Edge

/-- What closing the column `i` has to reach: the arrivals, and all that follows from an edge that
is reached. -/
inductive Reached (chart : Chart) (i : Nat) (arrivals : List Arrival) : Found → Prop where
  | arrival {f} : .found f ∈ arrivals → Reached chart i arrivals f
  | consequence {f g} : Reached chart i arrivals f → g ∈ chart.consequences i f.edge →
      Reached chart i arrivals g

namespace Chart

theorem mem_consequences_iff {chart : Chart} {i : Nat} {e : Edge} {f : Found} :
    f ∈ chart.consequences i e ↔
      (e.next? = none ∧ e.start < i ∧ ∃ caller ∈ chart.edges e.start,
        caller.next? = some (.nonterminal e.production.lhs) ∧
          f = ⟨caller.advance, some ⟨e.start, .constituent e.production.lhs⟩⟩) ∨
      (∃ p, e.next? = some (.nonterminal p.lhs) ∧ f = ⟨.fresh i p, none⟩) ∨
      (∃ n, e.next? = some (.nonterminal n) ∧ n.nullable = true ∧
        f = ⟨e.advance, some ⟨i, .constituent n⟩⟩) := by
  unfold consequences
  split
  next h =>
    split
    next hlt => grind [Edge.expects_iff]
    next hlt => simp [hlt, h]
  next n h =>
    simp only [h, List.mem_append, List.mem_map, Production.mem_productions_iff, reduceCtorEq,
      false_and, false_or, Option.some.injEq, Symbol.nonterminal.injEq]
    refine or_congr ⟨?_, ?_⟩ ⟨?_, ?_⟩
    · rintro ⟨p, rfl, rfl⟩
      exact ⟨p, rfl, rfl⟩
    · rintro ⟨p, rfl, rfl⟩
      exact ⟨p, rfl, rfl⟩
    · intro hf
      split at hf
      next hn => exact ⟨n, rfl, hn, List.mem_singleton.mp hf⟩
      next => contradiction
    · rintro ⟨m, rfl, hn, rfl⟩
      simp [hn]
  next t h => simp [h]

theorem consequences_of_terminal {chart : Chart} {i : Nat} {e : Edge} (h : e.terminal?.isSome) :
    chart.consequences i e = [] := by
  obtain ⟨t, ht⟩ := Option.isSome_iff_exists.mp h
  simp [consequences, Edge.terminal?_eq_some_iff.mp ht]

end Chart

theorem Reached.fits {chart : Chart} {i : Nat} {arrivals : List Arrival}
    (ha : ∀ f, .found f ∈ arrivals → f.edge.Fits i)
    (hc : ∀ k e, e ∈ chart.edges k → k < i → e.Fits k) {f : Found}
    (hf : Reached chart i arrivals f) : f.edge.Fits i := by
  induction hf with
  | arrival hf => exact ha _ hf
  | consequence _ hg ih =>
    rcases Chart.mem_consequences_iff.mp hg with
      ⟨-, hlt, caller, hmem, hnext, rfl⟩ | ⟨p, -, rfl⟩ | ⟨n, hnext, -, rfl⟩
    · exact ((hc _ _ hmem hlt).mono (Nat.le_of_lt hlt)).advance hnext
    · exact Edge.fits_fresh i p
    · exact ih.advance hnext

namespace OpenColumn

/-- What was found is in the column, with its link. -/
structure Records (c : OpenColumn) (i : Nat) (f : Found) : Prop where
  edge : f.edge.terminal? = none → f.edge ∈ c.edges
  waiting : f.edge.terminal?.isSome → ⟨f.edge, i⟩ ∈ c.waiting
  link : ∀ l, f.link? = some l → (f.edge, l) ∈ c.links

/-- How a column grows: nothing is lost, and each edge that is added is added to the agenda. -/
structure Grows (c d : OpenColumn) : Prop where
  edges : c.edges ⊆ d.edges
  waiting : c.waiting ⊆ d.waiting
  links : c.links ⊆ d.links
  agenda : c.agenda ⊆ d.agenda
  added : ∀ e ∈ d.edges, e ∈ c.edges ∨ e ∈ d.agenda
  balance : d.agenda.length + c.edges.length = c.agenda.length + d.edges.length

theorem Grows.refl (c : OpenColumn) : Grows c c :=
  ⟨List.Subset.refl _, List.Subset.refl _, List.Subset.refl _, List.Subset.refl _,
    fun _ he => .inl he, rfl⟩

theorem Grows.trans {b c d : OpenColumn} (h : Grows b c) (h' : Grows c d) : Grows b d where
  edges := List.Subset.trans h.edges h'.edges
  waiting := List.Subset.trans h.waiting h'.waiting
  links := List.Subset.trans h.links h'.links
  agenda := List.Subset.trans h.agenda h'.agenda
  added e he := by
    rcases h'.added e he with hc | hd
    · rcases h.added e hc with hb | hc
      · exact .inl hb
      · exact .inr (h'.agenda hc)
    · exact .inr hd
  balance := by
    have := h.balance
    have := h'.balance
    omega

theorem Records.mono {c d : OpenColumn} {i : Nat} {f : Found} (h : c.Records i f)
    (hg : Grows c d) : d.Records i f :=
  ⟨fun ht => hg.edges (h.edge ht), fun ht => hg.waiting (h.waiting ht),
    fun l hl => hg.links (h.link l hl)⟩

/-- Everything found in the column satisfies `P`, and what is carried over satisfies `W`. -/
structure Satisfies (P : Found → Prop) (W : Waiting → Prop) (i : Nat) (c : OpenColumn) : Prop where
  edges : ∀ e ∈ c.edges, e.terminal? = none ∧ ∃ f, P f ∧ f.edge = e
  waiting : ∀ w ∈ c.waiting,
    W w ∨ w.home = i ∧ w.edge.terminal?.isSome ∧ ∃ f, P f ∧ f.edge = w.edge
  links : ∀ e l, (e, l) ∈ c.links → P ⟨e, some l⟩
  nodup : c.edges.Nodup
  agenda : c.agenda ⊆ c.edges

theorem satisfies_empty (P : Found → Prop) (W : Waiting → Prop) (i : Nat) :
    Satisfies P W i .empty := by
  constructor <;> simp [empty]

theorem grows_wait (c : OpenColumn) (w : Waiting) : Grows c (c.wait w) := by
  unfold wait
  split
  · exact .refl c
  · exact ⟨fun _ he => he, fun _ hw => List.mem_append_left _ hw, fun _ hl => hl, fun _ ha => ha,
      fun _ he => .inl he, rfl⟩

theorem mem_wait (c : OpenColumn) (w : Waiting) : w ∈ (c.wait w).waiting := by
  unfold wait
  split
  · assumption
  · simp

theorem Satisfies.wait {P : Found → Prop} {W : Waiting → Prop} {i : Nat} {c : OpenColumn}
    (h : Satisfies P W i c) {w : Waiting}
    (hw : W w ∨ w.home = i ∧ w.edge.terminal?.isSome ∧ ∃ f, P f ∧ f.edge = w.edge) :
    Satisfies P W i (c.wait w) := by
  unfold OpenColumn.wait
  split
  · exact h
  · refine ⟨h.edges, ?_, h.links, h.nodup, h.agenda⟩
    intro v hv
    rcases List.mem_append.mp hv with hv | hv
    · exact h.waiting v hv
    · rw [List.mem_singleton.mp hv]
      exact hw

/-- The first half of adding: the link. -/
def link (c : OpenColumn) (f : Found) : OpenColumn :=
  { c with links := c.links ++ f.link?.toList.map (f.edge, ·) }

theorem add_eq (i : Nat) (c : OpenColumn) (f : Found) :
    c.add i f =
      if f.edge.terminal?.isSome then (c.link f).wait ⟨f.edge, i⟩
      else if f.edge ∈ c.edges then c.link f
      else { c.link f with edges := c.edges ++ [f.edge], agenda := f.edge :: c.agenda } := rfl

theorem grows_link (c : OpenColumn) (f : Found) : Grows c (c.link f) :=
  ⟨fun _ he => he, fun _ hw => hw, fun _ hl => List.mem_append_left _ hl, fun _ ha => ha,
    fun _ he => .inl he, rfl⟩

theorem grows_add (i : Nat) (c : OpenColumn) (f : Found) : Grows c (c.add i f) := by
  rw [add_eq]
  split
  · exact (grows_link c f).trans (grows_wait _ _)
  · split
    · exact grows_link c f
    · refine (grows_link c f).trans ⟨?_, fun _ hw => hw, fun _ hl => hl, ?_, ?_, ?_⟩
      · exact fun _ he => List.mem_append_left _ he
      · exact fun _ ha => List.mem_cons_of_mem _ ha
      · intro e he
        rcases List.mem_append.mp he with he | he
        · exact .inl he
        · exact .inr (List.mem_singleton.mp he ▸ List.mem_cons_self)
      · simp [link]
        omega

theorem records_add (i : Nat) (c : OpenColumn) (f : Found) : (c.add i f).Records i f := by
  have hlink : ∀ l, f.link? = some l → (f.edge, l) ∈ (c.link f).links := by
    intro l hl
    simp [link, hl]
  rw [add_eq]
  split
  next ht =>
    exact ⟨fun hn => by simp [hn] at ht, fun _ => mem_wait _ _,
      fun l hl => (grows_wait _ _).links (hlink l hl)⟩
  next ht =>
    split
    next he => exact ⟨fun _ => he, fun hs => absurd hs ht, hlink⟩
    next => exact ⟨fun _ => by simp, fun hs => absurd hs ht, hlink⟩

theorem Satisfies.add {P : Found → Prop} {W : Waiting → Prop} {i : Nat} {c : OpenColumn}
    (h : Satisfies P W i c) {f : Found} (hf : P f) : Satisfies P W i (c.add i f) := by
  have hlink : Satisfies P W i (c.link f) := by
    refine ⟨h.edges, h.waiting, ?_, h.nodup, h.agenda⟩
    intro e l hl
    rcases List.mem_append.mp hl with hl | hl
    · exact h.links e l hl
    · obtain ⟨l', hl', heq⟩ := List.mem_map.mp hl
      cases heq
      rw [← Option.mem_toList.mp hl']
      exact hf
  rw [add_eq]
  split
  next ht => exact hlink.wait (.inr ⟨rfl, ht, f, hf, rfl⟩)
  next ht =>
    split
    next => exact hlink
    next he =>
      refine ⟨?_, h.waiting, hlink.links, ?_, ?_⟩
      · intro e hmem
        rcases List.mem_append.mp hmem with hmem | hmem
        · exact h.edges e hmem
        · rw [List.mem_singleton.mp hmem]
          exact ⟨Option.not_isSome_iff_eq_none.mp ht, f, hf, rfl⟩
      · exact List.nodup_append.mpr ⟨h.nodup, List.nodup_singleton _, by grind⟩
      · intro e hmem
        rcases List.mem_cons.mp hmem with rfl | hmem
        · simp
        · exact List.mem_append_left _ (h.agenda hmem)

theorem grows_foldl_add (i : Nat) (fs : List Found) (c : OpenColumn) :
    Grows c (fs.foldl (add i) c) := by
  induction fs generalizing c with
  | nil => exact .refl c
  | cons f fs ih => exact (grows_add i c f).trans (ih _)

theorem records_foldl_add (i : Nat) (fs : List Found) (c : OpenColumn) {f : Found} (hf : f ∈ fs) :
    (fs.foldl (add i) c).Records i f := by
  induction fs generalizing c with
  | nil => contradiction
  | cons g fs ih =>
    rcases List.mem_cons.mp hf with rfl | hf
    · exact (records_add i c f).mono (grows_foldl_add i fs _)
    · exact ih _ hf

theorem Satisfies.foldl_add {P : Found → Prop} {W : Waiting → Prop} {i : Nat} (fs : List Found)
    {c : OpenColumn} (h : Satisfies P W i c) (hf : ∀ f ∈ fs, P f) :
    Satisfies P W i (fs.foldl (OpenColumn.add i) c) := by
  induction fs generalizing c with
  | nil => exact h
  | cons f fs ih =>
    exact ih (h.add (hf f (by simp))) (fun g hg => hf g (by simp [hg]))

theorem grows_foldl_arrive (i : Nat) (arrivals : List Arrival) (c : OpenColumn) :
    Grows c (arrivals.foldl (Front.arrive i) c) := by
  induction arrivals generalizing c with
  | nil => exact .refl c
  | cons a arrivals ih =>
    cases a with
    | found f => exact (grows_add i c f).trans (ih _)
    | carried w => exact (grows_wait c w).trans (ih _)

theorem records_foldl_arrive (i : Nat) (arrivals : List Arrival) (c : OpenColumn) {f : Found}
    (hf : .found f ∈ arrivals) : (arrivals.foldl (Front.arrive i) c).Records i f := by
  induction arrivals generalizing c with
  | nil => contradiction
  | cons a arrivals ih =>
    rcases List.mem_cons.mp hf with rfl | hf
    · exact (records_add i c f).mono (grows_foldl_arrive i arrivals _)
    · exact ih _ hf

theorem mem_waiting_foldl_arrive (i : Nat) (arrivals : List Arrival) (c : OpenColumn) {w : Waiting}
    (hw : .carried w ∈ arrivals) : w ∈ (arrivals.foldl (Front.arrive i) c).waiting := by
  induction arrivals generalizing c with
  | nil => contradiction
  | cons a arrivals ih =>
    rcases List.mem_cons.mp hw with rfl | hw
    · exact (grows_foldl_arrive i arrivals _).waiting (mem_wait c w)
    · exact ih _ hw

theorem Satisfies.foldl_arrive {P : Found → Prop} {W : Waiting → Prop} {i : Nat}
    (arrivals : List Arrival) {c : OpenColumn} (h : Satisfies P W i c)
    (hf : ∀ f, .found f ∈ arrivals → P f) (hw : ∀ w, .carried w ∈ arrivals → W w) :
    Satisfies P W i (arrivals.foldl (Front.arrive i) c) := by
  induction arrivals generalizing c with
  | nil => exact h
  | cons a arrivals ih =>
    have hc : Satisfies P W i (Front.arrive i c a) := by
      cases a with
      | found f => exact h.add (hf f (by simp))
      | carried w => exact h.wait (.inl (hw w (by simp)))
    exact ih hc (fun f hmem => hf f (by simp [hmem])) (fun w hmem => hw w (by simp [hmem]))

/-- The agenda of a column that is being closed is all that is missing: the other edges have their
consequences in the column. -/
structure Closing (chart : Chart) (i : Nat) (arrivals : List Arrival) (c : OpenColumn) : Prop where
  satisfies : Satisfies (Reached chart i arrivals) (.carried · ∈ arrivals) i c
  found : ∀ f, .found f ∈ arrivals → c.Records i f
  carried : ∀ w, .carried w ∈ arrivals → w ∈ c.waiting
  closed : ∀ e ∈ c.edges, e ∉ c.agenda → ∀ f ∈ chart.consequences i e, c.Records i f

theorem Closing.of_arrivals (chart : Chart) (i : Nat) (arrivals : List Arrival) :
    Closing chart i arrivals (arrivals.foldl (Front.arrive i) .empty) where
  satisfies := (satisfies_empty _ _ i).foldl_arrive arrivals (fun _ hf => .arrival hf)
    (fun _ hw => hw)
  found f hf := records_foldl_arrive i arrivals _ hf
  carried w hw := mem_waiting_foldl_arrive i arrivals _ hw
  closed e he ha := by
    rcases (grows_foldl_arrive i arrivals .empty).added e he with he | he
    · contradiction
    · exact absurd he ha

/-- Taking an edge from the agenda and adding its consequences. -/
theorem Closing.step {chart : Chart} {i : Nat} {arrivals : List Arrival} {c : OpenColumn}
    {e : Edge} {agenda : List Edge} (h : Closing chart i arrivals c)
    (ha : c.agenda = e :: agenda) :
    Closing chart i arrivals
      ((chart.consequences i e).foldl (OpenColumn.add i) { c with agenda }) := by
  have hmem : e ∈ c.edges := h.satisfies.agenda (by simp [ha])
  obtain ⟨-, f, hf, rfl⟩ := h.satisfies.edges e hmem
  have hg := grows_foldl_add i (chart.consequences i f.edge) { c with agenda }
  have hrec : ∀ {g}, c.Records i g → Records _ i g := fun hr =>
    (⟨hr.edge, hr.waiting, hr.link⟩ : Records { c with agenda } i _).mono hg
  constructor
  · refine Satisfies.foldl_add _ ⟨h.satisfies.edges, h.satisfies.waiting, h.satisfies.links,
      h.satisfies.nodup, ?_⟩ (fun g hcons => .consequence hf hcons)
    intro d hd
    exact h.satisfies.agenda (by simp [ha, hd])
  · intro g hmem
    exact hrec (h.found g hmem)
  · intro w hw
    exact hg.waiting (h.carried w hw)
  · intro d hd hnot g hcons
    rcases hg.added d hd with hold | hnew
    -- the edge just taken gets its consequences now, the others had theirs before
    · by_cases hde : d = f.edge
      · subst hde
        exact records_foldl_add i _ _ hcons
      · refine hrec (h.closed d hold ?_ g hcons)
        rw [ha, List.mem_cons, not_or]
        exact ⟨hde, fun hd => hnot (hg.agenda hd)⟩
    · exact absurd hnew hnot

/-- With enough fuel the agenda is worked off. -/
theorem Closing.close {chart : Chart} {i : Nat} {arrivals : List Arrival}
    (hfits : ∀ f, Reached chart i arrivals f → f.edge.Fits i) (fuel : Nat) {c : OpenColumn}
    (h : Closing chart i arrivals c)
    (hfuel : Front.edgeBound i + c.agenda.length ≤ fuel + c.edges.length) :
    Closing chart i arrivals (OpenColumn.close chart i fuel c) ∧
      (OpenColumn.close chart i fuel c).agenda = [] := by
  induction fuel generalizing c with
  | zero =>
    -- the edges differ and fit the column, so that no more of them than the bound were added
    have hb : c.edges.length ≤ Front.edgeBound i := by
      refine Edge.length_le_edgeBound h.satisfies.nodup fun e he => ?_
      obtain ⟨-, f, hf, rfl⟩ := h.satisfies.edges e he
      exact hfits f hf
    refine ⟨h, List.length_eq_zero_iff.mp ?_⟩
    simp only [OpenColumn.close]
    omega
  | succ fuel ih =>
    cases ha : c.agenda with
    | nil => simp [OpenColumn.close, ha, h]
    | cons e agenda =>
      simp only [OpenColumn.close, ha]
      refine ih (h.step ha) ?_
      have hb := (grows_foldl_add i (chart.consequences i e) { c with agenda }).balance
      rw [ha, List.length_cons] at hfuel
      simp only at hb
      omega

end OpenColumn

/-- The column that the arrivals give rise to, as it is when closed. -/
def OpenColumn.ofArrivals (chart : Chart) (arrivals : List Arrival) : OpenColumn :=
  .close chart chart.size (Front.edgeBound chart.size)
    (arrivals.foldl (Front.arrive chart.size) .empty)

section

variable {chart : Chart} {arrivals : List Arrival}
  (hfits : ∀ f, Reached chart chart.size arrivals f → f.edge.Fits chart.size)

include hfits

theorem OpenColumn.closing_ofArrivals :
    Closing chart chart.size arrivals (.ofArrivals chart arrivals) ∧
      (ofArrivals chart arrivals).agenda = [] := by
  refine Closing.close hfits _ (.of_arrivals ..) ?_
  have hb := (grows_foldl_arrive chart.size arrivals .empty).balance
  simp only [empty, List.length_nil] at hb
  simp only [empty]
  omega

theorem OpenColumn.records_ofArrivals {f : Found} (hf : Reached chart chart.size arrivals f) :
    (ofArrivals chart arrivals).Records chart.size f := by
  obtain ⟨h, ha⟩ := closing_ofArrivals hfits
  induction hf with
  | arrival hf => exact h.found _ hf
  | @consequence f g hf hg ih =>
    have ht : f.edge.terminal? = none := by
      by_contra hne
      rw [Chart.consequences_of_terminal (Option.isSome_iff_ne_none.mpr hne)] at hg
      contradiction
    exact h.closed _ (ih.edge ht) (by simp [ha]) _ hg

/-- A closed column holds the edges that are reached and wait for no terminal. -/
theorem OpenColumn.mem_edges_ofArrivals {e : Edge} :
    e ∈ (ofArrivals chart arrivals).edges ↔
      e.terminal? = none ∧ ∃ f, Reached chart chart.size arrivals f ∧ f.edge = e := by
  constructor
  · exact (closing_ofArrivals hfits).1.satisfies.edges e
  · rintro ⟨ht, f, hf, rfl⟩
    exact (records_ofArrivals hfits hf).edge ht

/-- What waits at a closed column was carried there or waits for a terminal there. -/
theorem OpenColumn.mem_waiting_ofArrivals {w : Waiting} :
    w ∈ (ofArrivals chart arrivals).waiting ↔ .carried w ∈ arrivals ∨
      w.home = chart.size ∧ w.edge.terminal?.isSome ∧
        ∃ f, Reached chart chart.size arrivals f ∧ f.edge = w.edge := by
  have h := (closing_ofArrivals hfits).1
  constructor
  · exact h.satisfies.waiting w
  · rintro (hw | ⟨hh, ht, f, hf, he⟩)
    · exact h.carried w hw
    · obtain ⟨edge, home⟩ := w
      subst hh he
      exact (records_ofArrivals hfits hf).waiting ht

/-- The links of a closed column are those of all that is reached. -/
theorem OpenColumn.mem_links_ofArrivals {e : Edge} {l : Link} :
    (e, l) ∈ (ofArrivals chart arrivals).links ↔
      Reached chart chart.size arrivals ⟨e, some l⟩ :=
  ⟨(closing_ofArrivals hfits).1.satisfies.links e l,
    fun hf => (records_ofArrivals hfits hf).link l rfl⟩

end

end Cddl

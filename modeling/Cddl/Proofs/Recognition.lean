import Cddl.Proofs.Front
import Cddl.Proofs.Lexeme

/-!
The reading of a text, front by front. A match that is pending is delivered where it ends, so every
item of the text is found, and a text is read to its end if and only if it is a rule.
-/
namespace Cddl

namespace Front

/-- The matches that end at the next offset. -/
def arrived (f : Front) (i : Nat) (text : List Char) : List Pending :=
  (f.matched i text).filter (·.stop == i + 1)

/-- The matches that end behind the next offset. -/
def ahead (f : Front) (i : Nat) (text : List Char) : List Pending :=
  (f.matched i text).filter (!·.stop == i + 1)

/-- The front that has moved over one character. -/
def moved (f : Front) (i : Nat) (text : List Char) : Front :=
  enter f.chart ((f.arrived i text).flatMap Pending.arrivals) (f.ahead i text)
    ((f.arrived i text).findSome? Pending.complete?)

theorem step?_eq (f : Front) (i : Nat) (text : List Char) :
    f.step? i text =
      if ((f.arrived i text).flatMap Pending.arrivals).isEmpty &&
          ((f.arrived i text).findSome? Pending.complete?).isNone && (f.ahead i text).isEmpty
        then none else some (f.moved i text) := by
  simp only [step?, List.partition_eq_filter_filter]
  rfl

theorem eq_moved_of_step? {f g : Front} {i : Nat} {text : List Char}
    (h : f.step? i text = some g) : g = f.moved i text := by
  rw [step?_eq] at h
  split at h
  · contradiction
  · exact (Option.some.inj h).symm

variable {text : List Char}

theorem Stage.admits_moved {i : Nat} {f : Front} (h : Stage text i f) :
    Admits text f.chart ((f.arrived i (text.drop i)).flatMap Pending.arrivals)
      (f.ahead i (text.drop i)) ((f.arrived i (text.drop i)).findSome? Pending.complete?) := by
  have hmem : ∀ q ∈ f.arrived i (text.drop i), q.Sound text ∧ q.stop = f.chart.size := by
    intro q hq
    obtain ⟨hq, hstop⟩ := List.mem_filter.mp hq
    exact ⟨h.sound_matched hq, by rw [h.size]; exact beq_iff_eq.mp hstop⟩
  constructor
  · exact h.sound
  · intro g hg
    obtain ⟨q, hq, hg⟩ := List.mem_flatMap.mp hg
    exact (hmem q hq).2 ▸ (hmem q hq).1.found hg
  · intro w hw
    obtain ⟨q, hq, hw⟩ := List.mem_flatMap.mp hw
    exact (hmem q hq).2 ▸ (hmem q hq).1.carried hw
  · intro q hq
    exact h.sound_matched (List.mem_filter.mp hq).1
  · intro k hk
    obtain ⟨q, hq, hk⟩ := List.exists_of_findSome?_eq_some hk
    exact (hmem q hq).2 ▸ (hmem q hq).1.complete hk

theorem Stage.moved {i : Nat} {f : Front} (h : Stage text i f) :
    Stage text (i + 1) (f.moved i (text.drop i)) := by
  have hs := h.admits_moved.stage
  rwa [h.size] at hs

/-- The front that stands before the offset `i`, if the reading gets there. -/
def at? (text : List Char) : Nat → Option Front
  | 0 => some initial
  | i + 1 => (at? text i).bind fun f => f.step? i (text.drop i)

theorem at?_succ {i : Nat} {f : Front} (h : at? text i = some f) :
    at? text (i + 1) = f.step? i (text.drop i) := by
  simp [at?, h]

theorem stage_at? {i : Nat} {f : Front} (h : at? text i = some f) : Stage text i f := by
  induction i generalizing f with
  | zero =>
    cases h
    exact stage_initial text
  | succ i ih =>
    obtain ⟨g, hg, hstep⟩ := Option.bind_eq_some_iff.mp h
    rw [eq_moved_of_step? hstep]
    exact (ih hg).moved

/-- A column does not change once the front has left it. -/
theorem column_at? {k i : Nat} {f g : Front} (hf : at? text k = some f) (hg : at? text i = some g)
    (hki : k ≤ i) : g.chart.edges k = f.chart.edges k ∧ g.chart.links k = f.chart.links k := by
  induction hki generalizing g with
  | refl =>
    rw [hf] at hg
    cases hg
    exact ⟨rfl, rfl⟩
  | @step i hki ih =>
    obtain ⟨d, hd, hstep⟩ := Option.bind_eq_some_iff.mp hg
    obtain ⟨he, hl⟩ := ih hd
    have hlt : k < d.chart.size := by
      rw [(stage_at? hd).size]
      exact Nat.lt_succ_of_le hki
    rw [eq_moved_of_step? hstep, Front.moved, enter_eq]
    exact ⟨(Chart.edges_push_of_lt hlt).trans he, (Chart.links_push_of_lt hlt).trans hl⟩

/-- A match that is pending is delivered at its end, to a front that stands there. -/
theorem deliver {i : Nat} {f : Front} (hf : at? text i = some f) {q : Pending}
    (hq : q ∈ f.matched i (text.drop i)) (hi : i < q.stop)
    (hcarries : q.arrivals ≠ [] ∨ q.complete?.isSome) :
    ∃ j g, j + 1 = q.stop ∧ at? text j = some g ∧ q ∈ g.arrived j (text.drop j) ∧
      at? text q.stop = some (g.moved j (text.drop j)) := by
  obtain ⟨d, hd⟩ := Nat.exists_eq_add_of_lt hi
  induction d generalizing i f with
  | zero =>
    have hmem : q ∈ f.arrived i (text.drop i) := List.mem_filter.mpr ⟨hq, by simp [hd]⟩
    refine ⟨i, f, by omega, hf, hmem, ?_⟩
    rw [hd, Nat.add_zero, at?_succ hf, step?_eq, if_neg]
    -- the reading stops only where nothing arrives, and `q` brings something
    intro hnone
    simp only [Bool.and_eq_true, List.isEmpty_iff, List.flatMap_eq_nil_iff,
      Option.isNone_iff_eq_none, List.findSome?_eq_none_iff] at hnone
    rcases hcarries with ha | hc
    · exact ha (hnone.1.1 q hmem)
    · simp [hnone.1.2 q hmem] at hc
  | succ d ih =>
    have hmem : q ∈ f.ahead i (text.drop i) := by
      refine List.mem_filter.mpr ⟨hq, ?_⟩
      simp only [Bool.not_eq_true', beq_eq_false_iff_ne]
      omega
    have hstep : at? text (i + 1) = some (f.moved i (text.drop i)) := by
      rw [at?_succ hf, step?_eq, if_neg]
      intro hnone
      simp only [Bool.and_eq_true, List.isEmpty_iff] at hnone
      simp [hnone.2] at hmem
    exact ih hstep (List.mem_append_left _ hmem) (by omega) (by omega)

/-- An edge that waits for a terminal reads the match of that terminal. -/
theorem read_token {k n : Nat} {f : Front} {w : Waiting} {t : Terminal}
    (hf : at? text k = some f) (hw : w ∈ f.waiting) (ht : w.edge.next? = some (.terminal t))
    (hn : t.match? (text.drop k) = some n) :
    ∃ g, at? text (k + n) = some g ∧ g.Stands (k + n) w.edge.advance := by
  have hq : .token w ⟨t, k, k + n⟩ ∈ f.matched k (text.drop k) := by
    refine List.mem_append_right _ (List.mem_append_left _ (List.mem_filterMap.mpr ⟨w, hw, ?_⟩))
    simp [Edge.terminal?_eq_some_iff.mpr ht, hn]
  have hpos := Terminal.match?_pos hn
  obtain ⟨j, g, hj, hg, hmem, hat⟩ :=
    deliver hf hq (by simp only [Pending.stop]; omega) (.inl (by simp [Pending.arrivals]))
  have hadmits := (stage_at? hg).admits_moved
  have hfound : .found (w.read ⟨t, k, k + n⟩) ∈
      (g.arrived j (text.drop j)).flatMap Pending.arrivals :=
    List.mem_flatMap.mpr ⟨_, hmem, List.mem_singleton_self _⟩
  have hstands := hadmits.stands (.arrival hfound)
  rw [(stage_at? hg).size, hj] at hstands
  exact ⟨_, hat, hstands⟩

/-- Blanks carry over what waits before them, and the end of a rule. -/
theorem read_blanks {i n : Nat} {f : Front} (hf : at? text i = some f)
    (hn : Lexeme.ignored? (text.drop i) = some n)
    (hcarries : f.waiting ≠ [] ∨ f.complete?.isSome) :
    ∃ g, at? text (i + n) = some g ∧ f.waiting ⊆ g.waiting ∧
      (f.complete?.isSome → g.complete?.isSome) := by
  have hq : .blanks (i + n) f.waiting f.complete? ∈ f.matched i (text.drop i) := by
    refine List.mem_append_right _ (List.mem_append_right _ ?_)
    simp [hn]
  have hpos := Lexeme.ignored?_pos hn
  obtain ⟨j, g, -, hg, hmem, hat⟩ :=
    deliver hf hq (by simp only [Pending.stop]; omega)
      (by simpa [Pending.arrivals, Pending.complete?] using hcarries)
  refine ⟨_, hat, ?_, ?_⟩
  · intro w hw
    refine (stage_at? hg).admits_moved.carries (List.mem_flatMap.mpr ⟨_, hmem, ?_⟩)
    exact List.mem_map_of_mem hw
  · intro hc
    refine Admits.carries_end ?_
    rw [List.findSome?_isSome_iff]
    exact ⟨_, hmem, hc⟩

theorem carry_waiting {i k : Nat} {w : Waiting} (hi : Ignored text i k) {f : Front}
    (hf : at? text i = some f) (hw : w ∈ f.waiting) : ∃ g, at? text k = some g ∧ w ∈ g.waiting := by
  induction hi generalizing f with
  | done => exact ⟨f, hf, hw⟩
  | next hn _ ih =>
    obtain ⟨g, hg, hsub, -⟩ := read_blanks hf hn (.inl (List.ne_nil_of_mem hw))
    exact ih hg (hsub hw)

theorem carry_end {i k : Nat} (hi : Ignored text i k) {f : Front} (hf : at? text i = some f)
    (hc : f.complete?.isSome) : ∃ g, at? text k = some g ∧ g.complete?.isSome := by
  induction hi generalizing f with
  | done => exact ⟨f, hf, hc⟩
  | next hn _ ih =>
    obtain ⟨g, hg, -, hcg⟩ := read_blanks hf hn (.inr hc)
    exact ih hg (hcg hc)

/-- Every item of the text is found by the reading. -/
theorem stands_of_item {k : Nat} {e : Edge} (h : Item text k e) :
    ∃ f, at? text k = some f ∧ f.Stands k e := by
  induction h with
  | start p hp =>
    have hfound : Arrival.found ⟨.fresh 0 p, none⟩ ∈
        Nonterminal.rule.productions.map fun p => .found ⟨.fresh 0 p, none⟩ :=
      List.mem_map.mpr ⟨p, Production.mem_productions_iff.mpr hp, rfl⟩
    exact ⟨initial, rfl, (admits_initial text).stands (.arrival hfound)⟩
  | @predict k e p _ hn ih =>
    obtain ⟨f, hf, hs⟩ := ih
    have he := hs.edge (Edge.terminal?_eq_none_of_nonterminal hn)
    exact ⟨f, hf, (stage_at? hf).closed e he _
      (Chart.mem_consequences_iff.mpr (.inr (.inl ⟨p, hn, rfl⟩)))⟩
  | @scan i k n e t _ hn hi hm ih =>
    obtain ⟨f, hf, hs⟩ := ih
    have hw := hs.waiting (by simp [Edge.terminal?_eq_some_iff.mpr hn])
    obtain ⟨g, hg, hw⟩ := carry_waiting hi hf hw
    exact read_token hg hw hn hm
  | @complete k j e p he hn hp ih ih' =>
    obtain ⟨f, hf, hs⟩ := ih
    obtain ⟨g, hg, hs'⟩ := ih'
    have he := hs.edge (Edge.terminal?_eq_none_of_nonterminal hn)
    have hp' := hs'.edge (by simp [Edge.terminal?, Edge.next?_finished])
    rcases Nat.lt_or_eq_of_le hp.fits.start_le with hlt | heq
    -- a finished edge looks for its callers in closed columns only, so an empty one finds none:
    -- there the caller itself moves over the nonterminal
    · rw [← (column_at? hf hg (Nat.le_of_lt hlt)).1] at he
      exact ⟨g, hg, (stage_at? hg).closed _ hp' _ (Chart.mem_consequences_iff.mpr
        (.inl ⟨Edge.next?_finished k p, hlt, e, he, hn, rfl⟩))⟩
    · subst heq
      exact ⟨f, hf, (stage_at? hf).closed e he _ (Chart.mem_consequences_iff.mpr
        (.inr (.inr ⟨p.lhs, hn, hp.nullable, rfl⟩)))⟩

/-- How the reading of a text ends. -/
inductive Outcome (text : List Char) : Except Rejection (Chart × Nat) → Prop where
  | complete {f stop} : at? text text.length = some f → f.complete? = some stop →
      Outcome text (.ok (f.chart, stop))
  | incomplete {f} : at? text text.length = some f → f.complete? = none →
      Outcome text (.error (.incomplete f.expected))
  | unexpected {k f c} : at? text k = some f → f.step? k (text.drop k) = none →
      text[k]? = some c → Outcome text (.error (.unexpected k c f.expected))

theorem outcome_run {i : Nat} {f : Front} (hf : at? text i = some f) (hi : i ≤ text.length) :
    Outcome text (f.run i (text.drop i)) := by
  obtain ⟨d, hd⟩ := Nat.exists_eq_add_of_le hi
  induction d generalizing i f with
  | zero =>
    have hend : i = text.length := by omega
    subst hend
    rw [List.drop_length, run]
    cases hc : f.complete? with
    | none => exact .incomplete hf hc
    | some stop => exact .complete hf hc
  | succ d ih =>
    have hlt : i < text.length := by omega
    rw [List.drop_eq_getElem_cons hlt, run, ← List.drop_eq_getElem_cons hlt]
    cases hs : f.step? i (text.drop i) with
    | none => exact .unexpected hf hs (List.getElem?_eq_getElem hlt)
    | some g =>
      exact ih ((at?_succ hf).trans hs) (by omega) (by omega)

theorem at?_isSome_of_le {i k : Nat} {f : Front} (hf : at? text k = some f) (hik : i ≤ k) :
    ∃ g, at? text i = some g := by
  induction hik generalizing f with
  | refl => exact ⟨f, hf⟩
  | step _ ih =>
    obtain ⟨g, hg, -⟩ := Option.bind_eq_some_iff.mp hf
    exact ih hg

/-- A text is read to its end, and a rule is found to end there, if and only if it is one. -/
theorem run_initial_isOk_iff : (∃ r, initial.run 0 text = .ok r) ↔ IsRule text := by
  have ho : Outcome text (initial.run 0 text) := outcome_run rfl (Nat.zero_le _)
  constructor
  · rintro ⟨r, hr⟩
    rw [hr] at ho
    cases ho with
    | complete hf hc =>
      obtain ⟨⟨p, hp, hitem⟩, hi⟩ := (stage_at? hf).complete _ hc
      exact isRule_iff_item.mpr ⟨p, _, hp, hitem, hi⟩
  · intro h
    obtain ⟨p, stop, hp, hitem, hi⟩ := isRule_iff_item.mp h
    obtain ⟨f, hf, hs⟩ := stands_of_item hitem
    have hmem := hs.edge (by simp [Edge.terminal?, Edge.next?_finished])
    obtain ⟨g, hg, hc⟩ := carry_end hi hf ((stage_at? hf).ending p hp hmem)
    generalize initial.run 0 text = r at ho
    cases ho with
    | complete => exact ⟨_, rfl⟩
    | incomplete hf' hc' =>
      rw [hg] at hf'
      cases hf'
      simp [hc'] at hc
    | unexpected hf' hstep hget =>
      have hlt := (List.getElem?_eq_some_iff.mp hget).1
      obtain ⟨d, hd⟩ := at?_isSome_of_le hg (Nat.succ_le_of_lt hlt)
      rw [at?_succ hf', hstep] at hd
      contradiction

end Front
end Cddl

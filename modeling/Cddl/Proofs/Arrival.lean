import Cddl.Proofs.Mode

/-!
What arrives at an offset, and in which order. The matches that end there began at the offsets
before it, and they arrive in the order of their beginnings. Because only one place is followed by
blanks up to a given offset, what waits at an offset is the list of one place, carried there as it
is; and where something is read, nothing is carried to.
-/
namespace Cddl

namespace OpenColumn

variable {chart : Chart} {i fuel : Nat} {c : OpenColumn} {w : Waiting} {ws : List Waiting}

theorem nodup_wait (h : c.waiting.Nodup) : (c.wait w).waiting.Nodup := by
  unfold wait
  split
  next => exact h
  next hw => exact List.nodup_append.mpr ⟨h, List.nodup_singleton w, by grind⟩

theorem nodup_add {f : Found} (h : c.waiting.Nodup) : (c.add i f).waiting.Nodup := by
  rw [add_eq]
  split
  · exact nodup_wait h
  · split
    · exact h
    · exact h

theorem nodup_foldl_add {fs : List Found} (h : c.waiting.Nodup) :
    (fs.foldl (add i) c).waiting.Nodup := by
  induction fs generalizing c with
  | nil => exact h
  | cons f fs ih => exact ih (nodup_add h)

theorem nodup_foldl_arrive {arrivals : List Arrival} (h : c.waiting.Nodup) :
    (arrivals.foldl (Front.arrive i) c).waiting.Nodup := by
  induction arrivals generalizing c with
  | nil => exact h
  | cons a arrivals ih =>
    cases a with
    | found f => exact ih (nodup_add h)
    | carried w => exact ih (nodup_wait h)

theorem nodup_close (h : c.waiting.Nodup) : (close chart i fuel c).waiting.Nodup := by
  induction fuel generalizing c with
  | zero => exact h
  | succ fuel ih =>
    rw [close]
    split
    · exact h
    · exact ih (nodup_foldl_add h)

theorem close_of_agenda_nil (h : c.agenda = []) : close chart i fuel c = c := by
  cases fuel with
  | zero => rfl
  | succ fuel =>
    rw [close]
    split
    · rfl
    next heq =>
      rw [h] at heq
      contradiction

theorem foldl_wait_of_mem (h : ∀ w ∈ ws, w ∈ c.waiting) : ws.foldl wait c = c := by
  induction ws with
  | nil => rfl
  | cons w ws ih =>
    have hw : c.wait w = c := if_pos (h w List.mem_cons_self)
    rw [List.foldl_cons, hw]
    exact ih fun v hv => h v (List.mem_cons_of_mem w hv)

theorem foldl_wait_of_nodup (h : (c.waiting ++ ws).Nodup) :
    ws.foldl wait c = { c with waiting := c.waiting ++ ws } := by
  induction ws generalizing c with
  | nil => rw [List.append_nil]; rfl
  | cons w ws ih =>
    have hnot : w ∉ c.waiting := by
      intro hw
      exact (List.nodup_append.mp h).2.2 w hw w List.mem_cons_self rfl
    have hw : c.wait w = { c with waiting := c.waiting ++ [w] } := if_neg hnot
    rw [List.foldl_cons, hw, ih (by simpa using h)]
    simp

theorem foldl_arrive_carried (ws : List Waiting) (c : OpenColumn) :
    (ws.map Arrival.carried).foldl (Front.arrive i) c = ws.foldl wait c := by
  rw [List.foldl_map]
  rfl

/-- A column to which one list is carried, perhaps more than once, has it as what waits there. -/
theorem waiting_ofArrivals_carried {l : List Waiting} (hl : l.Nodup) (hws : ∀ w ∈ ws, w ∈ l) :
    (ofArrivals chart ((l ++ ws).map .carried)).waiting = l := by
  have hfirst : l.foldl wait empty = { empty with waiting := l } := foldl_wait_of_nodup hl
  have hfold : ((l ++ ws).map Arrival.carried).foldl (Front.arrive chart.size) .empty =
      { empty with waiting := l } := by
    rw [foldl_arrive_carried, List.foldl_append, hfirst, foldl_wait_of_mem hws]
  rw [ofArrivals, hfold, close_of_agenda_nil rfl]

end OpenColumn

namespace Front

variable {text : List Char} {i j k n : Nat} {f g : Front} {w v : Waiting} {q : Pending}

/-- What waits before an offset, in order. -/
def waitingAt (text : List Char) (i : Nat) : List Waiting := ((at? text i).map waiting).getD []

/-- The matches that begin at an offset. -/
def begun (text : List Char) (i : Nat) : List Pending :=
  ((at? text i).map fun f => f.scan i (text.drop i)).getD []

theorem waitingAt_eq (hf : at? text i = some f) : waitingAt text i = f.waiting := by
  rw [waitingAt, hf]
  rfl

theorem begun_eq (hf : at? text i = some f) : begun text i = f.scan i (text.drop i) := by
  rw [begun, hf]
  rfl

theorem exists_at_of_mem_waitingAt (h : w ∈ waitingAt text i) :
    ∃ f, at? text i = some f ∧ w ∈ f.waiting := by
  cases hf : at? text i with
  | none =>
    rw [waitingAt, hf] at h
    contradiction
  | some f =>
    rw [waitingAt_eq hf] at h
    exact ⟨f, rfl, h⟩

/-- At an offset waits what stands where only blanks follow up to there. -/
theorem mem_waitingAt_iff : w ∈ waitingAt text i ↔ Waits text i w := by
  constructor
  · intro h
    obtain ⟨f, hf, hw⟩ := exists_at_of_mem_waitingAt h
    exact (stage_at? hf).waiting w hw
  · intro h
    obtain ⟨f, hf, hs⟩ := stands_of_item h.item
    obtain ⟨g, hg, hw⟩ := carry_waiting h.ignored hf (hs.waiting h.terminal)
    rw [waitingAt_eq hg]
    exact hw

theorem nodup_waitingAt (text : List Char) (i : Nat) : (waitingAt text i).Nodup := by
  cases i with
  | zero => exact OpenColumn.nodup_close (OpenColumn.nodup_foldl_arrive List.nodup_nil)
  | succ i =>
    cases hf : at? text (i + 1) with
    | none =>
      rw [waitingAt, hf]
      exact List.nodup_nil
    | some f =>
      obtain ⟨g, -, hstep⟩ := Option.bind_eq_some_iff.mp hf
      rw [waitingAt_eq hf, eq_moved_of_step? hstep]
      exact OpenColumn.nodup_close (OpenColumn.nodup_foldl_arrive List.nodup_nil)

theorem lt_stop_of_mem_begun (h : q ∈ begun text i) : i < q.stop := by
  cases hf : at? text i with
  | none =>
    rw [begun, hf] at h
    contradiction
  | some f =>
    rw [begun_eq hf] at h
    exact (begins_of_scan h).lt_stop

/-- Pending is what began before and ends behind the front. -/
theorem pending_eq (hf : at? text i = some f) :
    f.pending = ((List.range i).flatMap (begun text)).filter fun q => decide (i < q.stop) := by
  induction i generalizing f with
  | zero =>
    cases hf
    rfl
  | succ i ih =>
    obtain ⟨g, hg, hstep⟩ := Option.bind_eq_some_iff.mp hf
    have hpending : f.pending = (g.pending ++ g.scan i (text.drop i)).filter (!·.stop == i + 1) := by
      rw [eq_moved_of_step? hstep]
      rfl
    rw [hpending, ih hg, ← begun_eq hg, List.range_succ, List.flatMap_append,
      List.flatMap_singleton, List.filter_append, List.filter_append, List.filter_filter]
    congr 1
    · apply List.filter_congr
      intro q _
      rw [Bool.eq_iff_iff]
      simp only [Bool.and_eq_true, Bool.not_eq_true', beq_eq_false_iff_ne, decide_eq_true_eq]
      omega
    · apply List.filter_congr
      intro q hq
      have hlt := lt_stop_of_mem_begun hq
      rw [Bool.eq_iff_iff]
      simp only [Bool.not_eq_true', beq_eq_false_iff_ne, decide_eq_true_eq]
      omega

/-- What ends at the next offset began at this one or before. -/
theorem arrived_eq (hf : at? text i = some f) :
    f.arrived i (text.drop i) =
      ((List.range (i + 1)).flatMap (begun text)).filter (·.stop == i + 1) := by
  rw [arrived, matched, pending_eq hf, ← begun_eq hf, List.range_succ, List.flatMap_append,
    List.flatMap_singleton, List.filter_append, List.filter_append, List.filter_filter]
  congr 1
  apply List.filter_congr
  intro q _
  rw [Bool.eq_iff_iff]
  simp only [Bool.and_eq_true, beq_iff_eq, decide_eq_true_eq]
  omega

theorem mem_arrived (hf : at? text i = some f) (hq : q ∈ f.arrived i (text.drop i)) :
    ∃ s ≤ i, q ∈ begun text s ∧ q.stop = i + 1 := by
  rw [arrived_eq hf] at hq
  obtain ⟨hq, hstop⟩ := List.mem_filter.mp hq
  obtain ⟨s, hs, hq⟩ := List.mem_flatMap.mp hq
  exact ⟨s, Nat.lt_succ_iff.mp (List.mem_range.mp hs), hq, beq_iff_eq.mp hstop⟩

theorem begins_of_mem_begun (h : q ∈ begun text i) :
    ∃ f, at? text i = some f ∧ f.Begins text i q := by
  cases hf : at? text i with
  | none =>
    rw [begun, hf] at h
    contradiction
  | some f =>
    rw [begun_eq hf] at h
    exact ⟨f, rfl, begins_of_scan h⟩

/-! ### What is carried -/

/-- A list of which each part is nothing or one list. -/
theorem flatMap_repeats {α β : Type} {l : List β} {qs : List α} {r : α → List β}
    (h : ∀ q ∈ qs, r q = [] ∨ r q = l) :
    qs.flatMap r = [] ∨ ∃ rest, qs.flatMap r = l ++ rest ∧ ∀ b ∈ rest, b ∈ l := by
  induction qs with
  | nil => exact .inl rfl
  | cons q qs ih =>
    have hrest := ih fun p hp => h p (List.mem_cons_of_mem q hp)
    rw [List.flatMap_cons]
    rcases h q List.mem_cons_self with hq | hq
    · rw [hq, List.nil_append]
      exact hrest
    · right
      rw [hq]
      refine ⟨qs.flatMap r, rfl, ?_⟩
      rcases hrest with hnil | ⟨rest, heq, hsub⟩
      · rw [hnil]
        exact fun b hb => absurd hb List.not_mem_nil
      · rw [heq]
        intro b hb
        rcases List.mem_append.mp hb with hb | hb
        · exact hb
        · exact hsub b hb

/-- What a match brings to its end if it is blanks. -/
def carriedBy : Pending → List Waiting
  | .token _ _ => []
  | .blanks _ waiting _ => waiting

/-- Where nothing is read, what arrives was carried there over blanks. All blanks that carry anything
began with what waits at the one place behind which they stand. -/
theorem arrivals_of_no_item {g : Front} {j : Nat} (hg : at? text j = some g)
    (hnone : ∀ e, ¬ Item text (j + 1) e) (h : Waits text (j + 1) w)
    (hbefore : ∀ s ≤ j, ∀ v, Waits text s v → waitingAt text s = waitingAt text v.home)
    {q : Pending} (hq : q ∈ g.arrived j (text.drop j)) :
    q.arrivals = (carriedBy q).map .carried ∧
      (carriedBy q = [] ∨ carriedBy q = waitingAt text w.home) := by
  obtain ⟨s, hs, hbegun, hstop⟩ := mem_arrived hg hq
  obtain ⟨d, hd, hbegins⟩ := begins_of_mem_begun hbegun
  cases hbegins with
  | @token v t n hv ht hm =>
    have hwaits := (stage_at? hd).waiting v hv
    have hitem := hwaits.item.scan ht hwaits.ignored hm
    simp only [Pending.stop] at hstop
    rw [hstop] at hitem
    exact absurd hitem (hnone _)
  | @blanks n hn =>
    refine ⟨rfl, ?_⟩
    rw [carriedBy, ← waitingAt_eq hd]
    cases hlist : waitingAt text s with
    | nil => exact .inl rfl
    | cons v vs =>
      right
      have hv : Waits text s v := by
        rw [← mem_waitingAt_iff, hlist]
        exact List.mem_cons_self
      have hbehind := hv.over_blanks hn
      simp only [Pending.stop] at hstop
      rw [hstop] at hbehind
      have hhome := hv.item.home_unique h.item hbehind.ignored h.ignored
      rw [← hlist, hbefore s (by omega) v hv, hhome]

/-- What waits at an offset is what waits at the one place where it stands. -/
theorem waitingAt_home (h : Waits text i w) : waitingAt text i = waitingAt text w.home := by
  induction i using Nat.strong_induction_on generalizing w with
  | _ i ih =>
    rcases Nat.lt_or_eq_of_le h.ignored.le with hlt | heq
    · obtain ⟨j, rfl⟩ : ∃ j, i = j + 1 := ⟨i - 1, by omega⟩
      -- nothing is read up to `j + 1`: there would be a second place behind which it stands
      have hnone : ∀ e, ¬ Item text (j + 1) e := by
        intro e he
        have hhome := h.item.home_unique he h.ignored (.done _)
        omega
      obtain ⟨f, hf, hw⟩ := exists_at_of_mem_waitingAt (mem_waitingAt_iff.mpr h)
      obtain ⟨g, hg, hstep⟩ := Option.bind_eq_some_iff.mp hf
      have hbegan := fun q (hq : q ∈ g.arrived j (text.drop j)) =>
        arrivals_of_no_item hg hnone h (fun s hs v => ih s (Nat.lt_succ_of_le hs)) hq
      have harrivals : (g.arrived j (text.drop j)).flatMap Pending.arrivals =
          ((g.arrived j (text.drop j)).flatMap carriedBy).map .carried := by
        rw [List.map_flatMap]
        exact List.flatMap_congr fun q hq => (hbegan q hq).1
      have hwaiting : f.waiting = (OpenColumn.ofArrivals g.chart
          (((g.arrived j (text.drop j)).flatMap carriedBy).map .carried)).waiting := by
        rw [eq_moved_of_step? hstep, Front.moved, enter_eq, harrivals]
      rw [waitingAt_eq hf]
      rcases flatMap_repeats fun q hq => (hbegan q hq).2 with hnil | ⟨rest, heq, hsub⟩
      · rw [hnil] at hwaiting
        rw [hwaiting] at hw
        contradiction
      · rw [hwaiting, heq]
        exact OpenColumn.waiting_ofArrivals_carried (nodup_waitingAt text w.home) hsub
    · rw [heq]

/-! ### What is read -/

/-- What is read from one offset to another, in the order in which it waits. -/
def reads (text : List Char) (s k : Nat) : List Found :=
  (waitingAt text s).filterMap fun w => do
    let t ← w.edge.terminal?
    let n ← t.match? (text.drop s)
    if s + n = k then some (w.read ⟨t, s, s + n⟩) else none

/-- All that is read up to an offset, in the order in which it arrives. -/
def readsTo (text : List Char) (k : Nat) : List Found := (List.range k).flatMap (reads text · k)

theorem mem_reads_iff {d : Found} : d ∈ reads text i k ↔
    ∃ w t n, Waits text i w ∧ w.edge.next? = some (.terminal t) ∧
      t.match? (text.drop i) = some n ∧ i + n = k ∧ d = w.read ⟨t, i, i + n⟩ := by
  simp only [reads, List.mem_filterMap, mem_waitingAt_iff, Option.bind_eq_bind,
    Option.bind_eq_some_iff, Option.ite_none_right_eq_some, Option.some.injEq,
    Edge.terminal?_eq_some_iff]
  constructor
  · rintro ⟨w, hw, t, ht, n, hn, hk, rfl⟩
    exact ⟨w, t, n, hw, ht, hn, hk, rfl⟩
  · rintro ⟨w, t, n, hw, ht, hn, hk, rfl⟩
    exact ⟨w, hw, t, ht, n, hn, hk, rfl⟩

/-- Of the matches that begin at one offset, those that end at a place where something is read are
tokens. -/
theorem arrivals_begun {e : Edge} (hk : Item text k e) (hik : i < k) :
    ((begun text i).filter (·.stop == k)).flatMap Pending.arrivals =
      (reads text i k).map .found := by
  cases hf : at? text i with
  | none =>
    rw [begun, reads, waitingAt, hf]
    rfl
  | some f =>
    have hblanks : ((((Lexeme.ignored? (text.drop i)).toList.map fun n =>
        Pending.blanks (i + n) f.waiting f.complete?).filter (·.stop == k)).flatMap
          Pending.arrivals) = [] := by
      rw [List.flatMap_eq_nil_iff]
      intro q hq
      obtain ⟨hq, hstop⟩ := List.mem_filter.mp hq
      obtain ⟨n, hn, rfl⟩ := List.mem_map.mp hq
      have hn := Option.mem_toList.mp hn
      obtain rfl : i + n = k := beq_iff_eq.mp hstop
      cases hlist : f.waiting with
      | nil => rfl
      | cons w ws =>
        have hw : Waits text i w := (stage_at? hf).waiting w (hlist ▸ List.mem_cons_self)
        have hbehind := hw.over_blanks hn
        have hhome := hw.item.home_unique hk hbehind.ignored (.done _)
        have hle := hw.ignored.le
        omega
    rw [begun_eq hf, scan, List.filter_append, List.flatMap_append, hblanks, List.append_nil, reads,
      waitingAt_eq hf]
    generalize f.waiting = ws
    induction ws with
    | nil => rfl
    | cons w ws ih =>
      rw [List.filterMap_cons, List.filterMap_cons]
      cases w.edge.terminal? with
      | none => exact ih
      | some t =>
        cases hm : t.match? (text.drop i) with
        | none => simpa [hm] using ih
        | some n =>
          by_cases hstop : i + n = k
          · simpa [hm, hstop, Pending.stop, Pending.arrivals] using ih
          · simpa [hm, hstop, Pending.stop, Pending.arrivals] using ih

/-- Where something is read, what arrives is all that is read up to there. -/
theorem arrivals_eq {e : Edge} (hf : at? text i = some f) (hk : Item text (i + 1) e) :
    (f.arrived i (text.drop i)).flatMap Pending.arrivals = (readsTo text (i + 1)).map .found := by
  rw [arrived_eq hf, readsTo, List.filter_flatMap, List.flatMap_assoc, List.map_flatMap]
  apply List.flatMap_congr
  intro s hs
  exact arrivals_begun hk (List.mem_range.mp hs)

end Front

end Cddl

import Cddl.Proofs.Alignment

/-!
How far the reading of a text gets: to every place where something can go on or end, and to every
place in the middle of a match. Where nothing of either kind is left the text is rejected, and what
is expected there is what waits there.
-/
namespace Cddl

namespace Front

variable {text : List Char} {i j k n place : Nat} {f : Front} {w : Waiting} {t : Terminal}

/-- The reading gets to the offset. -/
def GetsTo (text : List Char) (i : Nat) : Prop := ∃ f, at? text i = some f

/-- A match of blanks, or of a token that something waits for, is under way at the offset. -/
inductive Covered (text : List Char) (i : Nat) : Prop where
  | blanks {s n : Nat} : GetsTo text s → s < i → Lexeme.ignored? (text.drop s) = some n → i < s + n →
    Covered text i
  | token {s n : Nat} {w : Waiting} {t : Terminal} : Waits text s w →
    w.edge.next? = some (.terminal t) → s < i →
    t.match? (text.drop s) = some n → i < s + n → Covered text i

theorem GetsTo.of_le (h : GetsTo text k) (hik : i ≤ k) : GetsTo text i := by
  obtain ⟨f, hf⟩ := h
  exact at?_isSome_of_le hf hik

theorem Lives.getsTo (h : Lives text i) : GetsTo text i := by
  obtain ⟨f, hf, -⟩ := h
  exact ⟨f, hf⟩

theorem Lives.of_ignored (h : Lives text i) (hi : Ignored text i j) : Lives text j := by
  induction hi with
  | done => exact h
  | next hn _ ih =>
    obtain ⟨f, hf, hlives⟩ := h
    exact ih (lives_of_blanks hf hlives hn)

/-- Something goes on or ends where only blanks stand behind a place to which something is read. -/
theorem lives_iff : Lives text i ↔ ∃ k e, Item text k e ∧ Ignored text k i := by
  constructor
  · rintro ⟨f, hf, hlives⟩
    have hstage := stage_at? hf
    cases hc : f.complete? with
    | some k =>
      have hends := hstage.complete k hc
      obtain ⟨p, -, hitem⟩ := hends.item
      exact ⟨k, _, hitem, hends.ignored⟩
    | none =>
      have hne : f.waiting ≠ [] := fun hnil => hlives ⟨hnil, hc⟩
      obtain ⟨w, hw⟩ := List.exists_mem_of_ne_nil _ hne
      have hwaits := hstage.waiting w hw
      exact ⟨w.home, w.edge, hwaits.item, hwaits.ignored⟩
  · rintro ⟨k, e, hitem, hi⟩
    exact (lives_of_item hitem).of_ignored hi

theorem getsTo_iff : GetsTo text i ↔ Lives text i ∨ Covered text i := by
  constructor
  · rintro ⟨f, hf⟩
    by_cases hmute : f.Mute
    · right
      obtain ⟨q, hq⟩ := exists_pending hf hmute
      obtain ⟨s, g, hs, hg, -, hbegins, hlt⟩ := exists_begins hf hq
      cases hbegins with
      | token hw ht hm => exact .token ((stage_at? hg).waiting _ hw) ht hs hm hlt
      | blanks hn => exact .blanks ⟨g, hg⟩ hs hn hlt
    · exact .inl ⟨f, hf, hmute⟩
  · rintro (hlives | hcovered)
    · exact hlives.getsTo
    cases hcovered with
    | @blanks s n hs hsi hn hlt =>
      obtain ⟨g, hg⟩ := hs
      have hq : .blanks (s + n) g.waiting g.complete? ∈ g.matched s (text.drop s) := by
        refine List.mem_append_right _ (List.mem_append_right _ ?_)
        simp [hn]
      obtain ⟨f, hf, -⟩ := reaches hg hq hsi hlt
      exact ⟨f, hf⟩
    | @token s n w t hw ht hsi hm hlt =>
      obtain ⟨g, hg, hw⟩ := exists_at_of_mem_waitingAt (mem_waitingAt_iff.mpr hw)
      have hq : .token w ⟨t, s, s + n⟩ ∈ g.matched s (text.drop s) := by
        refine List.mem_append_right _ (List.mem_append_left _ (List.mem_filterMap.mpr ⟨w, hw, ?_⟩))
        simp [Edge.terminal?_eq_some_iff.mpr ht, hm]
      obtain ⟨f, hf, -⟩ := reaches hg hq hsi hlt
      exact ⟨f, hf⟩

/-- Blanks lead to their end, or to right before it. -/
theorem GetsTo.over_blanks (h : GetsTo text i) (hn : Lexeme.ignored? (text.drop i) = some n)
    (hj : j < i + n) : GetsTo text j := by
  rcases Nat.lt_or_ge i j with hij | hji
  · exact getsTo_iff.mpr (.inr (.blanks h hij hn hj))
  · exact h.of_le hji

/-- A token that something waits for is read. -/
theorem lives_of_match (hw : Waits text i w) (ht : w.edge.next? = some (.terminal t))
    (hm : t.match? (text.drop i) = some n) : Lives text (i + n) :=
  lives_of_item (hw.item.scan ht hw.ignored hm)

/-- Where the reading stops before blanks nothing waits. -/
theorem waitingAt_eq_nil (hstop : ¬ GetsTo text (i + 1))
    (hn : Lexeme.ignored? (text.drop i) ≠ none) : waitingAt text i = [] := by
  obtain ⟨n, hn⟩ := Option.ne_none_iff_exists'.mp hn
  have hpos := Lexeme.ignored?_pos hn
  refine List.eq_nil_iff_forall_not_mem.mpr fun w hw => ?_
  have hwaits := mem_waitingAt_iff.mp hw
  have hlives := lives_iff.mpr ⟨_, _, hwaits.item, (hwaits.over_blanks hn).ignored⟩
  exact hstop (hlives.getsTo.of_le (by omega))

theorem mute_of_ignored (hf : at? text i = some f) (hstop : ¬ GetsTo text (i + 1))
    (hn : Lexeme.ignored? (text.drop i) ≠ none) : f.Mute := by
  obtain ⟨n, hn⟩ := Option.ne_none_iff_exists'.mp hn
  have hpos := Lexeme.ignored?_pos hn
  by_contra hlives
  have hnext := lives_of_blanks hf hlives hn
  exact hstop (hnext.getsTo.of_le (by omega))

end Front

/-! ### Where a text is rejected -/

open Front (GetsTo Lives Covered at? waitingAt)

namespace Rejection

variable {text : List Char} {r : Rejection} {i : Nat}

/-- The terminals for which something waits at an offset. -/
def expectedAt (text : List Char) (i : Nat) : List Terminal :=
  (waitingAt text i).filterMap (·.edge.terminal?)

theorem expectedAt_eq {f : Front} (hf : at? text i = some f) : expectedAt text i = f.expected := by
  rw [expectedAt, Front.waitingAt_eq hf, Front.expected]

/-- The reading of a text ends at the first offset behind which it does not get. -/
inductive Ends (text : List Char) : Rejection → Prop where
  | unexpected {i : Nat} {c : Char} : GetsTo text i → ¬ GetsTo text (i + 1) → text[i]? = some c →
    Ends text (.unexpected i c (expectedAt text i))
  | incomplete : GetsTo text text.length → ¬ IsRule text →
    Ends text (.incomplete (expectedAt text text.length))

theorem ends_of_outcome (h : Front.Outcome text (.error r)) (hnot : ¬ IsRule text) :
    Ends text r := by
  cases h with
  | incomplete hf _ =>
    rw [← expectedAt_eq hf]
    exact .incomplete ⟨_, hf⟩ hnot
  | unexpected hf hstep hget =>
    rw [← expectedAt_eq hf]
    refine .unexpected ⟨_, hf⟩ ?_ hget
    rintro ⟨g, hg⟩
    rw [Front.at?_succ hf, hstep] at hg
    contradiction

theorem exists_ends (h : ¬ IsRule text) : ∃ r, Tree.ofText text = .error r ∧ Ends text r := by
  obtain ⟨r, hr, ho⟩ := Tree.ofText_of_not_isRule h
  exact ⟨r, hr, ends_of_outcome ho h⟩

/-- A text is rejected in one way. -/
theorem Ends.unique {s : Rejection} (hr : Ends text r) (hs : Ends text s) : r = s := by
  cases hr with
  | @unexpected i c hi hnot hc =>
    cases hs with
    | @unexpected j d hj hnot' hd =>
      have hij : ¬ i < j := fun hlt => hnot (hj.of_le hlt)
      have hji : ¬ j < i := fun hlt => hnot' (hi.of_le hlt)
      obtain rfl : i = j := by omega
      rw [hc] at hd
      cases hd
      rfl
    | incomplete hend _ =>
      have hlt := (List.getElem?_eq_some_iff.mp hc).1
      exact absurd (hend.of_le hlt) hnot
  | incomplete hend _ =>
    cases hs with
    | @unexpected j d _ hnot' hd =>
      have hlt := (List.getElem?_eq_some_iff.mp hd).1
      exact absurd (hend.of_le hlt) hnot'
    | incomplete => rfl

theorem ofText_eq_error (h : ¬ IsRule text) (hr : Ends text r) : Tree.ofText text = .error r := by
  obtain ⟨s, hs, hends⟩ := exists_ends h
  rw [hs, hr.unique hends]

end Rejection

/-! ### Places that correspond -/

namespace Aligned

variable {a b : List Char} {place : Nat → Nat} {v u : Nat}

/-- Blanks lead to one offset in the first text where they lead to the other in the second. -/
def Meets (a b : List Char) (place : Nat → Nat) (v u : Nat) : Prop :=
  ∀ k e, Item a k e → (Ignored a k v ↔ Ignored b (columnAt place k) u)

variable (h : Aligned a b place)

include h

theorem lives_iff (hmeets : Meets a b place v u) : Lives a v ↔ Lives b u := by
  rw [Front.lives_iff, Front.lives_iff]
  constructor
  · rintro ⟨k, e, hitem, hi⟩
    exact ⟨_, _, h.item hitem, (hmeets k e hitem).mp hi⟩
  · rintro ⟨k, e, hitem, hi⟩
    obtain ⟨l, d, hd, rfl, rfl⟩ := h.exists_item hitem
    exact ⟨l, d, hd, (hmeets l d hd).mpr hi⟩

theorem waitingAt_eq (hmeets : Meets a b place v u) :
    waitingAt b u = (waitingAt a v).map (·.relabel place) := by
  have hsome : ∀ w, Waits a v w → waitingAt b u = (waitingAt a v).map (·.relabel place) := by
    intro w hw
    exact h.waitingAt_of_agree hw (h.agree hw.item) ((hmeets _ _ hw.item).mp hw.ignored)
  cases hlist : waitingAt a v with
  | cons w ws =>
    rw [← hlist]
    exact hsome w (Front.mem_waitingAt_iff.mp (hlist ▸ List.mem_cons_self))
  | nil =>
    rw [List.map_nil]
    refine List.eq_nil_iff_forall_not_mem.mpr fun w' hw' => ?_
    have hw' := Front.mem_waitingAt_iff.mp hw'
    obtain ⟨l, d, hd, hhome, hedge⟩ := h.exists_item hw'.item
    have hi := (hmeets l d hd).mpr (hhome ▸ hw'.ignored)
    have hw : Waits a v ⟨d, l⟩ := ⟨hd, by simpa [hedge] using hw'.terminal, hi⟩
    have hmem := Front.mem_waitingAt_iff.mpr hw
    rw [hlist] at hmem
    contradiction

theorem expectedAt_eq (hmeets : Meets a b place v u) :
    Rejection.expectedAt b u = Rejection.expectedAt a v := by
  rw [Rejection.expectedAt, h.waitingAt_eq hmeets, List.filterMap_map]
  rfl

/-- Texts whose ends correspond are rules or not together. -/
theorem isRule_iff (hmeets : Meets a b place a.length b.length) : IsRule a ↔ IsRule b := by
  rw [isRule_iff_item, isRule_iff_item]
  constructor
  · rintro ⟨p, stop, hp, hitem, hi⟩
    exact ⟨p, _, hp, h.item hitem, (hmeets _ _ hitem).mp hi⟩
  · rintro ⟨p, stop, hp, hitem, hi⟩
    obtain ⟨l, d, hd, rfl, hfinished⟩ := h.exists_item hitem
    have hd' : d = .finished 0 p := by
      have hrenamed : d.relabel place = (Edge.finished 0 p).relabel place := hfinished.symm
      exact (Edge.relabel_inj h.mono).mp hrenamed
    subst hd'
    exact ⟨p, l, hp, hd, (hmeets _ _ hd).mpr hi⟩

end Aligned

end Cddl

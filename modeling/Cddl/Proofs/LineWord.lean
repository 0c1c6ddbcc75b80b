import Mathlib.Data.Option.Defs
import Cddl.Proofs.LineEnding
import Cddl.Proofs.Word
import Cddl.Service.Hover

/-!
The word at a position of a text whose lines end with a carriage return as well. A position means
offsets that correspond, or it is past the end of its line and means a carriage return in the one text
and a line feed in the other; neither of these is in a word. Both characters stop a word on both
sides, so that corresponding cursors find the same characters.
-/
namespace Cddl

variable {text l : List Char} {c : Char} {i j n o s e : Nat} {units : Int}

/-! ### Positions -/

namespace Position

/-- A column past the end of a line is in front of the line feed, on either side of the carriage
return. -/
theorem column_crlf (text : List Char) (units : Int) :
    Beside text (column text units) (column (crlf text) units) := by
  fun_induction column text units with
  | case1 units => exact .zero
  | case2 c rest units hstop =>
    by_cases hc : c = '\n'
    · subst hc
      rw [crlf_line, column]
      split
      next => exact .zero
      next => exact .inside rfl
    · rw [crlf_cons hc, column, if_pos hstop]
      exact .zero
  | case3 c rest units hgo ih =>
    obtain ⟨hc, hunits⟩ := not_or.mp hgo
    rw [crlf_cons hc, column, if_neg hgo]
    exact ih.cons hc

theorem rel_map {r r' : Nat → Nat → Prop} {f g : Nat → Nat} {a b : Option Nat}
    (h : Option.Rel r a b) (hstep : ∀ {i j}, r i j → r' (f i) (g j)) :
    Option.Rel r' (a.map f) (b.map g) := by
  cases h with
  | none => exact .none
  | some hij => exact .some (hstep hij)

theorem below_crlf (text : List Char) (n : Nat) (units : Int) :
    Option.Rel (Beside text) (below text n units) (below (crlf text) n units) := by
  fun_induction below text n units with
  | case1 text units =>
    rw [below]
    exact .some (column_crlf text units)
  | case2 => exact .none
  | case3 c rest line units ih =>
    by_cases hc : c = '\n'
    · subst hc
      rw [if_pos rfl] at ih ⊢
      rw [crlf_line, below, if_neg (by decide), below, if_pos rfl]
      rw [Option.map_map]
      exact rel_map ih .line
    · rw [if_neg hc] at ih ⊢
      rw [crlf_cons hc, below, if_neg hc]
      exact rel_map ih (.cons · hc)

/-- A position is on no line of either text, or it means offsets that stand beside each other. -/
theorem toOffset?_crlf (text : List Char) (p : Position) :
    Option.Rel (Beside text) (toOffset? text p) (toOffset? (crlf text) p) := by
  unfold toOffset?
  split
  · exact .none
  · exact below_crlf text _ _

end Position

/-! ### Words -/

theorem getElem?_crlf_of_ne (h : text[i]? ≠ some '\n') : (crlf text)[crlfAt text i]? = text[i]? := by
  cases hget : text[i]? with
  | none =>
    have hlength := List.getElem?_eq_none_iff.mp hget
    rw [List.getElem?_eq_none_iff, length_crlf]
    exact (strictMono_crlfAt text).monotone hlength
  | some c =>
    exact getElem?_crlf hget fun hc => h (hget.trans (congrArg some hc))

theorem Span.slice_crlf (text : List Char) (h : s ≤ e) :
    (⟨crlfAt text s, crlfAt text e⟩ : Span).slice (crlf text) =
      crlf ((⟨s, e⟩ : Span).slice text) := by
  simp only [slice, Int.toNat_natCast]
  rw [take_crlf, ← crlfAt_take h, drop_crlf]

namespace Word

/-- What is between two offsets without a line feed is between the corresponding ones. -/
theorem getElem?_of_crlf (hline : '\n' ∉ (⟨s, e⟩ : Span).slice text) (hse : s ≤ e)
    (hsi : crlfAt text s ≤ i) (hie : i < crlfAt text e) (hc : (crlf text)[i]? = some c) :
    ∃ k, s ≤ k ∧ k < e ∧ text[k]? = some c := by
  have hmem : c ∈ (⟨crlfAt text s, crlfAt text e⟩ : Span).slice (crlf text) :=
    mem_slice_iff.mpr ⟨i, hsi, hie, hc⟩
  rw [Span.slice_crlf text hse, crlf_eq_self hline] at hmem
  exact mem_slice_iff.mp hmem

theorem startsAt_crlf (hline : text[o]? ≠ some '\n') (hs : StartsAt text o s) :
    StartsAt (crlf text) (crlfAt text o) (crlfAt text s) := by
  have hmono := (strictMono_crlfAt text).monotone
  obtain ⟨hso, hfront, hclear⟩ := startsAt_iff.mp hs
  have hnext := crlfAt_succ hline
  refine startsAt_iff.mpr ⟨?_, ?_, fun i c hi hio hc => ?_⟩
  · rw [← hnext]
    exact hmono hso
  · rcases hfront with rfl | ⟨i, c, rfl, hc, hstop⟩
    · exact .inl crlfAt_zero
    · by_cases hfeed : c = '\n'
      · subst hfeed
        exact .inr ⟨_, '\n', crlfAt_succ_line hc, getElem?_crlf_line hc, hstop⟩
      · have hne : text[i]? ≠ some '\n' := by simp [hc, hfeed]
        exact .inr ⟨_, c, crlfAt_succ hne, getElem?_crlf hc hfeed, hstop⟩
  · have hslice : '\n' ∉ (⟨s, (o + 1 : Nat)⟩ : Span).slice text := fun hmem => by
      obtain ⟨k, hk, hko, hget⟩ := mem_slice_iff.mp hmem
      exact absurd (hclear k '\n' hk (Nat.le_of_lt_succ hko) hget) (by decide)
    obtain ⟨k, hk, hko, hget⟩ := getElem?_of_crlf hslice hso hi (by omega) hc
    exact hclear k c hk (Nat.le_of_lt_succ hko) hget

theorem stopsAt_crlf (ho : o ≤ text.length) (he : StopsAt text o e) :
    StopsAt (crlf text) (crlfAt text o) (crlfAt text e) := by
  have hmono := (strictMono_crlfAt text).monotone
  obtain ⟨hoe, hback, hclear⟩ := (stopsAt_iff ho).mp he
  have hlength : crlfAt text o ≤ (crlf text).length := by
    rw [length_crlf]
    exact hmono ho
  refine (stopsAt_iff hlength).mpr ⟨hmono hoe, ?_, fun i c hi hie hc => ?_⟩
  · rcases hback with rfl | ⟨c, hc, hstop⟩
    · exact .inl (length_crlf text).symm
    · by_cases hfeed : c = '\n'
      · subst hfeed
        exact .inr ⟨'\r', getElem?_crlf_return hc, rfl⟩
      · exact .inr ⟨c, getElem?_crlf hc hfeed, hstop⟩
  · have hslice : '\n' ∉ (⟨o, e⟩ : Span).slice text := fun hmem => by
      obtain ⟨k, hk, hke, hget⟩ := mem_slice_iff.mp hmem
      exact absurd (hclear k '\n' hk hke hget) (by decide)
    obtain ⟨k, hk, hke, hget⟩ := getElem?_of_crlf hslice hoe hi hie hc
    exact hclear k c hk hke hget

/-- Corresponding cursors find the same word, but for one on a line feed. -/
theorem atOffset?_crlf (hline : text[o]? ≠ some '\n') :
    atOffset? (crlf text) (crlfAt text o) = atOffset? text o := by
  have hmono := strictMono_crlfAt text
  by_cases ho : o ≤ text.length
  · have ho' : crlfAt text o ≤ (crlf text).length := by
      rw [length_crlf]
      exact hmono.monotone ho
    have hget := getElem?_crlf_of_ne hline
    by_cases hspace : text[o]? = some ' '
    · rw [atOffset?_of_stop hspace rfl rfl, atOffset?_of_stop (hget.trans hspace) rfl rfl]
    · obtain ⟨s, e, hs, he⟩ := exists_ends ho
      rw [atOffset?, atOffset?, bounds?_eq ho hspace hs he, bounds?_eq ho' (hget ▸ hspace)
        (startsAt_crlf hline hs) (stopsAt_crlf ho he)]
      simp only [hmono.lt_iff_lt]
      split
      next hlt =>
        have hslice : '\n' ∉ (⟨s, e⟩ : Span).slice text := fun hmem =>
          absurd (not_both_stop ho hs he hmem) (by decide)
        rw [Option.map_some, Option.map_some, Span.slice_crlf text (Nat.le_of_lt hlt),
          crlf_eq_self hslice]
      next => rfl
  · have hbeyond : (text.length : Int) < o := by omega
    have hbeyond' : ((crlf text).length : Int) < crlfAt text o := by
      rw [length_crlf]
      exact Int.ofNat_lt.mpr (hmono (Nat.lt_of_not_le ho))
    simp [atOffset?, bounds?, hbeyond, hbeyond']

theorem atOffset?_beside (h : Beside text i j) : atOffset? (crlf text) j = atOffset? text i := by
  by_cases hline : text[i]? = some '\n'
  · rw [atOffset?_of_stop hline rfl rfl]
    cases h with
    | same => exact atOffset?_of_stop (getElem?_crlf_return hline) rfl rfl
    | inside => exact atOffset?_of_stop (getElem?_crlf_line hline) rfl rfl
  · rw [h.eq_of_ne hline, atOffset?_crlf hline]

theorem atPosition?_crlf (text : List Char) (p : Position) :
    atPosition? (crlf text) p = atPosition? text p := by
  have hrel := Position.toOffset?_crlf text p
  rw [atPosition?, atPosition?]
  generalize p.toOffset? text = a, p.toOffset? (crlf text) = b at hrel
  cases hrel with
  | none => rfl
  | some hbeside => exact atOffset?_beside hbeside

end Word

/-- A carriage return in front of every line feed changes nothing for a reader at a position, whatever
line and column it names: the word there is the same, and so is what is shown for it. The text may
have carriage returns of its own. -/
theorem Hover.at?_crlf (text : List Char) (p : Position) :
    Word.atPosition? (crlf text) p = Word.atPosition? text p ∧
      Hover.at? (crlf text) p = Hover.at? text p := by
  have hword := Word.atPosition?_crlf text p
  exact ⟨hword, by rw [Hover.at?, Hover.at?, hword]⟩

end Cddl

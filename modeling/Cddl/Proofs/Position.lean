import Mathlib.Data.List.Induction
import Mathlib.Order.Defs.PartialOrder
import Cddl.Text.Position

/-!
Offsets and positions. Positions are ordered by line and then by column; they only grow on the way
through a text, so that positions are in the order of their offsets, and each position of a text
leads back to the offset that it was made from.
-/
namespace Cddl

namespace Position

/-- Lines are compared first, and columns on one line only. -/
instance : PartialOrder Position where
  le p q := p.line < q.line ∨ p.line = q.line ∧ p.character ≤ q.character
  lt p q := p.line < q.line ∨ p.line = q.line ∧ p.character < q.character
  le_refl p := .inr ⟨rfl, Int.le_refl p.character⟩
  le_trans p q r hpq hqr := by omega
  lt_iff_le_not_ge p q := by omega
  le_antisymm := by
    rintro ⟨line, character⟩ ⟨line', character'⟩ h h'
    simp only at h h'
    rw [mk.injEq]
    omega

theorem lt_iff {p q : Position} :
    p < q ↔ p.line < q.line ∨ p.line = q.line ∧ p.character < q.character := .rfl

/-! ### The way through a text -/

theorem utf16Width_pos (c : Char) : 0 < utf16Width c := by
  unfold utf16Width
  split <;> decide

theorem lt_step (p : Position) (c : Char) : p < p.step c := by
  have hwidth := utf16Width_pos c
  rw [lt_iff, step]
  split
  · exact .inl (Int.lt_add_one_of_le (Int.le_refl _))
  · exact .inr ⟨rfl, by simp only; omega⟩

theorem le_foldl_step (p : Position) (text : List Char) : p ≤ text.foldl step p := by
  induction text generalizing p with
  | nil => exact le_refl p
  | cons c rest ih => exact le_trans (le_of_lt (lt_step p c)) (ih (p.step c))

theorem lt_foldl_step (p : Position) {text : List Char} (h : text ≠ []) :
    p < text.foldl step p := by
  cases text with
  | nil => contradiction
  | cons c rest => exact lt_of_lt_of_le (lt_step p c) (le_foldl_step (p.step c) rest)

variable {i j : Int}

/-- The way to a position leads over all positions in front of it. -/
theorem ofOffset_eq_foldl (text : List Char) (h : i ≤ j) :
    ofOffset text j = ((⟨i, j⟩ : Span).slice text).foldl step (ofOffset text i) := by
  have htake : (text.take j.toNat).take i.toNat = text.take i.toNat := by
    rw [List.take_take, Nat.min_eq_left (Int.toNat_le_toNat h)]
  rw [Span.slice, ofOffset, ofOffset, ← htake, ← behind_append, List.take_append_drop]

theorem ofOffset_mono (text : List Char) (h : i ≤ j) : ofOffset text i ≤ ofOffset text j := by
  rw [ofOffset_eq_foldl text h]
  exact le_foldl_step _ _

/-- Inside the text no two offsets share a position. -/
theorem ofOffset_strictMono {text : List Char} (hi : 0 ≤ i) (hij : i < j) (hj : j ≤ text.length) :
    ofOffset text i < ofOffset text j := by
  rw [ofOffset_eq_foldl text (Int.le_of_lt hij)]
  refine lt_foldl_step _ (List.ne_nil_of_length_pos ?_)
  simp only [Span.slice, List.length_drop, List.length_take]
  omega

/-! ### The way back -/

/-- The position that `q`, counted from the beginning, has when it is counted from `p`. -/
def advance (p q : Position) : Position :=
  if q.line = 0 then ⟨p.line, p.character + q.character⟩ else ⟨p.line + q.line, q.character⟩

theorem behind_nonneg (text : List Char) :
    0 ≤ (behind text).line ∧ 0 ≤ (behind text).character := by
  induction text using List.reverseRecOn with
  | nil => exact ⟨Int.le_refl 0, Int.le_refl 0⟩
  | append_singleton text c ih =>
    rw [behind_append, List.foldl_cons, List.foldl_nil, step]
    split <;> constructor <;> simp only <;> omega

theorem step_advance (p : Position) {q : Position} (c : Char) (h : 0 ≤ q.line) :
    (p.advance q).step c = p.advance (q.step c) := by
  by_cases hc : c = '\n'
  · have hline : q.line + 1 ≠ 0 := by omega
    simp only [step, advance, hc, hline, if_true, if_false]
    split <;> simp only [mk.injEq, and_true] <;> omega
  · simp only [step, advance, hc, if_false]
    split
    · rw [Int.add_assoc]
    · rfl

theorem foldl_step (p : Position) (text : List Char) :
    text.foldl step p = p.advance (behind text) := by
  induction text using List.reverseRecOn with
  | nil => simp [behind, origin, advance]
  | append_singleton text c ih =>
    rw [List.foldl_append, ih, behind_append]
    exact step_advance p c (behind_nonneg text).1

theorem behind_cons (c : Char) (text : List Char) :
    behind (c :: text) = (origin.step c).advance (behind text) := foldl_step (origin.step c) text

theorem behind_line (text : List Char) :
    behind ('\n' :: text) = ⟨(behind text).line + 1, (behind text).character⟩ := by
  rw [behind_cons, step, if_pos rfl, advance, origin]
  split <;> simp only [mk.injEq, Int.zero_add, and_true] <;> omega

/-- A character that ends no line counts for the column, as long as its line goes on. -/
theorem behind_of_ne {c : Char} (h : c ≠ '\n') (text : List Char) :
    behind (c :: text) =
      if (behind text).line = 0 then ⟨0, utf16Width c + (behind text).character⟩
      else behind text := by
  rw [behind_cons, step, if_neg h, advance, origin]
  split <;> simp

theorem below_behind (front rest : List Char) :
    below (front ++ rest) (behind front).line.toNat (behind front).character =
      some front.length := by
  induction front with
  | nil => cases rest <;> simp [behind, origin, below, column]
  | cons c front ih =>
    obtain ⟨hline, hcharacter⟩ := behind_nonneg front
    -- the position is on a line behind `c`, on the line of `c`, or on a lower one
    by_cases hc : c = '\n'
    · have hdown : ((behind front).line + 1).toNat = (behind front).line.toNat + 1 := by omega
      rw [hc, behind_line, List.cons_append, hdown, below, if_pos rfl, ih]
      rfl
    · rw [behind_of_ne hc, List.cons_append]
      split
      next hzero =>
        have hwidth := utf16Width_pos c
        have hpos : ¬ (utf16Width c + (behind front).character ≤ 0) := by omega
        have hrest : utf16Width c + (behind front).character - utf16Width c =
            (behind front).character := by omega
        rw [hzero, Int.toNat_zero, below, Option.some.injEq] at ih
        simp [below, column, hc, hpos, hrest, ih]
      next hlower =>
        obtain ⟨n, hn⟩ := Nat.exists_eq_succ_of_ne_zero
          (show (behind front).line.toNat ≠ 0 by omega)
        rw [hn] at ih ⊢
        rw [below, if_neg hc, ih]
        rfl

theorem toOffset?_behind (front rest : List Char) :
    toOffset? (front ++ rest) (behind front) = some front.length := by
  have hnonneg := behind_nonneg front
  rw [toOffset?, if_neg (by omega)]
  exact below_behind front rest

/-- The position of an offset leads back to it; an offset outside the text is moved to its nearest
end on the way. -/
theorem toOffset?_ofOffset (text : List Char) (i : Int) :
    toOffset? text (ofOffset text i) = some (min i.toNat text.length) := by
  have h := toOffset?_behind (text.take i.toNat) (text.drop i.toNat)
  rwa [List.take_append_drop, List.length_take] at h

end Position

/-! ### Ranges and spans -/

namespace Range

/-- The span that a range covers, if the text has both of its lines. -/
def span? (r : Range) (text : List Char) : Option Span :=
  match r.start.toOffset? text, r.stop.toOffset? text with
  | some start, some stop => some ⟨start, stop⟩
  | _, _ => none

/-- The range does not reach beyond the other one at either end. -/
structure Inside (r other : Range) : Prop where
  start_le : other.start ≤ r.start
  stop_le : r.stop ≤ other.stop

theorem Inside.refl (r : Range) : r.Inside r := ⟨le_refl r.start, le_refl r.stop⟩

end Range

namespace Span

variable {text : List Char} {s t : Span}

/-- The range of a span that fits the text covers that span. -/
theorem span?_range (h : s.fits text) : (s.range text).span? text = some s := by
  obtain ⟨hstart, hle, hstop⟩ := fits_iff.mp h
  have hstart' : ((min s.start.toNat text.length : Nat) : Int) = s.start := by omega
  have hstop' : ((min s.stop.toNat text.length : Nat) : Int) = s.stop := by omega
  simp only [Range.span?, range, Position.toOffset?_ofOffset, hstart', hstop']

theorem range_inside (text : List Char) (hstart : t.start ≤ s.start) (hstop : s.stop ≤ t.stop) :
    (s.range text).Inside (t.range text) :=
  ⟨Position.ofOffset_mono text hstart, Position.ofOffset_mono text hstop⟩

end Span

end Cddl

/-!
Half-open intervals of code-point offsets. A span is plain data: one that comes from a stale
analysis, or from a client, need not fit the text at hand, so its ends are integers.
-/
namespace Cddl

/-- The interval from `start` up to, not including, `stop`. -/
structure Span where
  start : Int
  stop : Int
deriving DecidableEq, Repr

namespace Span

def contains (s : Span) (offset : Int) : Bool :=
  decide (s.start ≤ offset) && decide (offset < s.stop)

def shift (s : Span) (offset : Int) : Span := ⟨offset + s.start, offset + s.stop⟩

/-- The span is ordered and lies within the text. -/
def fits (s : Span) (text : List Char) : Bool :=
  decide (0 ≤ s.start) && decide (s.start ≤ s.stop) && decide (s.stop ≤ text.length)

/-- The characters that the span covers; ends outside the text are moved to its ends. -/
def slice (s : Span) (text : List Char) : List Char :=
  (text.take s.stop.toNat).drop s.start.toNat

theorem contains_iff {s : Span} {offset : Int} :
    s.contains offset = true ↔ s.start ≤ offset ∧ offset < s.stop := by
  simp [contains]

theorem fits_iff {s : Span} {text : List Char} :
    s.fits text = true ↔ 0 ≤ s.start ∧ s.start ≤ s.stop ∧ s.stop ≤ text.length := by
  simp [fits, and_assoc]

end Span

end Cddl

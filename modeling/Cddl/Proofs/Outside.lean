import Cddl.Proofs.Landmark
import Cddl.Proofs.Scan

/-!
Brackets in the sequences that the grammar derives. They are balanced in the sequence of every
constituent, so that it makes sense to say which of its terminals stand outside of them. A table
says for each nonterminal which terminals its brackets hide; that the table is right is checked once
for each production.
-/
namespace Cddl

open Chunk (depthAfterToken)

/-- The number of open brackets behind terminals, where `d` brackets are open in front of them. -/
def level (d : Nat) (ts : List Terminal) : Nat := ts.foldl (fun d t => depthAfterToken t d) d

/-- The terminals in front of which no bracket is open. -/
def outside : Nat → List Terminal → List Terminal
  | _, [] => []
  | 0, t :: ts => t :: outside (depthAfterToken t 0) ts
  | d + 1, t :: ts => outside (depthAfterToken t (d + 1)) ts

section

variable {t : Terminal} {ts us : List Terminal} {d : Nat}

theorem level_cons : level d (t :: ts) = level (depthAfterToken t d) ts := rfl

theorem level_append : level d (ts ++ us) = level (level d ts) us := by
  simp [level]

theorem outside_zero : outside 0 (t :: ts) = t :: outside (depthAfterToken t 0) ts := rfl

theorem outside_succ : outside (d + 1) (t :: ts) = outside (depthAfterToken t (d + 1)) ts := rfl

theorem outside_append : outside d (ts ++ us) = outside d ts ++ outside (level d ts) us := by
  induction ts generalizing d with
  | nil => rfl
  | cons t ts ih =>
    cases d with
    | zero => rw [List.cons_append, outside_zero, outside_zero, ih, level_cons, List.cons_append]
    | succ d => rw [List.cons_append, outside_succ, outside_succ, ih, level_cons]

/-- All brackets are landmarks. -/
theorem depthAfterToken_of_not_landmark (ht : t.isLandmark = false) : depthAfterToken t d = d := by
  cases t with
  | openBrace | closeBrace | openParen | closeParen | openBracket | closeBracket => contradiction
  | _ => rfl

/-- Which landmarks stand outside brackets does not depend on what stands between them. -/
theorem outside_filter :
    outside d (ts.filter Terminal.isLandmark) = (outside d ts).filter Terminal.isLandmark := by
  induction ts generalizing d with
  | nil => cases d <;> rfl
  | cons t ts ih =>
    cases ht : t.isLandmark with
    | true =>
      rw [List.filter_cons_of_pos ht]
      cases d with
      | zero => rw [outside_zero, outside_zero, List.filter_cons_of_pos ht, ih]
      | succ d => rw [outside_succ, outside_succ, ih]
    | false =>
      rw [List.filter_cons_of_neg (by simp [ht])]
      cases d with
      | zero =>
        rw [outside_zero, List.filter_cons_of_neg (by simp [ht]), ih,
          depthAfterToken_of_not_landmark ht]
      | succ d => rw [outside_succ, ih, depthAfterToken_of_not_landmark ht]

/-- Sequences with the same landmarks have the same ones outside brackets. -/
theorem mem_outside_of_landmarks (ht : t.isLandmark = true)
    (h : ts.filter Terminal.isLandmark = us.filter Terminal.isLandmark)
    (hmem : t ∈ outside d ts) : t ∈ outside d us := by
  have hfilter : t ∈ (outside d ts).filter Terminal.isLandmark := List.mem_filter.mpr ⟨hmem, ht⟩
  rw [← outside_filter, h, outside_filter] at hfilter
  exact (List.mem_filter.mp hfilter).1

end

/-! ### Brackets in productions -/

namespace Nonterminal

/-- Terminals that stand inside brackets only, if at all, in a sequence for the nonterminal. -/
def hides : Nonterminal → List Terminal
  | rule => []
  | choices | group => [.assign]
  | choice | entries | entry | memberKey | bareword | occur => [.assign, .groupChoice]
  | _ => [.assign, .groupChoice, .arrow, .colon, .caret, .occurrence]

end Nonterminal

namespace Symbol

def depthAfter : Symbol → Nat → Nat
  | terminal t, d => depthAfterToken t d
  | nonterminal _, d => d

def level (d : Nat) (syms : List Symbol) : Nat := syms.foldl (fun d s => s.depthAfter d) d

/-- The symbols in front of which no bracket is open. -/
def outside : Nat → List Symbol → List Symbol
  | _, [] => []
  | 0, s :: syms => s :: outside (s.depthAfter 0) syms
  | d + 1, s :: syms => outside (s.depthAfter (d + 1)) syms

/-- The terminal does not stand outside brackets in a sequence for the symbol. -/
def hides (t : Terminal) : Symbol → Bool
  | terminal u => u != t
  | nonterminal n => n.hides.contains t

end Symbol

namespace Production

theorem level_rhs (p : Production) (d : Nat) : Symbol.level d p.rhs = d := by
  cases p <;> rfl

theorem outside_rhs (p : Production) (d : Nat) : Symbol.outside (d + 1) p.rhs = [] := by
  cases p <;> rfl

theorem hides_rhs (p : Production) :
    ∀ t ∈ p.lhs.hides, ∀ s ∈ Symbol.outside 0 p.rhs, s.hides t = true := by
  cases p <;> decide

end Production

namespace Derives

variable {syms : List Symbol} {ts : List Terminal} {t : Terminal} {p : Production}

theorem level_eq (h : Derives syms ts) (d : Nat) : level d ts = Symbol.level d syms := by
  induction h generalizing d with
  | done => rfl
  | terminal _ ih => exact ih _
  | nonterminal p _ _ ih ih' =>
    rw [level_append, ih, p.level_rhs, ih']
    rfl

theorem not_mem_outside (h : Derives syms ts) (d : Nat)
    (ht : ∀ s ∈ Symbol.outside d syms, s.hides t = true) : t ∉ outside d ts := by
  induction h generalizing d with
  | done => cases d <;> exact List.not_mem_nil
  | @terminal u rest ts _ ih =>
    cases d with
    | zero =>
      have hu : u ≠ t := by simpa [Symbol.hides] using ht _ List.mem_cons_self
      have hrest : t ∉ outside (depthAfterToken u 0) ts :=
        ih _ fun s hs => ht s (List.mem_cons_of_mem _ hs)
      simp [outside_zero, hrest, hu.symm]
    | succ d => exact ih _ ht
  | @nonterminal rest us ts p hp _ ih ih' =>
    have hlevel : level d us = d := by rw [hp.level_eq, p.level_rhs]
    rw [outside_append, hlevel, List.mem_append, not_or]
    cases d with
    | zero =>
      have hlhs : t ∈ p.lhs.hides := by simpa [Symbol.hides] using ht _ List.mem_cons_self
      exact ⟨ih 0 (p.hides_rhs t hlhs), ih' 0 fun s hs => ht s (List.mem_cons_of_mem _ hs)⟩
    | succ d =>
      refine ⟨ih (d + 1) ?_, ih' (d + 1) ht⟩
      simp [p.outside_rhs]

/-- The sequence of a constituent is balanced, and nothing of it is outside where a bracket is open
in front of it. -/
theorem balanced (h : Derives p.rhs ts) (d : Nat) :
    level d ts = d ∧ outside (d + 1) ts = [] := by
  refine ⟨by rw [h.level_eq, p.level_rhs], ?_⟩
  apply List.eq_nil_iff_forall_not_mem.mpr
  intro t
  apply h.not_mem_outside
  simp [p.outside_rhs]

theorem hidden (h : Derives p.rhs ts) (ht : t ∈ p.lhs.hides) : t ∉ outside 0 ts :=
  h.not_mem_outside 0 (p.hides_rhs t ht)

end Derives

end Cddl

import Cddl.Grammar.Derivation
import Cddl.Proofs.Lexeme

/-!
Derivations and tilings taken apart: by the production that is used first, by the place where one
part ends and the next begins, and by the symbols that derive nothing.
-/
namespace Cddl

namespace Symbol

/-- The symbol derives the empty sequence. -/
def nullable : Symbol → Bool
  | terminal _ => false
  | nonterminal n => n.nullable

end Symbol

theorem Production.nullable_lhs {p : Production} (h : p.rhs.all Symbol.nullable = true) :
    p.lhs.nullable = true := by
  revert h
  cases p <;> decide

namespace Derives

variable {syms : List Symbol} {ts : List Terminal}

theorem exists_production {n : Nonterminal} (h : Derives [.nonterminal n] ts) :
    ∃ p : Production, p.lhs = n ∧ Derives p.rhs ts := by
  generalize hs : [Symbol.nonterminal n] = syms at h
  cases h with
  | done => contradiction
  | terminal => simp at hs
  | @nonterminal rest us ts p hp hrest =>
    obtain ⟨hn, rfl⟩ := List.cons.inj hs
    cases hrest
    rw [List.append_nil]
    exact ⟨p, (Symbol.nonterminal.inj hn).symm, hp⟩

theorem terminal_cases {t : Terminal} {rest : List Symbol}
    (h : Derives (.terminal t :: rest) ts) : ∃ us, ts = t :: us ∧ Derives rest us := by
  cases h with
  | terminal h => exact ⟨_, rfl, h⟩

theorem nonterminal_cases {n : Nonterminal} {rest : List Symbol}
    (h : Derives (.nonterminal n :: rest) ts) :
    ∃ us vs, ts = us ++ vs ∧ Derives [.nonterminal n] us ∧ Derives rest vs := by
  cases h with
  | nonterminal p hp hrest => exact ⟨_, _, rfl, .of_production p hp, hrest⟩

theorem nil_cases (h : Derives [] ts) : ts = [] := by
  cases h
  rfl

theorem all_nullable (h : Derives syms []) : syms.all Symbol.nullable = true := by
  generalize hts : [] = ts at h
  induction h with
  | done => rfl
  | terminal => contradiction
  | nonterminal p _ _ ih ih' =>
    obtain ⟨hus, hts⟩ := List.append_eq_nil_iff.mp hts.symm
    simp [Symbol.nullable, Production.nullable_lhs (ih hus.symm), ih' hts.symm]

end Derives

namespace Tiled

variable {text : List Char} {i j : Nat} {us ts : List Terminal}

theorem split (h : Tiled text i (us ++ ts) j) : ∃ k, Tiled text i us k ∧ Tiled text k ts j := by
  induction us generalizing i with
  | nil => exact ⟨i, .done i, h⟩
  | cons t us ih =>
    cases h with
    | token hi ht hrest =>
      obtain ⟨k, hus, hts⟩ := ih hrest
      exact ⟨k, .token hi ht hus, hts⟩

theorem cons_cases {t : Terminal} (h : Tiled text i (t :: ts) j) :
    ∃ k n, Ignored text i k ∧ t.match? (text.drop k) = some n ∧ Tiled text (k + n) ts j := by
  cases h with
  | token hi ht hrest => exact ⟨_, _, hi, ht, hrest⟩

/-- Tokens take up room. -/
theorem eq_nil (h : Tiled text i ts i) : ts = [] := by
  cases h with
  | done => rfl
  | token hi ht hrest =>
    have := hi.le
    have := Terminal.match?_pos ht
    have := hrest.le
    omega

end Tiled

end Cddl

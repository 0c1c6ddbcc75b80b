import Cddl.Proofs.Column
import Cddl.Proofs.Derivation

/-!
The items of a text: which edges may stand in which column, by four rules of deduction and without
any order of work. An item says that the part of its production before the dot is derived by tokens
that tile the text from its start to its column, and that something before it calls for it.
-/
namespace Cddl

/-- `Item text k e`: the edge `e` belongs to the column `k`. -/
inductive Item (text : List Char) : Nat → Edge → Prop where
  | start (p : Production) : p.lhs = .rule → Item text 0 (.fresh 0 p)
  | predict {k e} (p : Production) : Item text k e → e.next? = some (.nonterminal p.lhs) →
      Item text k (.fresh k p)
  | scan {i k n e t} : Item text i e → e.next? = some (.terminal t) → Ignored text i k →
      t.match? (text.drop k) = some n → Item text (k + n) e.advance
  | complete {k j e} (p : Production) : Item text k e → e.next? = some (.nonterminal p.lhs) →
      Item text j (.finished k p) → Item text j e.advance

theorem Edge.take_advance {e : Edge} {s : Symbol} (h : e.next? = some s) :
    e.production.rhs.take (e.dot + 1) = e.production.rhs.take e.dot ++ [s] := by
  rw [next?_eq] at h
  rw [List.take_add_one, h, Option.toList_some]

theorem Edge.rest_eq_cons {e : Edge} {s : Symbol} {rest : List Symbol} (h : e.rest = s :: rest) :
    e.next? = some s ∧ e.advance.rest = rest := by
  simp [next?, rest_advance, h]

namespace Item

variable {text : List Char}

theorem fits {k : Nat} {e : Edge} (h : Item text k e) : e.Fits k := by
  induction h with
  | start p _ => exact Edge.fits_fresh 0 p
  | predict p _ _ _ => exact Edge.fits_fresh _ p
  | scan _ hn hi _ ih =>
    have := hi.le
    exact (ih.mono (by omega)).advance hn
  | complete p _ hn _ ih ih' => exact (ih.mono ih'.start_le).advance hn

/-- What stands before the dot of an item has been read. -/
theorem read {k : Nat} {e : Edge} (h : Item text k e) :
    ∃ ts, Derives (e.production.rhs.take e.dot) ts ∧ Tiled text e.start ts k := by
  induction h with
  | start p _ => exact ⟨[], .done, .done 0⟩
  | predict p _ _ _ => exact ⟨[], .done, .done _⟩
  | @scan i k n e t _ hn hi hm ih =>
    obtain ⟨ts, hd, ht⟩ := ih
    refine ⟨ts ++ [t], ?_, ht.append (.token hi hm (.done _))⟩
    simp only [Edge.advance_production, Edge.advance_dot, Edge.take_advance hn]
    exact hd.append (.terminal .done)
  | @complete k j e p _ hn _ ih ih' =>
    obtain ⟨ts, hd, ht⟩ := ih
    obtain ⟨us, hd', ht'⟩ := ih'
    refine ⟨ts ++ us, ?_, ht.append ht'⟩
    simp only [Edge.finished, List.take_length] at hd'
    simp only [Edge.advance_production, Edge.advance_dot, Edge.take_advance hn]
    exact hd.append (.of_production p hd')

/-- A constituent that is read without moving may be empty. -/
theorem nullable {k : Nat} {p : Production} (h : Item text k (.finished k p)) :
    p.lhs.nullable = true := by
  obtain ⟨ts, hd, ht⟩ := h.read
  obtain rfl := Tiled.eq_nil ht
  rw [Edge.finished, List.take_length] at hd
  exact Production.nullable_lhs hd.all_nullable

/-- An item moves over whatever derives tokens that tile the text behind it. -/
theorem move {syms : List Symbol} {ts : List Terminal} (hd : Derives syms ts) {i j : Nat}
    {e : Edge} {rest : List Symbol} (h : Item text i e) (hr : e.rest = syms ++ rest)
    (ht : Tiled text i ts j) : Item text j { e with dot := e.dot + syms.length } := by
  induction hd generalizing i j e rest with
  | done =>
    cases ht
    exact h
  | @terminal t syms ts _ ih =>
    obtain ⟨hn, hr⟩ := Edge.rest_eq_cons hr
    cases ht with
    | token hi hm ht =>
      have hmoved := ih (h.scan hn hi hm) hr ht
      rwa [Edge.advance_dot, Nat.add_assoc, Nat.add_comm 1] at hmoved
  | @nonterminal syms us ts p _ _ ih ih' =>
    obtain ⟨hn, hr⟩ := Edge.rest_eq_cons hr
    obtain ⟨k, hus, hts⟩ := ht.split
    -- the constituent is read by an edge of its own, which then completes this one
    have hp : Item text k (.finished i p) := by
      have hmoved := ih (h.predict p hn) (List.append_nil _).symm hus
      rwa [Edge.fresh, Nat.zero_add] at hmoved
    have hmoved := ih' (h.complete p hn hp) hr hts
    rwa [Edge.advance_dot, Nat.add_assoc, Nat.add_comm 1] at hmoved

end Item

/-- The text is a rule if and only if some production for rules is an item from its beginning to a
place behind which there are only blanks and comments. -/
theorem isRule_iff_item {text : List Char} :
    IsRule text ↔ ∃ p stop, p.lhs = .rule ∧ Item text stop (.finished 0 p) ∧
      Ignored text stop text.length := by
  constructor
  · rintro ⟨ts, stop, ht, hi, hd⟩
    obtain ⟨p, hp, hd⟩ := hd.exists_production
    have hitem := Item.move hd (.start p hp) (List.append_nil _).symm ht
    rw [Edge.fresh, Nat.zero_add] at hitem
    exact ⟨p, stop, hp, hitem, hi⟩
  · rintro ⟨p, stop, hp, hitem, hi⟩
    obtain ⟨ts, hd, ht⟩ := hitem.read
    rw [Edge.finished, List.take_length] at hd
    exact ⟨ts, stop, ht, hi, hp ▸ .of_production p hd⟩

end Cddl

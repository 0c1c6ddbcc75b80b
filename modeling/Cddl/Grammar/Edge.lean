import Cddl.Grammar.Production

/-!
Edges of a chart: a production of which a first part has been read, from a known offset on. How an
edge was reached is kept beside it as a link, so that readings can be told apart later.
-/
namespace Cddl

/-- `production`, read from `start` on as far as its first `dot` symbols. -/
structure Edge where
  production : Production
  dot : Nat
  start : Nat
deriving DecidableEq, Repr

namespace Edge

/-- The symbols still to be read. -/
def rest (e : Edge) : List Symbol := e.production.rhs.drop e.dot

def next? (e : Edge) : Option Symbol := e.rest.head?

def advance (e : Edge) : Edge := { e with dot := e.dot + 1 }

def fresh (start : Nat) (p : Production) : Edge := ⟨p, 0, start⟩

def finished (start : Nat) (p : Production) : Edge := ⟨p, p.rhs.length, start⟩

def expects (e : Edge) (n : Nonterminal) : Bool := e.next? == some (.nonterminal n)

/-- The terminal that comes next, if the edge waits for one. -/
def terminal? (e : Edge) : Option Terminal :=
  match e.next? with
  | some (.terminal t) => some t
  | _ => none

@[simp] theorem advance_production (e : Edge) : e.advance.production = e.production := rfl

@[simp] theorem advance_dot (e : Edge) : e.advance.dot = e.dot + 1 := rfl

@[simp] theorem advance_start (e : Edge) : e.advance.start = e.start := rfl

theorem rest_finished (start : Nat) (p : Production) : (finished start p).rest = [] := by
  simp [rest, finished]

theorem rest_advance (e : Edge) : e.advance.rest = e.rest.tail := by
  simp [rest]

end Edge

/-- What an edge read last: a token, or a whole constituent. -/
inductive Piece where
  | token (t : Token)
  | constituent (n : Nonterminal)
deriving DecidableEq, Repr

/-- The edge before stood in the column `split`, and `piece` reaches from there to this one. -/
structure Link where
  split : Nat
  piece : Piece
deriving DecidableEq, Repr

/-- An edge as it is found; only an edge of which nothing is read comes without a link. -/
structure Found where
  edge : Edge
  link? : Option Link
deriving DecidableEq, Repr

/-- An edge that stands in the column `home` and waits for a terminal, there or behind blanks. -/
structure Waiting where
  edge : Edge
  home : Nat
deriving DecidableEq, Repr

namespace Waiting

/-- What the edge becomes when its terminal has been matched. -/
def read (w : Waiting) (t : Token) : Found := ⟨w.edge.advance, some ⟨w.home, .token t⟩⟩

end Waiting

end Cddl

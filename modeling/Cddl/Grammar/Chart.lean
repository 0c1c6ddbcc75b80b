import Cddl.Grammar.Edge

/-!
A chart has one column for each offset of a text. The edges of a column are those that a token,
or a constituent, ending there has advanced, together with the productions that they call for.
A column is closed by taking its edges from a stack: each edge is taken once and gives rise to
others, and what it gives rise to depends on earlier columns only. A constituent that may be empty
is passed over as soon as it is called for, so that no empty constituent has to be completed.

Columns keep the order in which edges and links were found, because the first link of an edge is
the one that its reading follows.
-/
namespace Cddl

/-- The edges of one offset, without those that wait for a terminal, and the links found there. -/
structure Column where
  edges : List Edge
  links : List (Edge × Link)
deriving Repr

abbrev Chart := Array Column

namespace Chart

def edges (chart : Chart) (i : Nat) : List Edge := (chart[i]?.map Column.edges).getD []

def links (chart : Chart) (i : Nat) : List (Edge × Link) := (chart[i]?.map Column.links).getD []

/-- What follows from an edge of the column `i`: a constituent advances the edges that called for
it, where it began; an edge that calls for a constituent starts its productions, and is itself
advanced if the constituent may be empty. -/
def consequences (chart : Chart) (i : Nat) (e : Edge) : List Found :=
  match e.next? with
  | none =>
    if e.start < i then
      ((chart.edges e.start).filter (·.expects e.production.lhs)).map fun caller =>
        ⟨caller.advance, some ⟨e.start, .constituent e.production.lhs⟩⟩
    else []
  | some (.nonterminal n) =>
    n.productions.map (fun p => ⟨.fresh i p, none⟩) ++
      if n.nullable then [⟨e.advance, some ⟨i, .constituent n⟩⟩] else []
  | some (.terminal _) => []

end Chart

/-- A column while it is being closed; `agenda` holds the edges whose consequences are missing. -/
structure OpenColumn where
  edges : List Edge
  links : List (Edge × Link)
  waiting : List Waiting
  agenda : List Edge
deriving Repr

namespace OpenColumn

def empty : OpenColumn := ⟨[], [], [], []⟩

/-- Adds an edge that waits for a terminal, unless it is there. -/
def wait (c : OpenColumn) (w : Waiting) : OpenColumn :=
  if w ∈ c.waiting then c else { c with waiting := c.waiting ++ [w] }

/-- Adds an edge, unless it is there, and in any case its link. -/
def add (i : Nat) (c : OpenColumn) (f : Found) : OpenColumn :=
  let c := { c with links := c.links ++ f.link?.toList.map (f.edge, ·) }
  if f.edge.terminal?.isSome then c.wait ⟨f.edge, i⟩
  else if f.edge ∈ c.edges then c
  else { c with edges := c.edges ++ [f.edge], agenda := f.edge :: c.agenda }

/-- Takes edges from the agenda until it is empty or `fuel` edges have been taken. -/
def close (chart : Chart) (i : Nat) : Nat → OpenColumn → OpenColumn
  | 0, c => c
  | fuel + 1, c =>
    match c.agenda with
    | [] => c
    | e :: agenda =>
      close chart i fuel ((chart.consequences i e).foldl (add i) { c with agenda })

def column (c : OpenColumn) : Column := ⟨c.edges, c.links⟩

end OpenColumn

/-- What reaches an offset: an edge, or one that still waits and was carried over blanks. -/
inductive Arrival where
  | found (f : Found)
  | carried (w : Waiting)
deriving Repr

/-- Something matched whose end lies ahead: a token for a waiting edge, or blanks, which carry all
that waited before them and the place where a whole rule had been read. -/
inductive Pending where
  | token (w : Waiting) (t : Token)
  | blanks (stop : Nat) (waiting : List Waiting) (complete? : Option Nat)
deriving Repr

namespace Pending

def stop : Pending → Nat
  | token _ t => t.stop
  | blanks stop _ _ => stop

def arrivals : Pending → List Arrival
  | token w t => [.found (w.read t)]
  | blanks _ waiting _ => waiting.map .carried

def complete? : Pending → Option Nat
  | token _ _ => none
  | blanks _ _ complete? => complete?

end Pending

/-- The chart up to an offset, whose column is the last one; what waits there for a terminal, what
is pending, and the column where a whole rule ended if only blanks have followed it. -/
structure Front where
  chart : Chart
  waiting : List Waiting
  pending : List Pending
  complete? : Option Nat
deriving Repr

namespace Front

/-- No more edges than this can be told apart in the column `i`. -/
def edgeBound (i : Nat) : Nat := 256 * (i + 1)

def arrive (i : Nat) (c : OpenColumn) : Arrival → OpenColumn
  | .found f => c.add i f
  | .carried w => c.wait w

/-- Adds the column that the arrivals give rise to. -/
def enter (chart : Chart) (arrivals : List Arrival) (pending : List Pending)
    (carried? : Option Nat) : Front :=
  let i := chart.size
  let c := OpenColumn.close chart i (edgeBound i) (arrivals.foldl (arrive i) .empty)
  let complete := Nonterminal.rule.productions.any fun p => Edge.finished 0 p ∈ c.edges
  ⟨chart.push c.column, c.waiting, pending, if complete then some i else carried?⟩

/-- The front before the first character. -/
def initial : Front :=
  enter #[] (Nonterminal.rule.productions.map fun p => .found ⟨.fresh 0 p, none⟩) [] none

/-- All that matches at the front, which stands before `text` at the offset `i`. -/
def scan (front : Front) (i : Nat) (text : List Char) : List Pending :=
  front.waiting.filterMap (fun w => do
    let t ← w.edge.terminal?
    let n ← t.match? text
    return .token w ⟨t, i, i + n⟩) ++
  (Lexeme.ignored? text).toList.map fun n => .blanks (i + n) front.waiting front.complete?

/-- The terminals expected at the front. -/
def expected (front : Front) : List Terminal := front.waiting.filterMap (·.edge.terminal?)

/-- Moves the front over one character, the first of `text`; nothing if no match is under way. -/
def step? (front : Front) (i : Nat) (text : List Char) : Option Front :=
  let (arrived, pending) :=
    (front.pending ++ front.scan i text).partition (·.stop == i + 1)
  let arrivals := arrived.flatMap Pending.arrivals
  let carried? := arrived.findSome? Pending.complete?
  if arrivals.isEmpty && carried?.isNone && pending.isEmpty then none
  else some (enter front.chart arrivals pending carried?)

end Front

/-- Why a text is not a rule: a character on which no reading goes on, or a premature end; in both
cases with the terminals that were expected there. -/
inductive Rejection where
  | unexpected (offset : Nat) (c : Char) (expected : List Terminal)
  | incomplete (expected : List Terminal)
deriving DecidableEq, Repr

namespace Front

/-- Reads the remaining `text`; succeeds with the chart and the column in which the rule ends. -/
def run (front : Front) (i : Nat) : List Char → Except Rejection (Chart × Nat)
  | [] =>
    match front.complete? with
    | some stop => .ok (front.chart, stop)
    | none => .error (.incomplete front.expected)
  | c :: rest =>
    match front.step? i (c :: rest) with
    | some front => front.run (i + 1) rest
    | none => .error (.unexpected i c front.expected)

end Front

end Cddl

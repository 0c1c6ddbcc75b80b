import Cddl.Grammar.Chart

/-!
Derivation trees, and the one tree that a chart is read as. Of the productions that fit a stretch
of text the preferred one is taken, and of the ways to reach an edge the first that was found.
-/
namespace Cddl

inductive Tree where
  | leaf (token : Token)
  | node (production : Production) (children : List Tree)

namespace Tree

mutual

/-- The tokens of a tree, from left to right. -/
def tokens : Tree → List Token
  | leaf t => [t]
  | node _ children => tokensOfList children

def tokensOfList : List Tree → List Token
  | [] => []
  | t :: ts => tokens t ++ tokensOfList ts

end

/-- The token that a list of trees begins with, if it begins with one. -/
def firstLeaf : List Tree → List Token
  | leaf t :: _ => [t]
  | _ => []

mutual

/-- The names used as types in a tree, from left to right. -/
def references : Tree → List Token
  | leaf _ => []
  | node p children =>
    (if p.lhs = .typeName then firstLeaf children else []) ++ referencesOfList children

def referencesOfList : List Tree → List Token
  | [] => []
  | t :: ts => references t ++ referencesOfList ts

end

/-- An entry that is a type and nothing more, but for parentheses around it. -/
def isPlainType : Tree → Bool
  | node .entryType _ => true
  | node .entryGroup [_, node .groupOne [node .choiceEntries [node .entriesOne [e]]], _] =>
    isPlainType e
  | node .entryGroup [_, node .groupOne [node .choiceEntries [node .entriesOneComma [e, _]]], _] =>
    isPlainType e
  | _ => false

end Tree

namespace Chart

/-- The preferred production by which the chart has read a constituent. -/
def chosen? (chart : Chart) (n : Nonterminal) (start stop : Nat) : Option Production :=
  n.productions.find? fun p => Edge.finished start p ∈ chart.edges stop

/-- The link by which an edge was first reached in a column. -/
def firstLink? (chart : Chart) (e : Edge) (i : Nat) : Option Link :=
  (chart.links i).lookup e

/-- The trees of the symbols that an edge of the column `i` has read, by first links. The number
bounds how far links are followed. -/
def children (chart : Chart) : Nat → Edge → Nat → List Tree
  | 0, _, _ => []
  | depth + 1, e, i =>
    match chart.firstLink? e i with
    | none => []
    | some link =>
      children chart depth { e with dot := e.dot - 1 } link.split ++
        match link.piece with
        | .token t => [.leaf t]
        | .constituent n =>
          ((chart.chosen? n link.split i).map fun p =>
            .node p (children chart depth (.finished link.split p) i)).toList

/-- Each link that is followed shortens the stretch of text, or goes down in the order of the
nonterminals, or goes back by one symbol. -/
def depthBound (stop : Nat) : Nat := 128 * (stop + 1)

def tree? (chart : Chart) (stop : Nat) : Option Tree :=
  (chart.chosen? .rule 0 stop).map fun p =>
    .node p (children chart (depthBound stop) (.finished 0 p) stop)

end Chart

/-- Reads a text as one rule. -/
def Tree.ofText (text : List Char) : Except Rejection Tree := do
  let (chart, stop) ← Front.initial.run 0 text
  match chart.tree? stop with
  | some t => .ok t
  | none => .error (.incomplete [])

end Cddl

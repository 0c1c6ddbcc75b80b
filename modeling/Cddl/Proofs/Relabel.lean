import Mathlib.Order.WellFounded
import Cddl.Proofs.Arrival
import Cddl.Proofs.Forest

/-!
Charts whose offsets have other names. Closing a column looks at offsets only to compare them, so
that it does with renamed edges what it does with the edges themselves, if the names keep the order.
The reading of a renamed chart is the renamed reading.
-/
namespace Cddl

/-! ### Renaming -/

/-- The column that stands for the column `k` where the offsets have other names. Something is read
from the beginning of a text on, wherever its first token is, so that the first column stays the
first. -/
def columnAt (place : Nat → Nat) (k : Nat) : Nat := if k = 0 then 0 else place k

namespace Token

def relabel (place : Nat → Nat) (t : Token) : Token := ⟨t.terminal, place t.start, place t.stop⟩

end Token

namespace Edge

def relabel (place : Nat → Nat) (e : Edge) : Edge := { e with start := columnAt place e.start }

end Edge

namespace Piece

def relabel (place : Nat → Nat) : Piece → Piece
  | token t => token (t.relabel place)
  | constituent n => constituent n

end Piece

namespace Link

def relabel (place : Nat → Nat) (l : Link) : Link :=
  ⟨columnAt place l.split, l.piece.relabel place⟩

end Link

namespace Found

def relabel (place : Nat → Nat) (f : Found) : Found :=
  ⟨f.edge.relabel place, f.link?.map (·.relabel place)⟩

end Found

namespace Waiting

def relabel (place : Nat → Nat) (w : Waiting) : Waiting :=
  ⟨w.edge.relabel place, columnAt place w.home⟩

end Waiting

namespace Tree

mutual

def relabel (place : Nat → Nat) : Tree → Tree
  | leaf t => leaf (t.relabel place)
  | node p children => node p (relabelList place children)

def relabelList (place : Nat → Nat) : List Tree → List Tree
  | [] => []
  | t :: ts => relabel place t :: relabelList place ts

end

end Tree

namespace OpenColumn

def relabel (place : Nat → Nat) (c : OpenColumn) : OpenColumn :=
  ⟨c.edges.map (·.relabel place), c.links.map fun l => (l.1.relabel place, l.2.relabel place),
    c.waiting.map (·.relabel place), c.agenda.map (·.relabel place)⟩

end OpenColumn

variable {place : Nat → Nat}

theorem columnAt_zero : columnAt place 0 = 0 := rfl

theorem columnAt_of_pos {k : Nat} (h : 0 < k) : columnAt place k = place k :=
  if_neg (Nat.ne_of_gt h)

theorem strictMono_columnAt (h : StrictMono place) : StrictMono (columnAt place) := by
  intro k l hkl
  rw [columnAt_of_pos (Nat.lt_of_le_of_lt (Nat.zero_le k) hkl)]
  rcases Nat.eq_zero_or_pos k with rfl | hk
  · exact Nat.lt_of_le_of_lt (Nat.zero_le _) (h hkl)
  · rw [columnAt_of_pos hk]
    exact h hkl

section

variable (hplace : StrictMono place)

include hplace

theorem columnAt_inj {k l : Nat} : columnAt place k = columnAt place l ↔ k = l :=
  (strictMono_columnAt hplace).injective.eq_iff

theorem columnAt_lt_iff {k l : Nat} : columnAt place k < columnAt place l ↔ k < l :=
  (strictMono_columnAt hplace).lt_iff_lt

theorem Edge.relabel_inj {d e : Edge} : d.relabel place = e.relabel place ↔ d = e := by
  cases d
  cases e
  simp [relabel, columnAt_inj hplace]

theorem Waiting.relabel_inj {v w : Waiting} : v.relabel place = w.relabel place ↔ v = w := by
  cases v
  cases w
  simp [relabel, columnAt_inj hplace, Edge.relabel_inj hplace]

theorem Edge.mem_map_relabel {e : Edge} {l : List Edge} :
    e.relabel place ∈ l.map (·.relabel place) ↔ e ∈ l := by
  simp [List.mem_map, relabel_inj hplace]

theorem Waiting.mem_map_relabel {w : Waiting} {l : List Waiting} :
    w.relabel place ∈ l.map (·.relabel place) ↔ w ∈ l := by
  simp [List.mem_map, relabel_inj hplace]

end

namespace Edge

variable (e : Edge)

@[simp] theorem next?_relabel : (e.relabel place).next? = e.next? := rfl

@[simp] theorem terminal?_relabel : (e.relabel place).terminal? = e.terminal? := rfl

@[simp] theorem start_relabel : (e.relabel place).start = columnAt place e.start := rfl

theorem relabel_finished (k : Nat) (p : Production) :
    (finished k p).relabel place = finished (columnAt place k) p := rfl

end Edge

/-! ### Columns -/

/-- The columns in front of the column `i` are the renamed columns of another chart. -/
def Chart.EdgesFollow (a b : Chart) (place : Nat → Nat) (i : Nat) : Prop :=
  ∀ k < i, b.edges (columnAt place k) = (a.edges k).map (·.relabel place)

variable {a b : Chart} {i : Nat}

theorem Chart.consequences_relabel (hplace : StrictMono place) (h : EdgesFollow a b place i)
    (e : Edge) :
    b.consequences (columnAt place i) (e.relabel place) =
      (a.consequences i e).map (·.relabel place) := by
  unfold consequences
  rw [Edge.next?_relabel]
  cases e.next? with
  | none =>
    simp only [Edge.start_relabel, columnAt_lt_iff hplace]
    split
    next hlt =>
      rw [h _ hlt, List.filter_map, List.map_map, List.map_map]
      rfl
    next => rfl
  | some s =>
    cases s with
    | terminal t => rfl
    | nonterminal n =>
      dsimp only
      rw [List.map_append, List.map_map]
      refine congrArg₂ (· ++ ·) rfl ?_
      by_cases hn : n.nullable = true
      · rw [if_pos hn, if_pos hn]
        rfl
      · rw [if_neg hn, if_neg hn]
        rfl

namespace OpenColumn

variable {c : OpenColumn}

theorem wait_relabel (hplace : StrictMono place) (w : Waiting) :
    (c.relabel place).wait (w.relabel place) = (c.wait w).relabel place := by
  have hmem : w.relabel place ∈ (c.relabel place).waiting ↔ w ∈ c.waiting :=
    Waiting.mem_map_relabel hplace
  unfold wait
  by_cases hw : w ∈ c.waiting
  · rw [if_pos hw, if_pos (hmem.mpr hw)]
  · rw [if_neg hw, if_neg fun h => hw (hmem.mp h)]
    simp [relabel]

theorem link_relabel (f : Found) :
    (c.relabel place).link (f.relabel place) = (c.link f).relabel place := by
  cases hl : f.link? with
  | none => simp [link, relabel, Found.relabel, hl]
  | some l => simp [link, relabel, Found.relabel, hl]

theorem add_relabel (hplace : StrictMono place) (f : Found) :
    (c.relabel place).add (columnAt place i) (f.relabel place) = (c.add i f).relabel place := by
  rw [add_eq, add_eq, link_relabel]
  have hmem : (f.relabel place).edge ∈ (c.relabel place).edges ↔ f.edge ∈ c.edges :=
    Edge.mem_map_relabel hplace
  show (if f.edge.terminal?.isSome then _ else _) = _
  by_cases ht : f.edge.terminal?.isSome
  · rw [if_pos ht, if_pos ht]
    exact wait_relabel hplace ⟨f.edge, i⟩
  · rw [if_neg ht, if_neg ht]
    by_cases he : f.edge ∈ c.edges
    · rw [if_pos he, if_pos (hmem.mpr he)]
    · rw [if_neg he, if_neg fun h => he (hmem.mp h)]
      simp [relabel, link, Found.relabel]

theorem foldl_add_relabel (hplace : StrictMono place) (fs : List Found) :
    (fs.map (·.relabel place)).foldl (add (columnAt place i)) (c.relabel place) =
      (fs.foldl (add i) c).relabel place := by
  induction fs generalizing c with
  | nil => rfl
  | cons f fs ih => rw [List.map_cons, List.foldl_cons, add_relabel hplace, ih, List.foldl_cons]

theorem close_relabel (hplace : StrictMono place) (h : Chart.EdgesFollow a b place i)
    (fuel : Nat) :
    close b (columnAt place i) fuel (c.relabel place) = (close a i fuel c).relabel place := by
  induction fuel generalizing c with
  | zero => rfl
  | succ fuel ih =>
    cases ha : c.agenda with
    | nil =>
      have hnil : (c.relabel place).agenda = [] := by simp [relabel, ha]
      simp only [close, ha, hnil]
    | cons e agenda =>
      have hcons : (c.relabel place).agenda = e.relabel place :: agenda.map (·.relabel place) := by
        simp [relabel, ha]
      simp only [close, ha, hcons]
      rw [Chart.consequences_relabel hplace h, ← ih, ← foldl_add_relabel hplace]
      rfl

theorem close_add {chart : Chart} {fuel more : Nat} :
    close chart i (fuel + more) c = close chart i more (close chart i fuel c) := by
  induction fuel generalizing c with
  | zero => rw [Nat.zero_add, close]
  | succ fuel ih =>
    cases ha : c.agenda with
    | nil =>
      rw [close_of_agenda_nil ha, close_of_agenda_nil ha, close_of_agenda_nil ha]
    | cons e agenda =>
      rw [Nat.add_right_comm]
      simp only [close, ha]
      exact ih

/-- A column whose arrivals are the renamed arrivals of another one is that column renamed. -/
theorem ofArrivals_relabel (hplace : StrictMono place) {found : List Found}
    (hfits : ∀ f, Reached a a.size (found.map .found) f → f.edge.Fits a.size)
    (hsize : b.size = columnAt place a.size) (h : Chart.EdgesFollow a b place a.size) :
    ofArrivals b ((found.map (·.relabel place)).map .found) =
      (ofArrivals a (found.map .found)).relabel place := by
  have hle : Front.edgeBound a.size ≤ Front.edgeBound (columnAt place a.size) := by
    have hcolumn := (strictMono_columnAt hplace).le_apply (x := a.size)
    simp only [Front.edgeBound]
    omega
  obtain ⟨more, hmore⟩ := Nat.exists_eq_add_of_le hle
  have hfound : ∀ (fs : List Found) (j : Nat) (c : OpenColumn),
      (fs.map Arrival.found).foldl (Front.arrive j) c = fs.foldl (add j) c := by
    intro fs j c
    rw [List.foldl_map]
    rfl
  have hdone := (closing_ofArrivals hfits).2
  have hempty : OpenColumn.empty = OpenColumn.empty.relabel place := rfl
  rw [ofArrivals, hfound] at hdone
  rw [ofArrivals, ofArrivals, hfound, hfound, hsize, hempty, foldl_add_relabel hplace,
    close_relabel hplace h, hmore, close_add, close_of_agenda_nil hdone]
  rfl

end OpenColumn

/-! ### Trees -/

namespace Tree

theorem relabelList_eq_map (trees : List Tree) :
    relabelList place trees = trees.map (relabel place) := by
  induction trees with
  | nil => rw [relabelList, List.map_nil]
  | cons t ts ih => rw [relabelList, ih, List.map_cons]

end Tree

namespace Chart

/-- The columns of a chart are the renamed columns of another one. -/
structure Follows (a b : Chart) (place : Nat → Nat) : Prop where
  edges : ∀ k, b.edges (columnAt place k) = (a.edges k).map (·.relabel place)
  links : ∀ k, b.links (columnAt place k) =
    (a.links k).map fun l => (l.1.relabel place, l.2.relabel place)

theorem Follows.firstLink? (hplace : StrictMono place) (h : a.Follows b place) (e : Edge) (i : Nat) :
    b.firstLink? (e.relabel place) (columnAt place i) =
      (a.firstLink? e i).map (·.relabel place) := by
  rw [Chart.firstLink?, Chart.firstLink?, h.links]
  induction a.links i with
  | nil => rfl
  | cons l ls ih =>
    rw [List.map_cons, List.lookup_cons, List.lookup_cons]
    by_cases he : e = l.1
    · subst he
      simp
    · have hne : e.relabel place ≠ l.1.relabel place := fun heq =>
        he ((Edge.relabel_inj hplace).mp heq)
      rw [beq_eq_false_iff_ne.mpr he, beq_eq_false_iff_ne.mpr hne]
      exact ih

theorem Follows.chosen? (hplace : StrictMono place) (h : a.Follows b place) (n : Nonterminal)
    (start stop : Nat) :
    b.chosen? n (columnAt place start) (columnAt place stop) = a.chosen? n start stop := by
  rw [Chart.chosen?, Chart.chosen?, h.edges]
  congr 1
  funext p
  rw [← Edge.relabel_finished, decide_eq_decide]
  exact Edge.mem_map_relabel hplace

/-- The trees that are read from a renamed chart are the renamed trees. -/
theorem Follows.children (hplace : StrictMono place) (h : a.Follows b place) (depth : Nat)
    (e : Edge) (i : Nat) :
    b.children depth (e.relabel place) (columnAt place i) =
      Tree.relabelList place (a.children depth e i) := by
  induction depth generalizing e i with
  | zero => rw [Chart.children, Chart.children, Tree.relabelList]
  | succ depth ih =>
    rw [Chart.children, Chart.children, h.firstLink? hplace]
    cases a.firstLink? e i with
    | none => rw [Option.map_none, Tree.relabelList]
    | some l =>
      have hback := ih { e with dot := e.dot - 1 } l.split
      simp only [Option.map_some, Tree.relabelList_eq_map, List.map_append] at hback ⊢
      refine congrArg₂ (· ++ ·) hback ?_
      cases hpiece : l.piece with
      | token t => simp [Link.relabel, Piece.relabel, hpiece, Tree.relabel]
      | constituent n =>
        simp only [Link.relabel, Piece.relabel, hpiece]
        rw [h.chosen? hplace]
        cases a.chosen? n l.split i with
        | none => rfl
        | some p =>
          have hchild := ih (.finished l.split p) i
          rw [Edge.relabel_finished] at hchild
          simp [hchild, Tree.relabel]

end Chart

namespace Front

variable {text : List Char} {n i : Nat} {f : Front} {e : Edge}

/-- Beyond the weight of an edge the bound on the depth makes no difference. -/
theorem children_of_le (hf : at? text n = some f) (hi : i ≤ n) (h : Item text i e) {depth more : Nat}
    (hdepth : e.weight i < depth) (hle : depth ≤ more) :
    f.chart.children more e i = f.chart.children depth e i := by
  induction depth generalizing e i more with
  | zero => omega
  | succ depth ih =>
    obtain ⟨more, rfl⟩ : ∃ m, more = m + 1 := ⟨more - 1, by omega⟩
    rw [Chart.children, Chart.children]
    cases hl : f.chart.firstLink? e i with
    | none => rfl
    | some l =>
      cases justified_firstLink hf hl with
      | @token j k m d t hd hn hig hm =>
        have hjk := hig.le
        have hpos := Terminal.match?_pos hm
        have hlt : d.weight j < d.advance.weight (k + m) := hd.fits.weight_lt (by omega) _
        have hback := ih (by omega) hd (by omega) (by omega : depth ≤ more)
        exact congrArg (· ++ _) hback
      | @constituent k _ d p hd hn hp =>
        obtain ⟨q, hq, hlhs, hitem⟩ := exists_chosen hf hi hp
        have hki : k ≤ i := hp.fits.start_le
        have hback : d.weight k < d.advance.weight i := by
          refine Edge.weight_lt_advance hd.fits hn hki ?_
          rintro rfl
          exact hp.nullable
        have hdown : (Edge.finished k q).weight i < d.advance.weight i := by
          refine Edge.weight_finished_lt_advance hlhs hn hd.fits.start_le hki fun heq => ?_
          subst heq
          exact hd.all_nullable
        have hfirst := ih (Nat.le_trans hki hi) hd (by omega) (by omega : depth ≤ more)
        have hchild := ih hi hitem (by omega) (by omega : depth ≤ more)
        simp only [hq, Option.map_some, Option.toList_some]
        rw [hchild]
        exact congrArg (· ++ _) hfirst

end Front

end Cddl

import Cddl.Proofs.Scan
import Cddl.Proofs.Split

/-!
The search for rules across a seam. Where a text ends a line with every bracket and literal closed,
the search goes on behind it as at the beginning of a text: a head is looked for on one line only,
and nothing that is passed over goes past the seam.
-/
namespace Cddl

namespace Literal

variable {quote : Char} {l rest : List Char}

/-- The search for the end of a literal finds its quote, or the line feed that a text literal may
not contain. -/
def closes (quote : Char) : List Char → Bool
  | [] => false
  | c :: rest =>
    if c = '\\' then
      match rest with
      | [] => false
      | _ :: rest => closes quote rest
    else if c = quote then true
    else if c = '\n' ∧ quote = '"' then true
    else closes quote rest

/-- What stands behind the end of a literal does not matter. -/
theorem tail_append (h : closes quote l = true) : tail quote (l ++ rest) = tail quote l := by
  fun_induction closes quote l with
  | case1 => contradiction
  | case2 => contradiction
  | case3 d l ih =>
    rw [List.cons_append, List.cons_append, tail_escape, tail_escape, ih h]
  | case4 l hesc => rw [List.cons_append, tail_quote hesc, tail_quote hesc]
  | case5 c l _ _ hline =>
    obtain ⟨rfl, rfl⟩ := hline
    rw [List.cons_append, tail_line, tail_line]
  | case6 c l hesc hc hline ih =>
    rw [List.cons_append, tail_other hesc hc hline, tail_other hesc hc hline, ih h]

/-- A literal does not take the line feed at the end of a text. -/
theorem tail_lt (hq : quote ≠ '\n') (h : closes quote l = true) (hend : l.getLast? = some '\n') :
    tail quote l < l.length := by
  fun_induction closes quote l with
  | case1 => contradiction
  | case2 => contradiction
  | case3 d l ih =>
    cases l with
    | nil => contradiction
    | cons e l =>
      have hrec := ih h (by simpa using hend)
      rw [tail_escape, List.length_cons, List.length_cons]
      omega
  | case4 l hesc =>
    cases l with
    | nil => exact absurd (Option.some.inj hend) hq
    | cons e l =>
      rw [tail_quote hesc, List.length_cons, List.length_cons]
      omega
  | case5 c l _ _ hline =>
    obtain ⟨rfl, rfl⟩ := hline
    rw [tail_line]
    exact Nat.succ_pos _
  | case6 c l hesc hc hline ih =>
    cases l with
    | nil => contradiction
    | cons e l =>
      have hrec := ih h (by simpa using hend)
      rw [tail_other hesc hc hline, List.length_cons]
      omega

end Literal

namespace Chunk

/-- The search ends at the end of the text with no bracket and no literal left open; `skip`
characters are passed over first, and `depth` brackets are open. -/
def settles : (skip depth : Nat) → List Char → Bool
  | _, depth, [] => depth == 0
  | skip + 1, depth, _ :: rest => settles skip depth rest
  | 0, depth, c :: rest =>
    (!(c == '"' || c == '\'') || Literal.closes c rest) &&
      settles (unread c rest) (depthAfter c depth) rest

/-- The second text can be put behind the first one: the first ends its last line and settles, and
the second begins with a head. -/
structure Seam (a b : List Char) : Prop where
  ended : a = [] ∨ a.getLast? = some '\n'
  settled : settles 0 0 a = true
  headed : b = [] ∨ isHead b = true

/-! ### The search goes on as from the beginning -/

variable {a b : List Char} {c : Char} {skip depth i k : Nat} {lineStart : Bool}

theorem run_line {line rest : List Char} (h : '\n' ∉ line) :
    Lexeme.run (· != '\n') (line ++ '\n' :: rest) = line.length := by
  have hall : ∀ c ∈ line, (c != '\n') = true := fun c hc =>
    bne_iff_ne.mpr (ne_of_mem_of_not_mem hc h)
  rw [Lexeme.run, List.takeWhile_append_of_pos hall, List.takeWhile_cons_of_neg (by simp),
    List.append_nil]

theorem run_append (h : '\n' ∈ a) :
    Lexeme.run (· != '\n') (a ++ b) = Lexeme.run (· != '\n') a ∧
      Lexeme.run (· != '\n') a < a.length := by
  obtain ⟨line, rest, rfl, hline⟩ := List.eq_append_cons_of_mem h
  rw [List.append_assoc, List.cons_append, run_line hline, run_line hline, List.length_append,
    List.length_cons]
  exact ⟨rfl, by omega⟩

/-- What is passed over behind a character ends before the end of the text. -/
theorem unread_append (hq : (!(c == '"' || c == '\'') || Literal.closes c a) = true)
    (hend : a.getLast? = some '\n') :
    unread c (a ++ b) = unread c a ∧ unread c a < a.length := by
  have hmem := List.mem_of_getLast? hend
  unfold unread
  by_cases hsemi : c = ';'
  · rw [if_pos hsemi, if_pos hsemi]
    exact run_append hmem
  rw [if_neg hsemi, if_neg hsemi]
  by_cases hquote : c = '"' ∨ c = '\''
  · rw [if_pos hquote, if_pos hquote]
    have hcloses : Literal.closes c a = true := by
      rcases hquote with rfl | rfl <;> simpa using hq
    have hne : c ≠ '\n' := by
      rcases hquote with rfl | rfl <;> decide
    exact ⟨Literal.tail_append hcloses, Literal.tail_lt hne hcloses hend⟩
  · rw [if_neg hquote, if_neg hquote]
    exact ⟨rfl, List.length_pos_of_mem hmem⟩

/-- Behind a text that settles the search goes on in the first column, outside brackets. -/
theorem heads_append (hs : settles skip depth a = true)
    (hend : a = [] ∧ skip = 0 ∧ lineStart = true ∨ a.getLast? = some '\n' ∧ skip < a.length) :
    heads skip depth lineStart i (a ++ b) =
      heads skip depth lineStart i a ++ heads 0 0 true (i + a.length) b := by
  -- the line feed at the end is never passed over: it is read with nothing left to skip
  fun_induction heads skip depth lineStart i a with
  | case1 skip depth lineStart i =>
    rcases hend with ⟨-, rfl, rfl⟩ | ⟨hend, -⟩
    · obtain rfl : depth = 0 := by simpa [settles] using hs
      rfl
    · contradiction
  | case2 skip depth lineStart i c a ih =>
    rcases hend with ⟨hnil, -⟩ | ⟨hend, hlt⟩
    · contradiction
    · rw [List.length_cons] at hlt ⊢
      cases a with
      | nil => contradiction
      | cons d a =>
        have hrec := ih hs (.inr ⟨by simpa using hend, by omega⟩)
        rw [List.cons_append, heads, hrec, Nat.add_assoc, Nat.add_comm 1]
  | case3 depth lineStart i c a ih =>
    rcases hend with ⟨hnil, -⟩ | ⟨hend, -⟩
    · contradiction
    · have hhead : isHead (c :: a ++ b) = isHead (c :: a) :=
        isHead_append (List.mem_of_getLast? hend)
      obtain ⟨hq, hrest⟩ := Bool.and_eq_true_iff.mp hs
      have hnext : heads (unread c (a ++ b)) (depthAfter c depth) (c == '\n') (i + 1) (a ++ b) =
          heads (unread c a) (depthAfter c depth) (c == '\n') (i + 1) a ++
            heads 0 0 true (i + 1 + a.length) b := by
        cases a with
        | nil =>
          -- the last character of the first text ends its line
          obtain rfl : c = '\n' := by simpa using hend
          exact ih hrest (.inl ⟨rfl, rfl, rfl⟩)
        | cons d a =>
          obtain ⟨hunread, hlt⟩ := unread_append (b := b) hq (by simpa using hend)
          rw [hunread]
          exact ih hrest (.inr ⟨by simpa using hend, hlt⟩)
      rw [List.cons_append, heads, hnext, ← List.cons_append, hhead, List.append_assoc,
        List.length_cons, Nat.add_assoc, Nat.add_comm 1]

theorem heads_add : heads skip depth lineStart (i + k) a =
    (heads skip depth lineStart i a).map (· + k) := by
  fun_induction heads skip depth lineStart i a with
  | case1 => rw [heads, List.map_nil]
  | case2 skip depth lineStart i c a ih => rw [heads, ← ih, Nat.add_right_comm]
  | case3 depth lineStart i c a ih =>
    rw [heads, List.map_append, ← ih, Nat.add_right_comm]
    congr 1
    split <;> rfl

/-! ### Chunks of two texts -/

/-- The same stretch of a text that more text stands in front of. -/
def shift (c : Chunk) (k : Nat) : Chunk := ⟨c.start + k, c.stop + k⟩

theorem between_append {stop : Nat} {l r : List Nat} :
    between stop (l ++ k :: r) = between k l ++ between stop (k :: r) := by
  fun_induction between k l with
  | case1 => rfl
  | case2 => rfl
  | case3 start next l ih =>
    rw [List.cons_append, List.cons_append, between, ← List.cons_append, ih, List.cons_append]

theorem between_map {stop : Nat} {l : List Nat} :
    between (stop + k) (l.map (· + k)) = (between stop l).map (·.shift k) := by
  fun_induction between stop l with
  | case1 => rfl
  | case2 => rfl
  | case3 start next l ih =>
    rw [List.map_cons] at ih
    rw [List.map_cons, List.map_cons, between, ih, List.map_cons]
    rfl

theorem starts_nil : starts [] = [] := rfl

/-- A text that begins with a head has no chunk in front of it. -/
theorem starts_of_isHead (h : isHead b = true) :
    starts b = heads 0 0 true 0 b ∧ ∃ rest, starts b = 0 :: rest := by
  cases b with
  | nil => contradiction
  | cons c b =>
    have hheads : ∃ rest, heads 0 0 true 0 (c :: b) = 0 :: rest := by
      refine ⟨heads (unread c b) (depthAfter c 0) (c == '\n') 1 b, ?_⟩
      rw [heads, h]
      rfl
    obtain ⟨rest, hrest⟩ := hheads
    have hstarts : starts (c :: b) = heads 0 0 true 0 (c :: b) := by
      rw [starts, hrest]
      rfl
    exact ⟨hstarts, rest, hstarts.trans hrest⟩

theorem heads_seam (h : Seam a b) :
    heads 0 0 true 0 (a ++ b) =
      heads 0 0 true 0 a ++ (heads 0 0 true 0 b).map (· + a.length) := by
  rw [← heads_add]
  apply heads_append h.settled
  rcases h.ended with hnil | hend
  · exact .inl ⟨hnil, rfl, rfl⟩
  · exact .inr ⟨hend, List.length_pos_of_mem (List.mem_of_getLast? hend)⟩

theorem starts_append (h : Seam a b) :
    starts (a ++ b) = starts a ++ (starts b).map (· + a.length) := by
  rcases h.headed with rfl | hb
  · rw [List.append_nil, starts_nil, List.map_nil, List.append_nil]
  · obtain ⟨hstarts, rest, hrest⟩ := starts_of_isHead hb
    have hheads := heads_seam h
    rw [← hstarts] at hheads
    -- the chunk in front of the first head is looked for in the first text only
    have hbefore : (a ++ b).take ((heads 0 0 true 0 (a ++ b)).headD (a ++ b).length) =
        a.take ((heads 0 0 true 0 a).headD a.length) := by
      rw [hheads]
      cases ha : heads 0 0 true 0 a with
      | nil =>
        rw [hrest, List.nil_append, List.map_cons, List.headD_cons, Nat.zero_add, List.take_left,
          List.headD_nil, List.take_length]
      | cons r l =>
        have hr := (mem_heads (k := r) (by rw [ha]; exact List.mem_cons_self)).2
        rw [List.cons_append, List.headD_cons, List.headD_cons,
          List.take_append_of_le_length (by omega)]
    simp only [starts]
    rw [hbefore, hheads]
    split
    · rfl
    · rfl

/-- The chunks of two texts put together are those of the first and, behind it, those of the
second. -/
theorem split_append (h : Seam a b) :
    split (a ++ b) = split a ++ (split b).map (·.shift a.length) := by
  rw [split, starts_append h, split, split, List.length_append, ← between_map,
    Nat.add_comm b.length]
  rcases h.headed with rfl | hb
  · rw [starts_nil, List.map_nil, List.append_nil, List.length_nil, Nat.add_zero]
    exact (List.append_nil _).symm
  · obtain ⟨-, rest, hrest⟩ := starts_of_isHead hb
    rw [hrest, List.map_cons, between_append, Nat.zero_add]

end Chunk

end Cddl

import Mathlib.Order.Bounds.Basic
import Cddl.Proofs.Partition

/-!
Where a literal ends for the search for rules. The search looks for the first quote, or for the first
line feed behind a double quote, that no reverse solidus escapes; what the grammar reads as a literal
ends there too. A line feed may be escaped for the search, though not for the grammar: a text literal
that is left open goes on over such a line feed, but over no other.
-/
namespace Cddl

namespace Literal

/-- The reverse solidi at the end of the text are odd in number, so that the last of them takes the
next character with it. -/
def Escaping (text : List Char) : Prop := (text.rtakeWhile (· == '\\')).length % 2 = 1

instance (text : List Char) : Decidable (Escaping text) :=
  inferInstanceAs (Decidable (_ = _))

/-- The character at `j` is escaped in a literal with its opening quote at `i`. -/
def Escaped (text : List Char) (i j : Nat) : Prop := Escaping ((text.take j).drop (i + 1))

instance (text : List Char) (i j : Nat) : Decidable (Escaped text i j) :=
  inferInstanceAs (Decidable (Escaping _))

/-- The places at which the search may let a literal end that is opened at `i`. -/
inductive MayEnd (text : List Char) (i : Nat) (quote : Char) : Nat → Prop where
  | closed {j} : i < j → text[j]? = some quote → ¬ Escaped text i j → MayEnd text i quote (j + 1)
  | line {j} : quote = '"' → i < j → text[j]? = some '\n' → ¬ Escaped text i j →
      MayEnd text i quote j
  | ending : MayEnd text i quote text.length

/-- The text literal opened at `i` is left open on its line, which ends at `k`. -/
structure LeftOpen (text : List Char) (i k : Nat) : Prop where
  lt : i < k
  line : text[k]? = some '\n'
  unescaped : ¬ Escaped text i k
  escaped : ∀ j, i < j → j < k → text[j]? = some '"' ∨ text[j]? = some '\n' → Escaped text i j

variable {text rest : List Char} {quote c : Char} {i j k n p : Nat}

/-! ### Escapes -/

theorem not_escaping_nil : ¬ Escaping [] := by decide

theorem escaping_solidus : Escaping ['\\'] := by decide

theorem escaping_iff :
    Escaping text ↔ (text.reverse.takeWhile (· == '\\')).length % 2 = 1 := by
  rw [Escaping, List.rtakeWhile, List.length_reverse]

theorem escaping_cons (hc : c ≠ '\\') : Escaping (c :: text) ↔ Escaping text := by
  have hstop : [c].takeWhile (· == '\\') = [] := List.takeWhile_cons_of_neg (by simp [hc])
  rw [escaping_iff, escaping_iff, List.reverse_cons, List.takeWhile_append, hstop, List.append_nil]
  split
  next hall => rw [hall]
  next => rfl

/-- An escape in front does not change what is escaped behind it. -/
theorem escaping_escape : Escaping ('\\' :: c :: text) ↔ Escaping text := by
  rw [escaping_iff, escaping_iff, List.reverse_cons, List.reverse_cons, List.append_assoc,
    List.takeWhile_append]
  split
  next hall =>
    rw [hall, List.length_append]
    by_cases hc : c = '\\'
    · simp [hc]
    · simp [hc]
  next => rfl

theorem escaped_add : Escaped text i (i + 1 + p) ↔ Escaping ((text.drop (i + 1)).take p) := by
  rw [Escaped, List.drop_take, Nat.add_sub_cancel_left]

/-! ### The end of a literal -/

/-- The search stops at a quote or a line feed that is not escaped, or at the end of the text. -/
theorem tail_cases (quote : Char) (rest : List Char) :
    (∃ p, tail quote rest = p + 1 ∧ rest[p]? = some quote ∧ ¬ Escaping (rest.take p)) ∨
      (quote = '"' ∧ rest[tail quote rest]? = some '\n' ∧
        ¬ Escaping (rest.take (tail quote rest))) ∨
      tail quote rest = rest.length := by
  -- what is escaped behind a step of the search does not depend on the step
  fun_induction tail quote rest with
  | case1 => exact .inr (.inr rfl)
  | case2 => exact .inr (.inr rfl)
  | case3 c rest ih =>
    rcases ih with ⟨p, hp, hget, hfree⟩ | ⟨hquote, hget, hfree⟩ | hend
    · exact .inl ⟨p + 2, by rw [hp], hget, fun h => hfree (escaping_escape.mp h)⟩
    · exact .inr (.inl ⟨hquote, hget, fun h => hfree (escaping_escape.mp h)⟩)
    · exact .inr (.inr (by rw [hend, List.length_cons, List.length_cons]))
  | case4 rest _ => exact .inl ⟨0, rfl, rfl, not_escaping_nil⟩
  | case5 c rest _ _ hline =>
    obtain ⟨rfl, rfl⟩ := hline
    exact .inr (.inl ⟨rfl, rfl, not_escaping_nil⟩)
  | case6 c rest hesc _ _ ih =>
    rcases ih with ⟨p, hp, hget, hfree⟩ | ⟨hquote, hget, hfree⟩ | hend
    · exact .inl ⟨p + 1, by rw [hp], hget, fun h => hfree ((escaping_cons hesc).mp h)⟩
    · exact .inr (.inl ⟨hquote, hget, fun h => hfree ((escaping_cons hesc).mp h)⟩)
    · exact .inr (.inr (by rw [hend, List.length_cons]))

/-- The search goes on behind no quote that is not escaped, and behind a double quote over no line feed
that is not escaped. -/
theorem tail_le (hq : quote ≠ '\\') (hget : rest[p]? = some c) (hfree : ¬ Escaping (rest.take p)) :
    (c = quote → tail quote rest ≤ p + 1) ∧ (c = '\n' → quote = '"' → tail quote rest ≤ p) := by
  fun_induction tail quote rest generalizing p with
  | case1 => contradiction
  | case2 =>
    -- the only character is a reverse solidus
    cases p with
    | zero =>
      obtain rfl := Option.some.inj hget
      exact ⟨fun _ => Nat.le_refl _, fun h => by contradiction⟩
    | succ p => contradiction
  | case3 d rest ih =>
    rcases p with _ | _ | p
    · obtain rfl := Option.some.inj hget
      exact ⟨fun h => absurd h.symm hq, fun h => by contradiction⟩
    · exact absurd escaping_solidus hfree
    · have hrec := ih hget fun h => hfree (escaping_escape.mpr h)
      exact ⟨fun h => Nat.add_le_add_right (hrec.1 h) 2,
        fun h h' => Nat.add_le_add_right (hrec.2 h h') 2⟩
  | case4 rest _ =>
    refine ⟨fun _ => Nat.succ_le_succ (Nat.zero_le p), fun hline hquote => ?_⟩
    cases p with
    | zero =>
      subst hline hquote
      exact absurd (Option.some.inj hget) (by decide)
    | succ p => exact Nat.succ_le_succ (Nat.zero_le p)
  | case5 => exact ⟨fun _ => Nat.zero_le _, fun _ _ => Nat.zero_le _⟩
  | case6 d rest hesc hclose hopen ih =>
    cases p with
    | zero =>
      obtain rfl := Option.some.inj hget
      exact ⟨fun h => absurd h hclose, fun h h' => absurd ⟨h, h'⟩ hopen⟩
    | succ p =>
      have hrec := ih hget fun h => hfree ((escaping_cons hesc).mpr h)
      exact ⟨fun h => Nat.succ_le_succ (hrec.1 h), fun h h' => Nat.succ_le_succ (hrec.2 h h')⟩

theorem drop_of_getElem? (h : text[i]? = some c) : text.drop i = c :: text.drop (i + 1) := by
  rw [List.drop_eq_getElem?_toList_append, h, Option.toList_some, List.singleton_append]

theorem stop_eq_add (h : text[i]? = some quote) :
    stop text i = i + 1 + tail quote (text.drop (i + 1)) := by
  rw [stop, drop_of_getElem? h]

theorem lt_stop (h : text[i]? = some quote) : i < stop text i := by
  rw [stop_eq_add h]
  omega

theorem mayEnd_stop (h : text[i]? = some quote) : MayEnd text i quote (stop text i) := by
  rw [stop_eq_add h]
  rcases tail_cases quote (text.drop (i + 1)) with ⟨p, hp, hget, hfree⟩ | ⟨hquote, hget, hfree⟩ | hend
  · rw [hp, ← Nat.add_assoc]
    rw [List.getElem?_drop] at hget
    exact .closed (by omega) hget fun hesc => hfree (escaped_add.mp hesc)
  · rw [List.getElem?_drop] at hget
    exact .line hquote (by omega) hget fun hesc => hfree (escaped_add.mp hesc)
  · have hlt := (List.getElem?_eq_some_iff.mp h).1
    have hlength : i + 1 + tail quote (text.drop (i + 1)) = text.length := by
      rw [hend, List.length_drop]
      omega
    rw [hlength]
    exact .ending

theorem stop_le_of_mayEnd (hq : quote ≠ '\\') (h : text[i]? = some quote)
    (hend : MayEnd text i quote n) : stop text i ≤ n := by
  have hadd : ∀ {j}, i < j → ∃ p, j = i + 1 + p := fun {j} hj => ⟨j - (i + 1), by omega⟩
  cases hend with
  | closed hj hget hfree =>
    obtain ⟨p, rfl⟩ := hadd hj
    rw [← List.getElem?_drop] at hget
    have hle := (tail_le hq hget fun hesc => hfree (escaped_add.mpr hesc)).1 rfl
    rw [stop_eq_add h]
    omega
  | line hquote hj hget hfree =>
    obtain ⟨p, rfl⟩ := hadd hj
    rw [← List.getElem?_drop] at hget
    have hle := (tail_le hq hget fun hesc => hfree (escaped_add.mpr hesc)).2 rfl hquote
    rw [stop_eq_add h]
    omega
  | ending => exact stop_le_length (Nat.le_of_lt (List.getElem?_eq_some_iff.mp h).1)

/-- A literal ends at the first place at which it may end. -/
theorem stop_isLeast (hq : quote ≠ '\\') (h : text[i]? = some quote) :
    IsLeast {e | MayEnd text i quote e} (stop text i) :=
  ⟨mayEnd_stop h, fun _ hend => stop_le_of_mayEnd hq h hend⟩

/-- Only line feeds that are escaped are passed over behind a double quote. -/
theorem escaped_of_lt_stop (h : text[i]? = some '"') (hj : i ≤ j) (hstop : j < stop text i)
    (hline : text[j]? = some '\n') : Escaped text i j := by
  by_contra hfree
  have hne : i ≠ j := by
    rintro rfl
    rw [h] at hline
    contradiction
  have hle := stop_le_of_mayEnd (by decide) h (.line rfl (by omega) hline hfree)
  omega

/-- A literal that is left open may end nowhere on its line. -/
theorem LeftOpen.le_of_mayEnd (ho : LeftOpen text i k) (hend : MayEnd text i '"' n) : k ≤ n := by
  by_contra hlt
  cases hend with
  | closed hj hget hfree => exact hfree (ho.escaped _ hj (by omega) (.inl hget))
  | line _ hj hget hfree => exact hfree (ho.escaped _ hj (by omega) (.inr hget))
  | ending =>
    have hk := (List.getElem?_eq_some_iff.mp ho.line).1
    omega

theorem LeftOpen.stop_eq (ho : LeftOpen text i k) (h : text[i]? = some '"') : stop text i = k :=
  Nat.le_antisymm
    (stop_le_of_mayEnd (by decide) h (.line rfl ho.lt ho.line ho.unescaped))
    (ho.le_of_mayEnd (mayEnd_stop h))

/-! ### What the grammar reads as a literal -/

/-- In a text literal of the grammar no line feed is escaped, and the search stops at the first one. -/
theorem tail_of_line (h : Lexeme.literalTail? '"' rest = some n) (hline : '\n' ∈ rest.take n) :
    rest[tail '"' rest]? = some '\n' ∧ ∀ j < tail '"' rest, rest[j]? ≠ some '\n' := by
  fun_induction Lexeme.literalTail? '"' rest generalizing n with
  | case1 => contradiction
  | case2 rest =>
    cases h
    exact absurd (List.mem_singleton.mp hline) (by decide)
  | case3 => contradiction
  | case4 => contradiction
  | case5 d rest hd _ ih =>
    obtain ⟨m, hm, rfl⟩ := Option.map_eq_some_iff.mp h
    have hmem : '\n' ∈ rest.take m := by simpa [Ne.symm hd] using hline
    obtain ⟨hget, hbefore⟩ := ih hm hmem
    rw [tail_escape]
    refine ⟨hget, fun j hj => ?_⟩
    rcases j with _ | _ | j
    · exact fun heq => absurd (Option.some.inj heq) (by decide)
    · exact fun heq => hd (Option.some.inj heq)
    · exact hbefore j (by omega)
  | case6 c rest hc hesc ih =>
    obtain ⟨m, hm, rfl⟩ := Option.map_eq_some_iff.mp h
    by_cases hfeed : c = '\n'
    · subst hfeed
      rw [tail_line]
      exact ⟨rfl, fun j hj => absurd hj (Nat.not_lt_zero j)⟩
    · have hmem : '\n' ∈ rest.take m := by simpa [Ne.symm hfeed] using hline
      obtain ⟨hget, hbefore⟩ := ih hm hmem
      rw [tail_other hesc hc fun hend => hfeed hend.1]
      refine ⟨hget, fun j hj => ?_⟩
      cases j with
      | zero => exact fun heq => hfeed (Option.some.inj heq)
      | succ j => exact hbefore j (by omega)

theorem stop_of_bytes (h : text[i]? = some '\'')
    (hn : Terminal.bytes.match? (text.drop i) = some n) : stop text i = i + n := by
  rw [drop_of_getElem? h] at hn
  obtain ⟨m, hm, rfl⟩ := Option.map_eq_some_iff.mp hn
  rw [stop_eq_add h, Lexeme.tail_of_literalTail? (by decide) hm nofun]
  omega

theorem stop_of_text (h : text[i]? = some '"')
    (hn : Terminal.text.match? (text.drop i) = some n) (hline : '\n' ∉ (text.drop i).take n) :
    stop text i = i + n := by
  rw [drop_of_getElem? h] at hn hline
  obtain ⟨m, hm, rfl⟩ := Option.map_eq_some_iff.mp hn
  have hinside : '\n' ∉ (text.drop (i + 1)).take m := fun hmem =>
    hline (List.mem_cons_of_mem _ hmem)
  rw [stop_eq_add h, Lexeme.tail_of_literalTail? (by decide) hm fun _ => hinside]
  omega

theorem stop_of_text_line (h : text[i]? = some '"')
    (hn : Terminal.text.match? (text.drop i) = some n) (hline : '\n' ∈ (text.drop i).take n) :
    IsLeast {j | i ≤ j ∧ text[j]? = some '\n'} (stop text i) := by
  rw [drop_of_getElem? h] at hn hline
  obtain ⟨m, hm, rfl⟩ := Option.map_eq_some_iff.mp hn
  have hinside : '\n' ∈ (text.drop (i + 1)).take m :=
    (List.mem_cons.mp hline).resolve_left (by decide)
  obtain ⟨hget, hbefore⟩ := tail_of_line hm hinside
  rw [List.getElem?_drop] at hget
  rw [stop_eq_add h]
  refine ⟨⟨by omega, hget⟩, fun j hj => ?_⟩
  obtain ⟨hij, hj⟩ := hj
  by_contra hlt
  rcases Nat.eq_or_lt_of_le hij with rfl | hij
  · rw [h] at hj
    exact absurd (Option.some.inj hj) (by decide)
  · refine hbefore (j - (i + 1)) (by omega) ?_
    rw [List.getElem?_drop, ← hj]
    congr 1
    omega

/-- The search for the end of a literal goes on, and stays in the text. A byte string of the grammar
without a base mark ends where the search lets it end; so does a text, unless a line feed stands in it:
then the search stops at the first one. -/
theorem stop_follows_terminals (h : text[i]? = some quote) (hquote : quote = '"' ∨ quote = '\'') :
    stopFrom? text i = some (stop text i : Int) ∧
    i < stop text i ∧ stop text i ≤ text.length ∧
    (quote = '\'' → ∀ n, Terminal.bytes.match? (text.drop i) = some n → stop text i = i + n) ∧
    (quote = '"' → ∀ n, Terminal.text.match? (text.drop i) = some n →
      ('\n' ∉ (text.drop i).take n → stop text i = i + n) ∧
      ('\n' ∈ (text.drop i).take n → IsLeast {j | i ≤ j ∧ text[j]? = some '\n'} (stop text i))) := by
  have hi := (List.getElem?_eq_some_iff.mp h).1
  refine ⟨stopFrom?_natCast hi, lt_stop h, stop_le_length (Nat.le_of_lt hi), ?_, ?_⟩
  · rintro rfl n hn
    exact stop_of_bytes h hn
  · rintro rfl n hn
    exact ⟨stop_of_text h hn, stop_of_text_line h hn⟩

/-- A text over two lines with an escaped quote in it, and a byte string over two lines. -/
def spreadText : List Char := ['"', '\\', '"', '\n', 'x', '"', '\'', '\n', '\'']

theorem stop_follows_terminals_spread :
    spreadText[0]? = some '"' ∧ Terminal.text.match? spreadText = some 6 ∧
    IsLeast {j | 0 ≤ j ∧ spreadText[j]? = some '\n'} (stop spreadText 0) ∧
    spreadText[6]? = some '\'' ∧ Terminal.bytes.match? (spreadText.drop 6) = some 3 ∧
    stop spreadText 6 = 9 := by
  have htext : Terminal.text.match? spreadText = some 6 := by decide
  have hbytes : Terminal.bytes.match? (spreadText.drop 6) = some 3 := by decide
  have hopened : spreadText[0]? = some '"' := rfl
  have hquoted : spreadText[6]? = some '\'' := rfl
  obtain ⟨-, -, -, -, hend⟩ := stop_follows_terminals hopened (.inl rfl)
  obtain ⟨-, -, -, hstop, -⟩ := stop_follows_terminals hquoted (.inr rfl)
  exact ⟨hopened, htext, (hend rfl 6 htext).2 (by decide), hquoted, hbytes, hstop rfl 3 hbytes⟩

end Literal

/-! ### The lines behind a literal -/

namespace Chunk

open Literal

variable {text : List Char} {c : Char} {i k depth : Nat}

/-- The search looks for a head at one character and goes on behind it. -/
theorem heads_further {lineStart : Bool} (hc : text[i]? = some c) :
    heads 0 depth lineStart i (text.drop i) =
      headAt depth lineStart i (text.drop i) ++
        heads 0 (depthAfter c depth) (c == '\n') (further text i c) (text.drop (further text i c)) := by
  rw [drop_of_getElem? hc, heads_cons, List.drop_drop, further]

/-- Where the search comes to an offset, it finds the heads behind it from there. -/
theorem ComesTo.exists_heads (h : ComesTo text i depth) :
    ∃ found lineStart, heads 0 0 true 0 text =
      found ++ heads 0 depth lineStart i (text.drop i) := by
  induction i using Nat.strong_induction_on generalizing depth with
  | _ i ih =>
    rcases h.cases_next with ⟨rfl, rfl⟩ | ⟨j, e, c, hj, hc, rfl, rfl⟩
    · exact ⟨[], true, rfl⟩
    · obtain ⟨found, lineStart, heq⟩ := ih j (lt_further text j c) hj
      exact ⟨found ++ headAt e lineStart j (text.drop j), c == '\n',
        by rw [heq, heads_further hc, List.append_assoc]⟩

/-- A head behind a line feed to which the search comes outside brackets is found. -/
theorem ComesTo.mem_heads_of_line (h : ComesTo text k 0) (hline : text[k]? = some '\n')
    (hhead : isHead (text.drop (k + 1)) = true) : k + 1 ∈ heads 0 0 true 0 text := by
  obtain ⟨found, lineStart, heq⟩ := h.exists_heads
  have hnext : further text k '\n' = k + 1 := rfl
  rw [heq, heads_further hline, hnext]
  refine List.mem_append_right _ (List.mem_append_right _ ?_)
  cases hrest : text.drop (k + 1) with
  | nil =>
    rw [hrest] at hhead
    contradiction
  | cons d rest =>
    rw [hrest] at hhead
    rw [heads_cons, headAt, hhead]
    exact List.mem_append_left _ (List.mem_singleton_self _)

/-- Every head that the search finds begins a chunk. -/
theorem exists_chunk_of_mem_heads (h : k ∈ heads 0 0 true 0 text) :
    ∃ c ∈ split text, c.start = k := by
  have hstart : k ∈ starts text := by
    rw [starts]
    split
    next => exact h
    next => exact List.mem_cons_of_mem 0 h
  rw [← map_start_between text.length (starts text)] at hstart
  exact List.mem_map.mp hstart

end Chunk

/-- A text literal ends for the search behind the first quote or in front of the first line feed that is
not escaped, or else at the end of the text. So it passes over line feeds only that are escaped, and one
that is left open up to a line feed that is not escaped hides no head on the line below. -/
theorem Literal.stop_at_first_unescaped {text : List Char} {i : Nat} (h : text[i]? = some '"') :
    IsLeast {e | MayEnd text i '"' e} (stop text i) ∧
    (∀ j, i ≤ j → j < stop text i → text[j]? = some '\n' → Escaped text i j) ∧
    ∀ k, LeftOpen text i k → stop text i = k ∧
      (Chunk.ComesTo text i 0 → Chunk.isHead (text.drop (k + 1)) = true →
        ∃ c ∈ Chunk.split text, c.start = k + 1) := by
  refine ⟨stop_isLeast (by decide) h, fun j => escaped_of_lt_stop h, fun k ho => ?_⟩
  have hstop := ho.stop_eq h
  refine ⟨hstop, fun hcomes hhead => ?_⟩
  have hline : Chunk.ComesTo text k 0 := hstop ▸ hcomes.literal h (.inl rfl)
  exact Chunk.exists_chunk_of_mem_heads (hline.mem_heads_of_line ho.line hhead)

/-- An escaped quote stands in a literal that is left open in front of a rule. -/
def unclosedText : List Char := ['"', '\\', '"', '\n', 'b', '=', '1']

theorem Literal.stop_at_first_unescaped_unclosed :
    unclosedText[0]? = some '"' ∧ LeftOpen unclosedText 0 3 ∧ stop unclosedText 0 = 3 ∧
      ∃ c ∈ Chunk.split unclosedText, c.start = 4 := by
  have hquote : unclosedText[0]? = some '"' := rfl
  have hopen : LeftOpen unclosedText 0 3 := by
    refine ⟨by decide, rfl, by decide, fun j hj hj' h => ?_⟩
    obtain rfl | rfl : j = 1 ∨ j = 2 := by omega
    · revert h
      decide
    · decide
  obtain ⟨hstop, hheads⟩ := (stop_at_first_unescaped hquote).2.2 3 hopen
  exact ⟨hquote, hopen, hstop, hheads .start (by decide)⟩

/-- A text literal is left open on the first line, behind a reverse solidus. -/
def openText : List Char := ['a', '=', '"', '\\', '\n', 'b', '=', '1']

/-- The search passes over the line feed together with the reverse solidus in front of it, and over
the head of the second line. -/
theorem Literal.stop_passes_line :
    ¬ (∀ (text : List Char) (i : Nat), text[i]? = some '"' →
      '\n' ∉ (text.take (stop text i)).drop i) ∧
    openText[2]? = some '"' ∧ stop openText 2 = 8 ∧
    Chunk.isHead (openText.drop 5) = true ∧ Chunk.split openText = [⟨0, 8⟩] := by
  refine ⟨fun h => ?_, rfl, by decide, by decide, by decide⟩
  exact h openText 2 rfl (by decide)

end Cddl

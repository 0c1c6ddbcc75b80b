import Cddl.Proofs.Reach

/-!
Blanks and comments around a chunk. Behind a rule they are ignored as those between its tokens are.
In front of any chunk, if they are whole lines, they only move what is read: a run of spaces at the
front of the chunk gets longer, and everything else stands behind it as before.
-/
namespace Cddl

/-! ### Ignored stretches of texts put together -/

namespace Lexeme

variable {seen rest later : List Char} {n : Nat} {quote : Char}

theorem ignored?_append_lt (h : ignored? (seen ++ rest) = some n) (hn : n < seen.length) :
    ignored? (seen ++ later) = some n := by
  rcases ignored?_cases h with ⟨text, htext, rfl⟩ | ⟨hpos, rfl, hne⟩
  · obtain ⟨tail, rfl, rfl⟩ := exists_seen [';'] htext (by simp only [List.length_singleton]; omega)
    simp only [List.length_append, List.length_singleton] at hn
    have hrun : run (· != '\n') (tail ++ later) = run (· != '\n') (tail ++ rest) :=
      run_append_lt (by omega)
    exact congrArg (fun k => some (k + 1)) hrun
  · have hne' : ∀ text, seen ++ later ≠ ';' :: text := by
      intro text heq
      obtain ⟨tail, rfl, -⟩ := exists_seen [';'] heq (by simp only [List.length_singleton]; omega)
      exact hne _ rfl
    rw [ignored?_of_ne hne', run?_eq_some_iff, run_append_lt hn]
    exact ⟨rfl, hpos⟩

theorem ignored?_spaces (h : 0 < run isSpace seen) : ignored? seen = some (run isSpace seen) := by
  have hne : ∀ text, seen ≠ ';' :: text := by
    rintro text rfl
    rw [run_cons_neg (by decide)] at h
    contradiction
  rw [ignored?_of_ne hne, run?_eq_some_iff]
  exact ⟨rfl, h⟩

/-- A literal that ends in front of a place does not depend on what stands behind it. -/
theorem literalTail?_seen (h : literalTail? quote (seen ++ rest) = some n)
    (hn : n ≤ seen.length) : literalTail? quote seen = some n := by
  have hpos := (getElem?_of_literalTail? h).1
  fun_induction literalTail? quote seen generalizing n with
  | case1 => exact absurd hn (Nat.not_le.mpr hpos)
  | case2 l =>
    rw [List.cons_append, literalTail?_quote] at h
    exact h
  | case3 hc =>
    cases rest with
    | nil => simp [literalTail?, hc] at h
    | cons d rest =>
      rw [List.singleton_append, literalTail?_escape hc] at h
      split at h
      · contradiction
      · obtain ⟨m, -, rfl⟩ := Option.map_eq_some_iff.mp h
        simp only [List.length_cons, List.length_nil] at hn
        omega
  | case4 l hc =>
    rw [List.cons_append, List.cons_append, literalTail?_escape hc, if_pos rfl] at h
    contradiction
  | case5 d l hd hc ih =>
    rw [List.cons_append, List.cons_append, literalTail?_escape hc, if_neg hd] at h
    obtain ⟨m, hm, rfl⟩ := Option.map_eq_some_iff.mp h
    simp only [List.length_cons] at hn
    rw [ih hm (by omega) (getElem?_of_literalTail? hm).1]
    rfl
  | case6 c l hc hesc ih =>
    rw [List.cons_append, literalTail?_other hc hesc] at h
    obtain ⟨m, hm, rfl⟩ := Option.map_eq_some_iff.mp h
    simp only [List.length_cons] at hn
    rw [ih hm (by omega) (getElem?_of_literalTail? hm).1]
    rfl

/-- The same behind the characters that open a literal. -/
theorem opened_seen {l : List Char} (front : List Char) (htext : seen ++ rest = front ++ l)
    (h : (literalTail? quote l).map (· + front.length) = some n) (hn : n ≤ seen.length) :
    ∃ tail, seen = front ++ tail ∧ (literalTail? quote tail).map (· + front.length) = some n := by
  obtain ⟨m, hm, rfl⟩ := Option.map_eq_some_iff.mp h
  obtain ⟨tail, rfl, rfl⟩ := exists_seen front htext (by omega)
  rw [List.length_append] at hn
  exact ⟨tail, rfl, Option.map_eq_some_iff.mpr ⟨m, literalTail?_seen hm (by omega), rfl⟩⟩

theorem text?_seen (h : text? (seen ++ rest) = some n) (hn : n ≤ seen.length) :
    text? seen = some n := by
  unfold text? at h
  split at h
  next l heq =>
    obtain ⟨tail, rfl, htail⟩ := opened_seen ['"'] heq h hn
    exact htail
  next => contradiction

theorem bytes?_seen (h : bytes? (seen ++ rest) = some n) (hn : n ≤ seen.length) :
    bytes? seen = some n := by
  unfold bytes? at h
  split at h
  next l heq =>
    obtain ⟨tail, rfl, htail⟩ := opened_seen ['\''] heq h hn
    exact htail
  next l heq =>
    obtain ⟨tail, rfl, htail⟩ := opened_seen ['h', '\''] heq h hn
    exact htail
  next l heq =>
    obtain ⟨tail, rfl, htail⟩ := opened_seen ['b', '6', '4', '\''] heq h hn
    exact htail
  next => contradiction

end Lexeme

/-- A match in front of a line feed is one in the text up to there. -/
theorem Terminal.match?_seen {t : Terminal} {seen later : List Char} {n : Nat}
    (h : t.match? (seen ++ '\n' :: later) = some n) (hn : n ≤ seen.length) :
    t.match? seen = some n := by
  by_cases ht : t ≠ .text ∧ t ≠ .bytes
  · rwa [match?_gap ht rfl] at h
  · cases t with
    | text => exact Lexeme.text?_seen h hn
    | bytes => exact Lexeme.bytes?_seen h hn
    | _ => exact absurd ⟨nofun, nofun⟩ ht

variable {a b text : List Char} {i j k : Nat}

theorem Ignored.shift (h : Ignored b i j) : Ignored (a ++ b) (a.length + i) (a.length + j) := by
  induction h with
  | done => exact .done _
  | @next i n j hn _ ih =>
    refine .next (n := n) ?_ ?_
    · rwa [List.drop_length_add_append]
    · rw [Nat.add_assoc]
      exact ih

theorem Ignored.of_append (h : Ignored (a ++ b) (a.length + i) (a.length + j)) :
    Ignored b i j := by
  have hdrop := h.drop (Nat.le_add_right a.length i)
  rwa [List.drop_left, Nat.add_sub_cancel_left, Nat.add_sub_cancel_left] at hdrop

theorem Ignored.take_of_le {m : Nat} (h : Ignored text i j) (hm : j ≤ m) :
    Ignored (text.take m) i j := by
  induction h with
  | done => exact .done _
  | @next i n j hn hrest ih =>
    have hle := hrest.le
    refine .next ?_ (ih hm)
    rw [List.drop_take]
    exact Lexeme.ignored?_take hn (by omega)

/-- What is ignored is ignored in one way. -/
theorem Ignored.rest (hj : Ignored text i j) (hk : Ignored text i k) (hjk : j ≤ k) :
    Ignored text j k := by
  induction hj with
  | done => exact hk
  | @next i n j hn hrest ih =>
    have hle := hrest.le
    have hpos := Lexeme.ignored?_pos hn
    cases hk with
    | done => omega
    | next hm hk =>
      rw [hn] at hm
      cases hm
      exact ih hk hjk

theorem modeAt_append (h : i ≤ a.length) : modeAt (a ++ b) i = modeAt a i := by
  rw [modeAt, modeAt, List.take_append_of_le_length h]

/-! ### Behind a rule -/

section Behind

variable {later : List Char}

/-- Blanks up to the end of a text go on in the lines behind it. -/
theorem Ignored.append_lines (h : Ignored a i a.length)
    (hlater : Ignored ('\n' :: later) 0 ('\n' :: later).length) :
    Ignored (a ++ '\n' :: later) i (a ++ '\n' :: later).length := by
  rw [List.length_append]
  generalize hj : a.length = j at h
  induction h with
  | done i =>
    subst hj
    exact hlater.shift
  | @next i n j hn hrest ih =>
    subst hj
    have hle := hrest.le
    have hdrop : (a ++ '\n' :: later).drop i = a.drop i ++ '\n' :: later :=
      List.drop_append_of_le_length (by omega)
    rw [← List.append_nil (a.drop i)] at hn
    rcases Nat.lt_or_eq_of_le hle with hlt | heq
    · refine .next ?_ (ih rfl)
      rw [hdrop]
      exact Lexeme.ignored?_append_lt hn (by rw [List.length_drop]; omega)
    · obtain rfl : n = (a.drop i).length := by rw [List.length_drop]; omega
      rcases Lexeme.ignored?_cases hn with ⟨text, htext, hlen⟩ | ⟨hpos, hlen, -⟩
      · refine .next (n := (a.drop i).length) ?_ ?_
        · rw [hdrop, hlen]
          exact Lexeme.comment_cut htext (Nat.le_of_eq hlen.symm)
        · rw [heq]
          exact hlater.shift
      · -- a run of spaces takes the first run of the lines behind with it
        cases hlater with
        | next hm hmore =>
          rcases Lexeme.ignored?_cases hm with ⟨text, htext, -⟩ | ⟨-, rfl, -⟩
          · cases htext
          · have hrun := @Lexeme.run_append_le _ _ ('\n' :: later) _ (Nat.le_of_eq hlen)
            refine .next (n := Lexeme.run Lexeme.isSpace (a.drop i ++ '\n' :: later)) ?_ ?_
            · rw [hdrop]
              exact Lexeme.ignored?_spaces (by omega)
            · rw [hrun, ← Nat.add_assoc, heq]
              have hshift := hmore.shift (a := a)
              rwa [Nat.zero_add] at hshift

theorem IsRule.resting (h : IsRule text) : Resting text text.length := by
  obtain ⟨p, stop, -, hitem, hi⟩ := isRule_iff_item.mp h
  exact (Resting.ignored hi hitem.resting).1

theorem columnAt_id (k : Nat) : columnAt id k = k := by
  rcases Nat.eq_zero_or_pos k with rfl | hpos
  · rfl
  · exact columnAt_of_pos hpos

/-- No token reaches into lines of blanks and comments behind a rule. -/
theorem IsRule.le_of_match (h : IsRule a)
    (hlater : Ignored ('\n' :: later) 0 ('\n' :: later).length) {t : Terminal}
    (hi : Resting (a ++ '\n' :: later) i) (hm : t.match? ((a ++ '\n' :: later).drop i) = some n) :
    i + n ≤ a.length := by
  have hbehind : Ignored (a ++ '\n' :: later) a.length (a ++ '\n' :: later).length := by
    rw [List.length_append]
    exact hlater.shift
  have hresting : Resting (a ++ '\n' :: later) a.length := by
    rcases h.resting with hcode | ⟨hcomment, -⟩
    · exact .inl ((modeAt_append (Nat.le_refl _)).trans hcode)
    · refine .inr ⟨(modeAt_append (Nat.le_refl _)).trans hcomment, ?_⟩
      intro c hc
      rw [List.getElem?_append_right (Nat.le_refl _), Nat.sub_self, List.getElem?_cons_zero] at hc
      exact (Option.some.inj hc).symm
  have hpos := Terminal.match?_pos hm
  have hle := Terminal.match?_le hm
  rw [List.length_drop] at hle
  by_contra hlt
  -- the token would take a character that is passed over
  have hblank := (Resting.ignored hbehind hresting).2 (max i a.length) (by omega) (by omega)
  rw [(modeAt_token (hi.modeAt_of_match hm) hm).2 _ (by omega) (by omega)] at hblank
  contradiction

/-- A rule is read alike whatever blanks and comments stand in the lines behind it. -/
theorem IsRule.aligned_append (h : IsRule a)
    (hlater : Ignored ('\n' :: later) 0 ('\n' :: later).length) :
    Aligned a (a ++ '\n' :: later) id := by
  constructor
  · exact strictMono_id
  · intro h e v n t _ hi hm
    have hpos := Terminal.match?_pos hm
    have hle := Terminal.match?_le hm
    rw [List.length_drop] at hle
    have hv : v < a.length := by omega
    rw [columnAt_id]
    refine ⟨n, ?_, ?_, rfl⟩
    · rw [← List.append_nil a] at hi
      exact hi.cut_of_lt hv
    · show t.match? ((a ++ '\n' :: later).drop v) = some n
      rw [List.drop_append_of_le_length (Nat.le_of_lt hv)]
      rw [← List.append_nil (a.drop v)] at hm
      exact Terminal.match?_cut hm (by rw [List.length_drop]; omega)
  · intro k e u m t hitem hi hm
    rw [columnAt_id] at hi
    have hhome : Resting (a ++ '\n' :: later) k :=
      .inl ((modeAt_append hitem.le_length).trans hitem.modeAt.1)
    have hend := h.le_of_match hlater (Resting.ignored hi hhome).1 hm
    refine ⟨u, m, rfl, ?_, ?_, rfl⟩
    · have htake := hi.take_of_le (m := a.length) (by omega)
      rwa [List.take_left] at htake
    · rw [List.drop_append_of_le_length (by omega)] at hm
      exact Terminal.match?_seen hm (by rw [List.length_drop]; omega)

/-- The tree of a rule does not depend on the blanks and comments in the lines behind it. -/
theorem Tree.ofText_append_lines
    (hlater : Ignored ('\n' :: later) 0 ('\n' :: later).length) {t : Tree}
    (ht : Tree.ofText a = .ok t) : Tree.ofText (a ++ '\n' :: later) = .ok (t.relabel id) := by
  obtain ⟨stop, hreads⟩ := Tree.reads_ofText ht
  have hrule : IsRule a := isRule_iff_tokens.mpr ⟨_, hreads.isRuleOf⟩
  refine (hrule.aligned_append hlater).ofText ?_ ht
  intro k e _ hi
  rw [columnAt_id]
  exact hi.append_lines hlater

end Behind

/-! ### In front of a chunk -/

/-- The text is whole lines of blanks and comments, or nothing. -/
structure BlankLines (text : List Char) : Prop where
  ignored : Ignored text 0 text.length
  ended : text = [] ∨ text.getLast? = some '\n'

def Rejection.relabel (place : Nat → Nat) : Rejection → Rejection
  | unexpected i c expected => unexpected (place i) c expected
  | incomplete expected => incomplete expected

section InFront

variable {v u n : Nat} {t : Terminal}

/-- The number of spaces at the front of a text. -/
def indent (text : List Char) : Nat := Lexeme.run Lexeme.isSpace text

theorem ignored_indent (text : List Char) : Ignored text 0 (indent text) := by
  rcases Nat.eq_zero_or_pos (indent text) with hzero | hpos
  · rw [hzero]
    exact .done 0
  · refine .next (n := indent text) ?_ ?_
    · exact Lexeme.ignored?_spaces hpos
    · rw [Nat.zero_add]
      exact .done _

theorem indent_le (text : List Char) : indent text ≤ text.length := Lexeme.run_le _ _

theorem getElem?_indent_ne_space {c : Char} (h : text[indent text]? = some c) :
    Lexeme.isSpace c = false :=
  Lexeme.getElem?_run h

/-- A token begins behind the spaces at the front of its text. -/
theorem indent_le_of_match (h : t.match? (text.drop v) = some n) : indent text ≤ v := by
  by_contra hlt
  obtain ⟨c, hc, hspace⟩ := Lexeme.getElem?_of_lt_run (Nat.lt_of_not_le hlt)
  obtain ⟨d, rest, htext, hstarts⟩ := Terminal.exists_starts h
  rw [← List.head?_drop, htext, List.head?_cons] at hc
  cases hc
  exact Lexeme.ignored?_of_isSpace hspace (Lexeme.ignored?_of_starts rest hstarts)

namespace BlankLines

variable (h : BlankLines a)

include h

/-- In a comment there is no line feed, so that one that begins in the lines ends in front of their
last character. -/
theorem not_comment (hi : i < a.length) (hj : a.length ≤ j) : ¬ Comment (a ++ b) i j := by
  intro hcomment
  rcases h.ended with rfl | hend
  · simp at hi
  · rw [List.getLast?_eq_getElem?] at hend
    refine hcomment.line (a.length - 1) (by omega) (by omega) ?_
    rw [List.getElem?_append_left (by omega), hend]

/-- The lines and the spaces behind them are ignored. -/
theorem ignored_indent : Ignored (a ++ b) 0 (a.length + indent b) := by
  have hgeneral : ∀ {i j}, Ignored a i j → j = a.length →
      Ignored (a ++ b) i (a.length + indent b) := by
    intro i j hi
    induction hi with
    | done i =>
      rintro rfl
      exact (Cddl.ignored_indent b).shift
    | @next i n j hn hrest ih =>
      rintro rfl
      have hle := hrest.le
      have hpos := Lexeme.ignored?_pos hn
      have hdrop : (a ++ b).drop i = a.drop i ++ b := List.drop_append_of_le_length (by omega)
      rcases Nat.lt_or_eq_of_le hle with hlt | heq
      · refine .next ?_ (ih rfl)
        rw [hdrop]
        rw [← List.append_nil (a.drop i)] at hn
        exact Lexeme.ignored?_append_lt hn (by rw [List.length_drop]; omega)
      · have hspaces : (a.drop i).length ≤ Lexeme.run Lexeme.isSpace (a.drop i ++ []) := by
          rcases Lexeme.ignored?_cases hn with ⟨rest, hrest, hlen⟩ | ⟨-, hrun, -⟩
          · rcases comment_or_spaces hn with hspaces | ⟨hcomment, -⟩
            · obtain ⟨c, hc, hspace⟩ := hspaces i (Nat.le_refl i) (by omega)
              rw [← Nat.add_zero i, ← List.getElem?_drop, hrest, List.getElem?_cons_zero] at hc
              cases hc
              contradiction
            · have hnot := h.not_comment (b := []) (i := i) (j := i + n) (by omega) (by omega)
              rw [List.append_nil] at hnot
              exact absurd hcomment hnot
          · rw [List.append_nil, ← hrun, List.length_drop]
            omega
        have hrun := @Lexeme.run_append_le _ _ b _ hspaces
        refine .next (n := Lexeme.run Lexeme.isSpace (a.drop i ++ b)) ?_ ?_
        · rw [hdrop]
          refine Lexeme.ignored?_spaces ?_
          rw [hrun, List.length_drop]
          omega
        · rw [hrun, List.length_drop, ← Nat.add_assoc, indent,
            show i + (a.length - i) = a.length by omega]
          exact .done _
  exact hgeneral h.ignored rfl

theorem ignored_iff (hv : indent b ≤ v) : Ignored b 0 v ↔ Ignored (a ++ b) 0 (a.length + v) := by
  have hfront := h.ignored_indent (b := b)
  constructor
  · intro hi
    exact hfront.trans ((Cddl.ignored_indent b).rest hi hv).shift
  · intro hi
    have hbehind := hfront.rest hi (Nat.add_le_add_left hv _)
    exact (Cddl.ignored_indent b).trans hbehind.of_append

theorem meets (hv : indent b ≤ v) :
    Aligned.Meets b (a ++ b) (a.length + ·) v (a.length + v) := by
  intro k e _
  rcases Nat.eq_zero_or_pos k with rfl | hpos
  · exact h.ignored_iff hv
  · rw [columnAt_of_pos hpos]
    exact ⟨Ignored.shift, Ignored.of_append⟩

/-- No token stands in the lines or in the spaces behind them. -/
theorem le_of_match (hu : Resting (a ++ b) u) (hm : t.match? ((a ++ b).drop u) = some n) :
    a.length + indent b ≤ u := by
  by_contra hlt
  have hpos := Terminal.match?_pos hm
  have hinked := (modeAt_token (hu.modeAt_of_match hm) hm).2 u (Nat.le_refl u) (by omega)
  have hpassed := (Resting.ignored (h.ignored_indent (b := b)) (.inl rfl)).2 u (Nat.zero_le u)
    (Nat.lt_of_not_le hlt)
  rw [hinked] at hpassed
  contradiction

/-- Behind the lines no comment is open. -/
theorem modeAt_end : modeAt (a ++ b) a.length = .code := by
  have hresting : Resting (a ++ ['x']) a.length := by
    have hi := h.ignored_indent (b := ['x'])
    exact (Resting.ignored hi (.inl rfl)).1
  rw [modeAt_append (Nat.le_refl _)]
  rcases hresting with hcode | ⟨-, hline⟩
  · rwa [modeAt_append (Nat.le_refl _)] at hcode
  · have hx := hline 'x' (by simp)
    contradiction

theorem modeAt_add (k : Nat) : modeAt (a ++ b) (a.length + k) = modeAt b k := by
  rw [Cddl.modeAt_add, h.modeAt_end, List.drop_left]
  rfl

theorem aligned : Aligned b (a ++ b) (a.length + ·) := by
  constructor
  · intro k l hkl
    exact Nat.add_lt_add_left hkl _
  · intro k e v n t hitem hi hm
    refine ⟨n, (h.meets (indent_le_of_match hm) k e hitem).mp hi, ?_, Nat.add_assoc _ _ _⟩
    rwa [List.drop_length_add_append]
  · intro k e u m t hitem hi hm
    have hu : Resting (a ++ b) u := by
      refine (Resting.ignored hi ?_).1
      rcases Nat.eq_zero_or_pos k with rfl | hpos
      · exact .inl rfl
      · rw [columnAt_of_pos hpos]
        exact .inl ((h.modeAt_add k).trans hitem.modeAt.1)
    have hle := h.le_of_match hu hm
    obtain ⟨v, rfl⟩ := Nat.exists_eq_add_of_le (Nat.le_of_add_right_le hle)
    rw [List.drop_length_add_append] at hm
    exact ⟨v, m, rfl, (h.meets (by omega) k e hitem).mpr hi, hm, (Nat.add_assoc _ _ _).symm⟩

/-! ### How far the reading gets -/

/-- Blanks that begin in the lines end at the latest with the spaces behind them. -/
theorem stop_le (hu : u < a.length) (hn : Lexeme.ignored? ((a ++ b).drop u) = some n) :
    u + n ≤ a.length + indent b := by
  by_contra hlt
  have hle := Lexeme.ignored?_le hn
  rw [List.length_drop, List.length_append] at hle
  rcases comment_or_spaces hn with hspaces | ⟨hcomment, -⟩
  · obtain ⟨c, hc, hspace⟩ := hspaces (a.length + indent b) (by omega) (by omega)
    rw [List.getElem?_append_right (Nat.le_add_right _ _), Nat.add_sub_cancel_left] at hc
    rw [getElem?_indent_ne_space hc] at hspace
    contradiction
  · exact h.not_comment hu (by omega) hcomment

theorem getsTo_front (hu : u ≤ a.length + indent b) : Front.GetsTo (a ++ b) u := by
  have hlives : Front.Lives (a ++ b) (a.length + indent b) :=
    Front.lives_iff.mpr ⟨0, _, .start .rulePlain rfl, h.ignored_indent⟩
  exact hlives.getsTo.of_le hu

omit h in
theorem getsTo_indent (hv : v ≤ indent b) : Front.GetsTo b v := by
  have hlives : Front.Lives b (indent b) :=
    Front.lives_iff.mpr ⟨0, _, .start .rulePlain rfl, Cddl.ignored_indent b⟩
  exact hlives.getsTo.of_le hv

/-- The reading gets as far with the lines in front as without them. -/
theorem getsTo_iff : Front.GetsTo (a ++ b) (a.length + v) ↔ Front.GetsTo b v := by
  induction v using Nat.strong_induction_on with
  | _ v ih =>
    rcases le_or_gt v (indent b) with hv | hv
    · exact ⟨fun _ => getsTo_indent hv, fun _ => h.getsTo_front (by omega)⟩
    rw [Front.getsTo_iff, Front.getsTo_iff, h.aligned.lives_iff (h.meets (Nat.le_of_lt hv))]
    refine or_congr Iff.rfl ⟨?_, ?_⟩
    · intro hcovered
      cases hcovered with
      | @blanks u n hu huv hn hlt =>
        -- blanks that begin in the lines do not get here
        rcases Nat.lt_or_ge u a.length with hin | hge
        · have hle := h.stop_le hin hn
          omega
        · obtain ⟨s, rfl⟩ := Nat.exists_eq_add_of_le hge
          rw [List.drop_length_add_append] at hn
          exact .blanks ((ih s (by omega)).mp hu) (by omega) hn (by omega)
      | @token u n w t hw ht huv hm hlt =>
        have hresting : Resting (a ++ b) u := (Resting.ignored hw.ignored hw.item.resting).1
        have hle := h.le_of_match hresting hm
        obtain ⟨s, rfl⟩ := Nat.exists_eq_add_of_le (Nat.le_of_add_right_le hle)
        obtain ⟨k, e, hitem, hhome, hedge⟩ := h.aligned.exists_item hw.item
        have hi := (h.meets (by omega) k e hitem).mpr (hhome ▸ hw.ignored)
        rw [hedge, Edge.next?_relabel] at ht
        have hterminal : e.terminal?.isSome := by simp [Edge.terminal?_eq_some_iff.mpr ht]
        have hs : Waits b s ⟨e, k⟩ := ⟨hitem, hterminal, hi⟩
        rw [List.drop_length_add_append] at hm
        exact .token hs ht (by omega) hm (by omega)
    · intro hcovered
      cases hcovered with
      | @blanks s n hs hsv hn hlt =>
        have hdrop : (a ++ b).drop (a.length + s) = b.drop s := List.drop_length_add_append s
        rw [← hdrop] at hn
        exact .blanks ((ih s hsv).mpr hs) (by omega) hn (by omega)
      | @token s n w t hw ht hsv hm hlt =>
        have hle := indent_le_of_match hm
        have hwaits := h.aligned.waits hw ((h.meets hle _ _ hw.item).mp hw.ignored)
        have hdrop : (a ++ b).drop (a.length + s) = b.drop s := List.drop_length_add_append s
        rw [← hdrop] at hm
        exact .token hwaits ht (by omega) hm (by omega)

/-- A text that is rejected is rejected at the same place behind the lines. -/
theorem ends {r : Rejection} (hr : r.Ends b) : (r.relabel (a.length + ·)).Ends (a ++ b) := by
  cases hr with
  | @unexpected v c hv hnot hc =>
    have hindent : indent b ≤ v := by
      by_contra hlt
      exact hnot (getsTo_indent (by omega))
    rw [Rejection.relabel, ← h.aligned.expectedAt_eq (h.meets hindent)]
    refine .unexpected (h.getsTo_iff.mpr hv) ?_ ?_
    · rw [Nat.add_assoc, h.getsTo_iff]
      exact hnot
    · rw [List.getElem?_append_right (Nat.le_add_right _ _), Nat.add_sub_cancel_left, hc]
  | incomplete hend hnot =>
    have hmeets := h.meets (indent_le b)
    rw [← List.length_append] at hmeets
    rw [Rejection.relabel, ← h.aligned.expectedAt_eq hmeets]
    refine .incomplete ?_ ?_
    · rw [List.length_append]
      exact h.getsTo_iff.mpr hend
    · rwa [← h.aligned.isRule_iff hmeets]

/-- Lines of blanks and comments in front of a chunk only move what is read, and what is wrong. -/
theorem ofText : Tree.ofText (a ++ b) =
    match Tree.ofText b with
    | .ok t => .ok (t.relabel (a.length + ·))
    | .error r => .error (r.relabel (a.length + ·)) := by
  have hmeets := h.meets (indent_le b)
  rw [← List.length_append] at hmeets
  by_cases hrule : IsRule b
  · obtain ⟨q, children, ht, -, -⟩ := Tree.ofText_of_isRule hrule
    rw [ht, h.aligned.ofText (fun k e he => (hmeets k e he).mp) ht]
  · obtain ⟨r, hr, hends⟩ := Rejection.exists_ends hrule
    have hnot : ¬ IsRule (a ++ b) := by rwa [← h.aligned.isRule_iff hmeets]
    rw [hr, Rejection.ofText_eq_error hnot (h.ends hends)]

end BlankLines

end InFront

end Cddl

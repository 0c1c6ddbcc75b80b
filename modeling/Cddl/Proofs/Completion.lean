import Cddl.Proofs.Decoding
import Cddl.Service.Completion

/-!
Which table completes a word. The character in front of the cursor is read from the whole text, but
only the cursor's own line decides: where the cursor is at the beginning of its line the character in
front is a line feed, or there is none.
-/
namespace Cddl

variable {text line front rest : List Char} {c : Char} {n o k : Nat} {units : Int} {p : Position}

/-! ### Lines -/

namespace Position

theorem splitOn_line : ('\n' :: rest).splitOn '\n' = [] :: rest.splitOn '\n' := by
  simp [List.splitOn, List.splitOnP_cons_eq_if_modifyHead]

theorem splitOn_cons (hc : c ≠ '\n') :
    (c :: rest).splitOn '\n' = (rest.splitOn '\n').modifyHead (c :: ·) := by
  simp [List.splitOn, List.splitOnP_cons_eq_if_modifyHead, hc]

/-- There is one line more than there are line feeds. -/
theorem length_splitOn (text : List Char) : (text.splitOn '\n').length = text.count '\n' + 1 := by
  induction text with
  | nil => rfl
  | cons c rest ih =>
    by_cases hc : c = '\n'
    · rw [hc, splitOn_line, List.length_cons, ih, List.count_cons_self]
    · rw [splitOn_cons hc, List.length_modifyHead, ih, List.count_cons_of_ne hc]

theorem column_of_nonpos (h : units ≤ 0) : column text units = 0 := by
  cases text with
  | nil => rfl
  | cons c rest => rw [column, if_pos (.inr h)]

/-- What stands in front of a column is on the line that begins with the text. -/
theorem exists_line_of_column (text : List Char) (units : Int) :
    ∃ line, (text.splitOn '\n')[0]? = some line ∧
      text.take (column text units) = line.take (column line units) := by
  fun_induction column text units with
  | case1 units => exact ⟨[], rfl, rfl⟩
  | case2 c rest units hstop =>
    rcases hstop with rfl | hle
    · exact ⟨[], by rw [splitOn_line, List.getElem?_cons_zero], rfl⟩
    · obtain ⟨line, lines, hlines⟩ :=
        List.exists_cons_of_ne_nil (List.splitOn_ne_nil '\n' (c :: rest))
      exact ⟨line, by rw [hlines, List.getElem?_cons_zero], by rw [column_of_nonpos hle]; rfl⟩
  | case3 c rest units hgo ih =>
    obtain ⟨hc, hunits⟩ := not_or.mp hgo
    obtain ⟨line, hline, htake⟩ := ih
    refine ⟨c :: line, ?_, ?_⟩
    · rw [splitOn_cons hc, List.getElem?_modifyHead_zero, hline, Option.map_some]
    · rw [column, if_neg hgo, List.take_succ_cons, List.take_succ_cons, htake]

/-- A text that ends with a line feed still does so behind another character. -/
theorem getLast?_cons_eq_line (h : ∀ d, front.getLast? = some d → d = '\n')
    (hc : c = '\n' ∨ front ≠ []) : ∀ d, (c :: front).getLast? = some d → d = '\n' := by
  intro d hd
  rw [List.getLast?_cons, Option.some.injEq] at hd
  cases hfront : front.getLast? with
  | none =>
    have hline : c = '\n' := hc.resolve_right fun hne => hne (List.getLast?_eq_none_iff.mp hfront)
    rw [← hd, hfront, Option.getD_none, hline]
  | some e => rw [← hd, hfront, Option.getD_some, h e hfront]

/-- What stands in front of a position is a text that ends with a line feed or is empty, and what
stands in front of the column on the line. -/
theorem exists_line (h : below text n units = some o) :
    ∃ line front, (text.splitOn '\n')[n]? = some line ∧
      text.take o = front ++ line.take (column line units) ∧ front.count '\n' = n ∧
      ∀ c, front.getLast? = some c → c = '\n' := by
  fun_induction below text n units generalizing o with
  | case1 text units =>
    obtain ⟨line, hline, htake⟩ := exists_line_of_column text units
    obtain rfl := Option.some.inj h
    exact ⟨line, [], hline, htake, rfl, by simp⟩
  | case2 => contradiction
  | case3 c rest n units ih =>
    obtain ⟨k, hk, rfl⟩ := Option.map_eq_some_iff.mp h
    obtain ⟨line, front, hline, htake, hcount, hlast⟩ := ih hk
    have htake' : (c :: rest).take (k + 1) = c :: front ++ line.take (column line units) := by
      rw [List.take_succ_cons, htake, List.cons_append]
    by_cases hc : c = '\n'
    · subst hc
      rw [if_pos rfl] at hline hcount
      refine ⟨line, '\n' :: front, ?_, htake', by rw [List.count_cons_self, hcount],
        getLast?_cons_eq_line hlast (.inl rfl)⟩
      rw [splitOn_line, List.getElem?_cons_succ, hline]
    · rw [if_neg hc] at hline hcount
      -- a line feed is passed behind `c`
      have hne : front ≠ [] := by
        rintro rfl
        contradiction
      refine ⟨line, c :: front, ?_, htake', by rw [List.count_cons_of_ne hc, hcount],
        getLast?_cons_eq_line hlast (.inr hne)⟩
      rw [splitOn_cons hc, List.getElem?_modifyHead_succ, hline]

end Position

namespace Completion

namespace Context

theorem detect_of_toOffset? (h : p.toOffset? text = some o) (hp : 0 < p.character)
    (ho : o ≤ text.length) : detect text p = .control ↔ (text.take o).getLast? = some '.' := by
  rw [detect, if_neg (Int.not_le.mpr hp), h]
  cases o with
  | zero => simp
  | succ n =>
    have hlast : (text.take (n + 1)).getLast? = text[n]? := by
      rw [List.getLast?_take, if_neg (Nat.succ_ne_zero n), Nat.add_sub_cancel,
        List.getElem?_eq_getElem ho, Option.some_or]
    rw [hlast]
    by_cases hpoint : text[n]? = some '.'
    · simp [hpoint]
    · simp [hpoint]

/-- The line feeds of other lines are no points. -/
theorem getLast?_behind_lines {l : List Char} (h : ∀ c, front.getLast? = some c → c = '\n') :
    (front ++ l).getLast? = some '.' ↔ l.getLast? = some '.' := by
  rw [List.getLast?_append]
  cases l.getLast? with
  | none =>
    rw [Option.none_or]
    exact ⟨fun hfront => absurd (h '.' hfront) (by decide), fun hnone => by contradiction⟩
  | some c => rw [Option.some_or]

/-- On a line that exists, the characters of the line in front of the cursor decide. -/
theorem exists_line_of_toOffset? (h : p.toOffset? text = some o) (hp : 0 < p.character) :
    0 ≤ p.line ∧ ∃ line, (text.splitOn '\n')[p.line.toNat]? = some line ∧
      (detect text p = .control ↔
        (line.take (Position.column line p.character)).getLast? = some '.') := by
  have hnonneg : ¬ (p.line < 0 ∨ p.character < 0) := fun hneg => by
    rw [Position.toOffset?, if_pos hneg] at h
    contradiction
  have hbelow := h
  rw [Position.toOffset?, if_neg hnonneg] at hbelow
  obtain ⟨line, front, hline, htake, -, hfront⟩ := Position.exists_line hbelow
  have ho : o ≤ text.length := (Position.denotes_below hbelow).mem_onLine.1
  refine ⟨by omega, line, hline, ?_⟩
  rw [detect_of_toOffset? h hp ho, htake, getLast?_behind_lines hfront]

theorem not_line_of_toOffset? (h : p.toOffset? text = none) (hline : 0 ≤ p.line)
    (hp : 0 < p.character) : (text.splitOn '\n')[p.line.toNat]? = none := by
  rw [Position.toOffset?, if_neg (by omega), Position.below_eq_none_iff] at h
  rw [List.getElem?_eq_none_iff, Position.length_splitOn]
  exact h

theorem detect_eq_control_iff : detect text p = .control ↔
    0 ≤ p.line ∧ 0 < p.character ∧ ∃ line, (text.splitOn '\n')[p.line.toNat]? = some line ∧
      line ≠ [] ∧ ∃ k, Position.Denotes line ⟨0, p.character⟩ k ∧
        (line.take k).getLast? = some '.' := by
  by_cases hp : 0 < p.character
  · cases h : p.toOffset? text with
    | none =>
      have hprelude : detect text p = .prelude := by rw [detect, if_neg (Int.not_le.mpr hp), h]
      simp only [hprelude, reduceCtorEq, false_iff]
      rintro ⟨hnonneg, -, line, hline, -⟩
      rw [not_line_of_toOffset? h hnonneg hp] at hline
      contradiction
    | some o =>
      obtain ⟨hnonneg, line, hline, hiff⟩ := exists_line_of_toOffset? h hp
      have hcolumn := Position.denotes_column line p.character
      rw [hiff]
      constructor
      · intro hlast
        have hne : line ≠ [] := by
          rintro rfl
          simp at hlast
        exact ⟨hnonneg, hp, line, hline, hne, _, hcolumn, hlast⟩
      · rintro ⟨-, -, line', hline', -, k, hk, hlast⟩
        obtain rfl := Option.some.inj (hline.symm.trans hline')
        rwa [hcolumn.unique hk]
  · have hprelude : detect text p = .prelude := by rw [detect, if_pos (Int.not_lt.mp hp)]
    simp [hprelude, hp]

theorem eq_of_control_iff {a b : Context} (h : a = .control ↔ b = .control) : a = b := by
  cases a <;> cases b <;> simp_all

/-- The completion context looks at the character in front of the cursor on its own line and at nothing
else. Control operators are called for if and only if the line exists, the cursor is not at its
beginning, and the last character in front of the cursor is a point; a column past the end of the line
means its end, and one inside a character the place behind it. A text that agrees on this line has the
same context. -/
theorem detect_own_line (text : List Char) (p : Position) :
    (detect text p = .control ↔
      0 ≤ p.line ∧ 0 < p.character ∧ ∃ line, (text.splitOn '\n')[p.line.toNat]? = some line ∧
        line ≠ [] ∧ ∃ k, Position.Denotes line ⟨0, p.character⟩ k ∧
          (line.take k).getLast? = some '.') ∧
    ∀ other, (other.splitOn '\n')[p.line.toNat]? = (text.splitOn '\n')[p.line.toNat]? →
      detect other p = detect text p := by
  refine ⟨detect_eq_control_iff, fun other hother => ?_⟩
  apply eq_of_control_iff
  rw [detect_eq_control_iff, detect_eq_control_iff, hother]

/-- Points end the first two lines, and the third one is empty. -/
def pointedText : List Char := ['a', '.', '\n', '😀', '.', '\n']

/-- Behind the point of the second line, where another text with this line has the same context, and
at the empty line below it. -/
theorem detect_own_line_pointed :
    (['\n', '😀', '.'].splitOn '\n')[1]? = (pointedText.splitOn '\n')[1]? ∧
    Context.detect pointedText ⟨1, 3⟩ = .control ∧
    Context.detect ['\n', '😀', '.'] ⟨1, 3⟩ = Context.detect pointedText ⟨1, 3⟩ ∧
    Context.detect pointedText ⟨2, 7⟩ ≠ .control := by
  have hagree : (['\n', '😀', '.'].splitOn '\n')[1]? = (pointedText.splitOn '\n')[1]? := by decide
  refine ⟨hagree, by decide, (detect_own_line pointedText ⟨1, 3⟩).2 _ hagree, fun hcontrol => ?_⟩
  obtain ⟨-, -, line, hline, hne, -⟩ := (detect_own_line pointedText ⟨2, 7⟩).1.mp hcontrol
  exact hne (Option.some.inj hline).symm

end Context

end Completion

end Cddl

import Mathlib.Algebra.GroupWithZero.Nat
import Mathlib.Data.List.DropRight
import Mathlib.Order.Bounds.Basic
import Cddl.Proofs.Position

/-!
Which offset a position means. Lines and columns are counted here without regard to how positions
are computed: an offset is on the line that as many line feeds precede, in the column that the UTF-16
units behind the last of them make up. A position means the first offset of its line that is not left
of its column, and the end of the line if there is none.
-/
namespace Cddl

namespace Position

/-- The number of line feeds in front of an offset. -/
def lineOf (text : List Char) (offset : Nat) : Nat := (text.take offset).count '\n'

/-- The UTF-16 units between the beginning of its line and an offset. -/
def columnOf (text : List Char) (offset : Nat) : Nat :=
  (((text.take offset).rtakeWhile (· != '\n')).map utf16Width).sum

/-- The offsets of a line, its end included. -/
def onLine (text : List Char) (n : Int) : Set Nat := {o | o ≤ text.length ∧ lineOf text o = n}

/-- The offset is the first one of the line that is not left of the column, or the end of the line
where all of it is left of the column. -/
def Denotes (text : List Char) (p : Position) (offset : Nat) : Prop :=
  IsLeast {o ∈ onLine text p.line | p.character ≤ columnOf text o} offset ∨
    IsGreatest (onLine text p.line) offset ∧ ∀ o ∈ onLine text p.line, columnOf text o < p.character

variable {text rest : List Char} {p : Position} {c : Char} {n o k : Nat} {units : Int}

/-! ### Lines and columns -/

theorem behind_eq (text : List Char) :
    behind text = ⟨text.count '\n', ((text.rtakeWhile (· != '\n')).map utf16Width).sum⟩ := by
  induction text using List.reverseRecOn with
  | nil => rfl
  | append_singleton text c ih =>
    rw [behind_append, ih, List.foldl_cons, List.foldl_nil, step, List.rtakeWhile_concat]
    by_cases hc : c = '\n'
    · simp [hc]
    · simp [hc]

/-- The position of an offset of the text is its line and its column. -/
theorem ofOffset_eq (text : List Char) (i : Int) :
    ofOffset text i = ⟨lineOf text i.toNat, columnOf text i.toNat⟩ := behind_eq _

theorem lineOf_eq (text : List Char) (o : Nat) : (lineOf text o : Int) = (behind (text.take o)).line := by
  rw [behind_eq, lineOf]

theorem columnOf_eq (text : List Char) (o : Nat) :
    (columnOf text o : Int) = (behind (text.take o)).character := by
  rw [behind_eq, columnOf]

theorem lineOf_succ_line : lineOf ('\n' :: rest) (o + 1) = lineOf rest o + 1 := by
  simp [lineOf]

theorem lineOf_succ (hc : c ≠ '\n') : lineOf (c :: rest) (o + 1) = lineOf rest o := by
  simp [lineOf, hc]

theorem columnOf_succ_line : columnOf ('\n' :: rest) (o + 1) = columnOf rest o := by
  have h := columnOf_eq ('\n' :: rest) (o + 1)
  rw [List.take_succ_cons, behind_line, ← columnOf_eq] at h
  exact Int.ofNat_inj.mp h

/-- A character counts for the columns of its own line only. -/
theorem columnOf_succ (hc : c ≠ '\n') : columnOf (c :: rest) (o + 1) =
    if lineOf rest o = 0 then utf16Width c + columnOf rest o else columnOf rest o := by
  have h := columnOf_eq (c :: rest) (o + 1)
  have hline := lineOf_eq rest o
  rw [List.take_succ_cons, behind_of_ne hc, ← hline, ← columnOf_eq] at h
  by_cases hzero : lineOf rest o = 0
  · rw [if_pos (by omega)] at h
    rw [if_pos hzero]
    simp only at h
    omega
  · rw [if_neg (by omega), ← columnOf_eq] at h
    rw [if_neg hzero]
    exact Int.ofNat_inj.mp h

theorem lineOf_le_count : lineOf text o ≤ text.count '\n' :=
  (List.take_sublist o text).count_le '\n'

/-! ### The offset that a position means -/

theorem Denotes.mem_onLine (h : Denotes text p o) : o ∈ onLine text p.line := by
  rcases h with hleast | ⟨hgreatest, -⟩
  · exact hleast.1.1
  · exact hgreatest.1

theorem Denotes.unique (h : Denotes text p o) (h' : Denotes text p k) : o = k := by
  rcases h with hleast | ⟨hgreatest, hleft⟩
  · rcases h' with hleast' | ⟨-, hleft'⟩
    · exact hleast.unique hleast'
    · exact absurd hleast.1.2 (Int.not_le.mpr (hleft' o hleast.1.1))
  · rcases h' with hleast' | ⟨hgreatest', -⟩
    · exact absurd hleast'.1.2 (Int.not_le.mpr (hleft k hleast'.1.1))
    · exact hgreatest.unique hgreatest'

/-- What a position means in the rest of a text it means in the text: the same line may be a higher
one there, and each offset of it stands one further behind, in a column that is larger by `w`. -/
theorem Denotes.cons {q : Position} {w : Nat} (h : Denotes rest q o)
    (hline : ∀ k, k + 1 ∈ onLine (c :: rest) p.line ↔ k ∈ onLine rest q.line)
    (hcolumn : ∀ k ∈ onLine rest q.line, columnOf (c :: rest) (k + 1) = columnOf rest k + w)
    (hunits : p.character = q.character + w)
    (hfront : 0 ∈ onLine (c :: rest) p.line → columnOf (c :: rest) 0 < p.character) :
    Denotes (c :: rest) p (o + 1) := by
  rcases h with ⟨⟨hmem, hreach⟩, hleast⟩ | ⟨⟨hmem, hgreatest⟩, hleft⟩
  · refine .inl ⟨⟨(hline o).mpr hmem, ?_⟩, ?_⟩
    · rw [hcolumn o hmem]
      omega
    · rintro (_ | k) ⟨hk, hreachk⟩
      · exact absurd hreachk (Int.not_le.mpr (hfront hk))
      · have hk' := (hline k).mp hk
        rw [hcolumn k hk'] at hreachk
        exact Nat.succ_le_succ (hleast ⟨hk', by omega⟩)
  · refine .inr ⟨⟨(hline o).mpr hmem, ?_⟩, ?_⟩
    · rintro (_ | k) hk
      · exact Nat.zero_le _
      · exact Nat.succ_le_succ (hgreatest ((hline k).mp hk))
    · rintro (_ | k) hk
      · exact hfront hk
      · have hk' := (hline k).mp hk
        have hlt := hleft k hk'
        rw [hcolumn k hk']
        omega

theorem mem_onLine_line : k + 1 ∈ onLine ('\n' :: rest) (n + 1 : Nat) ↔ k ∈ onLine rest n := by
  simp only [onLine, Set.mem_ofPred_eq, List.length_cons, lineOf_succ_line]
  omega

theorem mem_onLine_succ (hc : c ≠ '\n') {m : Int} :
    k + 1 ∈ onLine (c :: rest) m ↔ k ∈ onLine rest m := by
  simp only [onLine, Set.mem_ofPred_eq, List.length_cons, lineOf_succ hc]
  omega

theorem zero_mem_onLine (text : List Char) (n : Nat) : 0 ∈ onLine text n ↔ n = 0 := by
  simp [onLine, lineOf, eq_comm]

theorem columnOf_zero (text : List Char) : columnOf text 0 = 0 := rfl

/-- At the beginning of a line the search stops if the column is reached. -/
theorem denotes_of_nonpos (h : units ≤ 0) : Denotes text ⟨0, units⟩ 0 := by
  refine .inl ⟨⟨(zero_mem_onLine text 0).mpr rfl, ?_⟩, fun k _ => Nat.zero_le k⟩
  rw [columnOf_zero]
  exact h

/-- A line without characters ends where it begins. -/
theorem denotes_of_empty (hempty : ∀ k, k + 1 ∉ onLine text 0) : Denotes text ⟨0, units⟩ 0 := by
  have hzero : ∀ k ∈ onLine text 0, k = 0 := by
    rintro (_ | k) hk
    · rfl
    · exact absurd hk (hempty k)
  rcases le_or_gt units 0 with hle | hlt
  · exact denotes_of_nonpos hle
  · refine .inr ⟨⟨(zero_mem_onLine text 0).mpr rfl, fun k hk => Nat.le_of_eq (hzero k hk)⟩, ?_⟩
    intro k hk
    rw [hzero k hk, columnOf_zero]
    exact hlt

theorem denotes_column (text : List Char) (units : Int) :
    Denotes text ⟨0, units⟩ (column text units) := by
  fun_induction column text units with
  | case1 units =>
    refine denotes_of_empty fun k hk => ?_
    exact absurd hk.1 (Nat.not_succ_le_zero k)
  | case2 c rest units hstop =>
    rcases hstop with rfl | hle
    · refine denotes_of_empty fun k hk => ?_
      have hline : ((lineOf ('\n' :: rest) (k + 1) : Nat) : Int) = 0 := hk.2
      rw [lineOf_succ_line] at hline
      omega
    · exact denotes_of_nonpos hle
  | case3 c rest units hgo ih =>
    obtain ⟨hc, hunits⟩ := not_or.mp hgo
    refine ih.cons (w := utf16Width c) (fun k => mem_onLine_succ hc) ?_ (by simp) ?_
    · intro k hk
      have hzero : lineOf rest k = 0 := Int.ofNat_eq_zero.mp hk.2
      rw [columnOf_succ hc, if_pos hzero, Nat.add_comm]
    · intro _
      rw [columnOf_zero]
      exact Int.not_le.mp hunits

theorem denotes_below (h : below text n units = some o) : Denotes text ⟨n, units⟩ o := by
  fun_induction below text n units generalizing o with
  | case1 text units =>
    cases h
    exact denotes_column text units
  | case2 => contradiction
  | case3 c rest line units ih =>
    obtain ⟨k, hk, rfl⟩ := Option.map_eq_some_iff.mp h
    have hfront : 0 ∈ onLine (c :: rest) (line + 1 : Nat) → columnOf (c :: rest) 0 < units := by
      intro hmem
      exact absurd ((zero_mem_onLine _ _).mp hmem) (Nat.succ_ne_zero line)
    by_cases hc : c = '\n'
    · subst hc
      rw [if_pos rfl] at hk ih
      refine (ih hk).cons (w := 0) (fun k => mem_onLine_line) ?_ (by simp) hfront
      exact fun k _ => columnOf_succ_line
    · rw [if_neg hc] at hk ih
      refine (ih hk).cons (w := 0) (fun k => mem_onLine_succ hc) ?_ (by simp) hfront
      intro k hmem
      have hlower : lineOf rest k ≠ 0 := by
        have hline : (lineOf rest k : Int) = (line + 1 : Nat) := hmem.2
        omega
      rw [columnOf_succ hc, if_neg hlower, Nat.add_zero]

theorem below_eq_none_iff : below text n units = none ↔ text.count '\n' < n := by
  fun_induction below text n units with
  | case1 => simp
  | case2 => simp
  | case3 c rest line units ih =>
    rw [Option.map_eq_none_iff, ih]
    by_cases hc : c = '\n'
    · simp [hc]
    · simp [hc]

/-- A position is decoded exactly. It has no offset if and only if it has a negative part or its line
is not in the text; otherwise its offset is the first one of its line that is not left of its column,
or the end of the line where all of it is left of the column. -/
theorem toOffset?_iff_denotes (text : List Char) (p : Position) :
    (toOffset? text p = none ↔ p.line < 0 ∨ p.character < 0 ∨ text.count '\n' < p.line) ∧
    ∀ o, toOffset? text p = some o ↔ 0 ≤ p.line ∧ 0 ≤ p.character ∧ Denotes text p o := by
  have hline : 0 ≤ p.line → (p.line.toNat : Int) = p.line := Int.toNat_of_nonneg
  have hnone : toOffset? text p = none ↔
      p.line < 0 ∨ p.character < 0 ∨ text.count '\n' < p.line := by
    unfold toOffset?
    split
    next hneg => simp [← or_assoc, hneg]
    next hneg =>
      rw [below_eq_none_iff]
      omega
  have hsome : ∀ o, toOffset? text p = some o →
      0 ≤ p.line ∧ 0 ≤ p.character ∧ Denotes text p o := by
    intro o h
    unfold toOffset? at h
    split at h
    · contradiction
    next hneg =>
      have hdenotes := denotes_below h
      rw [hline (by omega)] at hdenotes
      exact ⟨by omega, by omega, hdenotes⟩
  refine ⟨hnone, fun o => ⟨hsome o, ?_⟩⟩
  rintro ⟨hlower, hcharacter, hdenotes⟩
  have hcount := @lineOf_le_count text o
  have hon : (lineOf text o : Int) = p.line := hdenotes.mem_onLine.2
  cases hk : toOffset? text p with
  | none =>
    have hmissing := hnone.mp hk
    omega
  | some k => rw [(hsome k hk).2.2.unique hdenotes]

/-- A column in the middle of a character of two units means the offset behind it, and a column past
the end of a line the end of that line. -/
example : toOffset? ['a', '😀', '\n', 'b'] ⟨0, 2⟩ = some 2 ∧
    toOffset? ['a', '😀', '\n', 'b'] ⟨0, 9⟩ = some 2 ∧ toOffset? ['a', '😀', '\n', 'b'] ⟨2, 0⟩ = none := by
  decide

/-- Offsets and positions are in one order, and each position of the text leads back to its offset;
an offset outside the text is moved to its nearest end. -/
theorem ofOffset_embeds (text : List Char) :
    (∀ i : Int, (toOffset? text (ofOffset text i)).map Nat.cast =
      some (max 0 (min i text.length))) ∧
    ∀ i j : Int, 0 ≤ i → i < j → j ≤ text.length → ofOffset text i < ofOffset text j := by
  refine ⟨fun i => ?_, fun i j => ofOffset_strictMono⟩
  rw [toOffset?_ofOffset, Option.map_some, Option.some.injEq]
  omega

theorem ofOffset_embeds_astral :
    ((0 : Int) ≤ 1 ∧ (1 : Int) < 2 ∧ (2 : Int) ≤ ['a', '😀', '\n', 'b'].length) ∧
      ofOffset ['a', '😀', '\n', 'b'] 1 < ofOffset ['a', '😀', '\n', 'b'] 2 :=
  ⟨by decide, (ofOffset_embeds ['a', '😀', '\n', 'b']).2 1 2 (by decide) (by decide) (by decide)⟩

end Position

end Cddl

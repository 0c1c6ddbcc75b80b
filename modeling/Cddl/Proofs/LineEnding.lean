import Mathlib.Order.Monotone.Basic
import Cddl.Proofs.Mode
import Cddl.Proofs.Seam

/-!
Texts whose lines end with a carriage return as well. A reader that stops in front of a line feed takes
the carriage return with it, one that stops behind a line feed takes both, and every other one does not
see the difference. So two readers side by side in the two texts stay beside each other: they stand at
offsets that correspond, or one of them at a line feed and the other between the two characters that
stand for it.
-/
namespace Cddl

/-- The text with a carriage return in front of every line feed. -/
def crlf (text : List Char) : List Char :=
  text.flatMap fun c => if c = '\n' then ['\r', '\n'] else [c]

/-- The offset in the text with carriage returns that corresponds to an offset in the text. -/
def crlfAt (text : List Char) (i : Nat) : Nat := i + (text.take i).count '\n'

variable {text l rest : List Char} {c : Char} {i j n m u : Nat}

@[simp] theorem crlf_nil : crlf [] = [] := rfl

@[simp] theorem crlf_line : crlf ('\n' :: l) = '\r' :: '\n' :: crlf l := rfl

theorem crlf_cons (hc : c ≠ '\n') : crlf (c :: l) = c :: crlf l := by
  rw [crlf, List.flatMap_cons, if_neg hc]
  rfl

theorem crlf_append : crlf (l ++ rest) = crlf l ++ crlf rest := List.flatMap_append

theorem crlf_eq_self (h : '\n' ∉ l) : crlf l = l := by
  induction l with
  | nil => rfl
  | cons c l ih =>
    obtain ⟨hc, hl⟩ := not_or.mp (fun hor => h (List.mem_cons.mpr hor))
    rw [crlf_cons (Ne.symm hc), ih hl]

@[simp] theorem crlfAt_zero : crlfAt text 0 = 0 := rfl

theorem crlfAt_line : crlfAt ('\n' :: l) (i + 1) = crlfAt l i + 2 := by
  rw [crlfAt, crlfAt, List.take_succ_cons, List.count_cons_self]
  omega

theorem crlfAt_cons (hc : c ≠ '\n') : crlfAt (c :: l) (i + 1) = crlfAt l i + 1 := by
  rw [crlfAt, crlfAt, List.take_succ_cons, List.count_cons_of_ne hc]
  omega

theorem crlfAt_add : crlfAt text (i + n) = crlfAt text i + crlfAt (text.drop i) n := by
  rw [crlfAt, crlfAt, crlfAt, List.take_add, List.count_append]
  omega

theorem crlfAt_take (h : j ≤ i) : crlfAt (text.take i) j = crlfAt text j := by
  rw [crlfAt, List.take_take, Nat.min_eq_left h, crlfAt]

theorem crlfAt_eq_self (h : '\n' ∉ text.take i) : crlfAt text i = i := by
  rw [crlfAt, List.count_eq_zero_of_not_mem h, Nat.add_zero]

theorem strictMono_crlfAt (text : List Char) : StrictMono (crlfAt text) := by
  apply strictMono_nat_of_lt_succ
  intro i
  rw [crlfAt_add]
  have hone : crlfAt (text.drop i) 1 = 1 + ((text.drop i).take 1).count '\n' := rfl
  omega

theorem le_crlfAt (text : List Char) (i : Nat) : i ≤ crlfAt text i := Nat.le_add_right _ _

/-- A corresponding offset divides the text with carriage returns as the offset divides the text. -/
theorem take_drop_crlf : (crlf text).take (crlfAt text i) = crlf (text.take i) ∧
    (crlf text).drop (crlfAt text i) = crlf (text.drop i) := by
  induction text generalizing i with
  | nil => simp
  | cons c text ih =>
    cases i with
    | zero => simp
    | succ i =>
      obtain ⟨htake, hdrop⟩ := ih (i := i)
      by_cases hc : c = '\n'
      · subst hc
        simp [crlfAt_line, htake, hdrop]
      · rw [crlf_cons hc, crlfAt_cons hc, List.take_succ_cons, List.drop_succ_cons,
          List.take_succ_cons, List.drop_succ_cons, crlf_cons hc, htake, hdrop]
        exact ⟨rfl, rfl⟩

theorem take_crlf : (crlf text).take (crlfAt text i) = crlf (text.take i) := take_drop_crlf.1

theorem drop_crlf : (crlf text).drop (crlfAt text i) = crlf (text.drop i) := take_drop_crlf.2

theorem length_crlf (text : List Char) : (crlf text).length = crlfAt text text.length := by
  induction text with
  | nil => rfl
  | cons c text ih =>
    by_cases hc : c = '\n'
    · subst hc
      rw [crlf_line, List.length_cons, List.length_cons, List.length_cons, crlfAt_line, ih]
    · rw [crlf_cons hc, List.length_cons, List.length_cons, crlfAt_cons hc, ih]

theorem getElem?_crlf (h : text[i]? = some c) (hc : c ≠ '\n') :
    (crlf text)[crlfAt text i]? = some c := by
  rw [← List.head?_drop] at h ⊢
  obtain ⟨rest, hrest⟩ := List.head?_eq_some_iff.mp h
  rw [drop_crlf, hrest, crlf_cons hc, List.head?_cons]

theorem drop_crlf_line (h : text[i]? = some '\n') :
    (crlf text).drop (crlfAt text i) = '\r' :: '\n' :: crlf (text.drop (i + 1)) := by
  obtain ⟨hi, hget⟩ := List.getElem?_eq_some_iff.mp h
  rw [drop_crlf, List.drop_eq_getElem_cons hi, hget, crlf_line]

theorem getElem?_crlf_return (h : text[i]? = some '\n') :
    (crlf text)[crlfAt text i]? = some '\r' := by
  rw [← List.head?_drop, drop_crlf_line h, List.head?_cons]

theorem getElem?_crlf_line (h : text[i]? = some '\n') :
    (crlf text)[crlfAt text i + 1]? = some '\n' := by
  rw [← List.getElem?_drop, drop_crlf_line h]
  rfl

theorem crlfAt_succ_line (h : text[i]? = some '\n') : crlfAt text (i + 1) = crlfAt text i + 2 := by
  obtain ⟨hi, hget⟩ := List.getElem?_eq_some_iff.mp h
  rw [crlfAt_add, List.drop_eq_getElem_cons hi, hget, crlfAt_line, crlfAt_zero]

theorem crlfAt_succ (h : text[i]? ≠ some '\n') : crlfAt text (i + 1) = crlfAt text i + 1 := by
  rw [crlfAt_add]
  congr 1
  cases hdrop : text.drop i with
  | nil => rfl
  | cons c rest =>
    have hc : c ≠ '\n' := by
      rintro rfl
      rw [← List.head?_drop, hdrop] at h
      exact h rfl
    rw [crlfAt_cons hc, crlfAt_zero]

/-- What the two texts begin with alike. -/
theorem exists_of_crlf_append {front back : List Char} (hfront : ∀ c ∈ front, c ≠ '\n' ∧ c ≠ '\r')
    (h : crlf l = front ++ back) : ∃ rest, l = front ++ rest ∧ crlf rest = back := by
  induction front generalizing l with
  | nil => exact ⟨l, rfl, h⟩
  | cons c front ih =>
    obtain ⟨hline, hreturn⟩ := hfront c List.mem_cons_self
    cases l with
    | nil => contradiction
    | cons d l =>
      have hd : d ≠ '\n' := by
        rintro rfl
        exact hreturn (List.cons.inj h).1.symm
      rw [crlf_cons hd] at h
      obtain ⟨rfl, hrest⟩ := List.cons.inj h
      obtain ⟨rest, rfl, hback⟩ := ih (fun e he => hfront e (List.mem_cons_of_mem _ he)) hrest
      exact ⟨rest, rfl, hback⟩

/-! ### Side by side -/

/-- An offset in the text with carriage returns corresponds to one in the text, or it stands behind the
carriage return where the other stands at a line feed. -/
inductive Beside (text : List Char) (i : Nat) : Nat → Prop where
  | same : Beside text i (crlfAt text i)
  | inside : text[i]? = some '\n' → Beside text i (crlfAt text i + 1)

namespace Beside

theorem zero : Beside text 0 0 := .same

theorem cons (h : Beside l n m) (hc : c ≠ '\n') : Beside (c :: l) (n + 1) (m + 1) := by
  cases h with
  | same =>
    rw [← crlfAt_cons hc]
    exact .same
  | inside hline =>
    rw [← crlfAt_cons hc]
    exact .inside hline

theorem line (h : Beside l n m) : Beside ('\n' :: l) (n + 1) (m + 2) := by
  cases h with
  | same =>
    rw [← crlfAt_line]
    exact .same
  | inside hline =>
    rw [Nat.add_right_comm, ← crlfAt_line]
    exact .inside hline

theorem add (h : Beside (text.drop i) n m) : Beside text (i + n) (crlfAt text i + m) := by
  cases h with
  | same =>
    rw [← crlfAt_add]
    exact .same
  | inside hline =>
    rw [← Nat.add_assoc, ← crlfAt_add]
    refine .inside ?_
    rwa [← List.getElem?_drop]

theorem eq_of_ne (h : Beside text i u) (hline : text[i]? ≠ some '\n') : u = crlfAt text i := by
  cases h with
  | same => rfl
  | inside hget => exact absurd hget hline

theorem le (h : Beside text i u) : crlfAt text i ≤ u ∧ u ≤ crlfAt text i + 1 ∧
    (u = crlfAt text i ∨ u < crlfAt text (i + 1)) := by
  cases h with
  | same => exact ⟨Nat.le_refl _, Nat.le_succ _, .inl rfl⟩
  | inside hget =>
    rw [crlfAt_succ_line hget]
    exact ⟨Nat.le_succ _, Nat.le_refl _, .inr (Nat.lt_succ_self _)⟩

end Beside

/-- Every offset of the text with carriage returns is beside one of the text. -/
theorem exists_beside (text : List Char) (h : u ≤ (crlf text).length) :
    ∃ i, i ≤ text.length ∧ Beside text i u := by
  induction text generalizing u with
  | nil =>
    obtain rfl : u = 0 := Nat.le_zero.mp h
    exact ⟨0, Nat.le_refl 0, .zero⟩
  | cons c text ih =>
    by_cases hc : c = '\n'
    · subst hc
      rw [crlf_line] at h
      match u with
      | 0 => exact ⟨0, Nat.zero_le _, .zero⟩
      | 1 => exact ⟨0, Nat.zero_le _, .inside rfl⟩
      | u + 2 =>
        obtain ⟨i, hi, hbeside⟩ := ih (Nat.le_of_add_le_add_right h)
        exact ⟨i + 1, Nat.succ_le_succ hi, hbeside.line⟩
    · rw [crlf_cons hc] at h
      cases u with
      | zero => exact ⟨0, Nat.zero_le _, .zero⟩
      | succ u =>
        obtain ⟨i, hi, hbeside⟩ := ih (Nat.le_of_succ_le_succ h)
        exact ⟨i + 1, Nat.succ_le_succ hi, hbeside.cons hc⟩

/-! ### Blanks and comments -/

namespace Lexeme

theorem run_spaces_crlf : run isSpace (crlf l) = crlfAt l (run isSpace l) := by
  induction l with
  | nil => rfl
  | cons c l ih =>
    by_cases hc : c = '\n'
    · subst hc
      rw [crlf_line, run_cons_pos rfl, run_cons_pos rfl, run_cons_pos rfl, crlfAt_line, ih]
    · rw [crlf_cons hc]
      by_cases hspace : isSpace c = true
      · rw [run_cons_pos hspace, run_cons_pos hspace, crlfAt_cons hc, ih]
      · rw [run_cons_neg hspace, run_cons_neg hspace, crlfAt_zero]

theorem run_comment_crlf : Beside l (run (· != '\n') l) (run (· != '\n') (crlf l)) := by
  induction l with
  | nil => exact .zero
  | cons c l ih =>
    by_cases hc : c = '\n'
    · subst hc
      exact .inside rfl
    · rw [crlf_cons hc, run_cons_pos (by simpa using hc), run_cons_pos (by simpa using hc)]
      exact ih.cons hc

theorem ignored?_cons {d : Char} (hd : d ≠ ';') : ignored? (d :: rest) = run? isSpace (d :: rest) := by
  apply ignored?_of_ne
  rintro r heq
  exact hd (List.cons.inj heq).1

/-- What is ignored in one text is ignored in the other, up to offsets beside each other. -/
theorem ignored?_crlf (h : ignored? l = some n) :
    ∃ m, ignored? (crlf l) = some m ∧ Beside l n m := by
  cases l with
  | nil => contradiction
  | cons c l =>
    by_cases hc : c = ';'
    · subst hc
      rw [ignored?, Option.some.injEq] at h
      subst h
      rw [crlf_cons (by decide), ignored?]
      exact ⟨_, rfl, run_comment_crlf.cons (by decide)⟩
    · rw [ignored?_cons hc, run?_eq_some_iff] at h
      obtain ⟨rfl, hpos⟩ := h
      refine ⟨crlfAt (c :: l) (run isSpace (c :: l)), ?_, .same⟩
      have hne : ∀ r, crlf (c :: l) ≠ ';' :: r := by
        intro r heq
        by_cases hline : c = '\n'
        · subst hline
          cases heq
        · rw [crlf_cons hline] at heq
          exact hc (List.cons.inj heq).1
      rw [ignored?_of_ne hne, run?_eq_some_iff, run_spaces_crlf]
      exact ⟨rfl, Nat.lt_of_lt_of_le hpos (le_crlfAt _ _)⟩

theorem ignored?_crlf_none (h : ignored? l = none) : ignored? (crlf l) = none := by
  cases l with
  | nil => rfl
  | cons c l =>
    by_cases hc : c = ';'
    · subst hc
      contradiction
    · rw [ignored?_cons hc, run?_eq_none_iff] at h
      have hline : c ≠ '\n' := by
        rintro rfl
        rw [run_cons_pos rfl] at h
        contradiction
      rw [crlf_cons hline, ignored?_cons hc, run?_eq_none_iff, ← crlf_cons hline, run_spaces_crlf, h,
        crlfAt_zero]

/-- Behind a carriage return the blanks go on. -/
theorem ignored?_inside : ignored? ('\n' :: crlf l) =
    some (crlfAt ('\n' :: l) (run isSpace ('\n' :: l)) - 1) := by
  rw [ignored?_cons (by decide), run?_eq_some_iff, run_cons_pos rfl, run_cons_pos rfl, crlfAt_line,
    run_spaces_crlf]
  exact ⟨rfl, Nat.succ_pos _⟩

theorem ignored?_line : ignored? ('\n' :: l) = some (run isSpace ('\n' :: l)) := by
  rw [ignored?_cons (by decide), run?_eq_some_iff, run_cons_pos rfl]
  exact ⟨rfl, Nat.succ_pos _⟩

/-- Readers beside each other ignore the same. -/
theorem ignored?_beside (hb : Beside text i u) (h : ignored? (text.drop i) = some n) :
    ∃ m, ignored? ((crlf text).drop u) = some m ∧ Beside text (i + n) (u + m) := by
  cases hb with
  | same =>
    obtain ⟨m, hm, hbeside⟩ := ignored?_crlf h
    rw [drop_crlf]
    exact ⟨m, hm, hbeside.add⟩
  | inside hline =>
    obtain ⟨hi, hget⟩ := List.getElem?_eq_some_iff.mp hline
    rw [List.drop_eq_getElem_cons hi, hget, ignored?_line, Option.some.injEq] at h
    subst h
    have hdrop := congrArg (List.drop 1) (drop_crlf_line hline)
    rw [List.drop_drop, List.drop_succ_cons, List.drop_zero] at hdrop
    refine ⟨_, by rw [hdrop, ignored?_inside], ?_⟩
    have hpos : 0 < crlfAt ('\n' :: text.drop (i + 1)) (run isSpace ('\n' :: text.drop (i + 1))) := by
      rw [run_cons_pos rfl, crlfAt_line]
      exact Nat.succ_pos _
    rw [Nat.add_assoc, Nat.add_sub_cancel' hpos]
    refine Beside.add ?_
    rw [List.drop_eq_getElem_cons hi, hget]
    exact .same

theorem ignored?_beside_none (hb : Beside text i u) (h : ignored? (text.drop i) = none) :
    ignored? ((crlf text).drop u) = none := by
  cases hb with
  | same =>
    rw [drop_crlf]
    exact ignored?_crlf_none h
  | inside hline =>
    obtain ⟨hi, hget⟩ := List.getElem?_eq_some_iff.mp hline
    rw [List.drop_eq_getElem_cons hi, hget, ignored?_line] at h
    contradiction

end Lexeme

theorem Ignored.crlf (h : Ignored text i j) (hb : Beside text i u) (hj : text[j]? ≠ some '\n') :
    Ignored (Cddl.crlf text) u (crlfAt text j) := by
  induction h generalizing u with
  | done i =>
    rw [hb.eq_of_ne hj]
    exact .done _
  | next hn _ ih =>
    obtain ⟨m, hm, hbeside⟩ := Lexeme.ignored?_beside hb hn
    exact .next hm (ih hbeside hj)

theorem Ignored.of_crlf (h : Ignored (Cddl.crlf text) u m) (hb : Beside text i u)
    (hm : m = crlfAt text j) : Ignored text i j := by
  induction h generalizing i with
  | done u =>
    subst hm
    obtain ⟨hle, -, heq | hlt⟩ := hb.le
    · rw [(strictMono_crlfAt text).injective heq]
      exact .done _
    · -- a place behind a carriage return corresponds to none
      have hij : i ≤ j := (strictMono_crlfAt text).le_iff_le.mp hle
      have hji : j < i + 1 := (strictMono_crlfAt text).lt_iff_lt.mp hlt
      obtain rfl : j = i := by omega
      exact .done _
  | next hn _ ih =>
    cases hi : Lexeme.ignored? (text.drop i) with
    | none =>
      rw [Lexeme.ignored?_beside_none hb hi] at hn
      contradiction
    | some k =>
      obtain ⟨l, hl, hbeside⟩ := Lexeme.ignored?_beside hb hi
      rw [hn] at hl
      cases hl
      exact .next hi (ih hbeside hm)

/-- Blanks lead to corresponding places, unless a line feed stands there. -/
theorem ignored_crlf_iff (hj : text[j]? ≠ some '\n') :
    Ignored text i j ↔ Ignored (crlf text) (crlfAt text i) (crlfAt text j) :=
  ⟨fun h => h.crlf .same hj, fun h => h.of_crlf .same rfl⟩

/-! ### Tokens -/

namespace Mode

def isEscape : Mode → Bool
  | escape _ => true
  | _ => false

/-- What is open in a mode, a comment or a literal, comes to its end in the text. -/
def closes : Mode → List Char → Bool
  | code, _ => true
  | _, [] => false
  | m, c :: rest => closes (m.step c) rest

/-- From a mode on no line feed stands behind a backslash in a literal that comes to its end. -/
def keepsLines : Mode → List Char → Bool
  | _, [] => true
  | m, c :: rest =>
    !(m.isEscape && c == '\n' && closes (m.step c) rest) && keepsLines (m.step c) rest

variable {m : Mode} {quote : Char}

theorem closes_of_after (h : after m (l.take n) = code) : closes m l = true := by
  induction l generalizing m n with
  | nil =>
    rw [List.take_nil] at h
    cases h
    rfl
  | cons c l ih =>
    cases n with
    | zero =>
      cases h
      rfl
    | succ n =>
      cases m with
      | code => rfl
      | comment => exact ih h
      | literal quote => exact ih h
      | escape quote => exact ih h

theorem closes_other (hc : c ≠ quote) (hesc : c ≠ '\\') :
    closes (literal quote) (c :: l) = closes (literal quote) l := by
  show closes (step (literal quote) c) l = _
  rw [step, if_neg hc, if_neg hesc]

/-- A literal comes to its end in both texts or in neither, whatever is escaped in it. -/
theorem closes_crlf (hq : quote = '"' ∨ quote = '\'') :
    closes (literal quote) (crlf l) = closes (literal quote) l ∧
      closes (escape quote) (crlf l) = closes (escape quote) l := by
  have hline : '\n' ≠ quote := by rcases hq with rfl | rfl <;> decide
  have hreturn : '\r' ≠ quote := by rcases hq with rfl | rfl <;> decide
  induction l with
  | nil => exact ⟨rfl, rfl⟩
  | cons c l ih =>
    obtain ⟨hliteral, hescape⟩ := ih
    by_cases hc : c = '\n'
    · subst hc
      have hopen : closes (literal quote) ('\n' :: crlf l) = closes (literal quote) l := by
        rw [closes_other hline (by decide), hliteral]
      constructor
      · rw [crlf_line, closes_other hreturn (by decide), hopen, closes_other hline (by decide)]
      · -- behind the backslash the carriage return is taken in place of the line feed
        exact hopen
    · rw [crlf_cons hc]
      refine ⟨?_, hliteral⟩
      by_cases hquote : c = quote
      · subst hquote
        simp only [closes, step, if_true]
      · by_cases hesc : c = '\\'
        · subst hesc
          simp only [closes, step, if_neg hquote, if_true]
          exact hescape
        · rw [closes_other hquote hesc, closes_other hquote hesc, hliteral]

theorem keepsLines_cons (h : keepsLines m (c :: l) = true) : keepsLines (m.step c) l = true :=
  (Bool.and_eq_true_iff.mp h).2

theorem keepsLines_drop (h : keepsLines m l = true) :
    keepsLines (after m (l.take n)) (l.drop n) = true := by
  induction n generalizing m l with
  | zero => exact h
  | succ n ih =>
    cases l with
    | nil => rfl
    | cons c l => exact ih (keepsLines_cons h)

theorem keepsLines_open (hq : quote = '"' ∨ quote = '\'')
    (h : keepsLines code (quote :: l) = true) : keepsLines (literal quote) l = true := by
  have hstep := keepsLines_cons h
  rcases hq with rfl | rfl
  · exact hstep
  · exact hstep

theorem keepsLines_escape (hesc : ¬ '\\' = quote)
    (h : keepsLines (literal quote) ('\\' :: c :: l) = true) :
    (c = '\n' → closes (literal quote) l = false) ∧ keepsLines (literal quote) l = true := by
  have hnext := keepsLines_cons h
  rw [step, if_neg hesc, if_pos rfl] at hnext
  refine ⟨?_, keepsLines_cons hnext⟩
  rintro rfl
  have hopen := (Bool.and_eq_true_iff.mp hnext).1
  simpa [isEscape, step] using hopen

theorem keepsLines_other (hc : ¬ c = quote) (hesc : ¬ c = '\\')
    (h : keepsLines (literal quote) (c :: l) = true) : keepsLines (literal quote) l = true := by
  have hnext := keepsLines_cons h
  rwa [step, if_neg hc, if_neg hesc] at hnext

end Mode

namespace Literal

variable {quote : Char}

/-- The search for the end of a literal, which stops in front of a line feed if the quote is that of a
text. -/
theorem tail_crlf (hq : quote = '"' ∨ quote = '\'')
    (h : quote = '"' → '\n' ∉ l.take (tail quote l)) :
    Beside l (tail quote l) (tail quote (crlf l)) := by
  have hesc : ¬ '\\' = quote := by rcases hq with rfl | rfl <;> decide
  have hline : ¬ '\n' = quote := by rcases hq with rfl | rfl <;> decide
  have hreturn : ¬ '\r' = quote := by rcases hq with rfl | rfl <;> decide
  have hstep : ∀ {r}, tail quote ('\r' :: r) = tail quote r + 1 := fun {r} =>
    tail_other (by decide) hreturn (by simp)
  fun_induction tail quote l with
  | case1 => exact .zero
  | case2 => exact Beside.zero.cons (by decide)
  | case3 d rest ih =>
    have hrest := ih fun he hmem => h he (by simp [hmem])
    by_cases hd : d = '\n'
    · -- a byte string goes on behind the line feed, escaped or not
      subst hd
      have hopen : quote ≠ '"' := fun he => h he (by simp)
      rw [crlf_cons (by decide), crlf_line, tail_escape,
        tail_other (by decide) hline fun hend => hopen hend.2]
      exact hrest.line.cons (by decide)
    · rw [crlf_cons (by decide), crlf_cons hd, tail_escape]
      exact (hrest.cons hd).cons (by decide)
  | case4 rest _ =>
    rw [crlf_cons (Ne.symm hline), tail_quote (Ne.symm hesc)]
    exact Beside.zero.cons (Ne.symm hline)
  | case5 c rest _ _ hend =>
    obtain ⟨rfl, rfl⟩ := hend
    rw [crlf_line, hstep, tail_line]
    exact .inside rfl
  | case6 c rest hc hquote hopen ih =>
    have hrest := ih fun he hmem => h he (by simp [hmem])
    by_cases hc' : c = '\n'
    · subst hc'
      rw [crlf_line, hstep, tail_other hc hquote hopen]
      exact hrest.line
    · rw [crlf_cons hc', tail_other hc hquote hopen]
      exact hrest.cons hc'

end Literal

namespace Lexeme

/-- A literal that nothing closes is none. -/
theorem literalTail?_eq_none {quote : Char} (h : Mode.closes (.literal quote) l = false) :
    literalTail? quote l = none := by
  cases hn : literalTail? quote l with
  | none => rfl
  | some n =>
    have hcloses := Mode.closes_of_after (Mode.after_literal hn).1
    rw [h] at hcloses
    contradiction

theorem literalTail?_crlf {quote : Char} (hq : quote = '"' ∨ quote = '\'')
    (h : Mode.keepsLines (.literal quote) l = true) :
    literalTail? quote (crlf l) = (literalTail? quote l).map (crlfAt l) := by
  have hesc : ¬ '\\' = quote := by rcases hq with rfl | rfl <;> decide
  have hline : ¬ '\n' = quote := by rcases hq with rfl | rfl <;> decide
  have hreturn : ¬ '\r' = quote := by rcases hq with rfl | rfl <;> decide
  fun_induction literalTail? quote l with
  | case1 => rfl
  | case2 rest =>
    rw [crlf_cons (Ne.symm hline), literalTail?_quote, Option.map_some,
      crlfAt_cons (Ne.symm hline), crlfAt_zero]
  | case3 hc =>
    rw [crlf_cons (by decide), crlf_nil, literalTail?.eq_def]
    simp only [if_neg hc, if_pos, Option.map_none]
  | case4 rest hc =>
    -- the carriage return may be escaped, but the literal is closed in neither text
    have hopen := (Mode.keepsLines_escape hc h).1 rfl
    have hnone : literalTail? quote (crlf rest) = none :=
      literalTail?_eq_none ((Mode.closes_crlf hq).1.trans hopen)
    rw [crlf_cons (by decide), crlf_line, literalTail?_escape hc, if_neg (by decide),
      literalTail?_other hline (by decide), hnone]
    rfl
  | case5 d rest hd hc ih =>
    obtain ⟨-, hrest⟩ := Mode.keepsLines_escape hc h
    rw [crlf_cons (by decide), crlf_cons hd, literalTail?_escape hc, if_neg hd, ih hrest,
      Option.map_map, Option.map_map]
    congr 1
    funext k
    show crlfAt rest k + 2 = crlfAt ('\\' :: d :: rest) (k + 2)
    rw [crlfAt_cons (by decide), crlfAt_cons hd]
  | case6 c rest hc hother ih =>
    have hrest := Mode.keepsLines_other hc hother h
    by_cases hc' : c = '\n'
    · subst hc'
      rw [crlf_line, literalTail?_other hreturn (by decide), literalTail?_other hc hother, ih hrest,
        Option.map_map, Option.map_map, Option.map_map]
      congr 1
      funext k
      show crlfAt rest k + 1 + 1 = crlfAt ('\n' :: rest) (k + 1)
      rw [crlfAt_line]
    · rw [crlf_cons hc', literalTail?_other hc hother, ih hrest, Option.map_map,
        Option.map_map]
      congr 1
      funext k
      show crlfAt rest k + 1 = crlfAt (c :: rest) (k + 1)
      rw [crlfAt_cons hc']

theorem opened_crlf {quote : Char} (front : List Char) (hq : quote = '"' ∨ quote = '\'')
    (hfront : '\n' ∉ front) (h : Mode.keepsLines (.literal quote) l = true) :
    (literalTail? quote (crlf l)).map (· + front.length) =
      ((literalTail? quote l).map (· + front.length)).map (crlfAt (front ++ l)) := by
  rw [literalTail?_crlf hq h, Option.map_map, Option.map_map]
  congr 1
  funext k
  show crlfAt l k + front.length = crlfAt (front ++ l) (k + front.length)
  have hself : crlfAt (front ++ l) front.length = front.length :=
    crlfAt_eq_self (by rwa [List.take_left])
  rw [Nat.add_comm k, crlfAt_add, List.drop_left, hself, Nat.add_comm]

theorem text?_crlf (h : Mode.keepsLines .code l = true) :
    text? (crlf l) = (text? l).map (crlfAt l) := by
  cases l with
  | nil => rfl
  | cons c l =>
    by_cases hc : c = '"'
    · subst hc
      rw [crlf_cons (by decide), text?, text?]
      exact opened_crlf ['"'] (.inl rfl) (by decide)
        (Mode.keepsLines_open (.inl rfl) h)
    · have hnone : ∀ {d r}, d ≠ '"' → text? (d :: r) = none := by
        intro d r hd
        simp [text?, hd]
      rw [hnone hc]
      by_cases hline : c = '\n'
      · subst hline
        rfl
      · rw [crlf_cons hline, hnone hc]
        rfl

theorem bytes?_front {front : List Char} (hf : front ∈ [[], ['h'], ['b', '6', '4']]) :
    bytes? (front ++ '\'' :: rest) = (literalTail? '\'' rest).map (· + (front ++ ['\'']).length) := by
  simp only [List.mem_cons, List.not_mem_nil, or_false] at hf
  rcases hf with rfl | rfl | rfl <;> rfl

theorem exists_front_of_bytes? (h : bytes? l = some n) :
    ∃ front ∈ [[], ['h'], ['b', '6', '4']], ∃ rest, l = front ++ '\'' :: rest := by
  unfold bytes? at h
  split at h
  next rest => exact ⟨[], by simp, rest, rfl⟩
  next rest => exact ⟨['h'], by simp, rest, rfl⟩
  next rest => exact ⟨['b', '6', '4'], by simp, rest, rfl⟩
  next => contradiction

theorem bytes?_crlf (h : Mode.keepsLines .code l = true) :
    bytes? (crlf l) = (bytes? l).map (crlfAt l) := by
  by_cases hform : ∃ front ∈ [[], ['h'], ['b', '6', '4']], ∃ rest, l = front ++ '\'' :: rest
  · obtain ⟨front, hf, rest, rfl⟩ := hform
    have hline : '\n' ∉ front ++ ['\''] := by
      simp only [List.mem_cons, List.not_mem_nil, or_false] at hf
      rcases hf with rfl | rfl | rfl <;> decide
    have hkeeps : Mode.keepsLines (.literal '\'') rest = true := by
      have hplain : ∀ c ∈ front, c ∉ Lexeme.marks := by
        simp only [List.mem_cons, List.not_mem_nil, or_false] at hf
        rcases hf with rfl | rfl | rfl <;> simp [Lexeme.marks]
      have hdrop := Mode.keepsLines_drop (n := front.length) h
      rw [List.take_left, List.drop_left, Mode.after_code hplain] at hdrop
      exact Mode.keepsLines_open (.inr rfl) hdrop
    have hcrlf : crlf (front ++ '\'' :: rest) = front ++ '\'' :: crlf rest := by
      rw [crlf_append, crlf_eq_self (fun hmem => hline (List.mem_append_left _ hmem)),
        crlf_cons (by decide)]
    have hopened := opened_crlf _ (.inr rfl) hline hkeeps
    rw [List.append_assoc, List.singleton_append] at hopened
    rw [hcrlf, bytes?_front hf, bytes?_front hf, hopened]
  · have hnone : bytes? l = none := by
      cases hb : bytes? l with
      | none => rfl
      | some n => exact absurd (exists_front_of_bytes? hb) hform
    have hnone' : bytes? (crlf l) = none := by
      cases hb : bytes? (crlf l) with
      | none => rfl
      | some n =>
        obtain ⟨front, hf, rest, hl⟩ := exists_front_of_bytes? hb
        have hfront : ∀ c ∈ front ++ ['\''], c ≠ '\n' ∧ c ≠ '\r' := by
          simp only [List.mem_cons, List.not_mem_nil, or_false] at hf
          rcases hf with rfl | rfl | rfl <;> simp
        rw [← List.singleton_append, ← List.append_assoc] at hl
        obtain ⟨rest', rfl, -⟩ := exists_of_crlf_append hfront hl
        exact absurd ⟨front, hf, rest', by rw [List.append_assoc, List.singleton_append]⟩ hform
    rw [hnone, hnone', Option.map_none]

end Lexeme

theorem Terminal.line_not_mem {t : Terminal} (ht : t ≠ .text ∧ t ≠ .bytes)
    (hm : t.match? l = some n) : '\n' ∉ l.take n := by
  intro hmem
  have hspace := not_isSpace_of_mem ht hm hmem
  contradiction

/-- A token is matched in the one text where it is in the other, over the same characters. -/
theorem Terminal.match?_crlf {t : Terminal} (h : Mode.keepsLines .code l = true) :
    t.match? (crlf l) = (t.match? l).map (crlfAt l) := by
  by_cases ht : t ≠ .text ∧ t ≠ .bytes
  · have hsame : t.match? (crlf l) = t.match? l := by
      by_cases hline : '\n' ∈ l
      · obtain ⟨line, rest, rfl, hfirst⟩ := List.eq_append_cons_of_mem hline
        rw [crlf_append, crlf_eq_self hfirst, crlf_line, match?_gap ht rfl, match?_gap ht rfl]
      · rw [crlf_eq_self hline]
    rw [hsame]
    cases hm : t.match? l with
    | none => rfl
    | some n =>
      rw [Option.map_some, crlfAt_eq_self (line_not_mem ht hm)]
  · cases t with
    | text => exact Lexeme.text?_crlf h
    | bytes => exact Lexeme.bytes?_crlf h
    | _ => exact absurd ⟨nofun, nofun⟩ ht

end Cddl

import Mathlib.Data.List.DropRight
import Cddl.Document.Chunk
import Cddl.Proofs.Plain

/-!
Heads taken apart. A head is a name with an assignment sign behind it, or behind its parameters; it
stands on one line, and of all tokens only a name looks like the beginning of one.
-/
namespace Cddl.Chunk

variable {text rest : List Char} {c : Char} {i k n : Nat}

/-- A parameter list that begins at an offset, perhaps behind blanks, is read up to the `>` at
`m`. -/
def ParamsCloseAt (text : List Char) (i m : Nat) : Prop :=
  ∃ blanks inner rest, text.drop i = blanks ++ '<' :: (inner ++ '>' :: rest) ∧
    (∀ c ∈ blanks, isInlineBlank c = true) ∧ (∀ c ∈ inner, c ≠ '<' ∧ c ≠ '>' ∧ c ≠ '\n') ∧
    m = i + blanks.length + 1 + inner.length

theorem isHead_cons (hc : Lexeme.isNameStart c = false) : isHead (c :: rest) = false := by
  simp [isHead, Lexeme.name?, hc]

theorem isAssignment_cases {l : List Char} (h : isAssignment l = true) :
    (∃ rest, l = '/' :: '/' :: '=' :: rest) ∨ (∃ rest, l = '/' :: '=' :: rest) ∨
      ∃ rest, l = '=' :: rest ∧ ∀ r, rest ≠ '>' :: r := by
  unfold isAssignment at h
  split at h
  next rest => exact .inl ⟨rest, rfl⟩
  next rest => exact .inr (.inl ⟨rest, rfl⟩)
  next => contradiction
  next rest hne =>
    refine .inr (.inr ⟨rest, rfl, fun r hr => ?_⟩)
    subst hr
    exact hne r rfl
  next => contradiction

theorem drop_of_closed {blanks inner rest : List Char}
    (h : text.drop i = blanks ++ '<' :: (inner ++ '>' :: rest)) :
    text.drop (i + blanks.length + 1 + inner.length + 1) = rest := by
  have hassoc : blanks ++ '<' :: (inner ++ '>' :: rest) =
      (blanks ++ '<' :: inner ++ ['>']) ++ rest := by
    simp
  have hlen : i + blanks.length + 1 + inner.length + 1 =
      i + (blanks ++ '<' :: inner ++ ['>']).length := by
    simp
    omega
  rw [hlen, ← List.drop_drop, h, hassoc, List.drop_left]

/-- A head is a name with an assignment sign behind it, or behind its parameters. -/
theorem isHead_cases (h : isHead (text.drop k) = true) :
    ∃ n, Lexeme.name? (text.drop k) = some n ∧
      (isAssignment ((text.drop (k + n)).dropWhile isInlineBlank) = true ∨
        (∃ rest, (text.drop (k + n)).dropWhile isInlineBlank = '<' :: rest) ∧
        ∃ m, ParamsCloseAt text (k + n) m ∧
          isAssignment ((text.drop (m + 1)).dropWhile isInlineBlank) = true) := by
  unfold isHead at h
  split at h
  next => contradiction
  next n hn =>
    refine ⟨n, hn, ?_⟩
    rw [List.drop_drop] at h
    split at h
    next => contradiction
    next rest hrest =>
      unfold dropParams? at hrest
      split at hrest
      next l heq =>
        right
        refine ⟨⟨l, heq⟩, ?_⟩
        split at hrest
        next r hr =>
          cases hrest
          have htext := List.takeWhile_append_dropWhile
            (p := isInlineBlank) (l := text.drop (k + n))
          have hinner := List.takeWhile_append_dropWhile
            (p := fun c => c != '<' && c != '>' && c != '\n') (l := l)
          rw [heq, ← hinner, hr] at htext
          have hblanks := List.all_eq_true.mp
            (List.all_takeWhile (p := isInlineBlank) (l := text.drop (k + n)))
          refine ⟨_, ⟨_, _, _, htext.symm, hblanks, fun c hc => ?_, rfl⟩, ?_⟩
          · have hclass := List.all_eq_true.mp List.all_takeWhile c hc
            simpa [and_assoc] using hclass
          · rwa [drop_of_closed htext.symm]
        next => contradiction
      next l hne =>
        left
        cases hrest
        rwa [List.dropWhile_idempotent] at h

theorem not_isHead_bytes (h : Lexeme.bytes? text = some n) : isHead text = false := by
  unfold Lexeme.bytes? at h
  split at h
  · rfl
  · rfl
  · rfl
  · contradiction

/-- Only a name looks like the beginning of a head; the mark of a byte string is none. -/
theorem name_of_isHead {t : Terminal} (h : isHead text = true) (ht : t.match? text = some n) :
    t = .name := by
  obtain ⟨c, rest, rfl, hc⟩ := Terminal.exists_starts ht
  have hname : Lexeme.isNameStart c = true := by
    rw [← Bool.not_eq_false]
    intro hname
    rw [isHead_cons hname] at h
    contradiction
  have hdigit := Lexeme.not_isDigit_of_isNameStart hname
  cases t with
  | name => rfl
  | bytes =>
    rw [not_isHead_bytes ht] at h
    contradiction
  | assign =>
    simp only [Terminal.starts, Bool.or_eq_true, beq_iff_eq] at hc
    rcases hc with rfl | rfl <;> contradiction
  | occurrence =>
    simp only [Terminal.starts, hdigit, Bool.or_eq_true, Bool.or_false, beq_iff_eq] at hc
    rcases hc with (rfl | rfl) | rfl <;> contradiction
  | _ =>
    simp only [Terminal.starts, hdigit, Bool.or_false, beq_iff_eq] at hc
    subst hc
    contradiction

/-! ### Heads stand on one line -/

section Line

variable {line rest : List Char}

theorem nameTail_line (h : '\n' ∉ line) :
    Lexeme.nameTail (line ++ '\n' :: rest) = Lexeme.nameTail line := by
  induction line with
  | nil => rfl
  | cons c line ih =>
    have hrest := ih fun hmem => h (List.mem_cons_of_mem _ hmem)
    rw [List.cons_append, Lexeme.nameTail, hrest, Lexeme.nameTail]

theorem name?_line (h : '\n' ∉ line) :
    Lexeme.name? (line ++ '\n' :: rest) = Lexeme.name? line := by
  cases line with
  | nil => rfl
  | cons c line =>
    have hrest : Lexeme.nameTail (line ++ '\n' :: rest) = Lexeme.nameTail line :=
      nameTail_line fun hmem => h (List.mem_cons_of_mem c hmem)
    rw [List.cons_append, Lexeme.name?, hrest, Lexeme.name?]

theorem dropWhile_gap {p : Char → Bool} (hp : p c = false) :
    (line ++ c :: rest).dropWhile p = line.dropWhile p ++ c :: rest := by
  rw [List.dropWhile_append]
  split
  next hnil =>
    rw [List.isEmpty_iff.mp hnil, List.dropWhile_cons_of_neg (by simp [hp]), List.nil_append]
  next => rfl

theorem dropParams?_line :
    dropParams? (line ++ '\n' :: rest) = (dropParams? line).map (· ++ '\n' :: rest) := by
  cases line with
  | nil => rfl
  | cons c line =>
    by_cases hc : c = '<'
    · subst hc
      rw [List.cons_append, dropParams?, dropWhile_gap (by decide), dropParams?]
      cases line.dropWhile fun c => c != '<' && c != '>' && c != '\n' with
      | nil => rfl
      | cons d l =>
        by_cases hd : d = '>'
        · subst hd
          rfl
        · simp [hd]
    · simp [dropParams?, hc]

/-- A character that belongs to no assignment sign ends the look at one. -/
theorem isAssignment_gap (hc : c ≠ '/' ∧ c ≠ '=' ∧ c ≠ '>') :
    isAssignment (line ++ c :: rest) = isAssignment line := by
  obtain ⟨hslash, hequals, harrow⟩ := hc
  cases line with
  | nil => simp [isAssignment, hslash, hequals]
  | cons d line =>
    by_cases hd : d = '='
    · subst hd
      cases line with
      | nil => simp [isAssignment, harrow]
      | cons e line =>
        by_cases he : e = '>'
        · subst he
          rfl
        · simp [isAssignment, he]
    by_cases hd' : d = '/'
    · subst hd'
      cases line with
      | nil => simp [isAssignment, hslash, hequals]
      | cons e line =>
        by_cases he : e = '='
        · subst he
          rfl
        by_cases he' : e = '/'
        · subst he'
          cases line with
          | nil => simp [isAssignment, hequals]
          | cons f line =>
            by_cases hf : f = '='
            · subst hf
              rfl
            · simp [isAssignment, hf]
        · simp [isAssignment, he, he']
    · simp [isAssignment, hd, hd']

theorem nameTail_le (text : List Char) : Lexeme.nameTail text ≤ text.length := by
  induction text with
  | nil => exact Nat.le_refl _
  | cons c text ih =>
    rw [Lexeme.nameTail, List.length_cons]
    split
    · omega
    · split
      · split <;> omega
      · omega

theorem name?_le {n : Nat} {text : List Char} (h : Lexeme.name? text = some n) :
    n ≤ text.length := by
  unfold Lexeme.name? at h
  split at h
  next c text =>
    split at h
    · cases h
      have hle := nameTail_le text
      rw [List.length_cons]
      omega
    · contradiction
  next => contradiction

/-- A head is found without a look beyond the line. -/
theorem isHead_line (h : '\n' ∉ line) : isHead (line ++ '\n' :: rest) = isHead line := by
  rw [isHead, name?_line h, isHead]
  cases hname : Lexeme.name? line with
  | none => rfl
  | some n =>
    have hn := name?_le hname
    simp only
    rw [List.drop_append_of_le_length hn, dropWhile_gap (by decide), dropParams?_line]
    cases dropParams? ((line.drop n).dropWhile isInlineBlank) with
    | none => rfl
    | some r =>
      simp only [Option.map_some]
      rw [dropWhile_gap (by decide), isAssignment_gap (by decide)]

end Line

theorem isHead_append {a b : List Char} (h : '\n' ∈ a) : isHead (a ++ b) = isHead a := by
  obtain ⟨line, rest, rfl, hline⟩ := List.eq_append_cons_of_mem h
  rw [List.append_assoc, List.cons_append, isHead_line hline, isHead_line hline]

end Cddl.Chunk

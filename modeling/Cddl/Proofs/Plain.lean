import Cddl.Text.Blank
import Cddl.Proofs.Lexeme

/-!
The characters of a match. Only literals and brackets contain characters that mean something to the
search for rules; every other terminal matches plain characters, all on one line. Names and numbers,
and what is read like them, hold none of the characters that stand between words either.
-/
namespace Cddl

namespace Lexeme

variable {text rest : List Char} {c : Char} {m n : Nat}

/-- The characters that the search for rules looks at. -/
def marks : List Char := ['\n', ';', '"', '\'', '(', ')', '[', ']', '\x7b', '\x7d']

/-- None of the first `n` characters of a text is a mark. -/
def Plain (n : Nat) (text : List Char) : Prop := ∀ c ∈ text.take n, c ∉ marks

theorem not_mem_of_any {cs : List Char} {p : Char → Bool} (hp : cs.any p = false)
    (h : p c = true) : c ∉ cs := by
  intro hc
  have hany : cs.any p = true := List.any_eq_true.mpr ⟨c, hc, h⟩
  rw [hp] at hany
  contradiction

theorem mem_take_of_last (hn : 0 < n) (h : text[n - 1]? = some c) : c ∈ text.take n := by
  refine List.mem_iff_getElem?.mpr ⟨n - 1, ?_⟩
  rw [List.getElem?_take_of_lt (by omega), h]

/-- The marks, and the characters of the signs that stand between words. -/
def separators : List Char := marks ++ ['=', ':', ',', '/']

/-- None of the first `n` characters of a text is a separator. -/
def Worded (n : Nat) (text : List Char) : Prop := ∀ c ∈ text.take n, c ∉ separators

theorem Worded.plain (h : Worded n text) : Plain n text :=
  fun c hc hmark => h c hc (List.mem_append_left _ hmark)

theorem worded_zero : Worded 0 text := by
  intro c hc
  simp at hc

theorem Worded.cons (hc : c ∉ separators) (h : Worded n rest) : Worded (n + 1) (c :: rest) := by
  intro d hd
  rw [List.take_succ_cons] at hd
  rcases List.mem_cons.mp hd with rfl | hd
  · exact hc
  · exact h d hd

theorem Worded.add (hm : Worded m text) (hn : Worded n (text.drop m)) : Worded (m + n) text := by
  intro c hc
  rw [List.take_add] at hc
  rcases List.mem_append.mp hc with hc | hc
  · exact hm c hc
  · exact hn c hc

/-- One more character before what a reader takes. -/
theorem worded_of_map_succ {o : Option Nat} (hc : c ∉ separators)
    (ho : ∀ m, o = some m → Worded m rest) (h : o.map (· + 1) = some n) :
    Worded n (c :: rest) := by
  obtain ⟨m, hm, rfl⟩ := Option.map_eq_some_iff.mp h
  exact (ho m hm).cons hc

theorem worded_getD {o : Option Nat} (ho : ∀ m, o = some m → Worded m text) :
    Worded (o.getD 0) text := by
  cases o with
  | none => exact worded_zero
  | some m => exact ho m rfl

theorem worded_run {p : Char → Bool} (hp : separators.any p = false) : Worded (run p text) text :=
  fun _ hc => not_mem_of_any hp (of_mem_take_run hc)

theorem worded_run? {p : Char → Bool} (hp : separators.any p = false) (h : run? p text = some n) :
    Worded n text := by
  obtain ⟨rfl, -⟩ := run?_eq_some_iff.mp h
  exact worded_run hp

theorem worded_nameTail : Worded (nameTail text) text := by
  induction text with
  | nil => exact worded_zero
  | cons c rest ih =>
    rw [nameTail]
    split
    next hc => exact ih.cons (not_mem_of_any (p := isNameChar) (by decide) hc)
    next =>
      split
      next hc =>
        split
        next => exact worded_zero
        next n heq =>
          rw [heq] at ih
          exact ih.cons (not_mem_of_any (p := isJoint) (by decide) hc)
      next => exact worded_zero

theorem worded_name? (h : name? text = some n) : Worded n text := by
  unfold name? at h
  split at h
  next c rest =>
    split at h
    next hc =>
      cases h
      exact worded_nameTail.cons (not_mem_of_any (p := isNameStart) (by decide) hc)
    next => contradiction
  next => contradiction

theorem worded_fraction : Worded (fraction text) text := by
  unfold fraction
  split
  next rest =>
    refine worded_getD fun m hm => ?_
    exact worded_of_map_succ (by decide) (fun k hk => worded_run? (by decide) hk) hm
  next => exact worded_zero

theorem worded_signedDigits? (h : signedDigits? text = some n) : Worded n text := by
  unfold signedDigits? at h
  split at h
  next c rest =>
    split at h
    next hc =>
      refine worded_of_map_succ ?_ (fun k hk => worded_run? (by decide) hk) h
      rcases hc with rfl | rfl <;> decide
    next => exact worded_run? (by decide) h
  next => contradiction

theorem worded_exponent : Worded (exponent text) text := by
  unfold exponent
  split
  next c rest =>
    split
    next hc =>
      refine worded_getD fun m hm => ?_
      refine worded_of_map_succ ?_ (fun k hk => worded_signedDigits? hk) hm
      rcases hc with rfl | rfl <;> decide
    next => exact worded_zero
  next => exact worded_zero

theorem worded_decimal? (h : decimal? text = some n) : Worded n text := by
  obtain ⟨digits, hd, rfl⟩ := Option.map_eq_some_iff.mp h
  exact ((worded_run? (by decide) hd).add worded_fraction).add worded_exponent

/-- A base mark and digits of its base. -/
theorem worded_based {p : Char → Bool} {b : Char} (hb : b ∉ separators) (hp : separators.any p = false)
    (h : (run? p rest).map (· + 2) = some n) : Worded n ('0' :: b :: rest) := by
  obtain ⟨m, hm, rfl⟩ := Option.map_eq_some_iff.mp h
  exact ((worded_run? hp hm).cons hb).cons (by decide)

theorem worded_unsigned? (h : unsigned? text = some n) : Worded n text := by
  unfold unsigned? at h
  split at h
  · rcases Option.or_eq_some_iff.mp h with h | ⟨-, h⟩
    · exact worded_based (by decide) (by decide) h
    · exact worded_decimal? h
  · rcases Option.or_eq_some_iff.mp h with h | ⟨-, h⟩
    · exact worded_based (by decide) (by decide) h
    · exact worded_decimal? h
  · exact worded_decimal? h

theorem worded_number? (h : number? text = some n) : Worded n text := by
  unfold number? at h
  split at h
  · exact worded_of_map_succ (by decide) (fun k hk => worded_unsigned? hk) h
  · exact worded_unsigned? h

theorem worded_occurrence? (h : occurrence? text = some n) : Worded n text := by
  simp only [occurrence?] at h
  have hlower : Worded (run Char.isDigit text) text := worded_run (by decide)
  split at h
  next rest heq =>
    cases h
    rw [Nat.add_assoc]
    refine hlower.add ?_
    rw [heq, Nat.add_comm]
    exact (worded_run (by decide)).cons (by decide)
  next =>
    split at h
    · cases h
      exact worded_zero.cons (by decide)
    · cases h
      exact worded_zero.cons (by decide)
    · contradiction

theorem worded_control? (h : control? text = some n) : Worded n text := by
  unfold control? at h
  split at h
  · exact worded_of_map_succ (by decide) (fun k hk => worded_name? hk) h
  · contradiction

theorem worded_tag? (h : tag? text = some n) : Worded n text := by
  unfold tag? at h
  split at h
  · cases h
    exact (worded_fraction.cons (by decide)).cons (by decide)
  · contradiction

theorem worded_major? (h : major? text = some n) : Worded n text := by
  unfold major? at h
  split at h
  next c rest =>
    split at h
    next hc =>
      cases h
      have hsep : c ∉ separators :=
        not_mem_of_any (p := fun c => '0' ≤ c && c ≤ '7') (by decide) (by simpa using hc)
      exact (worded_fraction.cons hsep).cons (by decide)
    next => contradiction
  next => contradiction

theorem plain_spelled? {spellings : List (List Char)}
    (hs : marks.any (fun c => spellings.any (·.contains c)) = false)
    (h : spelled? spellings text = some n) : Plain n text := by
  obtain ⟨s, hs', rfl, rest, rfl⟩ := exists_of_spelled? h
  intro c hc
  rw [List.take_left] at hc
  refine not_mem_of_any hs ?_
  exact List.any_eq_true.mpr ⟨s, hs', List.contains_iff_mem.mpr hc⟩

theorem getElem?_of_literalTail? {quote : Char} (h : literalTail? quote text = some n) :
    0 < n ∧ text[n - 1]? = some quote := by
  fun_induction literalTail? quote text generalizing n with
  | case1 => contradiction
  | case2 rest =>
    cases h
    simp
  | case3 => contradiction
  | case4 => contradiction
  | case5 rest hc d hd ih =>
    obtain ⟨m, hm, rfl⟩ := Option.map_eq_some_iff.mp h
    obtain ⟨hpos, hlast⟩ := ih hm
    refine ⟨by omega, ?_⟩
    obtain ⟨k, rfl⟩ := Nat.exists_eq_add_of_lt hpos
    simpa using hlast
  | case6 c rest hc hesc ih =>
    obtain ⟨m, hm, rfl⟩ := Option.map_eq_some_iff.mp h
    obtain ⟨hpos, hlast⟩ := ih hm
    refine ⟨by omega, ?_⟩
    obtain ⟨k, rfl⟩ := Nat.exists_eq_add_of_lt hpos
    simpa using hlast

/-- The same behind the characters that open the literal. -/
theorem getElem?_of_opened {quote : Char} (front : List Char)
    (h : (literalTail? quote rest).map (· + front.length) = some n) :
    (front ++ rest)[n - 1]? = some quote := by
  obtain ⟨m, hm, rfl⟩ := Option.map_eq_some_iff.mp h
  obtain ⟨hpos, hlast⟩ := getElem?_of_literalTail? hm
  rw [List.getElem?_append_right (by omega), ← hlast]
  congr 1
  omega

theorem text?_last (h : text? text = some n) : text[n - 1]? = some '"' := by
  unfold text? at h
  split at h
  · exact getElem?_of_opened ['"'] h
  · contradiction

theorem bytes?_last (h : bytes? text = some n) : text[n - 1]? = some '\'' := by
  unfold bytes? at h
  split at h
  · exact getElem?_of_opened ['\''] h
  · exact getElem?_of_opened ['h', '\''] h
  · exact getElem?_of_opened ['b', '6', '4', '\''] h
  · contradiction

end Lexeme

/-! ### The first character -/

namespace Terminal

/-- The characters that a match may begin with. -/
def starts : Terminal → Char → Bool
  | name, c => Lexeme.isNameStart c
  | assign, c => c == '/' || c == '='
  | number, c => c == '-' || c.isDigit
  | text, c => c == '"'
  | bytes, c => c == '\'' || c == 'h' || c == 'b'
  | occurrence, c => c == '*' || c == '+' || c == '?' || c.isDigit
  | range, c | control, c => c == '.'
  | tag, c | major, c | hash, c => c == '#'
  | groupChoice, c | slash, c => c == '/'
  | arrow, c => c == '='
  | openBrace, c => c == '\x7b'
  | closeBrace, c => c == '\x7d'
  | openParen, c => c == '('
  | closeParen, c => c == ')'
  | openBracket, c => c == '['
  | closeBracket, c => c == ']'
  | less, c => c == '<'
  | greater, c => c == '>'
  | comma, c => c == ','
  | colon, c => c == ':'
  | tilde, c => c == '~'
  | ampersand, c => c == '&'
  | caret, c => c == '^'

end Terminal

namespace Lexeme

variable {text : List Char} {n : Nat}

/-- Where the letters and marks that begin a name stand among the characters. -/
theorem toNat_of_isNameStart {c : Char} (h : isNameStart c = true) :
    c.toNat = 36 ∨ (64 ≤ c.toNat ∧ c.toNat ≤ 90) ∨ (95 ≤ c.toNat ∧ c.toNat ≤ 122) := by
  have halpha : c.isAlpha = (c.isUpper || c.isLower) := rfl
  have hupper : c.isUpper = decide ('A'.val ≤ c.val ∧ c.val ≤ 'Z'.val) := rfl
  have hlower : c.isLower = (decide ('a'.val ≤ c.val) && decide (c.val ≤ 'z'.val)) := rfl
  simp only [isNameStart, halpha, hupper, hlower, Bool.or_eq_true, Bool.and_eq_true,
    decide_eq_true_eq, beq_iff_eq] at h
  rcases h with (((⟨hlow, hhigh⟩ | ⟨hlow, hhigh⟩) | rfl) | rfl) | rfl
  · have hlow' : 65 ≤ c.toNat := hlow
    have hhigh' : c.toNat ≤ 90 := hhigh
    omega
  · have hlow' : 97 ≤ c.toNat := hlow
    have hhigh' : c.toNat ≤ 122 := hhigh
    omega
  all_goals decide

theorem not_isDigit_of_isNameStart {c : Char} (h : isNameStart c = true) :
    c.isDigit = false := by
  have hcode := toNat_of_isNameStart h
  rw [Bool.eq_false_iff]
  intro hd
  simp only [Char.isDigit, Bool.and_eq_true, decide_eq_true_eq] at hd
  have hlow : 48 ≤ c.toNat := hd.1
  have hhigh : c.toNat ≤ 57 := hd.2
  omega

theorem not_isBlank_of_isNameStart {c : Char} (h : isNameStart c = true) :
    Blank.isBlank c = false := by
  have hcode := toNat_of_isNameStart h
  simp only [Blank.isBlank, Bool.or_eq_false_iff, Bool.and_eq_false_iff, decide_eq_false_iff_not,
    beq_eq_false_iff_ne]
  omega

theorem starts_run? {p : Char → Bool} (h : run? p text = some n) :
    ∃ c rest, text = c :: rest ∧ p c = true := by
  obtain ⟨rfl, hpos⟩ := run?_eq_some_iff.mp h
  cases text with
  | nil => contradiction
  | cons c rest =>
    refine ⟨c, rest, rfl, ?_⟩
    by_cases hc : p c = true
    · exact hc
    · simp [run, hc] at hpos

theorem starts_name? (h : name? text = some n) :
    ∃ c rest, text = c :: rest ∧ Terminal.name.starts c = true := by
  unfold name? at h
  split at h
  next c rest =>
    split at h
    next hc => exact ⟨c, rest, rfl, hc⟩
    next => contradiction
  next => contradiction

theorem starts_decimal? (h : decimal? text = some n) :
    ∃ c rest, text = c :: rest ∧ c.isDigit = true := by
  obtain ⟨digits, hd, -⟩ := Option.map_eq_some_iff.mp h
  exact starts_run? hd

theorem starts_unsigned? (h : unsigned? text = some n) :
    ∃ c rest, text = c :: rest ∧ c.isDigit = true := by
  unfold unsigned? at h
  split at h
  · exact ⟨'0', _, rfl, rfl⟩
  · exact ⟨'0', _, rfl, rfl⟩
  · exact starts_decimal? h

theorem starts_number? (h : number? text = some n) :
    ∃ c rest, text = c :: rest ∧ Terminal.number.starts c = true := by
  unfold number? at h
  split at h
  · exact ⟨'-', _, rfl, rfl⟩
  · obtain ⟨c, rest, rfl, hc⟩ := starts_unsigned? h
    exact ⟨c, rest, rfl, by simp [Terminal.starts, hc]⟩

theorem starts_text? (h : text? text = some n) :
    ∃ c rest, text = c :: rest ∧ Terminal.text.starts c = true := by
  unfold text? at h
  split at h
  · exact ⟨'"', _, rfl, rfl⟩
  · contradiction

theorem starts_bytes? (h : bytes? text = some n) :
    ∃ c rest, text = c :: rest ∧ Terminal.bytes.starts c = true := by
  unfold bytes? at h
  split at h
  · exact ⟨'\'', _, rfl, rfl⟩
  · exact ⟨'h', _, rfl, rfl⟩
  · exact ⟨'b', _, rfl, rfl⟩
  · contradiction

theorem starts_occurrence? (h : occurrence? text = some n) :
    ∃ c rest, text = c :: rest ∧ Terminal.occurrence.starts c = true := by
  cases hrun : run? Char.isDigit text with
  | some m =>
    obtain ⟨c, rest, rfl, hc⟩ := starts_run? hrun
    exact ⟨c, rest, rfl, by simp [Terminal.starts, hc]⟩
  | none =>
    have hzero := run?_eq_none_iff.mp hrun
    simp only [occurrence?, hzero, List.drop_zero] at h
    split at h
    · exact ⟨'*', _, rfl, rfl⟩
    · split at h
      · exact ⟨'+', _, rfl, rfl⟩
      · exact ⟨'?', _, rfl, rfl⟩
      · contradiction

theorem starts_control? (h : control? text = some n) :
    ∃ c rest, text = c :: rest ∧ Terminal.control.starts c = true := by
  unfold control? at h
  split at h
  · exact ⟨'.', _, rfl, rfl⟩
  · contradiction

theorem starts_tag? (h : tag? text = some n) :
    ∃ c rest, text = c :: rest ∧ Terminal.tag.starts c = true := by
  unfold tag? at h
  split at h
  · exact ⟨'#', _, rfl, rfl⟩
  · contradiction

theorem starts_major? (h : major? text = some n) :
    ∃ c rest, text = c :: rest ∧ Terminal.major.starts c = true := by
  unfold major? at h
  split at h
  · exact ⟨'#', _, rfl, rfl⟩
  · contradiction

theorem starts_spelled? {spellings : List (List Char)} {p : Char → Bool}
    (hs : ∀ s ∈ spellings, s.head?.any p = true) (h : spelled? spellings text = some n) :
    ∃ c rest, text = c :: rest ∧ p c = true := by
  obtain ⟨s, hmem, -, rest, rfl⟩ := exists_of_spelled? h
  have hhead := hs s hmem
  cases s with
  | nil => contradiction
  | cons c s => exact ⟨c, s ++ rest, rfl, hhead⟩

end Lexeme

namespace Terminal

/-- The terminal is neither a literal between quotes nor a bracket; the angles are no brackets. -/
def isPlain : Terminal → Bool
  | text | bytes | openBrace | closeBrace | openParen | closeParen | openBracket | closeBracket =>
    false
  | _ => true

/-- The terminal is a name or a number, or read like them. -/
def isWord : Terminal → Bool
  | name | number | occurrence | control | tag | major => true
  | _ => false

theorem worded_match? {t : Terminal} {text : List Char} {n : Nat} (ht : t.isWord = true)
    (h : t.match? text = some n) : Lexeme.Worded n text := by
  cases t with
  | name => exact Lexeme.worded_name? h
  | number => exact Lexeme.worded_number? h
  | occurrence => exact Lexeme.worded_occurrence? h
  | control => exact Lexeme.worded_control? h
  | tag => exact Lexeme.worded_tag? h
  | major => exact Lexeme.worded_major? h
  | _ => contradiction

theorem plain_match? {t : Terminal} {text : List Char} {n : Nat} (ht : t.isPlain = true)
    (h : t.match? text = some n) : Lexeme.Plain n text := by
  cases t with
  | text | bytes => contradiction
  | openBrace | closeBrace | openParen | closeParen | openBracket | closeBracket => contradiction
  | name | number | occurrence | control | tag | major => exact (worded_match? rfl h).plain
  | _ => exact Lexeme.plain_spelled? (by decide) h

theorem exists_starts {t : Terminal} {text : List Char} {n : Nat} (h : t.match? text = some n) :
    ∃ c rest, text = c :: rest ∧ t.starts c = true := by
  cases t with
  | name => exact Lexeme.starts_name? h
  | number => exact Lexeme.starts_number? h
  | text => exact Lexeme.starts_text? h
  | bytes => exact Lexeme.starts_bytes? h
  | occurrence => exact Lexeme.starts_occurrence? h
  | control => exact Lexeme.starts_control? h
  | tag => exact Lexeme.starts_tag? h
  | major => exact Lexeme.starts_major? h
  | _ => exact Lexeme.starts_spelled? (by decide) h

/-- No token ends a line. -/
theorem last_ne_line {t : Terminal} {text : List Char} {n : Nat} (h : t.match? text = some n) :
    text[n - 1]? ≠ some '\n' := by
  cases ht : t.isPlain with
  | true =>
    intro hlast
    have hmem := Lexeme.mem_take_of_last (match?_pos h) hlast
    exact plain_match? ht h _ hmem (by decide)
  | false =>
    cases t with
    | text =>
      rw [Lexeme.text?_last h]
      decide
    | bytes =>
      rw [Lexeme.bytes?_last h]
      decide
    | openBrace | closeBrace | openParen | closeParen | openBracket | closeBracket =>
      obtain ⟨rfl, rest, rfl⟩ := Lexeme.eq_append_of_spelled? h
      simp
    | _ => contradiction

end Terminal

end Cddl

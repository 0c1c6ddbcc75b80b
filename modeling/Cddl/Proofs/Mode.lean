import Cddl.Proofs.Gap
import Cddl.Proofs.Postponed

/-!
What a character stands in: in a comment, in a quoted literal, or in neither. This follows from the
characters before it alone, and every reading agrees with it: a token takes no character that is
blank or stands in a comment, and what is ignored takes no other. So the places where something has
been read are known from behind: only one of them is followed by blanks up to a given offset.
-/
namespace Cddl

inductive Mode where
  | code | comment | literal (quote : Char) | escape (quote : Char)
deriving DecidableEq, Repr

namespace Mode

/-- The mode behind a character. -/
def step : Mode → Char → Mode
  | code, c => if c = ';' then comment else if c = '"' ∨ c = '\'' then literal c else code
  | comment, c => if c = '\n' then code else comment
  | literal quote, c =>
    if c = quote then code else if c = '\\' then escape quote else literal quote
  | escape quote, _ => literal quote

/-- The mode behind a stretch of text. -/
def after (m : Mode) (text : List Char) : Mode := text.foldl step m

/-- A character that is blank or belongs to a comment. -/
def passes : Mode → Char → Bool
  | code, c => Lexeme.isSpace c || c == ';'
  | comment, _ => true
  | _, _ => false

def isQuoted : Mode → Bool
  | literal _ | escape _ => true
  | _ => false

variable {m : Mode} {quote c : Char} {text a b : List Char} {n j : Nat}

theorem after_cons : after m (c :: text) = after (step m c) text := rfl

theorem after_append : after m (a ++ b) = after (after m a) b := List.foldl_append

theorem passes_of_isQuoted (h : m.isQuoted = true) : m.passes c = false := by
  cases m with
  | literal => rfl
  | escape => rfl
  | _ => contradiction

/-- Characters that open nothing leave a text in its mode. -/
theorem after_code (h : ∀ c ∈ text, c ∉ Lexeme.marks) : after code text = code := by
  induction text with
  | nil => rfl
  | cons c text ih =>
    have hc : c ∉ Lexeme.marks := h c List.mem_cons_self
    simp only [Lexeme.marks, List.mem_cons, not_or] at hc
    have hstep : step code c = code := by simp [step, hc]
    rw [after_cons, hstep]
    exact ih fun d hd => h d (List.mem_cons_of_mem c hd)

theorem step_space (hc : Lexeme.isSpace c = true) : step code c = code := by
  have hother : ∀ d, Lexeme.isSpace d = false → c ≠ d := fun d hd => Lexeme.ne_of_isSpace hd hc
  simp [step, hother ';' (by decide), hother '"' (by decide), hother '\'' (by decide)]

/-- A literal stays open up to its closing quote. -/
theorem after_literal (h : Lexeme.literalTail? quote text = some n) :
    after (literal quote) (text.take n) = code ∧
      ∀ j < n, (after (literal quote) (text.take j)).isQuoted = true := by
  fun_induction Lexeme.literalTail? quote text generalizing n with
  | case1 => contradiction
  | case2 rest =>
    cases h
    refine ⟨by simp [after, step], ?_⟩
    intro j hj
    obtain rfl : j = 0 := by omega
    rfl
  | case3 => contradiction
  | case4 => contradiction
  | case5 d rest hd hc ih =>
    obtain ⟨m, hm, rfl⟩ := Option.map_eq_some_iff.mp h
    obtain ⟨hend, hinside⟩ := ih hm
    have hskip : ∀ l, after (literal quote) ('\\' :: d :: l) = after (literal quote) l := by
      intro l
      simp [after_cons, step, hc]
    refine ⟨by rw [List.take_succ_cons, List.take_succ_cons, hskip, hend], ?_⟩
    intro j hj
    cases j with
    | zero => rfl
    | succ j =>
      cases j with
      | zero => simp [after, step, hc, isQuoted]
      | succ j =>
        rw [List.take_succ_cons, List.take_succ_cons, hskip]
        exact hinside j (by omega)
  | case6 c rest hc hesc ih =>
    obtain ⟨m, hm, rfl⟩ := Option.map_eq_some_iff.mp h
    obtain ⟨hend, hinside⟩ := ih hm
    have hstep : step (literal quote) c = literal quote := by simp [step, hc, hesc]
    refine ⟨by rw [List.take_succ_cons, after_cons, hstep, hend], ?_⟩
    intro j hj
    cases j with
    | zero => rfl
    | succ j =>
      rw [List.take_succ_cons, after_cons, hstep]
      exact hinside j (by omega)

/-- The text is read from `code` back to `code`, and none of its characters is passed over. -/
structure Inked (text : List Char) (n : Nat) : Prop where
  ends : after code (text.take n) = code
  inside : ∀ j < n, ∀ c, text[j]? = some c → (after code (text.take j)).passes c = false

theorem inked_of_plain (hplain : Lexeme.Plain n text)
    (hspace : ∀ c ∈ text.take n, Lexeme.isSpace c = false) : Inked text n := by
  refine ⟨after_code hplain, ?_⟩
  intro j hj c hc
  have hmem : c ∈ text.take n := List.mem_of_getElem? (by rw [List.getElem?_take_of_lt hj, hc])
  have hmode : after code (text.take j) = code := by
    apply after_code
    intro d hd
    exact hplain d (List.take_subset_take_left text (Nat.le_of_lt hj) hd)
  have hmark : c ≠ ';' := by
    rintro rfl
    exact hplain _ hmem (by decide)
  rw [hmode, passes, hspace c hmem, Bool.false_or]
  exact beq_eq_false_iff_ne.mpr hmark

/-- Behind the quote of a literal, with plain characters in front of it, the literal is open. -/
theorem after_opened (base : List Char) {rest : List Char} (hq : quote = '"' ∨ quote = '\'')
    (hbase : ∀ c ∈ base, c ∉ Lexeme.marks) (j : Nat) :
    after code ((base ++ quote :: rest).take (j + (base.length + 1))) =
      after (literal quote) (rest.take j) := by
  have hopen : step code quote = literal quote := by
    rcases hq with rfl | rfl <;> rfl
  rw [show j + (base.length + 1) = base.length + (j + 1) by omega,
    List.take_length_add_append, List.take_succ_cons, after_append, after_code hbase, after_cons,
    hopen]

/-- Inside a literal only its front is `code`, up to the quote. -/
theorem le_of_code (base : List Char) {rest : List Char} (hq : quote = '"' ∨ quote = '\'')
    (hbase : ∀ c ∈ base, c ∉ Lexeme.marks) (h : Lexeme.literalTail? quote rest = some n)
    (hj : j < n + (base.length + 1))
    (hcode : after code ((base ++ quote :: rest).take j) = code) : j ≤ base.length := by
  by_contra hlt
  obtain ⟨i, rfl⟩ : ∃ i, j = i + (base.length + 1) := ⟨j - (base.length + 1), by omega⟩
  have hopen := (after_literal h).2 i (by omega)
  rw [← after_opened base hq hbase, hcode] at hopen
  contradiction

/-- A literal behind plain characters that belong to it. -/
theorem inked_literal (base : List Char) {rest : List Char} (hq : quote = '"' ∨ quote = '\'')
    (hbase : ∀ c ∈ base, c ∉ Lexeme.marks ∧ Lexeme.isSpace c = false)
    (h : Lexeme.literalTail? quote rest = some n) :
    Inked (base ++ quote :: rest) (n + (base.length + 1)) := by
  obtain ⟨hend, hinside⟩ := after_literal h
  have hmarks : ∀ c ∈ base, c ∉ Lexeme.marks := fun c hc => (hbase c hc).1
  refine ⟨by rw [after_opened base hq hmarks, hend], ?_⟩
  intro j hj c hc
  rcases Nat.lt_trichotomy j base.length with hlt | rfl | hgt
  · have hplain : Inked base base.length := by
      refine inked_of_plain ?_ ?_
      · intro d hd
        rw [List.take_length] at hd
        exact (hbase d hd).1
      · intro d hd
        rw [List.take_length] at hd
        exact (hbase d hd).2
    rw [List.getElem?_append_left hlt] at hc
    rw [List.take_append_of_le_length (Nat.le_of_lt hlt)]
    exact hplain.inside j hlt c hc
  · rw [List.getElem?_append_right (Nat.le_refl _), Nat.sub_self, List.getElem?_cons_zero] at hc
    cases hc
    rw [List.take_left, after_code hmarks]
    rcases hq with rfl | rfl <;> rfl
  · obtain ⟨i, rfl⟩ : ∃ i, j = i + (base.length + 1) := ⟨j - (base.length + 1), by omega⟩
    rw [after_opened base hq hmarks]
    exact passes_of_isQuoted (hinside i (by omega))

theorem inked_bracket (hc : c ∈ ['(', ')', '[', ']', '\x7b', '\x7d'])
    (h : Lexeme.spelled? [[c]] text = some n) : Inked text n := by
  obtain ⟨rfl, rest, rfl⟩ := Lexeme.eq_append_of_spelled? h
  have hmark : step code c = code ∧ passes code c = false := by
    simp only [List.mem_cons, List.not_mem_nil, or_false] at hc
    rcases hc with rfl | rfl | rfl | rfl | rfl | rfl
    all_goals exact ⟨rfl, rfl⟩
  refine ⟨hmark.1, ?_⟩
  intro j hj d hd
  obtain rfl : j = 0 := Nat.lt_one_iff.mp hj
  cases hd
  exact hmark.2

end Mode

/-- A token takes no character that is passed over. -/
theorem Terminal.inked {t : Terminal} {text : List Char} {n : Nat} (h : t.match? text = some n) :
    Mode.Inked text n := by
  cases ht : t.isPlain with
  | true =>
    have hne : t ≠ .text ∧ t ≠ .bytes := by
      constructor
      · rintro rfl
        contradiction
      · rintro rfl
        contradiction
    exact Mode.inked_of_plain (plain_match? ht h) fun c hc => not_isSpace_of_mem hne h hc
  | false =>
    cases t with
    | openBrace | closeBrace | openParen | closeParen | openBracket | closeBracket =>
      exact Mode.inked_bracket (by decide) h
    | text =>
      simp only [match?, Lexeme.text?] at h
      split at h
      next rest =>
        obtain ⟨m, hm, rfl⟩ := Option.map_eq_some_iff.mp h
        exact Mode.inked_literal [] (.inl rfl) (by simp) hm
      next => contradiction
    | bytes =>
      simp only [match?, Lexeme.bytes?] at h
      split at h
      next rest =>
        obtain ⟨m, hm, rfl⟩ := Option.map_eq_some_iff.mp h
        exact Mode.inked_literal [] (.inr rfl) (by simp) hm
      next rest =>
        obtain ⟨m, hm, rfl⟩ := Option.map_eq_some_iff.mp h
        exact Mode.inked_literal ['h'] (.inr rfl) (by simp [Lexeme.marks, Lexeme.isSpace]) hm
      next rest =>
        obtain ⟨m, hm, rfl⟩ := Option.map_eq_some_iff.mp h
        exact Mode.inked_literal ['b', '6', '4'] (.inr rfl) (by simp [Lexeme.marks, Lexeme.isSpace]) hm
      next => contradiction
    | _ => contradiction

/-! ### Modes in a text -/

/-- The mode of a text at an offset. -/
def modeAt (text : List Char) (i : Nat) : Mode := Mode.after .code (text.take i)

/-- The character at an offset is blank or stands in a comment. -/
def isPassed (text : List Char) (i : Nat) : Bool :=
  match text[i]? with
  | some c => (modeAt text i).passes c
  | none => false

/-- A place where a token may begin, or the blanks in front of it: no literal is open, and a comment
only at its end. -/
def Resting (text : List Char) (i : Nat) : Prop :=
  modeAt text i = .code ∨ modeAt text i = .comment ∧ ∀ c, text[i]? = some c → c = '\n'

variable {text : List Char} {i j k l n : Nat}

theorem modeAt_add : modeAt text (i + n) = Mode.after (modeAt text i) ((text.drop i).take n) := by
  rw [modeAt, modeAt, ← Mode.after_append, List.take_add]

theorem modeAt_succ {c : Char} (h : text[i]? = some c) :
    modeAt text (i + 1) = (modeAt text i).step c := by
  rw [modeAt, List.take_add_one, h, Option.toList_some, Mode.after_append]
  rfl

theorem isPassed_of_getElem? {c : Char} (h : text[i]? = some c) :
    isPassed text i = (modeAt text i).passes c := by
  rw [isPassed, h]

/-- A token leads from `code` to `code`, over characters that are not passed over. -/
theorem modeAt_token {t : Terminal} (hk : modeAt text k = .code)
    (h : t.match? (text.drop k) = some n) :
    modeAt text (k + n) = .code ∧ ∀ j, k ≤ j → j < k + n → isPassed text j = false := by
  have hinked := Terminal.inked h
  refine ⟨by rw [modeAt_add, hk, hinked.ends], ?_⟩
  intro j hkj hj
  obtain ⟨d, rfl⟩ := Nat.exists_eq_add_of_le hkj
  cases hc : text[k + d]? with
  | none => rw [isPassed, hc]
  | some c =>
    rw [isPassed_of_getElem? hc, modeAt_add, hk]
    exact hinked.inside d (by omega) c (by rw [List.getElem?_drop, hc])

/-- No token begins in a comment. -/
theorem Resting.modeAt_of_match {t : Terminal} (hk : Resting text k)
    (h : t.match? (text.drop k) = some n) : modeAt text k = .code := by
  rcases hk with hcode | ⟨-, hline⟩
  · exact hcode
  · obtain ⟨c, rest, htext, hstarts⟩ := Terminal.exists_starts h
    have hc : text[k]? = some c := by
      rw [← List.head?_drop, htext, List.head?_cons]
    obtain rfl := hline c hc
    have hnone := Lexeme.ignored?_of_starts rest hstarts
    exact absurd hnone (Lexeme.ignored?_of_isSpace rfl)

/-- Blanks that stand at a resting place are passed over. A line feed may end a comment. -/
theorem Resting.spaces (hi : Resting text i) (hij : i ≤ j) (h : Spaces text i j) :
    (i < j → modeAt text j = .code) ∧ ∀ k, i ≤ k → k < j → isPassed text k = true := by
  induction hij with
  | refl => exact ⟨fun hlt => absurd hlt (Nat.lt_irrefl i), fun k hik hk => by omega⟩
  | @step j hij ih =>
    obtain ⟨hmode, hpassed⟩ := ih fun k hik hk => h k hik (Nat.lt_succ_of_lt hk)
    obtain ⟨c, hc, hspace⟩ := h j hij (Nat.lt_succ_self j)
    have hcode : (Cddl.modeAt text j).step c = .code ∧ (Cddl.modeAt text j).passes c = true := by
      have hstep : Mode.step .code c = .code := Mode.step_space hspace
      have hpass : Mode.passes .code c = true := by rw [Mode.passes, hspace, Bool.true_or]
      rcases Nat.lt_or_eq_of_le hij with hlt | rfl
      · rw [hmode hlt]
        exact ⟨hstep, hpass⟩
      · rcases hi with hcode | ⟨hcomment, hline⟩
        · rw [hcode]
          exact ⟨hstep, hpass⟩
        · rw [hcomment, hline c hc]
          exact ⟨rfl, rfl⟩
    refine ⟨fun _ => by rw [modeAt_succ hc, hcode.1], ?_⟩
    intro k hik hk
    rcases Nat.lt_succ_iff_lt_or_eq.mp hk with hlt | rfl
    · exact hpassed k hik hlt
    · rw [isPassed_of_getElem? hc, hcode.2]

/-- A comment is passed over from its mark on. -/
theorem modeAt_comment (hi : modeAt text i = .code) (hij : i < j) (hj : j ≤ text.length)
    (h : Comment text i j) :
    modeAt text j = .comment ∧ ∀ k, i ≤ k → k < j → isPassed text k = true := by
  induction hij with
  | refl =>
    refine ⟨by rw [modeAt_succ h.mark, hi]; rfl, ?_⟩
    intro k hik hk
    obtain rfl : k = i := by omega
    rw [isPassed_of_getElem? h.mark, hi]
    rfl
  | @step j hij ih =>
    obtain ⟨hmode, hpassed⟩ := ih (Nat.le_of_lt hj) ⟨h.mark, fun k hik hk => h.line k hik (by omega)⟩
    have hc : text[j]? = some text[j] := List.getElem?_eq_getElem hj
    have hne : text[j] ≠ '\n' := by
      intro heq
      exact h.line j (Nat.le_of_lt hij) (Nat.lt_succ_self j) (by rw [hc, heq])
    refine ⟨by rw [modeAt_succ hc, hmode, Mode.step, if_neg hne], ?_⟩
    intro k hik hk
    rcases Nat.lt_succ_iff_lt_or_eq.mp hk with hlt | rfl
    · exact hpassed k hik hlt
    · rw [isPassed_of_getElem? hc, hmode]
      rfl

/-- What is ignored is passed over, and leads to a resting place. -/
theorem Resting.ignored? (hi : Resting text i) (h : Lexeme.ignored? (text.drop i) = some n) :
    Resting text (i + n) ∧ ∀ j, i ≤ j → j < i + n → isPassed text j = true := by
  have hpos := Lexeme.ignored?_pos h
  have hle := Lexeme.ignored?_le h
  rw [List.length_drop] at hle
  rcases comment_or_spaces h with hspaces | ⟨hcomment, hline⟩
  · obtain ⟨hmode, hpassed⟩ := hi.spaces (Nat.le_add_right i n) hspaces
    exact ⟨.inl (hmode (Nat.lt_add_of_pos_right hpos)), hpassed⟩
  · have hcode : Cddl.modeAt text i = .code := by
      rcases hi with hcode | ⟨-, hend⟩
      · exact hcode
      · have hmark := hend ';' hcomment.mark
        contradiction
    obtain ⟨hmode, hpassed⟩ := modeAt_comment hcode (by omega) (by omega) hcomment
    exact ⟨.inr ⟨hmode, hline⟩, hpassed⟩

theorem Resting.ignored (h : Ignored text i j) (hi : Resting text i) :
    Resting text j ∧ ∀ k, i ≤ k → k < j → isPassed text k = true := by
  induction h with
  | done => exact ⟨hi, fun k hik hk => absurd hk (Nat.not_lt.mpr hik)⟩
  | @next i n j hn _ ih =>
    obtain ⟨hnext, hpassed⟩ := hi.ignored? hn
    obtain ⟨hj, hrest⟩ := ih hnext
    refine ⟨hj, ?_⟩
    intro k hik hk
    by_cases hlt : k < i + n
    · exact hpassed k hik hlt
    · exact hrest k (Nat.le_of_not_lt hlt) hk

/-- A place up to which something has been read: no literal and no comment is open there, and the
character before was read by a token. -/
def ReadTo (text : List Char) (k : Nat) : Prop :=
  modeAt text k = .code ∧ (0 < k → isPassed text (k - 1) = false)

namespace ReadTo

theorem zero : ReadTo text 0 := ⟨rfl, nofun⟩

theorem resting (h : ReadTo text k) : Resting text k := .inl h.1

/-- Behind blanks and a token something has been read. -/
theorem token {t : Terminal} (h : ReadTo text i) (hi : Ignored text i k)
    (hm : t.match? (text.drop k) = some n) : ReadTo text (k + n) := by
  have hresting : Resting text k := (Resting.ignored hi h.resting).1
  obtain ⟨hmode, hinside⟩ := modeAt_token (hresting.modeAt_of_match hm) hm
  have hpos := Terminal.match?_pos hm
  exact ⟨hmode, fun _ => hinside _ (by omega) (by omega)⟩

theorem tiled {ts : List Terminal} (h : Tiled text i ts j) (hi : ReadTo text i) :
    ReadTo text j := by
  induction h with
  | done => exact hi
  | token hblank hm _ ih => exact ih (hi.token hblank hm)

theorem not_ignored_beyond (hk : ReadTo text k) (hl : ReadTo text l) (hi : Ignored text k i)
    (hli : l ≤ i) : ¬ k < l := by
  intro hkl
  have hpassed := (Resting.ignored hi hk.resting).2 (l - 1) (by omega) (by omega)
  rw [hl.2 (by omega)] at hpassed
  contradiction

/-- At most one place where something has been read is followed by blanks up to a given offset. -/
theorem unique (hk : ReadTo text k) (hl : ReadTo text l) (hi : Ignored text k i)
    (hi' : Ignored text l i) : k = l := by
  have hkl := hk.not_ignored_beyond hl hi hi'.le
  have hlk := hl.not_ignored_beyond hk hi' hi.le
  omega

end ReadTo

theorem Item.modeAt {e : Edge} (h : Item text k e) : ReadTo text k := by
  induction h with
  | start p hp => exact .zero
  | predict p _ _ ih => exact ih
  | scan _ _ hi hm ih => exact ih.token hi hm
  | complete p _ _ _ _ ih' => exact ih'

theorem Item.resting {e : Edge} (h : Item text k e) : Resting text k := h.modeAt.resting

theorem Item.home_unique {d e : Edge} (hk : Item text k d) (hl : Item text l e)
    (hi : Ignored text k i) (hi' : Ignored text l i) : k = l :=
  hk.modeAt.unique hl.modeAt hi hi'

end Cddl

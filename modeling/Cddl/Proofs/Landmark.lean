import Mathlib.Data.List.Sort
import Cddl.Proofs.Layout
import Cddl.Proofs.Mode
import Cddl.Proofs.Neighbours

/-!
The landmarks of a text. Brackets, commas, colons, arrows and the signs between group choices are
spelled by characters that no other token holds outside quoted literals. So all ways to divide a
stretch of text into tokens of the grammar agree on them, however they read the words in between.
-/
namespace Cddl

namespace Lexeme

/-- The characters that landmarks begin with. -/
def signs : List Char := ['(', ')', '[', ']', '\x7b', '\x7d', ',', ':', '=', '/']

theorem mem_separators_of_mem_signs {c : Char} (h : c ∈ signs) : c ∈ separators := by
  have hall : signs.all separators.contains = true := by decide
  exact List.mem_of_elem_eq_true (List.all_eq_true.mp hall c h)

/-- Outside its quotes a literal holds none of the characters of landmarks. -/
theorem not_mem_signs_of_literal {quote c : Char} (base : List Char) {rest : List Char} {n j : Nat}
    (hq : quote = '"' ∨ quote = '\'') (hbase : ∀ d ∈ base, d ∉ separators)
    (h : literalTail? quote rest = some n) (hj : j < n + (base.length + 1))
    (hc : (base ++ quote :: rest)[j]? = some c)
    (hcode : Mode.after .code ((base ++ quote :: rest).take j) = .code) : c ∉ signs := by
  have hmarks : ∀ d ∈ base, d ∉ marks := by
    intro d hd hmem
    exact hbase d hd (List.mem_append_left _ hmem)
  have hle := Mode.le_of_code base hq hmarks h hj hcode
  intro hsign
  rcases Nat.lt_or_eq_of_le hle with hlt | rfl
  · rw [List.getElem?_append_left hlt] at hc
    exact hbase c (List.mem_of_getElem? hc) (mem_separators_of_mem_signs hsign)
  · rw [List.getElem?_append_right (Nat.le_refl _), Nat.sub_self, List.getElem?_cons_zero] at hc
    cases hc
    rcases hq with rfl | rfl
    · exact absurd hsign (by decide)
    · exact absurd hsign (by decide)

end Lexeme

namespace Terminal

def landmarks : List Terminal :=
  [openBrace, closeBrace, openParen, closeParen, openBracket, closeBracket, comma, colon, arrow,
    groupChoice]

def isLandmark (t : Terminal) : Bool := landmarks.contains t

/-- A character of a landmark stands at the front of its token, or behind the first slash of the
sign between group choices. -/
def SignAt (t : Terminal) (c : Char) (j : Nat) : Prop :=
  t.starts c = true ∧ (j = 0 ∨ t = .groupChoice ∧ j = 1)

instance (t : Terminal) (c : Char) (j : Nat) : Decidable (t.SignAt c j) :=
  inferInstanceAs (Decidable (_ ∧ _))

variable {t u : Terminal} {text : List Char} {c : Char} {n j : Nat}

theorem signAt_of_spelled {spellings : List (List Char)}
    (hs : ∀ s ∈ spellings, ∀ j, ∀ hj : j < s.length, s[j] ∈ Lexeme.signs → t.SignAt s[j] j)
    (h : Lexeme.spelled? spellings text = some n) (hj : j < n) (hc : text[j]? = some c)
    (hsign : c ∈ Lexeme.signs) : t.SignAt c j := by
  obtain ⟨s, hmem, rfl, rest, rfl⟩ := Lexeme.exists_of_spelled? h
  rw [List.getElem?_append_left hj, List.getElem?_eq_getElem hj] at hc
  cases hc
  exact hs s hmem j hj hsign

theorem signAt_of_match (ht : t ≠ .assign) (h : t.match? text = some n) (hj : j < n)
    (hc : text[j]? = some c) (hsign : c ∈ Lexeme.signs)
    (hcode : Mode.after .code (text.take j) = .code) : t.SignAt c j := by
  have hmem : c ∈ text.take n := List.mem_of_getElem? (by rw [List.getElem?_take_of_lt hj, hc])
  cases t with
  | name | number | occurrence | control | tag | major =>
    exact absurd (Lexeme.mem_separators_of_mem_signs hsign) (worded_match? rfl h c hmem)
  | assign => contradiction
  | text =>
    simp only [match?, Lexeme.text?] at h
    split at h
    next rest =>
      obtain ⟨m, hm, rfl⟩ := Option.map_eq_some_iff.mp h
      have hno := Lexeme.not_mem_signs_of_literal [] (.inl rfl) (List.forall_mem_nil _) hm hj hc hcode
      exact absurd hsign hno
    next => contradiction
  | bytes =>
    simp only [match?, Lexeme.bytes?] at h
    split at h
    next rest =>
      obtain ⟨m, hm, rfl⟩ := Option.map_eq_some_iff.mp h
      have hno := Lexeme.not_mem_signs_of_literal [] (.inr rfl) (List.forall_mem_nil _) hm hj hc hcode
      exact absurd hsign hno
    next rest =>
      obtain ⟨m, hm, rfl⟩ := Option.map_eq_some_iff.mp h
      have hbase : ∀ d ∈ ['h'], d ∉ Lexeme.separators := by
        simp [Lexeme.separators, Lexeme.marks]
      have hno := Lexeme.not_mem_signs_of_literal ['h'] (.inr rfl) hbase hm hj hc hcode
      exact absurd hsign hno
    next rest =>
      obtain ⟨m, hm, rfl⟩ := Option.map_eq_some_iff.mp h
      have hbase : ∀ d ∈ ['b', '6', '4'], d ∉ Lexeme.separators := by
        simp [Lexeme.separators, Lexeme.marks]
      have hno := Lexeme.not_mem_signs_of_literal ['b', '6', '4'] (.inr rfl) hbase hm hj hc hcode
      exact absurd hsign hno
    next => contradiction
  | _ => exact signAt_of_spelled (by decide) h hj hc hsign

/-- No other token begins like a landmark, but for a slash. -/
theorem eq_of_starts (ht : t ∈ landmarks) (hc : t.starts c = true) :
    c ∈ Lexeme.signs ∧ ∀ u : Terminal, u ≠ .assign → u.starts c = true →
      u = t ∨ t = .groupChoice ∧ u = .slash := by
  simp only [landmarks, List.mem_cons, List.not_mem_nil, or_false] at ht
  rcases ht with rfl | rfl | rfl | rfl | rfl | rfl | rfl | rfl | rfl | rfl
  all_goals
    simp only [starts, beq_iff_eq] at hc
    subst hc
    refine ⟨by decide, fun u => ?_⟩
    cases u <;> decide

end Terminal

/-! ### Tokens in a text -/

/-- The token is a match at its place, where no literal and no comment is open. -/
structure Token.Stands (text : List Char) (t : Token) : Prop where
  mode : modeAt text t.start = .code
  lt : t.start < t.stop
  matched : t.terminal.match? (text.drop t.start) = some (t.stop - t.start)

namespace Tokens

variable {text : List Char} {toks before after : List Token} {t : Token} {i j m : Nat} {c : Char}

theorem stands (h : Tokens text i toks j) (hi : modeAt text i = .code) :
    modeAt text j = .code ∧ ∀ t ∈ toks, t.Stands text := by
  induction h with
  | done => exact ⟨hi, nofun⟩
  | @token i k n j t toks hblank hm _ ih =>
    have hk := (Resting.ignored hblank (.inl hi)).1.modeAt_of_match hm
    obtain ⟨hj, hrest⟩ := ih (modeAt_token hk hm).1
    refine ⟨hj, fun u hu => ?_⟩
    rcases List.mem_cons.mp hu with rfl | hu
    · have hpos := Terminal.match?_pos hm
      refine ⟨hk, by simp only; omega, ?_⟩
      rw [Nat.add_sub_cancel_left]
      exact hm
    · exact hrest u hu

/-- Every character that is not passed over lies in a token. -/
theorem exists_at (h : Tokens text i toks j) (hi : modeAt text i = .code) (him : i ≤ m)
    (hmj : m < j) (hm : isPassed text m = false) :
    ∃ before t after, toks = before ++ t :: after ∧ t.start ≤ m ∧ m < t.stop ∧
      Tokens text t.stop after j := by
  induction h with
  | done => omega
  | @token i k n j t toks hblank hmatch hrest ih =>
    obtain ⟨hresting, hpassed⟩ := Resting.ignored hblank (.inl hi)
    rcases Nat.lt_or_ge m k with hlt | hge
    · rw [hpassed m him hlt] at hm
      contradiction
    rcases Nat.lt_or_ge m (k + n) with hlt | hge'
    · exact ⟨[], ⟨t, k, k + n⟩, toks, rfl, hge, hlt, hrest⟩
    · have hcode := (modeAt_token (hresting.modeAt_of_match hmatch) hmatch).1
      obtain ⟨before, u, after, rfl, hu⟩ := ih hcode hge' hmj
      exact ⟨⟨t, k, k + n⟩ :: before, u, after, rfl, hu⟩

end Tokens

theorem isPassed_of_sign {text : List Char} {m : Nat} {c : Char} (hc : text[m]? = some c)
    (hsign : c ∈ Lexeme.signs) (hcode : modeAt text m = .code) : isPassed text m = false := by
  have hnone : Lexeme.signs.any (Mode.passes .code) = false := by decide
  rw [isPassed_of_getElem? hc, hcode]
  exact Bool.eq_false_iff.mpr fun hpass => Lexeme.not_mem_of_any hnone hpass hsign

/-- The tokens divide the text up to an offset, and the grammar lets them follow each other. -/
structure Reading (text : List Char) (toks : List Token) (j : Nat) : Prop where
  tokens : Tokens text 0 toks j
  unassigned : ∀ t ∈ toks, t.terminal ≠ .assign
  chain : (toks.map Token.terminal).IsChain Terminal.MayPrecede

namespace Reading

variable {text : List Char} {toks toks' : List Token} {t : Token} {j m : Nat} {c : Char}

theorem stands (h : Reading text toks j) (ht : t ∈ toks) : t.Stands text :=
  (h.tokens.stands rfl).2 t ht

/-- The token that holds a character of a landmark. -/
theorem sign_at (h : Reading text toks j) (hm : m < j) (hc : text[m]? = some c)
    (hsign : c ∈ Lexeme.signs) (hcode : modeAt text m = .code) :
    ∃ before t after, toks = before ++ t :: after ∧ Tokens text t.stop after j ∧
      t.start ≤ m ∧ t.terminal.SignAt c (m - t.start) := by
  obtain ⟨before, t, after, rfl, hle, hlt, hafter⟩ :=
    h.tokens.exists_at rfl (Nat.zero_le m) hm (isPassed_of_sign hc hsign hcode)
  have hmem : t ∈ before ++ t :: after := by simp
  have ht := h.stands hmem
  refine ⟨before, t, after, rfl, hafter, hle, ?_⟩
  obtain ⟨d, rfl⟩ := Nat.exists_eq_add_of_le hle
  rw [modeAt_add, ht.mode] at hcode
  rw [← List.getElem?_drop] at hc
  rw [Nat.add_sub_cancel_left]
  exact Terminal.signAt_of_match (h.unassigned t hmem) ht.matched (by omega) hc hsign hcode

/-- Tokens of one reading do not overlap. -/
theorem eq_of_overlap (h : Reading text toks j) {u : Token} (ht : t ∈ toks) (hu : u ∈ toks)
    (hle : t.start ≤ u.start) (hlt : u.start < t.stop) : t = u := by
  let R : Token → Token → Prop := fun t u => t.stop ≤ u.start ∨ u.stop ≤ t.start
  have : Std.Symm R := ⟨fun _ _ => Or.symm⟩
  have hpairs : toks.Pairwise R := h.tokens.pairwise.imp Or.inl
  by_contra hne
  rcases hpairs.forall ht hu hne with hbefore | hbehind
  · omega
  · have hpos := (h.stands hu).lt
    omega

/-- Where two readings have a token of one terminal, they have the same one. -/
theorem eq_of_start {u : Token} (ht : t.Stands text) (hu : u.Stands text)
    (heq : u.terminal = t.terminal) (hstart : u.start = t.start) : u = t := by
  have hlength : some (u.stop - u.start) = some (t.stop - t.start) := by
    rw [← hu.matched, ← ht.matched, heq, hstart]
  have hstop : u.stop = t.stop := by
    have hlength := Option.some.inj hlength
    have htlt := ht.lt
    have hult := hu.lt
    omega
  cases u
  cases t
  simp_all

/-- The sign between group choices is two slashes. -/
theorem groupChoice_cases (ht : t.Stands text) (hg : t.terminal = .groupChoice) :
    t.stop = t.start + 2 ∧ ∃ rest, text.drop t.start = '/' :: '/' :: rest := by
  have hm := ht.matched
  rw [hg] at hm
  obtain ⟨hlength, rest, htext⟩ := Lexeme.eq_append_of_spelled? hm
  have hlt := ht.lt
  refine ⟨?_, rest, htext⟩
  simp only [List.length_cons, List.length_nil] at hlength
  omega

/-- A slash is not read where two of them stand: the token behind it would begin with the second. -/
theorem ne_slash_of_slashes {before after : List Token} {rest : List Char}
    (h : Reading text (before ++ t :: after) j) (hafter : Tokens text t.stop after j)
    (htext : text.drop t.start = '/' :: '/' :: rest) (hlt : t.start + 1 < j) :
    t.terminal ≠ .slash := by
  intro hslash
  have hs := h.stands (t := t) (by simp)
  have hstop : t.stop = t.start + 1 := by
    have hm := hs.matched
    rw [hslash] at hm
    obtain ⟨hlength, -⟩ := Lexeme.eq_append_of_spelled? hm
    have hpos := hs.lt
    simp only [List.length_cons, List.length_nil] at hlength
    omega
  have hnext : text.drop t.stop = '/' :: rest := by
    rw [hstop, ← List.drop_drop, htext]
    rfl
  obtain ⟨v, n, more, rfl, -, -, hv⟩ := hafter.cons_of_lt (by omega) hnext rfl
  have hchain := h.chain
  simp only [List.map_append, List.map_cons] at hchain
  have hprecede : t.terminal.MayPrecede v :=
    (List.isChain_cons_cons.mp (List.isChain_append.mp hchain).2.1).1
  have hassign := h.unassigned ⟨v, t.stop, t.stop + n⟩ (by simp)
  rw [hslash] at hprecede
  have hsigns : Terminal.groupChoice.starts '/' = true := rfl
  rcases (Terminal.eq_of_starts (by decide) hsigns).2 v hassign hv with hv | ⟨-, hv⟩
  · rw [hv] at hprecede
    exact Terminal.not_mayPrecede (by decide) hprecede
  · rw [hv] at hprecede
    exact Terminal.not_mayPrecede (by decide) hprecede

/-- A landmark of one reading is a landmark of every other. -/
theorem landmark_mem (h : Reading text toks j) (h' : Reading text toks' j) (ht : t ∈ toks)
    (hl : t.terminal ∈ Terminal.landmarks) : t ∈ toks' := by
  -- only the sign between group choices needs the induction, to which the first slash of one may
  -- seem to belong to another sign further in front
  induction hn : t.start using Nat.strong_induction_on generalizing toks toks' t with
  | _ n ih =>
    subst hn
    have hs := h.stands ht
    obtain ⟨-, hlt, hstop⟩ := h.tokens.bounds t ht
    obtain ⟨c, rest, htext, hstarts⟩ := Terminal.exists_starts hs.matched
    obtain ⟨hsign, hother⟩ := Terminal.eq_of_starts hl hstarts
    have hc : text[t.start]? = some c := by
      rw [← List.head?_drop, htext, List.head?_cons]
    obtain ⟨before, u, after, rfl, hafter, hle, hu, hplace⟩ :=
      h'.sign_at (by omega) hc hsign hs.mode
    have hmem : u ∈ before ++ u :: after := by simp
    have hus := h'.stands hmem
    rcases hother u.terminal (h'.unassigned u hmem) hu with heq | ⟨hg, hslash⟩
    · rcases hplace with hzero | ⟨hgroup, hone⟩
      · rw [← eq_of_start hs hus heq (by omega)]
        exact hmem
      · -- `u` would be a token of the first reading too, and overlap with `t` there
        have hmem' : u ∈ toks := by
          refine ih u.start (by omega) h' h hmem ?_ rfl
          rw [hgroup]
          decide
        have husd := groupChoice_cases hus hgroup
        rw [← h.eq_of_overlap hmem' ht hle (by omega)]
        exact hmem
    · obtain ⟨htwo, rest', htext'⟩ := groupChoice_cases hs hg
      have hstart : u.start = t.start := by
        rcases hplace with hzero | ⟨hgroup, -⟩
        · omega
        · rw [hslash] at hgroup
          contradiction
      rw [← hstart] at htext'
      exact absurd hslash (h'.ne_slash_of_slashes hafter htext' (by omega))

/-- All readings of a stretch of text have the same landmarks. -/
theorem landmarks_eq (h : Reading text toks j) (h' : Reading text toks' j) :
    toks.filter (·.terminal.isLandmark) = toks'.filter (·.terminal.isLandmark) := by
  let R : Token → Token → Prop := fun t u => t.start < u.start
  have : Std.Irrefl R := ⟨fun t => Nat.lt_irrefl t.start⟩
  have : Std.Antisymm R := ⟨fun t u htu hut => absurd htu (Nat.lt_asymm hut)⟩
  have hsorted : ∀ {l}, Reading text l j → (l.filter (·.terminal.isLandmark)).Pairwise R := by
    intro l hl
    refine List.Pairwise.filter _ (hl.tokens.pairwise.imp_of_mem ?_)
    intro t u ht _ hle
    exact Nat.lt_of_lt_of_le (hl.stands ht).lt hle
  refine (hsorted h).eq_of_mem_iff (hsorted h') fun t => ?_
  simp only [List.mem_filter, Terminal.isLandmark, List.contains_iff_mem]
  constructor
  · rintro ⟨ht, hl⟩
    exact ⟨h.landmark_mem h' ht hl, hl⟩
  · rintro ⟨ht, hl⟩
    exact ⟨h'.landmark_mem h ht hl, hl⟩

end Reading

end Cddl

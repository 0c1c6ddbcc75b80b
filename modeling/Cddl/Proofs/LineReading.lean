import Cddl.Proofs.LineEnding
import Cddl.Proofs.Margin
import Cddl.Proofs.Rejection

/-!
Chunks whose lines end with a carriage return as well. They are read alike: where a line feed stands
nothing is read, and at all other places what stands in the one chunk stands in the other. They are
rejected alike, too, unless a comment that nothing waits for is under way at the end of a line; such a
comment takes the carriage return with it, and the reading goes on over the blanks behind.
-/
namespace Cddl

open Front (GetsTo Lives Covered at? waitingAt)

variable {text : List Char} {h i k n u v : Nat} {e : Edge} {t : Terminal}

theorem columnAt_crlfAt (k : Nat) : columnAt (crlfAt text) k = crlfAt text k := by
  rcases Nat.eq_zero_or_pos k with rfl | hpos
  · rfl
  · exact columnAt_of_pos hpos

/-- No token begins at a line feed. -/
theorem ne_line_of_match (hm : t.match? (text.drop v) = some n) : text[v]? ≠ some '\n' := by
  intro hline
  obtain ⟨c, rest, htext, hstarts⟩ := Terminal.exists_starts hm
  rw [← List.head?_drop, htext, List.head?_cons, Option.some.injEq] at hline
  subst hline
  have hnone := Lexeme.ignored?_of_starts rest hstarts
  exact Lexeme.ignored?_of_isSpace rfl hnone

/-- A token in the text with carriage returns stands at a place that corresponds to one of the
text. -/
theorem exists_crlfAt_of_match (hm : t.match? ((crlf text).drop u) = some n) :
    ∃ v, u = crlfAt text v ∧ text[v]? ≠ some '\n' := by
  have hpos := Terminal.match?_pos hm
  have hle := Terminal.match?_le hm
  rw [List.length_drop] at hle
  obtain ⟨v, -, hbeside⟩ := exists_beside text (u := u) (by omega)
  have hvisible : Lexeme.ignored? ((crlf text).drop u) = none := by
    obtain ⟨c, rest, htext, hstarts⟩ := Terminal.exists_starts hm
    rw [htext]
    exact Lexeme.ignored?_of_starts rest hstarts
  have hv : text[v]? ≠ some '\n' := by
    intro hline
    obtain ⟨hlt, hget⟩ := List.getElem?_eq_some_iff.mp hline
    have hn : Lexeme.ignored? (text.drop v) = some (Lexeme.run Lexeme.isSpace (text.drop v)) := by
      rw [List.drop_eq_getElem_cons hlt, hget, Lexeme.ignored?_line]
    obtain ⟨m, hm', -⟩ := Lexeme.ignored?_beside hbeside hn
    rw [hvisible] at hm'
    contradiction
  exact ⟨v, hbeside.eq_of_ne hv, hv⟩

section

variable (hkeeps : Mode.keepsLines .code text = true)

include hkeeps

/-- Where a token may begin the same one is matched in both texts. -/
theorem match?_crlfAt (hrest : Resting text v) (hv : text[v]? ≠ some '\n') :
    t.match? ((crlf text).drop (crlfAt text v)) =
      (t.match? (text.drop v)).map (crlfAt (text.drop v)) := by
  rw [drop_crlf]
  apply Terminal.match?_crlf
  rcases hrest with hcode | ⟨-, hend⟩
  · have hdrop := Mode.keepsLines_drop (n := v) hkeeps
    rwa [← modeAt, hcode] at hdrop
  · -- a comment is open at the end of the text only
    have hnone : text[v]? = none := by
      cases hget : text[v]? with
      | none => rfl
      | some c => exact absurd (hget.trans (congrArg some (hend c hget))) hv
    rw [List.drop_eq_nil_of_le (List.getElem?_eq_none_iff.mp hnone)]
    rfl

/-- The same tokens stand at corresponding places. -/
theorem aligned_crlf : Aligned text (crlf text) (crlfAt text) := by
  constructor
  · exact strictMono_crlfAt text
  · intro h e v n t he hi hm
    have hv := ne_line_of_match hm
    refine ⟨crlfAt (text.drop v) n, ?_, ?_, crlfAt_add.symm⟩
    · rw [columnAt_crlfAt]
      exact (ignored_crlf_iff hv).mp hi
    · rw [match?_crlfAt hkeeps (he.resting.ignored hi).1 hv, hm, Option.map_some]
  · intro h e u m t he hi hm
    obtain ⟨v, rfl, hv⟩ := exists_crlfAt_of_match hm
    rw [columnAt_crlfAt, ← ignored_crlf_iff hv] at hi
    rw [match?_crlfAt hkeeps (he.resting.ignored hi).1 hv] at hm
    obtain ⟨n, hn, rfl⟩ := Option.map_eq_some_iff.mp hm
    exact ⟨v, n, rfl, hi, hn, crlfAt_add⟩

omit hkeeps in
theorem meets_crlf (hv : text[v]? ≠ some '\n') :
    Aligned.Meets text (crlf text) (crlfAt text) v (crlfAt text v) := by
  intro k e _
  rw [columnAt_crlfAt]
  exact ignored_crlf_iff hv

omit hkeeps in
theorem meets_crlf_end :
    Aligned.Meets text (crlf text) (crlfAt text) text.length (crlf text).length := by
  rw [length_crlf]
  exact meets_crlf (by simp)

theorem isRule_crlf_iff : IsRule text ↔ IsRule (crlf text) :=
  (aligned_crlf hkeeps).isRule_iff meets_crlf_end

theorem Tree.ofText_crlf {t : Tree} (ht : Tree.ofText text = .ok t) :
    Tree.ofText (crlf text) = .ok (t.relabel (crlfAt text)) :=
  (aligned_crlf hkeeps).ofText (fun k e he => (meets_crlf_end k e he).mp) ht

end

/-! ### Runs of spaces -/

/-- The first place at or behind an offset where no space stands. -/
def beyond (text : List Char) (i : Nat) : Nat := i + Lexeme.run Lexeme.isSpace (text.drop i)

theorem le_beyond (text : List Char) (i : Nat) : i ≤ beyond text i := Nat.le_add_right _ _

theorem getElem?_beyond {c : Char} (h : text[beyond text i]? = some c) : Lexeme.isSpace c = false := by
  rw [beyond, ← List.getElem?_drop] at h
  exact Lexeme.getElem?_run h

theorem beyond_ne_line : text[beyond text i]? ≠ some '\n' := by
  intro hline
  have hspace := getElem?_beyond hline
  contradiction

theorem spaces_beyond : Spaces text i (beyond text i) := by
  intro k hik hk
  obtain ⟨d, rfl⟩ := Nat.exists_eq_add_of_le hik
  rw [← List.getElem?_drop]
  exact Lexeme.getElem?_of_lt_run (Nat.lt_of_add_lt_add_left hk)

/-- A run of spaces ends at one place, wherever in it one begins. -/
theorem beyond_eq (hik : i ≤ k) (hk : k < beyond text i) : beyond text k = beyond text i := by
  have hspaces : Spaces text i (beyond text k) := by
    intro j hij hj
    rcases Nat.lt_or_ge j k with hjk | hkj
    · exact spaces_beyond j hij (by omega)
    · exact spaces_beyond j hkj hj
  rcases Nat.lt_trichotomy (beyond text k) (beyond text i) with hlt | heq | hgt
  · obtain ⟨c, hc, hspace⟩ := spaces_beyond (beyond text k) (by have := le_beyond text k; omega) hlt
    rw [getElem?_beyond hc] at hspace
    contradiction
  · exact heq
  · obtain ⟨c, hc, hspace⟩ := hspaces (beyond text i) (le_beyond text i) hgt
    rw [getElem?_beyond hc] at hspace
    contradiction

theorem lt_beyond {c : Char} (hc : text[i]? = some c) (hspace : Lexeme.isSpace c = true) :
    i < beyond text i := by
  obtain ⟨hi, hget⟩ := List.getElem?_eq_some_iff.mp hc
  rw [beyond, List.drop_eq_getElem_cons hi, Lexeme.run_cons_pos (by rwa [hget])]
  omega

/-- From a space on the run of spaces is ignored. -/
theorem ignored?_of_lt_beyond (h : i < beyond text i) :
    Lexeme.ignored? (text.drop i) = some (beyond text i - i) := by
  rw [beyond, Nat.add_sub_cancel_left]
  exact Lexeme.ignored?_spaces (by rw [beyond] at h; omega)

theorem ignored_beyond : Ignored text i (beyond text i) := by
  rcases Nat.lt_or_eq_of_le (le_beyond text i) with hlt | heq
  · refine .next (ignored?_of_lt_beyond hlt) ?_
    rw [Nat.add_sub_cancel' (Nat.le_of_lt hlt)]
    exact .done _
  · rw [← heq]
    exact .done _

theorem beyond_crlf : beyond (crlf text) (crlfAt text i) = crlfAt text (beyond text i) := by
  rw [beyond, drop_crlf, Lexeme.run_spaces_crlf, ← crlfAt_add, beyond]

/-- Behind a character that corresponds spaces follow where they follow in the text. -/
theorem spaces_crlf_beyond (text : List Char) (m : Nat) :
    Spaces (crlf text) (crlfAt text m + 1) (crlfAt text (beyond text (m + 1))) := by
  intro k hk hk'
  rcases Nat.lt_or_ge k (crlfAt text (m + 1)) with hkm | hmk
  · -- only the line feed behind a carriage return stands in between
    by_cases hline : text[m]? = some '\n'
    · rw [crlfAt_succ_line hline] at hkm
      obtain rfl : k = crlfAt text m + 1 := by omega
      exact ⟨'\n', getElem?_crlf_line hline, rfl⟩
    · rw [crlfAt_succ hline] at hkm
      omega
  · rw [← beyond_crlf] at hk'
    exact spaces_beyond k hmk hk'

/-! ### How far the reading gets -/

/-- Blanks behind which a line feed stands end in front of it only if they are a comment. In the text
with carriage returns such a comment is followed by the blanks from there on. -/
structure Spill (text : List Char) (x v : Nat) : Prop where
  comment : ∃ s n, GetsTo text s ∧ Lexeme.ignored? (text.drop s) = some n ∧ s + n = x
  le : x ≤ v
  lt : v < beyond text x

namespace Spill

variable {s x y : Nat}

/-- Blanks that take the carriage return with them are a comment. -/
theorem of_comment (hget : GetsTo text s) (hn : Lexeme.ignored? (text.drop s) = some n)
    (hb : Beside text (s + n) y) (hle : s + n ≤ v) (hlt : crlfAt text v < y) :
    Spill text (s + n) v := by
  cases hb with
  | same =>
    have hin := (strictMono_crlfAt text).lt_iff_lt.mp hlt
    omega
  | inside hline =>
    have hge := (strictMono_crlfAt text).le_iff_le.mp (Nat.le_of_lt_succ hlt)
    obtain rfl : v = s + n := Nat.le_antisymm hge hle
    exact ⟨⟨s, n, hget, hn, rfl⟩, Nat.le_refl _, lt_beyond hline rfl⟩

/-- Blanks that begin behind a comment end where the blanks behind it end. -/
theorem over_blanks (h : Spill text x s) (hn : Lexeme.ignored? (text.drop s) = some n)
    (hb : Beside text (s + n) y) (hsv : s < v) (hlt : crlfAt text v < y) : Spill text x v := by
  have hsame := beyond_eq h.le h.lt
  have hinside : s < beyond text s := hsame ▸ h.lt
  rw [ignored?_of_lt_beyond hinside, Option.some.injEq] at hn
  subst hn
  rw [Nat.add_sub_cancel' (Nat.le_of_lt hinside)] at hb
  rw [hb.eq_of_ne beyond_ne_line, hsame] at hlt
  have hle := h.le
  exact ⟨h.comment, by omega, (strictMono_crlfAt text).lt_iff_lt.mp hlt⟩

end Spill

section

variable (hkeeps : Mode.keepsLines .code text = true)

include hkeeps

theorem lives_crlf_iff (hv : text[v]? ≠ some '\n') :
    Lives text v ↔ Lives (crlf text) (crlfAt text v) :=
  (aligned_crlf hkeeps).lives_iff (meets_crlf hv)

/-- The reading of the text with carriage returns gets at least as far. -/
theorem getsTo_crlf (hget : GetsTo text v) : GetsTo (crlf text) (crlfAt text v) := by
  induction v using Nat.strong_induction_on with
  | _ v ih =>
    rcases Front.getsTo_iff.mp hget with hlives | hcovered
    · -- from a line feed the blanks lead on to a place where the texts agree
      have hbehind := hlives.of_ignored ignored_beyond
      have hnext := (lives_crlf_iff hkeeps beyond_ne_line).mp hbehind
      exact hnext.getsTo.of_le ((strictMono_crlfAt text).monotone (le_beyond text v))
    · cases hcovered with
      | @blanks s n hs hsv hn hlt =>
        obtain ⟨m, hm, hbeside⟩ := Lexeme.ignored?_beside .same hn
        have hle := hbeside.le.1
        have hmono := strictMono_crlfAt text hlt
        exact (ih s hsv hs).over_blanks hm (by omega)
      | @token s n w t hw ht hsv hm hlt =>
        have hs := ne_line_of_match hm
        have hwaits := (aligned_crlf hkeeps).waits hw ((meets_crlf hs _ _ hw.item).mp hw.ignored)
        have hresting := (hw.item.resting.ignored hw.ignored).1
        have hmatch := match?_crlfAt hkeeps hresting hs (t := t)
        rw [hm, Option.map_some] at hmatch
        have hlives := Front.lives_of_match hwaits ht hmatch
        rw [← crlfAt_add] at hlives
        exact hlives.getsTo.of_le ((strictMono_crlfAt text).monotone (Nat.le_of_lt hlt))

/-- It gets further only over blanks behind a comment. -/
theorem getsTo_or_spill (hget : GetsTo (crlf text) (crlfAt text v)) :
    GetsTo text v ∨ ∃ x, Spill text x v := by
  induction v using Nat.strong_induction_on with
  | _ v ih =>
    rcases Front.getsTo_iff.mp hget with hlives | hcovered
    · left
      have hbehind := hlives.of_ignored ignored_beyond
      rw [beyond_crlf] at hbehind
      have hnext := (lives_crlf_iff hkeeps beyond_ne_line).mpr hbehind
      exact hnext.getsTo.of_le (le_beyond text v)
    · cases hcovered with
      | @blanks s' m hs hsv hm hlt =>
        have hpos := Lexeme.ignored?_pos hm
        have hle := Lexeme.ignored?_le hm
        rw [List.length_drop] at hle
        obtain ⟨s, -, hb⟩ := exists_beside text (u := s') (by omega)
        obtain ⟨hle', -, -⟩ := hb.le
        have hlt' : s < v := (strictMono_crlfAt text).lt_iff_lt.mp (by omega)
        cases hn : Lexeme.ignored? (text.drop s) with
        | none =>
          rw [Lexeme.ignored?_beside_none hb hn] at hm
          contradiction
        | some n =>
          obtain ⟨m', hm', hbeside⟩ := Lexeme.ignored?_beside hb hn
          obtain rfl := Option.some.inj (hm.symm.trans hm')
          rcases ih s hlt' (hs.of_le hle') with hgets | ⟨x, hx⟩
          · by_cases hin : v < s + n
            · exact .inl (hgets.over_blanks hn hin)
            · exact .inr ⟨_, .of_comment hgets hn hbeside (Nat.le_of_not_lt hin) hlt⟩
          · exact .inr ⟨x, hx.over_blanks hn hbeside hlt' hlt⟩
      | @token s' m w t hw ht hsv hm hlt =>
        left
        obtain ⟨s, rfl, hs⟩ := exists_crlfAt_of_match hm
        have hmem := Front.mem_waitingAt_iff.mpr hw
        rw [(aligned_crlf hkeeps).waitingAt_eq (meets_crlf hs)] at hmem
        obtain ⟨w, hwaiting, rfl⟩ := List.mem_map.mp hmem
        have hwaits := Front.mem_waitingAt_iff.mp hwaiting
        rw [match?_crlfAt hkeeps (hwaits.item.resting.ignored hwaits.ignored).1 hs] at hm
        obtain ⟨n, hn, rfl⟩ := Option.map_eq_some_iff.mp hm
        rw [← crlfAt_add] at hlt
        have hin := (strictMono_crlfAt text).lt_iff_lt.mp hlt
        have hnext : w.edge.next? = some (.terminal t) := by
          rwa [Waiting.relabel, Edge.next?_relabel] at ht
        have hlives := Front.lives_of_match hwaits hnext hn
        exact hlives.getsTo.of_le (Nat.le_of_lt hin)

end

/-! ### Where the texts are rejected -/

namespace Rejection

variable {c : Char}

/-- A space at which a reading ends is reported without anything that is expected; the reading had
gone on too long. -/
theorem late_of_space (hget : GetsTo text i) (hstop : ¬ GetsTo text (i + 1)) (hc : text[i]? = some c)
    (hspace : Lexeme.isSpace c = true) :
    Ends text (.unexpected i c []) ∧ Late text (.unexpected i c []) := by
  obtain ⟨hi, hchar⟩ := List.getElem?_eq_some_iff.mp hc
  have hblank : Lexeme.ignored? (text.drop i) ≠ none := by
    rw [List.drop_eq_getElem_cons hi, hchar]
    exact Lexeme.ignored?_of_isSpace hspace
  have hnone : expectedAt text i = [] := by
    rw [expectedAt, Front.waitingAt_eq_nil hstop hblank, List.filterMap_nil]
  obtain ⟨f, hf⟩ := hget
  have hmute := Front.mute_of_ignored hf hstop hblank
  have hnext : at? text (i + 1) = none := by
    cases hg : at? text (i + 1) with
    | none => rfl
    | some g => exact absurd ⟨g, hg⟩ hstop
  refine ⟨?_, rfl, Front.overrun_of_mute hnext hi hf hmute⟩
  rw [← hnone]
  exact .unexpected ⟨f, hf⟩ hstop hc

/-- The text with carriage returns is rejected at the same character, or behind it: the reading has
gone on too long there, and only spaces have been passed over. -/
inductive Kept (text : List Char) : Rejection → Rejection → Prop where
  | same (r) : Kept text r (r.relabel (crlfAt text))
  | later {m c u d} {expected : List Terminal} : Late (crlf text) (.unexpected u d []) →
      crlfAt text m < u → Spaces (crlf text) (crlfAt text m + 1) (u + 1) →
      Kept text (.unexpected m c expected) (.unexpected u d [])

/-- A reading that ends at a line feed ends between the two characters that stand for it. -/
theorem ends_at_line {m : Nat} (hm : text[m]? = some '\n')
    (hget : GetsTo (crlf text) (crlfAt text m))
    (hstop : ¬ GetsTo (crlf text) (crlfAt text (m + 1))) :
    Ends (crlf text) (.unexpected (crlfAt text m + 1) '\n' []) ∧
      Late (crlf text) (.unexpected (crlfAt text m + 1) '\n' []) := by
  rw [crlfAt_succ_line hm] at hstop
  have hlt := lt_beyond (getElem?_crlf_return hm) rfl
  have hspan : crlfAt text m + 2 ≤ beyond (crlf text) (crlfAt text m) := by
    rw [beyond_crlf, ← crlfAt_succ_line hm]
    exact (strictMono_crlfAt text).monotone (lt_beyond hm rfl)
  have hinside := hget.over_blanks (j := crlfAt text m + 1) (ignored?_of_lt_beyond hlt) (by omega)
  exact late_of_space hinside hstop (getElem?_crlf_line hm) rfl

variable (hkeeps : Mode.keepsLines .code text = true)

include hkeeps

/-- Where the reading of the text has ended, that of the text with carriage returns does not get past
the blanks. -/
theorem not_getsTo_beyond (hstop : ¬ GetsTo text i) (hlt : i < beyond text i) :
    ¬ GetsTo (crlf text) (crlfAt text (beyond text i)) := by
  intro hget
  rcases getsTo_or_spill hkeeps hget with hgets | ⟨x, hx⟩
  · exact hstop (hgets.of_le (Nat.le_of_lt hlt))
  · rcases Nat.lt_or_ge i x with hix | hxi
    · obtain ⟨s, n, hs, hn, rfl⟩ := hx.comment
      exact hstop (hs.over_blanks hn hix)
    · have hsame := beyond_eq hxi (Nat.lt_trans hlt hx.lt)
      have hbelow := hx.lt
      rw [hsame] at hbelow
      exact Nat.lt_irrefl _ hbelow

/-- Where a comment that nothing waits for is under way at the end of a line, the reading of the text
with carriage returns ends with the blanks behind it. -/
theorem exists_ends_beyond {m : Nat} (hstop : ¬ GetsTo text (m + 1))
    (hnext : GetsTo (crlf text) (crlfAt text (m + 1))) (hlt : m + 1 < beyond text (m + 1)) :
    ∃ u d, Ends (crlf text) (.unexpected u d []) ∧ Late (crlf text) (.unexpected u d []) ∧
      crlfAt text m < u ∧ Spaces (crlf text) (crlfAt text m + 1) (u + 1) := by
  have hspaces := spaces_crlf_beyond text m
  have hover := not_getsTo_beyond hkeeps hstop hlt
  have hm : crlfAt text m < crlfAt text (m + 1) := strictMono_crlfAt text (Nat.lt_succ_self m)
  have hmono := strictMono_crlfAt text hlt
  have hend : beyond (crlf text) (crlfAt text (m + 1)) = crlfAt text (beyond text (m + 1)) :=
    beyond_crlf
  obtain ⟨u, hu⟩ : ∃ u, crlfAt text (beyond text (m + 1)) = u + 1 :=
    ⟨crlfAt text (beyond text (m + 1)) - 1, by omega⟩
  rw [hu] at hmono hspaces hover
  obtain ⟨d, hd, hspace⟩ := hspaces u (by omega) (Nat.lt_succ_self u)
  have hget : GetsTo (crlf text) u := by
    refine hnext.over_blanks (ignored?_of_lt_beyond (by omega)) ?_
    rw [hend, hu]
    omega
  obtain ⟨hends, hlate⟩ := late_of_space hget hover hd hspace
  exact ⟨u, d, hends, hlate, by omega, hspaces⟩

theorem exists_ends_crlf {r : Rejection} (hr : r.Ends text) :
    ∃ s, s.Ends (crlf text) ∧ Kept text r s := by
  cases hr with
  | incomplete hend hnot =>
    refine ⟨_, ?_, .same _⟩
    rw [relabel, ← (aligned_crlf hkeeps).expectedAt_eq meets_crlf_end]
    refine .incomplete ?_ ?_
    · rw [length_crlf]
      exact getsTo_crlf hkeeps hend
    · rwa [← isRule_crlf_iff hkeeps]
  | @unexpected m c hget hstop hc =>
    have hget' := getsTo_crlf hkeeps hget
    by_cases hnext : GetsTo (crlf text) (crlfAt text (m + 1))
    · obtain ⟨x, hx⟩ := (getsTo_or_spill hkeeps hnext).resolve_left hstop
      have hinside : m + 1 < beyond text (m + 1) := beyond_eq hx.le hx.lt ▸ hx.lt
      obtain ⟨u, d, hends, hlate, hlt, hspaces⟩ := exists_ends_beyond hkeeps hstop hnext hinside
      exact ⟨_, hends, .later hlate hlt hspaces⟩
    · by_cases hline : c = '\n'
      · subst hline
        obtain ⟨hends, hlate⟩ := ends_at_line hc hget' hnext
        refine ⟨_, hends, .later hlate (Nat.lt_succ_self _) ?_⟩
        intro k hk hk'
        obtain rfl : k = crlfAt text m + 1 := by omega
        exact ⟨'\n', getElem?_crlf_line hc, rfl⟩
      · have hm : text[m]? ≠ some '\n' := by
          rw [hc]
          simpa using hline
        refine ⟨_, ?_, .same _⟩
        rw [crlfAt_succ hm] at hnext
        rw [relabel, ← (aligned_crlf hkeeps).expectedAt_eq (meets_crlf hm)]
        exact .unexpected hget' hnext (getElem?_crlf hc hline)

end Rejection

end Cddl

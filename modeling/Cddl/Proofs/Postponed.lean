import Cddl.Proofs.Viable

/-!
What has been read where a reading stops. At every place that is reached something waits, or a rule
is complete, so that the text up to there is the beginning of a rule; unless the place was reached
by blanks alone that nothing waits for. Such blanks begin at a semicolon inside a quoted literal and
go on past its end.
-/
namespace Cddl

/-! ### At every place something is called for -/

section

variable {text : List Char}

/-- An item moves on to where the next terminal of a derivation is called for. -/
theorem Item.move_to {syms : List Symbol} {xs : List Terminal} (hd : Derives syms xs)
    {ts us : List Terminal} {t : Terminal} (hx : xs = ts ++ t :: us) {i j : Nat} {e : Edge}
    {rest : List Symbol} (h : Item text i e) (hr : e.rest = syms ++ rest)
    (ht : Tiled text i ts j) : ∃ d, Item text j d ∧ d.next? = some (.terminal t) := by
  induction hd generalizing ts us i j e rest with
  | done => simp at hx
  | @terminal u syms xs _ ih =>
    obtain ⟨hn, hr⟩ := Edge.rest_eq_cons hr
    cases ts with
    | nil =>
      obtain ⟨rfl, -⟩ := List.cons.inj hx
      cases ht
      exact ⟨e, h, hn⟩
    | cons v ts =>
      obtain ⟨rfl, hxs⟩ := List.cons.inj hx
      cases ht with
      | token hi hm ht => exact ih hxs (h.scan hn hi hm) hr ht
  | @nonterminal syms xs ys p hp _ ih ih' =>
    obtain ⟨hn, hr⟩ := Edge.rest_eq_cons hr
    rcases List.append_eq_append_iff.mp hx with ⟨ts', rfl, hys⟩ | ⟨us', rfl, hus⟩
    · -- the terminal stands behind the constituent, which is read first
      obtain ⟨k, hxs, ht⟩ := ht.split
      have hread := Item.move hp (h.predict p hn) (List.append_nil _).symm hxs
      rw [Edge.fresh, Nat.zero_add] at hread
      exact ih' hys (h.complete p hn hread) hr ht
    · cases us' with
      | nil =>
        have hread := Item.move hp (h.predict p hn) (List.append_nil _).symm (by simpa using ht)
        rw [Edge.fresh, Nat.zero_add] at hread
        exact ih' (by simpa using hus.symm) (h.complete p hn hread) hr (.done _)
      | cons u us' =>
        obtain ⟨rfl, -⟩ := List.cons.inj hus
        exact ih rfl (h.predict p hn) (List.append_nil _).symm ht

/-- Where there is an item, some item calls for a terminal, or a rule ends. -/
theorem Item.goes_on {k : Nat} {e : Edge} (h : Item text k e) :
    (∃ d t, Item text k d ∧ d.next? = some (.terminal t)) ∨
      ∃ p, p.lhs = .rule ∧ Item text k (.finished 0 p) := by
  obtain ⟨ts, vs, ht, hd⟩ := h.viable
  obtain ⟨us, hus⟩ := exists_derives e.rest
  obtain ⟨p, hp, hp'⟩ := (hd us hus).exists_production
  have hstart : Item text 0 (.fresh 0 p) := .start p hp
  cases hxs : us ++ vs with
  | nil =>
    rw [hxs, List.append_nil] at hp'
    have hread := Item.move hp' hstart (List.append_nil _).symm ht
    rw [Edge.fresh, Nat.zero_add] at hread
    exact .inr ⟨p, hp, hread⟩
  | cons t us' =>
    rw [hxs] at hp'
    obtain ⟨d, hd, hn⟩ := Item.move_to hp' rfl hstart (List.append_nil _).symm ht
    exact .inl ⟨d, t, hd, hn⟩

end

namespace Front

variable {text : List Char} {i j s : Nat} {f g : Front} {q : Pending}

/-- Nothing waits at the front, and no rule is complete there. -/
def Mute (f : Front) : Prop := f.waiting = [] ∧ f.complete? = none

/-- The reading reaches the offset with something that can go on or end there. -/
def Lives (text : List Char) (i : Nat) : Prop := ∃ f, at? text i = some f ∧ ¬ f.Mute

theorem lives_of_item {e : Edge} (h : Item text i e) : Lives text i := by
  rcases h.goes_on with ⟨d, t, hd, hn⟩ | ⟨p, hp, hitem⟩
  · obtain ⟨f, hf, hs⟩ := stands_of_item hd
    refine ⟨f, hf, fun hmute => ?_⟩
    have hw := hs.waiting (by simp [Edge.terminal?_eq_some_iff.mpr hn])
    rw [hmute.1] at hw
    contradiction
  · obtain ⟨f, hf, hs⟩ := stands_of_item hitem
    refine ⟨f, hf, fun hmute => ?_⟩
    have hmem := hs.edge (by simp [Edge.terminal?, Edge.next?_finished])
    have hc := (stage_at? hf).ending p hp hmem
    rw [hmute.2] at hc
    contradiction

theorem not_mute (h : Lives text i) (hf : at? text i = some f) : ¬ f.Mute := by
  obtain ⟨g, hg, hlive⟩ := h
  rw [hf] at hg
  cases hg
  exact hlive

/-! ### Matches under way -/

/-- A match begins at the front: one of a terminal that something waits for, or blanks. -/
inductive Begins (text : List Char) (f : Front) (i : Nat) : Pending → Prop where
  | token {w t n} : w ∈ f.waiting → w.edge.next? = some (.terminal t) →
      t.match? (text.drop i) = some n → Begins text f i (.token w ⟨t, i, i + n⟩)
  | blanks {n} : Lexeme.ignored? (text.drop i) = some n →
      Begins text f i (.blanks (i + n) f.waiting f.complete?)

theorem begins_of_scan (h : q ∈ f.scan i (text.drop i)) : f.Begins text i q := by
  rcases List.mem_append.mp h with h | h
  · obtain ⟨w, hw, hq⟩ := List.mem_filterMap.mp h
    simp only [Option.bind_eq_bind, Option.bind_eq_some_iff, Option.pure_def,
      Option.some.injEq] at hq
    obtain ⟨t, ht, n, hn, rfl⟩ := hq
    exact .token hw (Edge.terminal?_eq_some_iff.mp ht) hn
  · obtain ⟨n, hn, rfl⟩ := List.mem_map.mp h
    exact .blanks (Option.mem_toList.mp hn)

theorem Begins.lt_stop (h : f.Begins text i q) : i < q.stop := by
  cases h with
  | token _ _ hm => exact Nat.lt_add_of_pos_right (Terminal.match?_pos hm)
  | blanks hn => exact Nat.lt_add_of_pos_right (Lexeme.ignored?_pos hn)

theorem Begins.stop_le (h : f.Begins text i q) (hi : i ≤ text.length) : q.stop ≤ text.length := by
  cases h with
  | token _ _ hm =>
    have hle := Terminal.match?_le hm
    rw [List.length_drop] at hle
    simp only [Pending.stop]
    omega
  | blanks hn =>
    have hle := Lexeme.ignored?_le hn
    rw [List.length_drop] at hle
    simp only [Pending.stop]
    omega

/-- A match that is pending began at a front before, and ends behind this one. -/
theorem exists_begins (hf : at? text i = some f) (hq : q ∈ f.pending) :
    ∃ s g, s < i ∧ at? text s = some g ∧ q ∈ g.matched s (text.drop s) ∧ g.Begins text s q ∧
      i < q.stop := by
  induction i generalizing f with
  | zero =>
    cases hf
    contradiction
  | succ i ih =>
    obtain ⟨g, hg, hstep⟩ := Option.bind_eq_some_iff.mp hf
    rw [eq_moved_of_step? hstep, Front.moved, enter_eq] at hq
    obtain ⟨hmem, hstop⟩ := List.mem_filter.mp hq
    have hne : q.stop ≠ i + 1 := by simpa using hstop
    rcases List.mem_append.mp hmem with hpending | hscan
    · obtain ⟨s, h, hs, hh, hm, hb, hlt⟩ := ih hg hpending
      exact ⟨s, h, by omega, hh, hm, hb, by omega⟩
    · have hb := begins_of_scan hscan
      have hlt := hb.lt_stop
      exact ⟨i, g, Nat.lt_succ_self i, hg, hmem, hb, by omega⟩

theorem at?_succ_of_ahead (hf : at? text i = some f)
    (hq : q ∈ f.matched i (text.drop i)) (hne : q.stop ≠ i + 1) :
    ∃ g, at? text (i + 1) = some g ∧ q ∈ g.pending := by
  have hmem : q ∈ f.ahead i (text.drop i) := List.mem_filter.mpr ⟨hq, by simpa using hne⟩
  refine ⟨f.moved i (text.drop i), ?_, hmem⟩
  rw [at?_succ hf, step?_eq, if_neg]
  intro hnone
  simp only [Bool.and_eq_true, List.isEmpty_iff] at hnone
  simp [hnone.2] at hmem

/-- A match keeps the reading going up to its end. -/
theorem reaches (hf : at? text i = some f) (hq : q ∈ f.matched i (text.drop i)) (hij : i < j)
    (hj : j < q.stop) : ∃ g, at? text j = some g ∧ q ∈ g.pending := by
  induction hij with
  | refl => exact at?_succ_of_ahead hf hq (by omega)
  | step _ ih =>
    obtain ⟨g, hg, hpending⟩ := ih (by omega)
    exact at?_succ_of_ahead hg (List.mem_append_left _ hpending) (by omega)

/-- A mute front is reached only because a match goes on. -/
theorem exists_pending (hf : at? text i = some f) (hmute : f.Mute) : ∃ q, q ∈ f.pending := by
  cases i with
  | zero =>
    have hlives : Lives text 0 := lives_of_item (.start .rulePlain rfl)
    exact absurd hmute (not_mute hlives hf)
  | succ i =>
    obtain ⟨g, hg, hstep⟩ := Option.bind_eq_some_iff.mp hf
    have hadmits := (stage_at? hg).admits_moved
    have hsize := (stage_at? hg).size
    obtain rfl := eq_moved_of_step? hstep
    by_contra hnone
    have hahead : g.ahead i (text.drop i) = [] :=
      List.eq_nil_iff_forall_not_mem.mpr fun q hq => hnone ⟨q, hq⟩
    rw [step?_eq, if_pos] at hstep
    · contradiction
    -- whatever arrived would wait there, or be complete
    simp only [Bool.and_eq_true, List.isEmpty_iff, Option.isNone_iff_eq_none, hahead, and_true]
    constructor
    · refine List.eq_nil_iff_forall_not_mem.mpr fun a ha => ?_
      cases a with
      | found d =>
        have hitem := (hadmits.found d ha).item
        rw [hsize] at hitem
        exact not_mute (lives_of_item hitem) hf hmute
      | carried w =>
        have hw := hadmits.carries ha
        rw [← Front.moved, hmute.1] at hw
        contradiction
    · by_contra hsome
      have hc : (g.moved i (text.drop i)).complete?.isSome :=
        Admits.carries_end (Option.isSome_iff_ne_none.mpr hsome)
      rw [hmute.2] at hc
      contradiction

theorem lives_of_token {w : Waiting} {t : Terminal} {n : Nat} (hf : at? text i = some f)
    (hw : w ∈ f.waiting) (ht : w.edge.next? = some (.terminal t))
    (hm : t.match? (text.drop i) = some n) : Lives text (i + n) := by
  have hwaits := (stage_at? hf).waiting w hw
  exact lives_of_item (hwaits.item.scan ht hwaits.ignored hm)

theorem lives_of_blanks {n : Nat} (hf : at? text i = some f) (hlives : ¬ f.Mute)
    (hn : Lexeme.ignored? (text.drop i) = some n) : Lives text (i + n) := by
  have hcarries : f.waiting ≠ [] ∨ f.complete?.isSome := by
    by_contra hnot
    obtain ⟨hwaiting, hcomplete⟩ := not_or.mp hnot
    exact hlives ⟨not_not.mp hwaiting, by simpa using hcomplete⟩
  obtain ⟨g, hg, hsub, hcomplete⟩ := read_blanks hf hn hcarries
  refine ⟨g, hg, fun hmute => ?_⟩
  rcases hcarries with hne | hsome
  · obtain ⟨w, hw⟩ := List.exists_mem_of_ne_nil _ hne
    have hw' := hsub hw
    rw [hmute.1] at hw'
    contradiction
  · have hsome' := hcomplete hsome
    rw [hmute.2] at hsome'
    contradiction

theorem le_of_lives (hnone : at? text (i + 1) = none) (h : Lives text j) : j ≤ i := by
  by_contra hlt
  obtain ⟨g, hg, -⟩ := h
  obtain ⟨f, hf⟩ := at?_isSome_of_le hg (Nat.lt_of_not_le hlt)
  rw [hnone] at hf
  contradiction

end Front

/-! ### Blanks in a text -/

namespace Lexeme

variable {text : List Char} {j n : Nat}

theorem getElem?_of_lt_run {p : Char → Bool} (h : j < run p text) :
    ∃ c, text[j]? = some c ∧ p c = true := by
  have hlt := Nat.lt_of_lt_of_le h (run_le p text)
  have hmem : text[j] ∈ text.take (run p text) :=
    List.mem_take_iff_getElem.mpr ⟨j, by omega, rfl⟩
  exact ⟨text[j], List.getElem?_eq_getElem hlt, of_mem_take_run hmem⟩

theorem getElem?_run {p : Char → Bool} {c : Char} (h : text[run p text]? = some c) :
    p c = false := by
  induction text with
  | nil => contradiction
  | cons d text ih =>
    by_cases hd : p d = true
    · rw [run_cons_pos hd, List.getElem?_cons_succ] at h
      exact ih h
    · rw [run_cons_neg hd, List.getElem?_cons_zero, Option.some.injEq] at h
      exact Bool.eq_false_iff.mpr (h ▸ hd)

theorem le_run {p : Char → Bool} (h : ∀ j < n, ∃ c, text[j]? = some c ∧ p c = true) :
    n ≤ run p text := by
  by_contra hlt
  obtain ⟨c, hc, hp⟩ := h (run p text) (Nat.lt_of_not_le hlt)
  rw [getElem?_run hc] at hp
  contradiction

end Lexeme

/-- All characters between two offsets are spaces. -/
def Spaces (text : List Char) (i j : Nat) : Prop :=
  ∀ k, i ≤ k → k < j → ∃ c, text[k]? = some c ∧ Lexeme.isSpace c = true

/-- From a semicolon on the text stays on its line up to an offset. -/
structure Comment (text : List Char) (i j : Nat) : Prop where
  mark : text[i]? = some ';'
  line : ∀ k, i ≤ k → k < j → text[k]? ≠ some '\n'

variable {text : List Char} {i j k n : Nat}

/-- What is ignored at an offset is spaces, or a comment to the end of its line. -/
theorem comment_or_spaces (h : Lexeme.ignored? (text.drop i) = some n) :
    Spaces text i (i + n) ∨
      Comment text i (i + n) ∧ ∀ c, text[i + n]? = some c → c = '\n' := by
  rcases Lexeme.ignored?_cases h with ⟨rest, htext, rfl⟩ | ⟨-, rfl, -⟩
  · right
    have hget : ∀ k, text[i + (k + 1)]? = rest[k]? := by
      intro k
      rw [← List.getElem?_drop, htext, List.getElem?_cons_succ]
    refine ⟨⟨?_, ?_⟩, ?_⟩
    · rw [← Nat.add_zero i, ← List.getElem?_drop, htext, List.getElem?_cons_zero]
    · intro k hik hk
      obtain ⟨d, rfl⟩ := Nat.exists_eq_add_of_le hik
      cases d with
      | zero =>
        rw [← List.getElem?_drop, htext, List.getElem?_cons_zero]
        decide
      | succ d =>
        rw [hget]
        have hlt : d < Lexeme.run (· != '\n') rest := by omega
        obtain ⟨c, hc, hp⟩ := Lexeme.getElem?_of_lt_run hlt
        rw [hc]
        simpa using hp
    · intro c hc
      rw [hget] at hc
      simpa using Lexeme.getElem?_run hc
  · left
    intro k hik hk
    obtain ⟨d, rfl⟩ := Nat.exists_eq_add_of_le hik
    rw [← List.getElem?_drop]
    exact Lexeme.getElem?_of_lt_run (by omega)

/-- From one offset to another there is a comment, or nothing, and then spaces. -/
def Hidden (text : List Char) (i j : Nat) : Prop :=
  ∃ m, i ≤ m ∧ m ≤ j ∧ (i < m → Comment text i m) ∧ Spaces text m j

/-- A terminal that matches a semicolon and more is that of a quoted literal. -/
theorem quoted_of_mark {t : Terminal} (hm : t.match? (text.drop i) = some n) (hik : i < k)
    (hk : k < i + n) (hmark : text[k]? = some ';') : t = .text ∨ t = .bytes := by
  have hin : ';' ∈ (text.drop i).take n := by
    refine List.mem_iff_getElem?.mpr ⟨k - i, ?_⟩
    rw [List.getElem?_take_of_lt (by omega), List.getElem?_drop, ← hmark]
    congr 1
    omega
  cases ht : t.isPlain with
  | true => exact absurd (by decide) (Terminal.plain_match? ht hm ';' hin)
  | false =>
    cases t with
    | text => exact .inl rfl
    | bytes => exact .inr rfl
    | openBrace | closeBrace | openParen | closeParen | openBracket | closeBracket =>
      obtain ⟨rfl, -⟩ := Lexeme.eq_append_of_spelled? hm
      simp only [List.length_singleton] at hk
      omega
    | _ => contradiction

/-- A token that is read in a text is a token of the rule that its beginning goes on to. -/
theorem Waits.isRuleOf_read {w : Waiting} {t : Terminal} (h : Waits text i w)
    (ht : w.edge.next? = some (.terminal t)) (hm : t.match? (text.drop i) = some n)
    (hlen : i + n ≤ text.length) :
    ∃ later toks, IsRuleOf (text.take (i + n) ++ '\n' :: later) toks ∧ ⟨t, i, i + n⟩ ∈ toks := by
  obtain ⟨ts, vs, htiled, hd⟩ := h.item.viable
  obtain ⟨toks, htoks, rfl⟩ := htiled.exists_tokens
  obtain ⟨xs, hxs⟩ := exists_derives w.edge.advance.rest
  have hderives := hd (t :: xs) (Edge.rest_of_next? ht ▸ .terminal hxs)
  have hread : Tokens text 0 (toks ++ [⟨t, i, i + n⟩]) (i + n) :=
    htoks.append (.token h.ignored hm (.done _))
  rw [← List.take_append_drop (i + n) text] at hread
  have hbehind : Ignored (text.take (i + n) ++ text.drop (i + n)) (i + n)
      (text.take (i + n)).length := by
    rw [List.length_take_of_le hlen]
    exact .done _
  have hrest : Derives [.nonterminal .rule]
      ((toks ++ [(⟨t, i, i + n⟩ : Token)]).map Token.terminal ++ (xs ++ vs)) := by
    simpa using hderives
  exact ⟨_, _, isRuleOf_cut hread hbehind hrest, by simp⟩

/-- A reading that stopped at `place` went on too long: in a literal, a token of the beginning of a
rule, there is a semicolon from which the text up to that place is a comment that reaches beyond the
literal, and then spaces. -/
structure Overrun (text : List Char) (place : Nat) (literal : Token) (k m : Nat) : Prop where
  quoted : literal.terminal = .text ∨ literal.terminal = .bytes
  token : ∃ w toks, IsRuleOf (text.take literal.stop ++ '\n' :: w) toks ∧ literal ∈ toks
  inside : literal.start < k ∧ k < literal.stop
  comment : Comment text k m
  beyond : literal.stop < m ∧ m ≤ place + 1
  spaces : Spaces text m (place + 1)

namespace Front

variable {s place : Nat} {f g : Front}

/-- Spaces that something waits for do not end a reading. -/
theorem not_spaces (hnone : at? text (place + 1) = none) (h : Lives text i) (hi : i ≤ place) :
    ¬ Spaces text i (place + 1) := by
  intro hspaces
  obtain ⟨g, hg, hlives⟩ := h
  have hrun : place + 1 - i ≤ Lexeme.run Lexeme.isSpace (text.drop i) := by
    refine Lexeme.le_run fun j hj => ?_
    rw [List.getElem?_drop]
    exact hspaces (i + j) (by omega) (by omega)
  have hfirst : ∀ rest, text.drop i ≠ ';' :: rest := by
    intro rest heq
    obtain ⟨c, hc, hspace⟩ := hspaces i (Nat.le_refl i) (by omega)
    rw [← Nat.add_zero i, ← List.getElem?_drop, heq, List.getElem?_cons_zero] at hc
    cases hc
    contradiction
  have hn : Lexeme.ignored? (text.drop i) =
      some (Lexeme.run Lexeme.isSpace (text.drop i)) := by
    rw [Lexeme.ignored?_of_ne hfirst, Lexeme.run?_eq_some_iff]
    exact ⟨rfl, by omega⟩
  have hle := le_of_lives hnone (lives_of_blanks hg hlives hn)
  omega

/-- Blanks that nothing waits for do not go beyond the place where the reading stops. -/
theorem stop_le {q : Pending} (hnone : at? text (place + 1) = none) (hg : at? text i = some g)
    (hq : q ∈ g.matched i (text.drop i)) (hi : i ≤ place) : q.stop ≤ place + 1 := by
  by_contra hlt
  obtain ⟨d, hd, -⟩ := reaches hg hq (Nat.lt_succ_of_le hi) (Nat.lt_of_not_le hlt)
  rw [hnone] at hd
  contradiction

/-- A mute front from which blanks lead to the place where the reading stops stands in a literal, or
was itself reached by such blanks. -/
theorem exists_overrun (hnone : at? text (place + 1) = none) (hplace : place < text.length)
    (hs : s ≤ place) (hf : at? text s = some f) (hmute : f.Mute)
    (hhidden : Hidden text s (place + 1)) : ∃ literal k m, Overrun text place literal k m := by
  induction s using Nat.strong_induction_on generalizing f with
  | _ s ih =>
    obtain ⟨q, hq⟩ := exists_pending hf hmute
    obtain ⟨a, g, has, hg, hmem, hbegins, hlt⟩ := exists_begins hf hq
    obtain ⟨m, hsm, hmp, hcomment, hspaces⟩ := hhidden
    cases hbegins with
    | @token w t n hw ht hm =>
      simp only [Pending.stop] at hlt
      have hlives := lives_of_token hg hw ht hm
      have hle := le_of_lives hnone hlives
      have hbeyond : a + n < m := by
        by_contra hnot
        exact not_spaces hnone hlives hle fun k hk hk' => hspaces k (by omega) hk'
      have hc := hcomment (by omega)
      have hwaits := (stage_at? hg).waiting w hw
      exact ⟨⟨t, a, a + n⟩, s, m, quoted_of_mark hm has hlt hc.mark,
        hwaits.isRuleOf_read ht hm (by omega), ⟨has, hlt⟩, hc, ⟨hbeyond, hmp⟩, hspaces⟩
    | @blanks n hn =>
      simp only [Pending.stop] at hlt
      have hcases := comment_or_spaces hn
      have hend : m ≤ a + n := by
        by_contra hnot
        have hc := hcomment (by omega)
        rcases hcases with hspaces' | ⟨-, hline⟩
        · obtain ⟨c, hget, hspace⟩ := hspaces' s (by omega) hlt
          rw [hc.mark] at hget
          cases hget
          contradiction
        · have hget : text[a + n]? = some text[a + n] := List.getElem?_eq_getElem (by omega)
          exact hc.line (a + n) (by omega) (by omega) (by rw [hget, hline _ hget])
      have htail : Spaces text (a + n) (place + 1) := fun k hk hk' => hspaces k (by omega) hk'
      by_cases hg' : g.Mute
      · have hle := stop_le hnone hg hmem (by omega)
        simp only [Pending.stop] at hle
        refine ih a has (by omega) hg hg' ?_
        rcases hcases with hspaces' | ⟨hc, -⟩
        · refine ⟨a, Nat.le_refl a, by omega, fun h => absurd h (Nat.lt_irrefl a), ?_⟩
          intro k hk hk'
          by_cases hkn : k < a + n
          · exact hspaces' k hk hkn
          · exact htail k (by omega) hk'
        · exact ⟨a + n, by omega, hle, fun _ => hc, htail⟩
      · have hlives := lives_of_blanks hg hg' hn
        exact absurd htail (not_spaces hnone hlives (le_of_lives hnone hlives))

/-- Where a reading stops at a mute front it has gone on too long. -/
theorem overrun_of_mute (hnone : at? text (place + 1) = none) (hplace : place < text.length)
    (hf : at? text place = some f) (hmute : f.Mute) :
    ∃ literal k m, Overrun text place literal k m := by
  obtain ⟨q, hq⟩ := exists_pending hf hmute
  obtain ⟨a, g, has, hg, hmem, hbegins, hlt⟩ := exists_begins hf hq
  have hle := stop_le hnone hg hmem (Nat.le_of_lt has)
  cases hbegins with
  | token hw ht hm =>
    have hle' := le_of_lives hnone (lives_of_token hg hw ht hm)
    exact absurd hlt (Nat.not_lt.mpr hle')
  | @blanks n hn =>
    simp only [Pending.stop] at hlt hle
    by_cases hg' : g.Mute
    · refine exists_overrun hnone hplace (Nat.le_of_lt has) hg hg' ?_
      have hstop : a + n = place + 1 := by omega
      rcases comment_or_spaces hn with hspaces | ⟨hc, -⟩
      · exact ⟨a, Nat.le_refl a, by omega, fun h => absurd h (Nat.lt_irrefl a), hstop ▸ hspaces⟩
      · refine ⟨place + 1, by omega, Nat.le_refl _, fun _ => hstop ▸ hc, ?_⟩
        intro k hk hk'
        omega
    · have hle' := le_of_lives hnone (lives_of_blanks hg hg' hn)
      omega

end Front

end Cddl

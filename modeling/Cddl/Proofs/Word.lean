import Mathlib.Data.List.DropRight
import Mathlib.Order.Bounds.Basic
import Cddl.Text.Word

/-!
Where the word under a cursor begins and ends. The stops on the two sides are described here by the
offsets at which they stand, without regard to how a word is scanned: a word begins behind the last
stop up to the cursor and ends at the first stop from the cursor on. The character under the cursor
counts on both sides, and a comma or an opening brace stops on one side only.
-/
namespace Cddl

namespace Word

/-- The offsets, the cursor's included, at which a word cannot go on to the left. -/
def leftStops (text : List Char) (o : Nat) : Set Nat :=
  {i | i ≤ o ∧ ∃ c ∈ [' ', '<', '>', '\x7b', '\x7d', '\n', '\r'], text[i]? = some c}

/-- The offsets, the cursor's included, at which a word cannot go on to the right. -/
def rightStops (text : List Char) (o : Nat) : Set Nat :=
  {i | o ≤ i ∧ ∃ c ∈ [' ', ',', '<', '>', '\x7d', '\n', '\r'], text[i]? = some c}

/-- The offset is the one behind the last stop up to the cursor, or the beginning of the text where
there is none. -/
def StartsAt (text : List Char) (o start : Nat) : Prop :=
  (∃ i, IsGreatest (leftStops text o) i ∧ start = i + 1) ∨ leftStops text o = ∅ ∧ start = 0

/-- The offset is the one of the first stop from the cursor on, or the end of the text where there is
none. -/
def StopsAt (text : List Char) (o stop : Nat) : Prop :=
  IsLeast (rightStops text o) stop ∨ rightStops text o = ∅ ∧ stop = text.length

variable {text : List Char} {c : Char} {o i k s t e : Nat} {w : Span}

/-! ### The characters of a word -/

theorem mem_slice_iff :
    c ∈ (⟨s, e⟩ : Span).slice text ↔ ∃ i, s ≤ i ∧ i < e ∧ text[i]? = some c := by
  simp only [Span.slice, Int.toNat_natCast, List.mem_iff_getElem?, List.getElem?_drop,
    List.getElem?_take]
  constructor
  · rintro ⟨k, hk⟩
    split at hk
    next hlt => exact ⟨s + k, Nat.le_add_right s k, hlt, hk⟩
    next => contradiction
  · rintro ⟨i, hsi, hie, hc⟩
    refine ⟨i - s, ?_⟩
    rw [Nat.add_sub_cancel' hsi, if_pos hie, hc]

/-- A stop on the left stops on the right as well, but for the opening brace. -/
theorem stopsRight_of_stopsLeft (h : stopsLeft c = true) : stopsRight c = true ∨ c = '\x7b' := by
  simp only [stopsLeft, stopsRight, Bool.or_eq_true, beq_iff_eq] at h ⊢
  tauto

/-- A stop on the right stops on the left as well, but for the comma. -/
theorem stopsLeft_of_stopsRight (h : stopsRight c = true) : stopsLeft c = true ∨ c = ',' := by
  simp only [stopsLeft, stopsRight, Bool.or_eq_true, beq_iff_eq] at h ⊢
  tauto

/-! ### The two ends -/

theorem mem_leftStops_iff :
    i ∈ leftStops text o ↔ i ≤ o ∧ ∃ c, text[i]? = some c ∧ stopsLeft c = true := by
  simp only [leftStops, Set.mem_ofPred_eq, stopsLeft, Bool.or_eq_true, beq_iff_eq, List.mem_cons,
    List.not_mem_nil, or_false, or_assoc, and_comm]

theorem mem_rightStops_iff :
    i ∈ rightStops text o ↔ o ≤ i ∧ ∃ c, text[i]? = some c ∧ stopsRight c = true := by
  simp only [rightStops, Set.mem_ofPred_eq, stopsRight, Bool.or_eq_true, beq_iff_eq, List.mem_cons,
    List.not_mem_nil, or_false, or_assoc, and_comm]

/-- Behind a stop or where the text begins, with no stop from there up to the cursor. -/
theorem startsAt_iff : StartsAt text o s ↔ s ≤ o + 1 ∧
    (s = 0 ∨ ∃ i c, s = i + 1 ∧ text[i]? = some c ∧ stopsLeft c = true) ∧
    ∀ i c, s ≤ i → i ≤ o → text[i]? = some c → stopsLeft c = false := by
  constructor
  · rintro (⟨i, ⟨hmem, hgreatest⟩, rfl⟩ | ⟨hempty, rfl⟩)
    · obtain ⟨hi, c, hc, hstop⟩ := mem_leftStops_iff.mp hmem
      refine ⟨Nat.succ_le_succ hi, .inr ⟨i, c, rfl, hc, hstop⟩, fun k d hk hko hd => ?_⟩
      by_contra hstop'
      have hle : k ≤ i := hgreatest (mem_leftStops_iff.mpr ⟨hko, d, hd, by simpa using hstop'⟩)
      omega
    · refine ⟨Nat.zero_le _, .inl rfl, fun k d _ hko hd => ?_⟩
      by_contra hstop'
      have hmem : k ∈ leftStops text o := mem_leftStops_iff.mpr ⟨hko, d, hd, by simpa using hstop'⟩
      simp [hempty] at hmem
  · rintro ⟨hle, hfront, hclear⟩
    have hbefore : ∀ k ∈ leftStops text o, k < s := fun k hk => by
      obtain ⟨hko, d, hd, hstop⟩ := mem_leftStops_iff.mp hk
      by_contra hge
      simp [hclear k d (Nat.le_of_not_lt hge) hko hd] at hstop
    rcases hfront with rfl | ⟨i, c, rfl, hc, hstop⟩
    · refine .inr ⟨Set.eq_empty_of_forall_notMem fun k hk => ?_, rfl⟩
      exact Nat.not_lt_zero k (hbefore k hk)
    · have hmem : i ∈ leftStops text o :=
        mem_leftStops_iff.mpr ⟨Nat.le_of_succ_le_succ hle, c, hc, hstop⟩
      exact .inl ⟨i, ⟨hmem, fun k hk => Nat.le_of_lt_succ (hbefore k hk)⟩, rfl⟩

/-- At a stop or where the text ends, with no stop from the cursor up to there. -/
theorem stopsAt_iff (ho : o ≤ text.length) : StopsAt text o e ↔ o ≤ e ∧
    (e = text.length ∨ ∃ c, text[e]? = some c ∧ stopsRight c = true) ∧
    ∀ i c, o ≤ i → i < e → text[i]? = some c → stopsRight c = false := by
  constructor
  · rintro (⟨hmem, hleast⟩ | ⟨hempty, rfl⟩)
    · obtain ⟨hoe, c, hc, hstop⟩ := mem_rightStops_iff.mp hmem
      refine ⟨hoe, .inr ⟨c, hc, hstop⟩, fun k d hok hk hd => ?_⟩
      by_contra hstop'
      have hle : e ≤ k := hleast (mem_rightStops_iff.mpr ⟨hok, d, hd, by simpa using hstop'⟩)
      omega
    · refine ⟨ho, .inl rfl, fun k d hok _ hd => ?_⟩
      by_contra hstop'
      have hmem : k ∈ rightStops text o :=
        mem_rightStops_iff.mpr ⟨hok, d, hd, by simpa using hstop'⟩
      simp [hempty] at hmem
  · rintro ⟨hoe, hback, hclear⟩
    have hbehind : ∀ k ∈ rightStops text o, e ≤ k := fun k hk => by
      obtain ⟨hok, d, hd, hstop⟩ := mem_rightStops_iff.mp hk
      by_contra hlt
      simp [hclear k d hok (Nat.lt_of_not_le hlt) hd] at hstop
    rcases hback with rfl | ⟨c, hc, hstop⟩
    · refine .inr ⟨Set.eq_empty_of_forall_notMem fun k hk => ?_, rfl⟩
      obtain ⟨-, d, hd, -⟩ := mem_rightStops_iff.mp hk
      have hlt := (List.getElem?_eq_some_iff.mp hd).1
      exact Nat.not_lt.mpr (hbehind k hk) hlt
    · exact .inl ⟨mem_rightStops_iff.mpr ⟨hoe, c, hc, hstop⟩, hbehind⟩

theorem StartsAt.unique (h : StartsAt text o s) (h' : StartsAt text o t) : s = t := by
  rcases h with ⟨i, hi, rfl⟩ | ⟨hempty, rfl⟩
  · rcases h' with ⟨k, hk, rfl⟩ | ⟨hempty, -⟩
    · rw [hi.unique hk]
    · exact absurd hi.1 (by simp [hempty])
  · rcases h' with ⟨k, hk, -⟩ | ⟨-, rfl⟩
    · exact absurd hk.1 (by simp [hempty])
    · rfl

theorem StopsAt.unique (h : StopsAt text o e) (h' : StopsAt text o t) : e = t := by
  rcases h with hleast | ⟨hempty, rfl⟩
  · rcases h' with hleast' | ⟨hempty, -⟩
    · exact hleast.unique hleast'
    · exact absurd hleast.1 (by simp [hempty])
  · rcases h' with hleast' | ⟨-, rfl⟩
    · exact absurd hleast'.1 (by simp [hempty])
    · rfl

/-- The text up to the cursor ends in a run without stops, behind a stop or the beginning. -/
theorem startsAt_of_append {front run : List Char} (h : text.take (o + 1) = front ++ run)
    (hfront : ∀ c, front.getLast? = some c → stopsLeft c = true)
    (hrun : ∀ c ∈ run, stopsLeft c = false) : StartsAt text o front.length := by
  have hget : ∀ i, i ≤ o → text[i]? = (front ++ run)[i]? := fun i hi => by
    rw [← h, List.getElem?_take, if_pos (Nat.lt_succ_of_le hi)]
  have hlength := congrArg List.length h
  rw [List.length_take, List.length_append] at hlength
  refine startsAt_iff.mpr ⟨by omega, ?_, fun i c hi hio hc => ?_⟩
  · rcases List.eq_nil_or_concat front with rfl | ⟨front, c, rfl⟩
    · exact .inl rfl
    · have hc : (front ++ [c] ++ run)[front.length]? = some c := by simp
      rw [List.concat_eq_append] at hget hfront hlength
      rw [List.length_append, List.length_singleton] at hlength
      refine .inr ⟨front.length, c, by simp, ?_, hfront c List.getLast?_concat⟩
      rw [hget _ (by omega), hc]
  · rw [hget i hio, List.getElem?_append_right hi] at hc
    exact hrun c (List.mem_of_getElem? hc)

/-- The text from the cursor on begins with a run without stops, in front of a stop or the end. -/
theorem stopsAt_of_append {run rest : List Char} (ho : o ≤ text.length)
    (h : text.drop o = run ++ rest) (hrest : ∀ c, rest.head? = some c → stopsRight c = true)
    (hrun : ∀ c ∈ run, stopsRight c = false) : StopsAt text o (o + run.length) := by
  have hget : ∀ k, text[o + k]? = (run ++ rest)[k]? := fun k => by
    rw [← h, List.getElem?_drop]
  have hlength := congrArg List.length h
  rw [List.length_drop, List.length_append] at hlength
  refine (stopsAt_iff ho).mpr ⟨Nat.le_add_right _ _, ?_, fun i c hi hlt hc => ?_⟩
  · cases rest with
    | nil =>
      rw [List.length_nil] at hlength
      exact .inl (by omega)
    | cons c rest => exact .inr ⟨c, by rw [hget]; simp, hrest c rfl⟩
  · obtain ⟨k, rfl⟩ := Nat.exists_eq_add_of_le hi
    rw [hget, List.getElem?_append_left (Nat.lt_of_add_lt_add_left hlt)] at hc
    exact hrun c (List.mem_of_getElem? hc)

/-! ### The scan -/

theorem startsAt_scan (text : List Char) (o : Nat) :
    StartsAt text o (min (o + 1) text.length - leftReach text o) := by
  have hsplit := List.rdropWhile_append_rtakeWhile (p := (!stopsLeft ·)) (l := text.take (o + 1))
  have hreach : leftReach text o = ((text.take (o + 1)).rtakeWhile (!stopsLeft ·)).length :=
    List.length_reverse.symm
  have hlength := congrArg List.length hsplit
  rw [List.length_append, ← hreach, List.length_take] at hlength
  rw [← hlength, Nat.add_sub_cancel]
  refine startsAt_of_append hsplit.symm (fun c hc => ?_) fun c hc => ?_
  · obtain ⟨hne, rfl⟩ := List.mem_getLast?_eq_getLast hc
    simpa using List.rdropWhile_last_not (!stopsLeft ·) _ hne
  · simpa using List.mem_rtakeWhile_imp hc

theorem stopsAt_scan (ho : o ≤ text.length) : StopsAt text o (o + rightReach text o) := by
  refine stopsAt_of_append ho List.takeWhile_append_dropWhile.symm (fun c hc => ?_) fun c hc => ?_
  · have hnot := List.head?_dropWhile_not (!stopsRight ·) (text.drop o)
    rw [hc] at hnot
    simpa using hnot
  · simpa using List.mem_takeWhile_imp hc

theorem exists_ends (ho : o ≤ text.length) : ∃ s e, StartsAt text o s ∧ StopsAt text o e :=
  ⟨_, _, startsAt_scan text o, stopsAt_scan ho⟩

/-- Inside the text the scan goes from the one end to the other, but not from a space. -/
theorem bounds?_eq (ho : o ≤ text.length) (hspace : text[o]? ≠ some ' ') (hs : StartsAt text o s)
    (he : StopsAt text o e) : bounds? text o = if s < e then some ⟨s, e⟩ else none := by
  have hinside : ¬ ((o : Int) < 0 ∨ (text.length : Int) < o) := by omega
  rw [bounds?, if_neg hinside, Int.toNat_natCast, around?, if_neg hspace,
    (startsAt_scan text o).unique hs, (stopsAt_scan ho).unique he]

theorem bounds?_eq_some_iff : bounds? text o = some w ↔
    o ≤ text.length ∧ text[o]? ≠ some ' ' ∧
      ∃ s e, StartsAt text o s ∧ StopsAt text o e ∧ s < e ∧ w = ⟨s, e⟩ := by
  by_cases ho : o ≤ text.length
  · by_cases hspace : text[o]? = some ' '
    · simp [bounds?, around?, hspace]
    · obtain ⟨s, e, hs, he⟩ := exists_ends ho
      rw [bounds?_eq ho hspace hs he]
      constructor
      · intro h
        split at h
        next hlt => exact ⟨ho, hspace, s, e, hs, he, hlt, (Option.some.inj h).symm⟩
        next => contradiction
      · rintro ⟨-, -, s', e', hs', he', hlt, rfl⟩
        rw [hs.unique hs', he.unique he', if_pos hlt]
  · have hbeyond : (text.length : Int) < o := by omega
    simp [bounds?, hbeyond, ho]

/-- There is no word on a character that stops on both sides. -/
theorem bounds?_of_stop (hc : text[o]? = some c) (hleft : stopsLeft c = true)
    (hright : stopsRight c = true) : bounds? text o = none := by
  refine Option.eq_none_iff_forall_ne_some.mpr fun w hw => ?_
  obtain ⟨ho, -, s, e, hs, he, hlt, -⟩ := bounds?_eq_some_iff.mp hw
  have hos : o < s := by
    by_contra hle
    have hclear := (startsAt_iff.mp hs).2.2 o c (Nat.le_of_not_lt hle) (Nat.le_refl o) hc
    simp [hleft] at hclear
  have hclear := ((stopsAt_iff ho).mp he).2.2 o c (Nat.le_refl o) (Nat.lt_trans hos hlt) hc
  simp [hright] at hclear

theorem atOffset?_of_stop (hc : text[o]? = some c) (hleft : stopsLeft c = true)
    (hright : stopsRight c = true) : atOffset? text o = none := by
  rw [atOffset?, bounds?_of_stop hc hleft hright, Option.map_none]

/-! ### Stability -/

/-- No character of a word stops on both sides: up to the cursor none stops on the left, and from it
on none stops on the right. -/
theorem not_both_stop (ho : o ≤ text.length) (hs : StartsAt text o s) (he : StopsAt text o e)
    (hc : c ∈ (⟨s, e⟩ : Span).slice text) : stopsLeft c = false ∨ stopsRight c = false := by
  obtain ⟨-, -, hleft⟩ := startsAt_iff.mp hs
  obtain ⟨-, -, hright⟩ := (stopsAt_iff ho).mp he
  obtain ⟨i, hsi, hie, hget⟩ := mem_slice_iff.mp hc
  rcases Nat.le_total i o with hio | hoi
  · exact .inl (hleft i c hsi hio hget)
  · exact .inr (hright i c hoi hie hget)

/-- The stretch of a text stands between two stops or ends of the text, and holds no stop. -/
structure Delimited (text : List Char) (s e : Nat) : Prop where
  front : s = 0 ∨ ∃ i c, s = i + 1 ∧ text[i]? = some c ∧ stopsLeft c = true
  back : e = text.length ∨ ∃ c, text[e]? = some c ∧ stopsRight c = true
  clear : ∀ c ∈ (⟨s, e⟩ : Span).slice text, stopsLeft c = false ∧ stopsRight c = false

namespace Delimited

theorem le_length (h : Delimited text s e) : e ≤ text.length := by
  rcases h.back with rfl | ⟨c, hc, -⟩
  · exact Nat.le_refl _
  · exact Nat.le_of_lt (List.getElem?_eq_some_iff.mp hc).1

/-- The stretch is the word under the cursor, wherever in it the cursor is. -/
theorem bounds?_eq (h : Delimited text s e) (hsk : s ≤ k) (hke : k < e) :
    bounds? text k = some ⟨s, e⟩ := by
  have hk : k < text.length := Nat.lt_of_lt_of_le hke h.le_length
  have hclear : ∀ i d, s ≤ i → i < e → text[i]? = some d →
      stopsLeft d = false ∧ stopsRight d = false := fun i d hsi hie hd =>
    h.clear d (mem_slice_iff.mpr ⟨i, hsi, hie, hd⟩)
  have hspace : text[k]? ≠ some ' ' := fun hget =>
    absurd (hclear k ' ' hsk hke hget).1 (by decide)
  refine bounds?_eq_some_iff.mpr ⟨Nat.le_of_lt hk, hspace, s, e, startsAt_iff.mpr ?_,
    (stopsAt_iff (Nat.le_of_lt hk)).mpr ?_, Nat.lt_of_le_of_lt hsk hke, rfl⟩
  · exact ⟨Nat.le_succ_of_le hsk, h.front, fun i d hsi hik hd =>
      (hclear i d hsi (Nat.lt_of_le_of_lt hik hke) hd).1⟩
  · exact ⟨Nat.le_of_lt hke, h.back, fun i d hki hie hd =>
      (hclear i d (Nat.le_trans hsk hki) hie hd).2⟩

end Delimited

/-- A word is found from each of its characters if and only if none of them is a stop. -/
theorem found_throughout_iff (ho : o ≤ text.length) (hs : StartsAt text o s)
    (he : StopsAt text o e) :
    (∀ i, (⟨s, e⟩ : Span).contains i = true → bounds? text i = some ⟨s, e⟩) ↔
      ∀ c ∈ (⟨s, e⟩ : Span).slice text, stopsLeft c = false ∧ stopsRight c = false := by
  constructor
  · intro hall c hc
    obtain ⟨i, hsi, hie, hget⟩ := mem_slice_iff.mp hc
    have hfound := hall i (Span.contains_iff.mpr ⟨Int.ofNat_le.mpr hsi, Int.ofNat_lt.mpr hie⟩)
    -- the character is the one under the cursor of its own scan, which stops at no other place
    obtain ⟨hi, -, s', e', hs', he', -, heq⟩ := bounds?_eq_some_iff.mp hfound
    rw [Span.mk.injEq, Int.natCast_inj, Int.natCast_inj] at heq
    obtain ⟨rfl, rfl⟩ := heq
    exact ⟨(startsAt_iff.mp hs').2.2 i c hsi (Nat.le_refl i) hget,
      ((stopsAt_iff hi).mp he').2.2 i c (Nat.le_refl i) hie hget⟩
  · intro hclear i hi
    obtain ⟨hsi, hie⟩ := Span.contains_iff.mp hi
    obtain ⟨k, rfl⟩ := Int.eq_ofNat_of_zero_le (Int.le_trans (Int.natCast_nonneg s) hsi)
    have hdelimited : Delimited text s e :=
      ⟨(startsAt_iff.mp hs).2.1, ((stopsAt_iff ho).mp he).2.1, hclear⟩
    exact hdelimited.bounds?_eq (Int.ofNat_le.mp hsi) (Int.ofNat_lt.mp hie)

/-- The characters that stop on one side only are the only stops that a word can hold. -/
theorem clear_iff (ho : o ≤ text.length) (hs : StartsAt text o s) (he : StopsAt text o e) :
    (∀ c ∈ (⟨s, e⟩ : Span).slice text, stopsLeft c = false ∧ stopsRight c = false) ↔
      ',' ∉ (⟨s, e⟩ : Span).slice text ∧ '\x7b' ∉ (⟨s, e⟩ : Span).slice text := by
  constructor
  · intro hclear
    exact ⟨fun hmem => absurd (hclear ',' hmem).2 (by decide),
      fun hmem => absurd (hclear '\x7b' hmem).1 (by decide)⟩
  · rintro ⟨hcomma, hbrace⟩ c hc
    rcases not_both_stop ho hs he hc with hleft | hright
    · refine ⟨hleft, Bool.eq_false_iff.mpr fun hstop => ?_⟩
      rcases stopsLeft_of_stopsRight hstop with hleft' | rfl
      · simp [hleft] at hleft'
      · exact hcomma hc
    · refine ⟨Bool.eq_false_iff.mpr fun hstop => ?_, hright⟩
      rcases stopsRight_of_stopsLeft hstop with hright' | rfl
      · simp [hright] at hright'
      · exact hbrace hc

/-- The scan is exactly its two-sided definition. There is no word outside the text or on a space;
elsewhere it reaches from behind the last stop up to the cursor to the first stop from the cursor on,
and there is none if nothing is left between them. A word is found from each of its characters if and
only if it holds none of the two that stop on one side only. -/
theorem bounds?_between_stops (text : List Char) (o : Int) :
    (o < 0 ∨ text.length < o ∨ text[o.toNat]? = some ' ' → bounds? text o = none) ∧
    (0 ≤ o → o ≤ text.length → text[o.toNat]? ≠ some ' ' →
      ∃ s e, StartsAt text o.toNat s ∧ StopsAt text o.toNat e ∧
        bounds? text o = if s < e then some ⟨s, e⟩ else none) ∧
    ∀ w, bounds? text o = some w →
      ((∀ i, w.contains i = true → bounds? text i = some w) ↔
        ',' ∉ w.slice text ∧ '\x7b' ∉ w.slice text) := by
  rcases lt_or_ge o 0 with hneg | hnonneg
  · have hnone : bounds? text o = none := by rw [bounds?, if_pos (.inl hneg)]
    refine ⟨fun _ => hnone, fun hnonneg => absurd hneg (Int.not_lt.mpr hnonneg), fun w hw => ?_⟩
    rw [hnone] at hw
    contradiction
  · obtain ⟨n, rfl⟩ := Int.eq_ofNat_of_zero_le hnonneg
    rw [Int.toNat_natCast]
    refine ⟨fun hor => Option.eq_none_iff_forall_ne_some.mpr fun w hw => ?_, ?_, fun w hw => ?_⟩
    · obtain ⟨hn, hspace, -⟩ := bounds?_eq_some_iff.mp hw
      rcases hor with hneg | hbeyond | hget
      · omega
      · omega
      · exact hspace hget
    · intro _ hn hspace
      obtain ⟨s, e, hs, he⟩ := exists_ends (Int.ofNat_le.mp hn)
      exact ⟨s, e, hs, he, bounds?_eq (Int.ofNat_le.mp hn) hspace hs he⟩
    · obtain ⟨hn, -, s, e, hs, he, -, rfl⟩ := bounds?_eq_some_iff.mp hw
      rw [found_throughout_iff hn hs he, clear_iff hn hs he]

/-- A list of parameters: the comma belongs to the word behind it, and ends the one in front. -/
def listedText : List Char := ['m', '<', 't', ',', 'v', '>']

theorem bounds?_between_stops_listed :
    bounds? listedText 4 = some ⟨2, 5⟩ ∧ bounds? listedText 3 = some ⟨2, 3⟩ ∧
    (∃ s e, StartsAt listedText 4 s ∧ StopsAt listedText 4 e ∧
      bounds? listedText 4 = if s < e then some ⟨s, e⟩ else none) ∧
    bounds? listedText 7 = none ∧
    ¬ ∀ i, (⟨2, 5⟩ : Span).contains i = true → bounds? listedText i = some ⟨2, 5⟩ := by
  have hword : bounds? listedText 4 = some ⟨2, 5⟩ := by decide
  obtain ⟨-, hends, hthroughout⟩ := bounds?_between_stops listedText 4
  refine ⟨hword, by decide, hends (by decide) (by decide) (by decide),
    (bounds?_between_stops listedText 7).1 (.inr (.inl (by decide))), fun hall => ?_⟩
  exact ((hthroughout _ hword).mp hall).1 (by decide)

end Word

end Cddl

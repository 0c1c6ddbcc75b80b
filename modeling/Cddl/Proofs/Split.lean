import Cddl.Document.Chunk

/-!
Where the chunks of a text lie: the offsets at which they begin increase, and each chunk is a
stretch of the text that is not empty.
-/
namespace Cddl.Chunk

theorem mem_heads {skip depth : Nat} {lineStart : Bool} {i k : Nat} {text : List Char}
    (h : k ∈ heads skip depth lineStart i text) : i ≤ k ∧ k < i + text.length := by
  fun_induction heads skip depth lineStart i text with
  | case1 => contradiction
  | case2 skip depth lineStart i c rest ih =>
    have := ih h
    simp only [List.length_cons]
    omega
  | case3 depth lineStart i c rest ih =>
    simp only [List.length_cons]
    rcases List.mem_append.mp h with h | h
    · split at h
      · rw [List.mem_singleton.mp h]
        omega
      · contradiction
    · have := ih h
      omega

theorem pairwise_heads (skip depth : Nat) (lineStart : Bool) (i : Nat) (text : List Char) :
    (heads skip depth lineStart i text).Pairwise (· < ·) := by
  fun_induction heads skip depth lineStart i text with
  | case1 => exact .nil
  | case2 _ _ _ _ _ _ ih => exact ih
  | case3 depth lineStart i c rest ih =>
    refine List.pairwise_append.mpr ⟨?_, ih, ?_⟩
    · split
      · exact List.pairwise_singleton _ _
      · exact .nil
    · intro a ha b hb
      have := mem_heads hb
      split at ha
      · rw [List.mem_singleton.mp ha]
        omega
      · contradiction

theorem mem_starts {text : List Char} {k : Nat} (h : k ∈ starts text) : k < text.length := by
  simp only [starts] at h
  split at h
  next => simpa using (mem_heads h).2
  next hvoid =>
    rcases List.mem_cons.mp h with rfl | h
    · cases text with
      | nil => exact absurd rfl hvoid
      | cons => simp
    · simpa using (mem_heads h).2

theorem pairwise_starts (text : List Char) : (starts text).Pairwise (· < ·) := by
  have hp := pairwise_heads 0 0 true 0 text
  simp only [starts]
  split
  next => exact hp
  next hvoid =>
    refine List.pairwise_cons.mpr ⟨fun k hk => ?_, hp⟩
    cases hr : heads 0 0 true 0 text with
    | nil => simp [hr] at hk
    | cons first rest =>
      -- a rule at the very beginning would leave nothing before it
      have hpos : 0 < first := by
        rcases Nat.eq_zero_or_pos first with rfl | hpos
        · simp [hr, Blank.isVoid] at hvoid
        · exact hpos
      rw [hr] at hk hp
      rcases List.mem_cons.mp hk with rfl | hk
      · exact hpos
      · exact Nat.lt_trans hpos ((List.pairwise_cons.mp hp).1 k hk)

theorem mem_between {stop : Nat} {l : List Nat} (hp : l.Pairwise (· < ·)) (hl : ∀ k ∈ l, k < stop)
    {c : Chunk} (hc : c ∈ between stop l) : c.start ∈ l ∧ c.start < c.stop ∧ c.stop ≤ stop := by
  fun_induction between stop l with
  | case1 => contradiction
  | case2 start =>
    rw [List.mem_singleton.mp hc]
    exact ⟨by simp, hl start (by simp), Nat.le_refl _⟩
  | case3 start next rest ih =>
    obtain ⟨hstart, hrest⟩ := List.pairwise_cons.mp hp
    rcases List.mem_cons.mp hc with rfl | hc
    · exact ⟨by simp, hstart next (by simp), Nat.le_of_lt (hl next (by simp))⟩
    · obtain ⟨hmem, hlt, hle⟩ := ih hrest (fun k hk => hl k (List.mem_cons_of_mem _ hk)) hc
      exact ⟨List.mem_cons_of_mem _ hmem, hlt, hle⟩

theorem pairwise_between {stop : Nat} {l : List Nat} (hp : l.Pairwise (· < ·))
    (hl : ∀ k ∈ l, k < stop) : (between stop l).Pairwise fun c d => c.stop ≤ d.start := by
  fun_induction between stop l with
  | case1 => exact .nil
  | case2 => exact List.pairwise_singleton _ _
  | case3 start next rest ih =>
    have hrest := (List.pairwise_cons.mp hp).2
    have hlrest : ∀ k ∈ next :: rest, k < stop := fun k hk => hl k (List.mem_cons_of_mem _ hk)
    refine .cons (fun d hd => ?_) (ih hrest hlrest)
    -- every later chunk begins at a start that is not before the next one
    have hmem := (mem_between hrest hlrest hd).1
    rcases List.mem_cons.mp hmem with heq | hmem
    · exact Nat.le_of_eq heq.symm
    · exact Nat.le_of_lt ((List.pairwise_cons.mp hrest).1 _ hmem)

/-- The chunks of a text stand behind each other. -/
theorem pairwise_split (text : List Char) :
    (split text).Pairwise fun c d => c.stop ≤ d.start :=
  pairwise_between (pairwise_starts text) fun _ hk => mem_starts hk

/-- A chunk is a stretch of its text, and not empty. -/
theorem bounds_of_mem_split {text : List Char} {c : Chunk} (h : c ∈ split text) :
    c.start < c.stop ∧ c.stop ≤ text.length :=
  (mem_between (pairwise_starts text) (fun _ hk => mem_starts hk) h).2

theorem line_of_mem_heads {skip depth : Nat} {lineStart : Bool} {i k : Nat} {text : List Char}
    (hskip : skip = 0 ∨ lineStart = false) (h : k ∈ heads skip depth lineStart i text) :
    k = i ∧ lineStart = true ∨ i < k ∧ text[k - i - 1]? = some '\n' := by
  fun_induction heads skip depth lineStart i text with
  | case1 => contradiction
  | case2 skip depth lineStart i c rest ih =>
    obtain rfl : lineStart = false := by simpa using hskip
    rcases ih (.inr rfl) h with ⟨-, hline⟩ | ⟨hlt, hget⟩
    · contradiction
    · refine .inr ⟨by omega, ?_⟩
      rw [show k - i - 1 = (k - (i + 1) - 1) + 1 by omega, List.getElem?_cons_succ]
      exact hget
  | case3 depth lineStart i c rest ih =>
    rcases List.mem_append.mp h with h | h
    · split at h
      next hcond =>
        simp only [Bool.and_eq_true] at hcond
        exact .inl ⟨List.mem_singleton.mp h, hcond.1.1⟩
      next => contradiction
    · -- nothing is passed over behind a line feed
      have hunread : unread c rest = 0 ∨ (c == '\n') = false := by
        by_cases hc : c = '\n'
        · subst hc
          exact .inl rfl
        · exact .inr (beq_eq_false_iff_ne.mpr hc)
      right
      rcases ih hunread h with ⟨rfl, hline⟩ | ⟨hlt, hget⟩
      · rw [beq_iff_eq.mp hline]
        exact ⟨by omega, by simp⟩
      · refine ⟨by omega, ?_⟩
        rw [show k - i - 1 = (k - (i + 1) - 1) + 1 by omega, List.getElem?_cons_succ]
        exact hget

/-- A chunk begins at the beginning of the text or in the first column of a line. -/
theorem line_of_mem_starts {text : List Char} {k : Nat} (h : k ∈ starts text) :
    k = 0 ∨ text[k - 1]? = some '\n' := by
  have hheads : k ∈ heads 0 0 true 0 text → k = 0 ∨ text[k - 1]? = some '\n' := fun h => by
    rcases line_of_mem_heads (.inl rfl) h with ⟨hk, -⟩ | ⟨-, hget⟩
    · exact .inl hk
    · exact .inr hget
  simp only [starts] at h
  split at h
  next => exact hheads h
  next =>
    rcases List.mem_cons.mp h with hk | h
    · exact .inl hk
    · exact hheads h

theorem stop_of_mem_between {stop : Nat} {l : List Nat} {c : Chunk} (hc : c ∈ between stop l) :
    c.stop = stop ∨ c.stop ∈ l := by
  fun_induction between stop l with
  | case1 => contradiction
  | case2 start =>
    rw [List.mem_singleton.mp hc]
    exact .inl rfl
  | case3 start next rest ih =>
    rcases List.mem_cons.mp hc with rfl | hc
    · exact .inr (by simp)
    · exact (ih hc).imp_right (List.mem_cons_of_mem _)

/-- A chunk ends with the text or with a line. -/
theorem line_before_stop {text : List Char} {c : Chunk} (h : c ∈ split text) :
    c.stop = text.length ∨ text[c.stop - 1]? = some '\n' := by
  have hlt := (bounds_of_mem_split h).1
  rcases stop_of_mem_between h with hstop | hmem
  · exact .inl hstop
  · rcases line_of_mem_starts hmem with hzero | hline
    · omega
    · exact .inr hline

theorem length_slice {text : List Char} {c : Chunk} (h : c.stop ≤ text.length) :
    (c.slice text).length = c.stop - c.start := by
  simp [slice, Nat.min_eq_left h]

end Cddl.Chunk

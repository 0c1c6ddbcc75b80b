import Cddl.Grammar.Terminal

/-!
What a match of a terminal looks like: the readers taken apart by their cases. A match is never
empty.
-/
namespace Cddl

namespace Lexeme

variable {text : List Char} {n : Nat}

theorem run?_eq_some_iff {p : Char → Bool} : run? p text = some n ↔ run p text = n ∧ 0 < n := by
  unfold run?
  split
  next hrun =>
    refine ⟨nofun, ?_⟩
    rintro ⟨rfl, hpos⟩
    omega
  next hrun =>
    constructor
    · intro h
      cases h
      exact ⟨rfl, Nat.pos_of_ne_zero hrun⟩
    · rintro ⟨rfl, -⟩
      rfl

theorem run?_eq_none_iff {p : Char → Bool} : run? p text = none ↔ run p text = 0 := by
  unfold run?
  split
  next hrun => simp [hrun]
  next hrun => simp [hrun]

theorem run?_pos {p : Char → Bool} (h : run? p text = some n) : 0 < n := (run?_eq_some_iff.mp h).2

/-- A run consists of characters of its class. -/
theorem of_mem_take_run {p : Char → Bool} {c : Char} (hc : c ∈ text.take (run p text)) :
    p c = true := by
  have htake : text.take (run p text) = text.takeWhile p :=
    (List.prefix_iff_eq_take.mp (List.takeWhile_prefix p)).symm
  rw [htake] at hc
  exact List.all_eq_true.mp List.all_takeWhile c hc

theorem decimal?_pos (h : decimal? text = some n) : 0 < n := by
  obtain ⟨digits, hd, rfl⟩ := Option.map_eq_some_iff.mp h
  have := run?_pos hd
  simp only
  omega

/-- A reader that takes something before what another reader takes takes something. -/
theorem pos_of_map_add {o : Option Nat} {k : Nat} (hk : 0 < k) (h : o.map (· + k) = some n) :
    0 < n := by
  obtain ⟨m, -, rfl⟩ := Option.map_eq_some_iff.mp h
  omega

theorem unsigned?_pos (h : unsigned? text = some n) : 0 < n := by
  unfold unsigned? at h
  split at h
  · rcases Option.or_eq_some_iff.mp h with h | ⟨-, h⟩
    · exact pos_of_map_add (by decide) h
    · exact decimal?_pos h
  · rcases Option.or_eq_some_iff.mp h with h | ⟨-, h⟩
    · exact pos_of_map_add (by decide) h
    · exact decimal?_pos h
  · exact decimal?_pos h

theorem number?_pos (h : number? text = some n) : 0 < n := by
  unfold number? at h
  split at h
  · exact pos_of_map_add (by decide) h
  · exact unsigned?_pos h

theorem name?_pos (h : name? text = some n) : 0 < n := by
  unfold name? at h
  split at h
  · split at h
    · cases h
      omega
    · contradiction
  · contradiction

theorem text?_pos (h : text? text = some n) : 0 < n := by
  unfold text? at h
  split at h
  · exact pos_of_map_add (by decide) h
  · contradiction

theorem bytes?_pos (h : bytes? text = some n) : 0 < n := by
  unfold bytes? at h
  split at h
  · exact pos_of_map_add (by decide) h
  · exact pos_of_map_add (by decide) h
  · exact pos_of_map_add (by decide) h
  · contradiction

theorem occurrence?_pos (h : occurrence? text = some n) : 0 < n := by
  simp only [occurrence?] at h
  split at h
  · cases h
    omega
  · split at h
    · cases h
      omega
    · cases h
      omega
    · contradiction

theorem control?_pos (h : control? text = some n) : 0 < n := by
  unfold control? at h
  split at h
  · exact pos_of_map_add (by decide) h
  · contradiction

theorem tag?_pos (h : tag? text = some n) : 0 < n := by
  unfold tag? at h
  split at h
  · cases h
    omega
  · contradiction

theorem major?_pos (h : major? text = some n) : 0 < n := by
  unfold major? at h
  split at h
  · split at h
    · cases h
      omega
    · contradiction
  · contradiction

theorem exists_of_spelled? {spellings : List (List Char)} (h : spelled? spellings text = some n) :
    ∃ s ∈ spellings, n = s.length ∧ ∃ rest, text = s ++ rest := by
  obtain ⟨s, hf, rfl⟩ := Option.map_eq_some_iff.mp h
  have hfits := List.find?_some hf
  obtain ⟨rest, hrest⟩ := List.isPrefixOf_iff_prefix.mp hfits
  exact ⟨s, List.mem_of_find?_eq_some hf, rfl, rest, hrest.symm⟩

theorem eq_append_of_spelled? {s : List Char} (h : spelled? [s] text = some n) :
    n = s.length ∧ ∃ rest, text = s ++ rest := by
  obtain ⟨u, hu, hn, htext⟩ := exists_of_spelled? h
  obtain rfl := List.mem_singleton.mp hu
  exact ⟨hn, htext⟩

theorem spelled?_pos {spellings : List (List Char)} (hs : ∀ s ∈ spellings, 0 < s.length)
    (h : spelled? spellings text = some n) : 0 < n := by
  obtain ⟨s, hmem, rfl, -⟩ := exists_of_spelled? h
  exact hs s hmem

/-- What is ignored is a comment or a run of spaces. -/
theorem ignored?_cases (h : ignored? text = some n) :
    (∃ rest, text = ';' :: rest ∧ n = run (· != '\n') rest + 1) ∨
      0 < n ∧ n = run isSpace text ∧ ∀ rest, text ≠ ';' :: rest := by
  unfold ignored? at h
  split at h
  next rest =>
    cases h
    exact .inl ⟨rest, rfl, rfl⟩
  next hne =>
    obtain ⟨hrun, hpos⟩ := run?_eq_some_iff.mp h
    exact .inr ⟨hpos, hrun.symm, hne⟩

theorem ignored?_of_ne (hne : ∀ rest, text ≠ ';' :: rest) : ignored? text = run? isSpace text :=
  ignored?.eq_2 text hne

theorem ignored?_pos (h : ignored? text = some n) : 0 < n := by
  rcases ignored?_cases h with ⟨rest, -, rfl⟩ | ⟨hpos, -⟩
  · exact Nat.succ_pos _
  · exact hpos

end Lexeme

theorem Terminal.match?_pos {t : Terminal} {text : List Char} {n : Nat}
    (h : t.match? text = some n) : 0 < n := by
  cases t with
  | name => exact Lexeme.name?_pos h
  | number => exact Lexeme.number?_pos h
  | text => exact Lexeme.text?_pos h
  | bytes => exact Lexeme.bytes?_pos h
  | occurrence => exact Lexeme.occurrence?_pos h
  | control => exact Lexeme.control?_pos h
  | tag => exact Lexeme.tag?_pos h
  | major => exact Lexeme.major?_pos h
  | _ => exact Lexeme.spelled?_pos (by decide) h

end Cddl

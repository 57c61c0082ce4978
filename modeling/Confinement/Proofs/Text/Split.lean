import Confinement.Text

/-!
# The pieces of a text

A text without the separator is one piece, and the pieces of two texts with a separator between them
are those of the first text and those of the second. The first piece, and what follows on it, are
found again in a text that is put together from them.
-/

namespace Confinement.Text

/-! ### Cutting at the first separator -/

theorem cutFirst_append {c : Char} {before : List Char} (h : c ∉ before) (after : List Char) :
    cutFirst c (before ++ c :: after) = some (before, after) := by
  induction before with
  | nil => simp [cutFirst]
  | cons x rest ih =>
    simp only [List.mem_cons, not_or] at h
    rw [List.cons_append, cutFirst, if_neg (Ne.symm h.1), ih h.2]
    rfl

theorem cutFirst_eq_none_iff {c : Char} {s : List Char} : cutFirst c s = none ↔ c ∉ s := by
  induction s with
  | nil => simp [cutFirst]
  | cons x rest ih =>
    unfold cutFirst
    by_cases hx : x = c
    · simp [hx]
    · rw [if_neg hx, Option.map_eq_none_iff, ih, List.mem_cons]
      simp [Ne.symm hx]

theorem not_mem_of_cutFirst {c : Char} {s before after : List Char}
    (h : cutFirst c s = some (before, after)) : c ∉ before := by
  induction s generalizing before with
  | nil => cases h
  | cons x rest ih =>
    unfold cutFirst at h
    by_cases hx : x = c
    · rw [if_pos hx] at h
      obtain ⟨rfl, -⟩ := Prod.mk.inj (Option.some.inj h)
      exact List.not_mem_nil
    · rw [if_neg hx] at h
      obtain ⟨⟨b, a⟩, hb, hp⟩ := Option.map_eq_some_iff.mp h
      obtain ⟨rfl, rfl⟩ := Prod.mk.inj hp
      rw [List.mem_cons, not_or]
      exact ⟨Ne.symm hx, ih hb⟩

/-! ### Cutting at the last separator -/

theorem cutLast_eq_none_iff {c : Char} {s : List Char} : cutLast c s = none ↔ c ∉ s := by
  induction s with
  | nil => simp [cutLast]
  | cons x rest ih =>
    rw [cutLast, List.mem_cons, not_or, ← ih]
    cases hrest : cutLast c rest with
    | none =>
      by_cases hx : x = c
      · simp [hx]
      · simp [hx, Ne.symm hx]
    | some p => simp

theorem cutLast_append {c : Char} {after : List Char} (h : c ∉ after) (before : List Char) :
    cutLast c (before ++ c :: after) = some (before, after) := by
  induction before with
  | nil =>
    rw [List.nil_append, cutLast, cutLast_eq_none_iff.mpr h]
    simp
  | cons x rest ih => rw [List.cons_append, cutLast, ih]

/-! ### Cutting at every separator -/

theorem split_of_not_mem {c : Char} {s : List Char} (h : c ∉ s) : split c s = [s] := by
  induction s with
  | nil => rfl
  | cons x rest ih =>
    simp only [List.mem_cons, not_or] at h
    rw [split, if_neg (Ne.symm h.1), ih h.2]

theorem split_append (c : Char) (s t : List Char) :
    split c (s ++ c :: t) = split c s ++ split c t := by
  induction s with
  | nil => simp [split]
  | cons x rest ih =>
    rw [List.cons_append, split, split, ih]
    split
    · rfl
    · cases hs : split c rest with
      | nil => exact absurd hs (split_ne_nil c rest)
      | cons piece pieces => rfl

theorem not_mem_of_mem_split {c : Char} {s piece : List Char} (h : piece ∈ split c s) :
    c ∉ piece := by
  induction s generalizing piece with
  | nil =>
    obtain rfl := List.mem_singleton.mp h
    exact List.not_mem_nil
  | cons x rest ih =>
    rw [split] at h
    by_cases hx : x = c
    · rw [if_pos hx, List.mem_cons] at h
      rcases h with rfl | h
      · exact List.not_mem_nil
      · exact ih h
    · rw [if_neg hx] at h
      cases hs : split c rest with
      | nil => exact absurd hs (split_ne_nil c rest)
      | cons first pieces =>
        simp only [hs, List.mem_cons] at h ih
        rcases h with rfl | h
        · rw [List.mem_cons, not_or]
          exact ⟨Ne.symm hx, ih (.inl rfl)⟩
        · exact ih (.inr h)

/-- Pieces that are put together with separators are found again. -/
theorem split_intercalate {c : Char} {pieces : List (List Char)} (hne : pieces ≠ [])
    (h : ∀ piece ∈ pieces, c ∉ piece) : split c ([c].intercalate pieces) = pieces := by
  induction pieces with
  | nil => exact absurd rfl hne
  | cons first rest ih =>
    have hfirst : split c first = [first] := split_of_not_mem (h first (List.mem_cons_self ..))
    cases rest with
    | nil => rw [List.intercalate_singleton, hfirst]
    | cons next rest =>
      have hrest := ih (List.cons_ne_nil next rest) fun p hp => h p (List.mem_cons_of_mem first hp)
      rw [List.intercalate_cons_cons, List.append_assoc, List.singleton_append, split_append,
        hfirst, hrest, List.singleton_append]

/-- The first piece ends at the first separator. -/
theorem split_eq_of_cutFirst {c : Char} {s before after : List Char}
    (h : cutFirst c s = some (before, after)) : split c s = before :: split c after := by
  rw [eq_of_cutFirst h, split_append, split_of_not_mem (not_mem_of_cutFirst h)]
  rfl

/-- A text with a second piece is cut behind the first one. -/
theorem cutFirst_of_split {c : Char} {s piece next : List Char} {pieces : List (List Char)}
    (h : split c s = piece :: next :: pieces) :
    ∃ after, cutFirst c s = some (piece, after) ∧ split c after = next :: pieces := by
  cases hc : cutFirst c s with
  | none =>
    rw [split_of_not_mem (cutFirst_eq_none_iff.mp hc)] at h
    cases (List.cons.inj h).2
  | some p =>
    obtain ⟨before, after⟩ := p
    rw [split_eq_of_cutFirst hc] at h
    obtain ⟨rfl, hafter⟩ := List.cons.inj h
    exact ⟨after, rfl, hafter⟩

/-- There is one piece more than there are separators. -/
theorem length_split (c : Char) (s : List Char) : (split c s).length = s.count c + 1 := by
  induction s with
  | nil => rfl
  | cons x rest ih =>
    rw [split, List.count_cons]
    by_cases hx : x = c
    · simp [hx, ih]
    · cases hs : split c rest with
      | nil => exact absurd hs (split_ne_nil c rest)
      | cons piece pieces =>
        rw [hs] at ih
        simpa [hx] using ih

end Confinement.Text

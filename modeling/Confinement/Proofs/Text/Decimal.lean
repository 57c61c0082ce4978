import Confinement.Text

/-!
# Reading numbers back

The decimal digits of a number are read as that number, with or without a plus sign before them, as
long as it is below the bound. No other text is read.
-/

namespace Confinement.Text

/-! ### Numbers that are written -/

theorem isDigit_of_mem_repr {n : Nat} {c : Char} (h : c ∈ n.repr.toList) : c.isDigit = true := by
  rw [Nat.toList_repr] at h
  exact Nat.isDigit_of_mem_toDigits (by decide) (by decide) h

/-- A number is read back from its digits. -/
theorem digits?_repr (n : Nat) : digits? n.repr.toList = some n := by
  have hne : n.repr.toList ≠ [] := by
    rw [Nat.toList_repr]
    exact Nat.toDigits_ne_nil
  have hall : n.repr.toList.all Char.isDigit = true :=
    List.all_eq_true.mpr fun _ => isDigit_of_mem_repr
  have hempty : n.repr.toList.isEmpty = false := List.isEmpty_eq_false_iff.mpr hne
  rw [digits?, hall, hempty, Nat.toList_repr]
  exact congrArg some (Nat.ofDigitChars_toDigits (by decide) (by decide))

theorem dropPlus_cons_plus (s : List Char) : dropPlus ('+' :: s) = s := rfl

/-- Digits begin with no sign. -/
theorem dropPlus_repr (n : Nat) : dropPlus n.repr.toList = n.repr.toList := by
  cases hs : n.repr.toList with
  | nil => rfl
  | cons c rest =>
    have hdigit : c.isDigit = true := isDigit_of_mem_repr (n := n) (by rw [hs]; simp)
    have hc : c ≠ '+' := by
      rintro rfl
      cases hdigit
    unfold dropPlus
    split
    · rename_i heq
      exact absurd (List.cons.inj heq).1 hc
    · rfl

theorem unsigned?_repr {bound n : Nat} (h : n < bound) :
    unsigned? bound n.repr.toList = some n := by
  simp only [unsigned?, dropPlus_repr, digits?_repr, if_pos h]

/-- Every 32-bit number is read back. -/
theorem uint32?_repr (n : UInt32) : uint32? n.toNat.repr.toList = some n := by
  rw [uint32?, unsigned?_repr n.toNat_lt_size]
  simp

/-! ### Texts that are read -/

/-- Plus signs, at most `signs` of them, and then at least one ASCII digit, of the value `n`. -/
def Writes (signs : Nat) (s : List Char) (n : Nat) : Prop :=
  ∃ k digits, k ≤ signs ∧ s = List.replicate k '+' ++ digits ∧ digits ≠ [] ∧
    (∀ c ∈ digits, c.isDigit = true) ∧ Nat.ofDigitChars 10 digits 0 = n

/-- What writes a number is made of signs and digits. -/
theorem Writes.eq_plus_or_isDigit {signs n : Nat} {s : List Char} (h : Writes signs s n) {c : Char}
    (hc : c ∈ s) : c = '+' ∨ c.isDigit = true := by
  obtain ⟨k, digits, -, rfl, -, hdigits, -⟩ := h
  rcases List.mem_append.mp hc with hplus | hdigit
  · exact .inl (List.eq_of_mem_replicate hplus)
  · exact .inr (hdigits c hdigit)

theorem dropPlus_of_head?_ne {s : List Char} (h : s.head? ≠ some '+') : dropPlus s = s := by
  unfold dropPlus
  split
  · exact absurd rfl h
  · rfl

/-- One sign may be taken away if one more was allowed. -/
theorem writes_succ_iff {signs n : Nat} {s : List Char} :
    Writes (signs + 1) s n ↔ Writes signs (dropPlus s) n := by
  constructor
  · rintro ⟨k, digits, hk, rfl, hne, hdigits, hn⟩
    cases k with
    | zero =>
      have hhead : (List.replicate 0 '+' ++ digits).head? ≠ some '+' := by
        intro hplus
        cases hdigits '+' (List.mem_of_head? hplus)
      rw [dropPlus_of_head?_ne hhead]
      exact ⟨0, digits, Nat.zero_le signs, rfl, hne, hdigits, hn⟩
    | succ k => exact ⟨k, digits, Nat.le_of_succ_le_succ hk, rfl, hne, hdigits, hn⟩
  · rintro ⟨k, digits, hk, hs, hne, hdigits, hn⟩
    by_cases hhead : s.head? = some '+'
    · obtain ⟨rest, rfl⟩ := List.head?_eq_some_iff.mp hhead
      rw [dropPlus_cons_plus] at hs
      exact ⟨k + 1, digits, Nat.succ_le_succ hk, congrArg (List.cons '+') hs, hne, hdigits, hn⟩
    · rw [dropPlus_of_head?_ne hhead] at hs
      exact ⟨k, digits, Nat.le_succ_of_le hk, hs, hne, hdigits, hn⟩

theorem digits?_eq_some_iff {n : Nat} {s : List Char} : digits? s = some n ↔ Writes 0 s n := by
  unfold digits?
  constructor
  · intro h
    split at h
    · cases h
    · rename_i hdigits
      simp only [Bool.or_eq_true, Bool.not_eq_true', not_or, Bool.not_eq_true, Bool.not_eq_false,
        List.isEmpty_eq_false_iff, List.all_eq_true] at hdigits
      exact ⟨0, s, Nat.le_refl 0, rfl, hdigits.1, hdigits.2, Option.some.inj h⟩
  · rintro ⟨k, digits, hk, rfl, hne, hdigits, hn⟩
    obtain rfl := Nat.le_zero.mp hk
    have hall : digits.all Char.isDigit = true := List.all_eq_true.mpr hdigits
    simp [hne, hall, hn]

/-- A number is read with at most one sign, and below the bound. -/
theorem unsigned?_eq_some_iff {bound n : Nat} {s : List Char} :
    unsigned? bound s = some n ↔ Writes 1 s n ∧ n < bound := by
  rw [writes_succ_iff, ← digits?_eq_some_iff, unsigned?]
  cases digits? (dropPlus s) with
  | none => simp
  | some m =>
    by_cases hm : m < bound
    · simp only [if_pos hm, Option.some.injEq]
      exact ⟨fun h => ⟨h, h ▸ hm⟩, fun h => h.1⟩
    · simp only [if_neg hm, reduceCtorEq, Option.some.injEq, false_iff, not_and]
      rintro rfl
      exact hm

theorem uint32?_eq_some_iff {n : UInt32} {s : List Char} :
    uint32? s = some n ↔ Writes 1 s n.toNat := by
  rw [uint32?, Option.map_eq_some_iff]
  constructor
  · rintro ⟨m, hm, rfl⟩
    obtain ⟨hwrites, hlt⟩ := unsigned?_eq_some_iff.mp hm
    rwa [UInt32.toNat_ofNat_of_lt' hlt]
  · intro hwrites
    exact ⟨n.toNat, unsigned?_eq_some_iff.mpr ⟨hwrites, n.toNat_lt_size⟩, UInt32.ofNat_toNat⟩

end Confinement.Text

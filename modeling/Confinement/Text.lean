/-!
# Text

Text is taken apart as a list of characters: `split` gives every piece between separators,
`cutFirst` and `cutLast` the two sides of one separator, and `words` the runs without white space,
which is any character with the Unicode property White_Space.

Ids, process numbers and clock ticks are read by one rule: an optional plus sign, at least one ASCII
digit, and a value below a bound.
-/

namespace Confinement.Text

/-! ### Separators -/

/-- The pieces between the separators `c`. There is always at least one. -/
def split (c : Char) : List Char → List (List Char)
  | [] => [[]]
  | x :: rest =>
    if x = c then [] :: split c rest
    else match split c rest with
      | [] => [[x]]
      | piece :: pieces => (x :: piece) :: pieces

/-- What stands before and after the first `c`. -/
def cutFirst (c : Char) : List Char → Option (List Char × List Char)
  | [] => none
  | x :: rest =>
    if x = c then some ([], rest)
    else (cutFirst c rest).map fun (before, after) => (x :: before, after)

/-- What stands before and after the last `c`. -/
def cutLast (c : Char) : List Char → Option (List Char × List Char)
  | [] => none
  | x :: rest =>
    match cutLast c rest with
    | some (before, after) => some (x :: before, after)
    | none => if x = c then some ([], rest) else none

@[simp] theorem split_nil (c : Char) : split c [] = [[]] := rfl

theorem split_ne_nil (c : Char) (s : List Char) : split c s ≠ [] := by
  cases s with
  | nil => simp [split]
  | cons x rest =>
    unfold split
    split
    · simp
    · split <;> simp

theorem eq_of_cutFirst {c : Char} {s before after : List Char}
    (h : cutFirst c s = some (before, after)) : s = before ++ c :: after := by
  induction s generalizing before with
  | nil => simp [cutFirst] at h
  | cons x rest ih =>
    unfold cutFirst at h
    split at h
    · simp only [Option.some.injEq, Prod.mk.injEq] at h
      obtain ⟨rfl, rfl⟩ := h
      simp_all
    · obtain ⟨⟨b, a⟩, hb, hp⟩ := Option.map_eq_some_iff.1 h
      simp only [Prod.mk.injEq] at hp
      obtain ⟨rfl, rfl⟩ := hp
      simp [ih hb]

/-! ### White space -/

/-- The code points with the property White_Space, as closed ranges. -/
def blankRanges : List (Nat × Nat) :=
  [(0x9, 0xD), (0x20, 0x20), (0x85, 0x85), (0xA0, 0xA0), (0x1680, 0x1680), (0x2000, 0x200A),
   (0x2028, 0x2029), (0x202F, 0x202F), (0x205F, 0x205F), (0x3000, 0x3000)]

/-- Whether `c` has the property White_Space. -/
def isBlank (c : Char) : Bool :=
  blankRanges.any fun (lo, hi) => lo ≤ c.toNat && c.toNat ≤ hi

/-- The words of `s`: its longest runs without white space. -/
def words : List Char → List (List Char)
  | [] => []
  | c :: rest =>
    if isBlank c then words rest
    else match rest with
      | [] => [[c]]
      | d :: _ =>
        if isBlank d then [c] :: words rest
        else match words rest with
          | [] => [[c]]
          | w :: ws => (c :: w) :: ws

/-! ### Unsigned decimal numbers -/

/-- The value of a nonempty run of ASCII digits. -/
def digits? (s : List Char) : Option Nat :=
  if s.isEmpty || !s.all Char.isDigit then none else some (Nat.ofDigitChars 10 s 0)

/-- `s` without one leading plus sign. -/
def dropPlus : List Char → List Char
  | '+' :: rest => rest
  | s => s

/-- The number below `bound` that `s` writes, with or without a plus sign. -/
def unsigned? (bound : Nat) (s : List Char) : Option Nat :=
  match digits? (dropPlus s) with
  | some n => if n < bound then some n else none
  | none => none

/-- The 32-bit number that `s` writes. -/
def uint32? (s : List Char) : Option UInt32 :=
  (unsigned? UInt32.size s).map UInt32.ofNat

end Confinement.Text

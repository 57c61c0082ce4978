import Std.Data.ExtHashSet
import Confinement.Error

/-!
# Reserved levels

Dynamic labels keep domains apart by a pair of categories. A manager reserves the levels that its
domains hold and hands out the first pair that is free: the pairs go by the higher category, then
by the lower one.
-/

namespace Confinement.Selinux

/-- The reserved levels. Equal sets are equal values. -/
abbrev Levels := Std.ExtHashSet String

def categories : Nat := 1024

/-- The level of the pair `lo`, `hi`. -/
def pairLevel (lo hi : Nat) : String := "s0:c" ++ lo.repr ++ ",c" ++ hi.repr

namespace Levels

/-- Levels are the same if their texts are equal, whatever else orders texts. -/
instance : EquivBEq String := instEquivBEqOfLawfulBEq

instance : LawfulHashable String := instLawfulHashableOfLawfulBEq

/-- The first level with the higher category `hi` that is not reserved. -/
def firstFreeBelow (held : Levels) (hi : Nat) : Option String :=
  ((List.range hi).find? fun lo => !held.contains (pairLevel lo hi)).map (pairLevel · hi)

/-- The first level of all that is not reserved. -/
def firstFree (held : Levels) : Option String :=
  (List.range categories).findSome? held.firstFreeBelow

def reserveNext (held : Levels) : Except Error (String × Levels) :=
  match held.firstFree with
  | some level => .ok (level, held.insert level)
  | none => .error (.driver "selinux" .noFreeLevel)

/-- Reserves a level that a domain already has. The set comes back in any case. -/
def reserve (held : Levels) (level : String) : Except Error Unit × Levels :=
  if held.contains level then (.error (.driver "selinux" (.levelReserved level)), held)
  else (.ok (), held.insert level)

theorem not_mem_of_firstFree {held : Levels} {level : String} (h : held.firstFree = some level) :
    level ∉ held := by
  unfold firstFree at h
  obtain ⟨hi, _, hlo⟩ := List.exists_of_findSome?_eq_some h
  obtain ⟨lo, hfind, rfl⟩ := Option.map_eq_some_iff.1 hlo
  have hfree := List.find?_some hfind
  rw [Std.ExtHashSet.mem_iff_contains, Bool.not_eq_true]
  simpa using hfree

end Levels

end Confinement.Selinux

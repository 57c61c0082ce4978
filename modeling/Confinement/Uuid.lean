/-!
# UUIDs

A UUID is 32 hexadecimal digits. It is written in five hyphenated groups and read in four forms:
plain digits, hyphenated, hyphenated in braces, and hyphenated behind the name of the URN scheme.
-/

namespace Confinement

structure Uuid where
  digits : List (Fin 16)
  length_digits : digits.length = 32
  deriving DecidableEq

namespace Uuid

/-- The lower case hexadecimal digit. -/
def digitChar (d : Fin 16) : Char := Nat.digitChar d.val

/-- The value of a hexadecimal digit of either case. -/
def digit? (c : Char) : Option (Fin 16) :=
  (List.finRange 16).find? fun d => digitChar d == c.toLower

/-- The digits in groups of 8, 4, 4, 4 and 12. -/
def toString (u : Uuid) : String :=
  let cs := u.digits.map digitChar
  let group (start size : Nat) := String.ofList ((cs.drop start).take size)
  "-".intercalate [group 0 8, group 8 4, group 12 4, group 16 4, group 20 12]

instance : ToString Uuid := ⟨toString⟩

/-- Reads 32 digits. -/
def ofDigits? (cs : List Char) : Option Uuid :=
  match cs.mapM digit? with
  | some ds => if h : ds.length = 32 then some ⟨ds, h⟩ else none
  | none => none

/-- Reads digits with hyphens at the ends of the first four groups. -/
def ofGroups? (cs : List Char) : Option Uuid :=
  if cs.length = 36 ∧ [8, 13, 18, 23].all (fun i => cs[i]? == some '-') then
    ofDigits? (cs.take 8 ++ (cs.drop 9).take 4 ++ (cs.drop 14).take 4 ++ (cs.drop 19).take 4
      ++ cs.drop 24)
  else none

/-- The scheme that may stand before the groups, in any case. -/
def scheme : List Char := "urn:uuid:".toList

def ofString? (s : String) : Option Uuid :=
  let cs := s.toList
  if cs.length = 32 then ofDigits? cs
  else if cs.length = 36 then ofGroups? cs
  else if cs.length = 38 ∧ cs.head? = some '{' ∧ cs.getLast? = some '}' then
    ofGroups? ((cs.drop 1).take 36)
  else if cs.length = 45 ∧ (cs.take 9).map Char.toLower = scheme then ofGroups? (cs.drop 9)
  else none

/-- The UUID that random digits make: two of them give way to the marks of random UUIDs. -/
def ofRandom (digits : List (Fin 16)) (h : digits.length = 32) : Uuid :=
  let mark : Fin 16 := 8 + Fin.ofNat 16 ((digits.get ⟨16, by omega⟩).val % 4)
  ⟨(digits.set 12 4).set 16 mark, by simpa using h⟩

@[ext] theorem ext {u v : Uuid} (h : u.digits = v.digits) : u = v := by
  cases u; cases v; cases h; rfl

theorem digit?_digitChar (d : Fin 16) : digit? (digitChar d) = some d := by
  revert d; decide

end Uuid

end Confinement

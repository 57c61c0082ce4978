import Confinement.Error
import Confinement.Text

/-!
# Ownership labels

Discretionary labels are owners of files and processes. A label is written `+uid:+gid`, and either
plus sign may be missing when it is read.
-/

namespace Confinement

/-- The user and the group that own something. -/
structure Ownership where
  user : UInt32
  group : UInt32
  deriving DecidableEq, Repr

namespace Ownership

/-- The owner of what belongs to the host. -/
def root : Ownership := ⟨0, 0⟩

/-- The id that leaves an owner as it is. -/
def unchanged : UInt32 := 4294967295

/-- The owner after a request for `new`: the id `unchanged` keeps what was there. -/
def updated (old new : Ownership) : Ownership where
  user := if new.user = unchanged then old.user else new.user
  group := if new.group = unchanged then old.group else new.group

/-- The text of an id. -/
def idText (id : UInt32) : String := id.toNat.repr

def label (o : Ownership) : String := "+" ++ idText o.user ++ ":+" ++ idText o.group

/-- The mount options that give a file system this owner. -/
def mountOptions (o : Ownership) : String := "uid=" ++ idText o.user ++ ",gid=" ++ idText o.group

/-- Reads one id of a label. The sign of the label comes before the sign of the number. -/
def id? (s : List Char) : Option UInt32 := Text.uint32? (Text.dropPlus s)

def ofLabel? (s : String) : Option Ownership :=
  match Text.cutFirst ':' s.toList with
  | some (user, group) =>
    match id? user, id? group with
    | some u, some g => some ⟨u, g⟩
    | _, _ => none
  | none => none

/-- Reads a label, or says that it is none of the model `dac`. -/
def parse (s : String) : Except Error Ownership :=
  match ofLabel? s with
  | some o => .ok o
  | none => .error (.invalidLabel "dac" s)

@[simp] theorem updated_self (o : Ownership) : o.updated o = o := by
  simp [updated]

theorem parse_eq_ok_iff {s : String} {o : Ownership} : parse s = .ok o ↔ ofLabel? s = some o := by
  unfold parse
  split <;> simp_all

end Ownership

/-- How a manager of the model `dac` treats a domain's resources. -/
structure OwnershipPolicy where
  /-- The owner of a domain that brings no label. -/
  owner : Ownership := .root
  /-- Whether resources are given to the domain's owner. -/
  dynamic : Bool := false
  deriving DecidableEq, Repr

end Confinement

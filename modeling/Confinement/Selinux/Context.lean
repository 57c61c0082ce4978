import Confinement.Error
import Confinement.Text

/-!
# Security contexts

A context is written `user:role:type` or `user:role:type:level`. The level is all that follows the
third colon, so it may hold colons and may be empty.
-/

namespace Confinement.Selinux

/-- The model name of the labels of this kind. -/
def model : String := "selinux"

structure Context where
  user : String
  role : String
  type : String
  level : Option String
  deriving DecidableEq, Repr

namespace Context

def text (c : Context) : String :=
  let base := c.user ++ ":" ++ c.role ++ ":" ++ c.type
  match c.level with
  | some level => base ++ ":" ++ level
  | none => base

/-- The three parts before the level, and what follows them. -/
def parts? (s : List Char) : Option (List Char × List Char × List Char × Option (List Char)) := do
  let (user, afterUser) ← Text.cutFirst ':' s
  let (role, afterRole) ← Text.cutFirst ':' afterUser
  match Text.cutFirst ':' afterRole with
  | some (type, level) => some (user, role, type, some level)
  | none => some (user, role, afterRole, none)

/-- Reads a context. The first three parts must not be empty. -/
def ofText? (s : String) : Option Context :=
  match parts? s.toList with
  | some (user, role, type, level) =>
    if user = [] ∨ role = [] ∨ type = [] then none
    else some ⟨String.ofList user, String.ofList role, String.ofList type,
      level.map String.ofList⟩
  | none => none

/-- Reads a context, or says that it is none. -/
def parse (s : String) : Except Error Context :=
  match ofText? s with
  | some c => .ok c
  | none => .error (.invalidLabel model s)

def withLevel (c : Context) (level : Option String) : Context := { c with level }

/-- Where the processes of a domain run. -/
def domainDefault : Context := ⟨"system_u", "system_r", "svirt_t", some "s0"⟩

/-- What a domain may write. -/
def imageDefault : Context := ⟨"system_u", "object_r", "svirt_image_t", some "s0"⟩

/-- What several domains may read. -/
def readOnlyImage : Context := ⟨"system_u", "object_r", "virt_content_t", some "s0"⟩

/-- What an image gets back when its domain stops. -/
def imageRestore : Context := ⟨"system_u", "object_r", "virt_image_t", some "s0"⟩

/-- What a device node gets back when its domain stops. -/
def deviceRestore : Context := ⟨"system_u", "object_r", "device_t", some "s0"⟩

@[simp] theorem level_withLevel (c : Context) (level : Option String) :
    (c.withLevel level).level = level := rfl

theorem parse_eq_ok_iff {s : String} {c : Context} : parse s = .ok c ↔ ofText? s = some c := by
  unfold parse
  split <;> simp_all

end Context

end Confinement.Selinux

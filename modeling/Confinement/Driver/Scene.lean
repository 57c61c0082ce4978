import Confinement.AppArmor.Rules
import Confinement.Driver.Operation
import Confinement.Host.Basic
import Confinement.Selinux.Levels

/-!
# Scenes

A scene is all that an operation of one driver sees and may change: the state that the driver keeps
for the manager, the host, and the definition.
-/

namespace Confinement

/-- Managers are named by their number. -/
abbrev ManagerId := Nat

/-- What a driver keeps for one manager. -/
inductive DriverState
  | none
  | dac (policy : OwnershipPolicy)
  | selinux (levels : Selinux.Levels)
  | apparmor (rules : AppArmor.Rules)
  | stack (members : List ManagerId)

structure Scene where
  /-- The name of the manager's driver. -/
  driver : String
  state : DriverState
  host : Host
  definition : Definition

namespace Scene

/-- The failure of a driver that does not find its own kind of state. -/
def foreign (s : Scene) (technology : String) : Error :=
  .internal (.foreignState s.driver technology)

def ownership (s : Scene) : Except Error OwnershipPolicy :=
  match s.state with
  | .dac policy => .ok policy
  | _ => .error (s.foreign "a DAC")

def levels (s : Scene) : Except Error Selinux.Levels :=
  match s.state with
  | .selinux levels => .ok levels
  | _ => .error (s.foreign "an SELinux")

def rules (s : Scene) : Except Error AppArmor.Rules :=
  match s.state with
  | .apparmor rules => .ok rules
  | _ => .error (s.foreign "an AppArmor")

/-- The entry of a model in the definition. -/
def findEntry (s : Scene) (model : String) : Option LabelEntry := s.definition.findEntry model

/-- Success without a trace. -/
def done (s : Scene) : Except Error Unit × Scene := (.ok (), s)

/-- Failure without a trace. -/
def fail (s : Scene) (e : Error) : Except Error Unit × Scene := (.error e, s)

/-- A check that changes nothing. -/
def check (s : Scene) (r : Except Error Unit) : Except Error Unit × Scene := (r, s)

/-- An operation that changes the definition if it succeeds. -/
def define (s : Scene) (r : Except Error Definition) : Except Error Unit × Scene :=
  match r with
  | .ok definition => (.ok (), { s with definition })
  | .error e => (.error e, s)

/-- An operation that changes the state if it succeeds. -/
def keep (s : Scene) (r : Except Error DriverState) : Except Error Unit × Scene :=
  match r with
  | .ok state => (.ok (), { s with state })
  | .error e => (.error e, s)

/-- An operation on the host. -/
def withHost (s : Scene) (f : Host → Except Error Unit × Host) : Except Error Unit × Scene :=
  let (r, host) := f s.host
  (r, { s with host })

/-- An operation on the host with a value, if there is one. -/
def withHostFor (s : Scene) {α : Type} (a : Option α) (f : α → Host → Except Error Unit × Host) :
    Except Error Unit × Scene :=
  match a with
  | some a => s.withHost (f a)
  | none => s.done

/-- Goes on with a value, if it could be had. -/
def after (s : Scene) {α : Type} (r : Except Error α) (f : α → Except Error Unit × Scene) :
    Except Error Unit × Scene :=
  match r with
  | .ok a => f a
  | .error e => (.error e, s)

@[simp] theorem after_ok (s : Scene) {α : Type} (a : α) (f : α → Except Error Unit × Scene) :
    s.after (.ok a) f = f a := rfl

@[simp] theorem after_error (s : Scene) {α : Type} (e : Error)
    (f : α → Except Error Unit × Scene) : s.after (.error e) f = (.error e, s) := rfl

@[simp] theorem define_ok (s : Scene) (d : Definition) :
    s.define (.ok d) = (.ok (), { s with definition := d }) := rfl

@[simp] theorem define_error (s : Scene) (e : Error) : s.define (.error e) = (.error e, s) := rfl

end Scene

end Confinement

import Confinement.AppArmor.Labels
import Confinement.Dac.Labels
import Confinement.Selinux.Labels

/-!
# Drivers

A driver has a name, a technology that does its work, and hooks: what it does on its own before the
technology is asked. Without technology and hooks every operation is refused. A driver is shared by
its managers and keeps nothing itself.
-/

namespace Confinement

/-- How a driver does its work. -/
inductive Technology
  /-- Every operation is refused by name. -/
  | bare
  /-- Every operation succeeds and labels nothing. -/
  | none
  | dac
  | selinux
  | apparmor
  /-- The members of the manager do the work. -/
  | stack
  deriving DecidableEq, Repr

inductive Request
  | probe (virtDriver : String)
  | opening
  | closing
  | preFork
  | postFork
  | operation (op : Operation)
  | question (q : Question)
  deriving DecidableEq, Repr

def Request.name : Request → String
  | probe _ => "probe"
  | opening => "open"
  | closing => "close"
  | preFork => "pre_fork"
  | postFork => "post_fork"
  | operation op => op.name
  | question q => q.name

/-- One request to one driver. A probe concerns no manager. -/
structure Call where
  driver : String
  /-- Whether the driver belongs to this library. -/
  builtIn : Bool
  manager : Option ManagerId
  request : Request
  deriving DecidableEq, Repr

/-- What a driver does on its own. Each hook sees the calls so far, the latest first, and gives
nothing to leave the request to the technology. -/
structure Hooks where
  opening : List Call → Option (Except Error Unit) := fun _ => none
  preFork : List Call → Option (Except Error Unit) := fun _ => none
  /-- Whether the driver deals with the end of a fork by itself. -/
  postFork : List Call → Bool := fun _ => false
  perform : List Call → Operation → Definition → Option (Except Error Unit × Definition) :=
    fun _ _ _ => none
  answer : List Call → (q : Question) → Definition → Option (Except Error q.Answer) :=
    fun _ _ _ => none

structure Driver where
  /-- The name of the driver and the model of its label entries. -/
  name : String
  technology : Technology
  /-- What a new manager starts with. -/
  initial : DriverState
  /-- Whether the driver can be used for a virtualization driver on any host. -/
  available : String → Bool
  /-- Whether a host has what makes the driver usable for all virtualization drivers. -/
  supported : Host → Bool := fun _ => false
  hooks : Hooks := {}
  builtIn : Bool := false

namespace Technology

/-- Carries out an operation for a manager without members. -/
def perform (t : Technology) (op : Operation) (s : Scene) : Except Error Unit × Scene :=
  match t with
  | bare => s.fail (.notSupported s.driver op.name)
  | none => s.done
  | dac => Dac.perform op s
  | selinux => Selinux.perform op s
  | apparmor => AppArmor.perform op s
  | stack => s.fail (.internal .stackWithoutState)

/-- The answers of the driver that confines nothing. -/
def nothingConfined : (q : Question) → q.Answer
  | .model => "none"
  | .interpretation => "0"
  | .processLabel _ => ⟨"none", "", false⟩
  | .mountOptions => Option.none

/-- Answers a question for a manager without members. -/
def answer (t : Technology) (q : Question) (s : Scene) : Except Error q.Answer :=
  match t with
  | bare => .error (.notSupported s.driver q.name)
  | none => .ok (nothingConfined q)
  | dac => Dac.answer q s
  | selinux => Selinux.answer q s
  | apparmor => AppArmor.answer q s
  | stack => .error (.internal .stackWithoutState)

/-- Agrees to a fork, for a manager without members. -/
def preFork (t : Technology) : Except Error Unit :=
  match t with
  | stack => .error (.internal .stackWithoutState)
  | _ => .ok ()

end Technology

namespace Driver

def usable (d : Driver) (h : Host) (virtDriver : String) : Bool :=
  d.available virtDriver || d.supported h

/-- The driver that labels through security contexts. It needs a host where they take effect. -/
def selinux : Driver where
  name := "selinux"
  technology := .selinux
  initial := .selinux ∅
  available _ := false
  supported h := h.modules.selinux
  builtIn := true

/-- The driver that labels through profiles. It needs a host where they take effect. -/
def apparmor : Driver where
  name := "apparmor"
  technology := .apparmor
  initial := .apparmor []
  available _ := false
  supported h := h.modules.apparmor
  builtIn := true

def dac : Driver where
  name := "dac"
  technology := .dac
  initial := .dac {}
  available _ := true
  builtIn := true

/-- The name that stands for no confinement. -/
def noneName : String := "none"

def none : Driver where
  name := noneName
  technology := .none
  initial := .none
  available _ := true
  builtIn := true

/-- The driver whose managers pass every request to their members. -/
def stack : Driver where
  name := "stack"
  technology := .stack
  initial := .stack []
  available _ := true
  builtIn := true

def builtIns : List Driver := [selinux, apparmor, dac, none, stack]

end Driver

end Confinement

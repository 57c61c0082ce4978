import Confinement.Settings.Format

/-!
# Assembling the manager of a host

Drivers are found in a registry by name, or by being the first one that the host can use. The
manager of a host is a stack: the listed drivers, or the one that was found, and last of all a
manager of ownership.
-/

namespace Confinement

/-- Drivers in the order in which they are tried. -/
abbrev Registry := List Driver

namespace Registry

def standard : Registry := [.selinux, .apparmor, .none]

/-- The drivers that `name` may mean. -/
def candidates (r : Registry) (name : Option String) : List Driver :=
  match name with
  | some name => r.filter (·.name == name)
  | none => r

/-- The first candidate that the host can use. -/
def find? (r : Registry) (h : Host) (name : Option String) (virtDriver : String) : Option Driver :=
  (r.candidates name).find? (·.usable h virtDriver)

/-- The candidates that have to be asked to find it. -/
def asked (r : Registry) (h : Host) (name : Option String) (virtDriver : String) : List Driver :=
  let useless := (r.candidates name).takeWhile fun d => !d.usable h virtDriver
  useless ++ (r.find? h name virtDriver).toList

end Registry

/-- Looks a driver up and notes who was asked. -/
def lookUp (r : Registry) (name : Option String) (virtDriver : String) : Run (Option Driver) := do
  let s ← get
  let calls := (r.asked s.host name virtDriver).map fun d =>
    (⟨d.name, d.builtIn, none, .probe virtDriver⟩ : Call)
  set { s with trace := calls.reverse ++ s.trace }
  pure (r.find? s.host name virtDriver)

def notFound (name : Option String) : Error :=
  .configUnsupported (match name with
    | some name => .driverNotFound name
    | none => .noDriverAvailable)

/-- The policy under which a driver can work: without confinement none can be required, and none is
the default. -/
def Driver.adapt (d : Driver) (p : Policy) : Except Error Policy :=
  if d.name = Driver.noneName then
    if p.requireConfined then .error (.configUnsupported .noneCannotConfine)
    else .ok { p with defaultConfined := false }
  else .ok p

/-- A manager of the driver that the registry has under a name, or of the first one that it has. -/
def openNamed (r : Registry) (name : Option String) (virtDriver : String) (policy : Policy) :
    Run ManagerId := do
  match ← lookUp r name virtDriver with
  | none => throw (notFound name)
  | some d =>
    let policy ← d.adapt policy
    openManager d virtDriver policy

def addNamed (r : Registry) (stack : ManagerId) (virtDriver : String) (policy : Policy) :
    List String → Run Unit
  | [] => pure ()
  | name :: rest => do
    let member ← openNamed r (some name) virtDriver policy
    addMember stack member
    addNamed r stack virtDriver policy rest

def Settings.assemble (s : Settings) (r : Registry) : Run ManagerId := do
  s.check
  let primary ← openNamed r s.drivers.head? s.virtDriver s.policy
  let stack ← openStack primary
  Run.guarding stack do
    addNamed r stack s.virtDriver s.policy s.drivers.tail
    let m ← (← get).manager stack
    let dac ← openDac s.virtDriver s.owner m.policy s.dynamicOwnership
    addMember stack dac
  pure stack

end Confinement

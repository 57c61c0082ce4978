import Confinement.Driver.Basic

/-!
# Managers

A manager binds a driver to a policy and keeps the driver's state. Managers are shared: a handle is
held by a caller or by a stack that has the manager as a member. A manager is closed when nothing
refers to it any more, and then lets go of its own members, in order.
-/

namespace Confinement

structure Policy where
  /-- Drivers may look into disk images for their format. -/
  probesFormats : Bool := false
  /-- Domains that leave it open are confined. -/
  defaultConfined : Bool := false
  /-- Domains without confinement are refused. -/
  requireConfined : Bool := false
  deriving DecidableEq, Repr

structure Manager where
  driver : Driver
  virtDriver : String
  policy : Policy
  state : DriverState

/-- The managers that a state refers to. -/
def DriverState.members : DriverState → List ManagerId
  | .stack members => members
  | _ => []

structure Engine where
  host : Host := {}
  /-- The managers by number. A closed manager leaves its number empty. -/
  managers : List (Option Manager) := []
  /-- The handles of callers, one entry for each handle. -/
  held : List ManagerId := []
  /-- The calls to drivers, the latest first. -/
  trace : List Call := []

namespace Engine

/-- The manager with a number, while it is open. -/
def manager? (s : Engine) (id : ManagerId) : Option Manager := (s.managers[id]?).join

def setManager (s : Engine) (id : ManagerId) (m : Manager) : Engine :=
  { s with managers := s.managers.set id (some m) }

def manager (s : Engine) (id : ManagerId) : Except Error Manager :=
  match s.manager? id with
  | some m => .ok m
  | none => .error (.internal .closedManager)

def record (s : Engine) (id : ManagerId) (d : Driver) (request : Request) : Engine :=
  { s with trace := ⟨d.name, d.builtIn, some id, request⟩ :: s.trace }

/-- The managers that a caller has to satisfy: the members of a stack, else the manager itself. -/
def nested (s : Engine) (id : ManagerId) : List ManagerId :=
  match s.manager? id with
  | some ⟨_, _, _, .stack members⟩ => members
  | _ => [id]

def refersTo (s : Engine) (id : ManagerId) : Bool :=
  s.held.contains id ||
    s.managers.any fun
      | some m => m.state.members.contains id
      | none => false

/-- Lets go of references, the first one first, and closes every manager that nothing refers to any
more. A manager that closes lets go of its members before the references that are left. -/
def settle : Nat → List ManagerId → Engine → Engine
  | 0, _, s => s
  | _, [], s => s
  | fuel + 1, id :: rest, s =>
    match s.manager? id with
    | none => settle fuel rest s
    | some m =>
      if s.refersTo id || rest.contains id then settle fuel rest s
      else
        let closed := { s.record id m.driver .closing with managers := s.managers.set id none }
        settle fuel (m.state.members ++ rest) closed

/-- How many references there can be to let go of. -/
def references (s : Engine) : Nat :=
  s.managers.foldr (fun
    | some m, n => m.state.members.length + 1 + n
    | none, n => 1 + n) 1

def drop (id : ManagerId) (s : Engine) : Engine :=
  let s := { s with held := s.held.erase id }
  s.settle s.references [id]

/-- Another handle to a manager. -/
def hold (id : ManagerId) (s : Engine) : Engine := { s with held := id :: s.held }

end Engine

/-- A run works on the engine and may fail. What it did before a failure stays done. -/
abbrev Run := ExceptT Error (StateM Engine)

namespace Run

def eval {α : Type} (r : Run α) (s : Engine) : Except Error α × Engine := (r.run).run s

/-- Drops `handle` if the run fails. -/
def guarding {α : Type} (handle : ManagerId) (r : Run α) : Run α :=
  tryCatch r fun e => do
    modify (Engine.drop handle)
    throw e

end Run

/-- A new manager of a driver, opened and held by the caller. A manager that does not open is closed
at once. -/
def openManager (driver : Driver) (virtDriver : String) (policy : Policy) : Run ManagerId := do
  let s ← get
  let id := s.managers.length
  let m : Manager := ⟨driver, virtDriver, policy, driver.initial⟩
  let s' := { s with managers := s.managers ++ [some m], held := id :: s.held }
  set (s'.record id driver .opening)
  match driver.hooks.opening s.trace with
  | some (.error e) =>
    modify (Engine.drop id)
    throw (.openFailed driver.name e)
  | _ => pure id

/-- Makes the held manager `member` the last member of a stack, which takes over the handle. Only a
manager with members can be a stack, and none becomes a member of itself. -/
def addMember (stack member : ManagerId) : Run Unit :=
  Run.guarding member do
    if stack = member then throw (.configUnsupported .stackInItself)
    let s ← get
    let m ← s.manager stack
    match m.state with
    | .stack members =>
      let s := s.setManager stack { m with state := .stack (members ++ [member]) }
      set { s with held := s.held.erase member }
    | _ => throw (.configUnsupported (.notStack m.driver.name))

/-- A stack with one member, whose handle it takes over. The stack has the policy of the member. -/
def openStack (primary : ManagerId) : Run ManagerId := do
  let m ← (← get).manager primary
  let stack ← Run.guarding primary (openManager .stack m.virtDriver m.policy)
  Run.guarding stack (addMember stack primary)
  pure stack

def editOwnership (id : ManagerId) (f : OwnershipPolicy → OwnershipPolicy) : Run Unit := do
  let s ← get
  let m ← s.manager id
  match m.state with
  | .dac policy => set (s.setManager id { m with state := .dac (f policy) })
  | _ => throw (.internal (.foreignState m.driver.name "a DAC"))

/-- Sets the owner of domains that bring no label. -/
def setOwner (id : ManagerId) (owner : Ownership) : Run Unit :=
  editOwnership id ({ · with owner })

def setDynamicOwnership (id : ManagerId) (dynamic : Bool) : Run Unit :=
  editOwnership id ({ · with dynamic })

def openDac (virtDriver : String) (owner : Ownership) (policy : Policy) (dynamic : Bool) :
    Run ManagerId := do
  let id ← openManager .dac virtDriver policy
  Run.guarding id do
    setOwner id owner
    setDynamicOwnership id dynamic
  pure id

end Confinement

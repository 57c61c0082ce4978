import Confinement.Manager.Basic

/-!
# Requests to managers

A stack passes an operation to each member in order, goes on after a failure, and reports the first
one. It passes a question to its first member. A fork is agreed to in order, and ended, or called
off, in reverse order. All this recurses over the tree of managers that a request will meet.
-/

namespace Confinement

/-- The managers that a request to one manager can reach. -/
inductive Tree
  /-- A manager that does its own work. -/
  | leaf (id : ManagerId)
  /-- A manager that leaves the work to its members. -/
  | stack (id : ManagerId) (members : List Tree)
  /-- A manager that would be met again below itself. -/
  | endless (id : ManagerId)

namespace Tree

def id : Tree → ManagerId
  | leaf id => id
  | stack id _ => id
  | endless id => id

/-- The managers that do the work, from left to right. -/
def leaves : Tree → List ManagerId
  | leaf id => [id]
  | stack _ members => members.attach.flatMap fun ⟨t, _⟩ => t.leaves
  | endless _ => []

end Tree

/-- The members that a manager leaves its work to, if it does. -/
def Manager.members? (m : Manager) : Option (List ManagerId) :=
  match m.driver.technology, m.state with
  | .stack, .stack members => some members
  | _, _ => none

namespace Engine

/-- The tree below a manager, no deeper than `depth` managers. -/
def treeWithin (s : Engine) : Nat → ManagerId → Tree
  | 0, id => .endless id
  | depth + 1, id =>
    match (s.manager? id).bind (·.members?) with
    | some members => .stack id (members.map (s.treeWithin depth))
    | none => .leaf id

/-- The tree below a manager. A chain of members that is longer than there are managers meets one
of them twice. -/
def tree (s : Engine) (id : ManagerId) : Tree := s.treeWithin s.managers.length id

end Engine

/-- What a chain of operations works on. -/
structure Stage where
  engine : Engine
  definition : Definition

namespace Stage

def record (st : Stage) (id : ManagerId) (d : Driver) (op : Operation) : Stage :=
  { st with engine := st.engine.record id d (.operation op) }

/-- Whether an operation concerns the domain: a check does only if there is an entry to check. -/
def concerns (st : Stage) (op : Operation) (m : Manager) : Bool :=
  op != .verify || (st.definition.findEntry m.driver.name).isSome

/-- The definition after an operation that may have changed it. -/
def redefine (st : Stage) (op : Operation) (d : Definition) : Stage :=
  if op.edits then { st with definition := d } else st

def scene (st : Stage) (m : Manager) : Scene :=
  ⟨m.driver.name, m.state, st.engine.host, st.definition⟩

/-- The stage after the manager's technology has worked on the scene. -/
def leave (st : Stage) (id : ManagerId) (m : Manager) (op : Operation) (s : Scene) : Stage :=
  let engine := { st.engine with host := s.host }.setManager id { m with state := s.state }
  { st with engine }.redefine op s.definition

/-- Carries out an operation for one manager. The technology is asked if the driver leaves the
operation to it, and `below` if the technology leaves it to the members. -/
def visit (st : Stage) (op : Operation) (id : ManagerId)
    (below : Option (Stage → Except Error Unit × Stage)) : Except Error Unit × Stage :=
  match st.engine.manager id with
  | .error e => (.error e, st)
  | .ok m =>
    if st.concerns op m = false then (.ok (), st)
    else
      let noted := st.record id m.driver op
      match m.driver.hooks.perform st.engine.trace op st.definition with
      | some (r, d) => (r, noted.redefine op d)
      | none =>
        match below with
        | some f => f noted
        | none =>
          let (r, s) := m.driver.technology.perform op (noted.scene m)
          (r, noted.leave id m op s)

end Stage

namespace Tree

mutual

/-- Carries out an operation for every manager of a tree. -/
def perform (op : Operation) : Tree → Stage → Except Error Unit × Stage
  | leaf id, st => st.visit op id none
  | stack id members, st => st.visit op id (some (performAll op members))
  | endless _, st => (.error (.internal .endlessNesting), st)

/-- Carries out an operation for several trees, all of them, and reports the first failure. -/
def performAll (op : Operation) : List Tree → Stage → Except Error Unit × Stage
  | [], st => (.ok (), st)
  | t :: ts, st =>
    let (r, st) := t.perform op st
    let (r', st) := performAll op ts st
    (firstFailure r r', st)

end

end Tree

namespace Engine

/-- Asks one manager. `below` is the first member, if members do the work. -/
def consult (s : Engine) (q : Question) (d : Definition) (id : ManagerId)
    (below : Option (Engine → Except Error q.Answer × Engine)) : Except Error q.Answer × Engine :=
  match s.manager id with
  | .error e => (.error e, s)
  | .ok m =>
    let noted := s.record id m.driver (.question q)
    match m.driver.hooks.answer s.trace q d with
    | some r => (r, noted)
    | none =>
      match below with
      | some f => f noted
      | none => (m.driver.technology.answer q ⟨m.driver.name, m.state, s.host, d⟩, noted)

/-- Asks one manager to agree to a fork. `below` asks the members, if members do the work. -/
def agree (s : Engine) (id : ManagerId) (below : Option (Engine → Except Error Unit × Engine)) :
    Except Error Unit × Engine :=
  match s.manager id with
  | .error e => (.error e, s)
  | .ok m =>
    let noted := s.record id m.driver .preFork
    match m.driver.hooks.preFork s.trace with
    | some r => (r, noted)
    | none =>
      match below with
      | some f => f noted
      | none => (m.driver.technology.preFork, noted)

def conclude (s : Engine) (id : ManagerId) (below : Engine → Engine) : Engine :=
  match s.manager? id with
  | none => s
  | some m =>
    let noted := s.record id m.driver .postFork
    if m.driver.hooks.postFork s.trace then noted else below noted

end Engine

namespace Tree

/-- Asks the first manager of a tree that does its own work. -/
def ask (q : Question) (d : Definition) : Tree → Engine → Except Error q.Answer × Engine
  | leaf id, s => s.consult q d id none
  | stack id [], s => s.consult q d id (some fun s => (.error (.internal .noPrimary), s))
  | stack id (t :: _), s => s.consult q d id (some (t.ask q d))
  | endless _, s => (.error (.internal .endlessNesting), s)

mutual

/-- Tells every manager of a tree that a fork is over, the last one first. -/
def postFork : Tree → Engine → Engine
  | leaf id, s => s.conclude id fun s => s
  | stack id members, s => s.conclude id (postForkAll members)
  | endless _, s => s

def postForkAll : List Tree → Engine → Engine
  | [], s => s
  | t :: ts, s => t.postFork (postForkAll ts s)

end

mutual

/-- Asks every manager of a tree to agree to a fork. After a refusal the managers that have agreed
are told that the fork is over, the last one first. -/
def preFork : Tree → Engine → Except Error Unit × Engine
  | leaf id, s => s.agree id none
  | stack id members, s => s.agree id (some (preForkAll members))
  | endless _, s => (.error (.internal .endlessNesting), s)

def preForkAll : List Tree → Engine → Except Error Unit × Engine
  | [], s => (.ok (), s)
  | t :: ts, s =>
    match t.preFork s with
    | (.error e, s) => (.error e, s)
    | (.ok (), s) =>
      match preForkAll ts s with
      | (.error e, s) => (.error e, t.postFork s)
      | (.ok (), s) => (.ok (), s)

end

@[simp] theorem performAll_nil (op : Operation) (st : Stage) :
    performAll op [] st = (.ok (), st) := by simp [performAll]

end Tree

namespace Engine

/-- Carries out an operation that may change the definition. -/
def edit (id : ManagerId) (op : Operation) (st : Stage) : Except Error Unit × Stage :=
  (st.engine.tree id).perform op st

/-- Carries out an operation for a definition that stays as it is. -/
def perform (id : ManagerId) (op : Operation) (d : Definition) (s : Engine) :
    Except Error Unit × Engine :=
  let (r, st) := (s.tree id).perform op ⟨s, d⟩
  (r, st.engine)

def ask (id : ManagerId) (q : Question) (d : Definition) (s : Engine) :
    Except Error q.Answer × Engine :=
  (s.tree id).ask q d s

/-- Prepares a fork. After a success `postFork` is due in the parent and in the child. -/
def preFork (id : ManagerId) (s : Engine) : Except Error Unit × Engine := (s.tree id).preFork s

def postFork (id : ManagerId) (s : Engine) : Engine := (s.tree id).postFork s

end Engine

end Confinement

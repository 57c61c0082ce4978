import Confinement.Host.FileTree

/-!
# The host

What drivers find outside of a definition: files and their owners, open descriptors, running
processes, and the ids that the process itself runs with. A change of owner keeps an id that is
requested as `Ownership.unchanged`, and needs privileges unless it changes nothing.

Labels of a security module are set by the system or by tools of the host. These services are noted,
and how they end is left open: a host brings a function that answers them.
-/

namespace Confinement

/-- The ids that a process runs with. -/
structure Credentials where
  ids : Ownership := .root
  /-- Whether the process may give files away and take other ids. -/
  privileged : Bool := false
  deriving DecidableEq, Repr

/-- An open file, with the text of its link among the descriptors. -/
structure OpenFile where
  link : Path
  /-- Where the file lies in the tree. A file that was never named lies nowhere. -/
  location : Option Location := none
  /-- The owner of a file that lies nowhere. -/
  owner : Ownership := .root
  deriving DecidableEq, Repr

/-- A running process as others see it. -/
structure ProcessInfo where
  pid : UInt32
  owner : Ownership := .root
  /-- The line of counters about the process. -/
  stat : String
  /-- The label that a security module gives the process. -/
  label : Option String := none
  deriving DecidableEq, Repr

/-- What a process finds. -/
structure Surroundings where
  files : FileTree := {}
  /-- The directory that relative paths start from. -/
  directory : Location := []
  descriptors : List OpenFile := []
  processes : List ProcessInfo := []
  credentials : Credentials := {}

/-- A tool that drivers start. -/
inductive Tool
  /-- Gives a file a security context. -/
  | chcon (context : String) (path : Path)
  /-- Loads the profile in a file, in place of an older one. -/
  | apparmorParser (file : Path)
  deriving DecidableEq, Repr

inductive ToolFault
  | notStarted (fault : IoFault)
  /-- The tool ended with a failure, after this output. -/
  | failed (output : String)
  deriving DecidableEq, Repr

/-- What drivers ask of the system itself, beside owners and ids. -/
inductive SystemCall
  /-- Gives an open file a security context. -/
  | setContext (descriptor : Nat) (context : String)
  | makeDirectories (directory : Path)
  | writeFile (file : Path) (text : String)
  deriving DecidableEq, Repr

inductive Service
  | tool (t : Tool)
  | call (c : SystemCall)
  deriving DecidableEq, Repr

/-- The security modules of a host. A service of theirs ends in a way that may depend on what the
process finds and on all services before, the latest first. -/
structure SecurityModules where
  /-- Whether security contexts take effect. -/
  selinux : Bool := false
  /-- The text of the file that says whether contexts are enforced, if it can be read. -/
  enforcement : Option String := none
  /-- Whether profiles take effect. -/
  apparmor : Bool := false
  /-- Whether a process has an attribute for its profile alone. -/
  profileAttribute : Bool := false
  start : Surroundings → List Service → Tool → Except ToolFault Unit := fun _ _ _ => .ok ()
  call : Surroundings → List Service → SystemCall → Except IoFault Unit := fun _ _ _ => .ok ()

structure Host extends Surroundings where
  modules : SecurityModules := {}
  /-- The services so far, the latest first. -/
  services : List Service := []

namespace Credentials

/-- Whether the process may change the owner `old` of a file to `new`. -/
def mayGive (c : Credentials) (old new : Ownership) : Bool :=
  let owns := c.ids.user == old.user
  c.privileged ||
    ((new.user == Ownership.unchanged || (owns && new.user == old.user)) &&
      (new.group == Ownership.unchanged ||
        (owns && (new.group == c.ids.group || new.group == old.group))))

def switchGroup (c : Credentials) (group : UInt32) : Except IoFault Credentials :=
  if group = Ownership.unchanged then .error .invalidArgument
  else if c.privileged ∨ group = c.ids.group then .ok { c with ids := { c.ids with group } }
  else .error .notPermitted

/-- Takes another user. Privileges stay with the user 0. -/
def switchUser (c : Credentials) (user : UInt32) : Except IoFault Credentials :=
  if user = Ownership.unchanged then .error .invalidArgument
  else if c.privileged ∨ user = c.ids.user then
    .ok ⟨{ c.ids with user }, c.privileged && user == 0⟩
  else .error .notPermitted

end Credentials

namespace Host

def chownAt (h : Host) (l : Location) (new : Ownership) (refusal : Error) :
    Except Error Unit × Host :=
  match h.files.owner? l with
  | none => (.error (.io .noSuchEntry), h)
  | some old =>
    if h.credentials.mayGive old new then
      (.ok (), { h with files := h.files.setOwner l (old.updated new) })
    else (.error refusal, h)

/-- The failure of a change of owner by path. A lack of permission names the path. -/
def chownFault (p : Path) : IoFault → Error := .ofAccess ("chown " ++ p.text) .io

/-- Changes the owner of the file that a path leads to. -/
def chown (h : Host) (p : Path) (new : Ownership) : Except Error Unit × Host :=
  match h.files.locate h.directory p with
  | .error fault => (.error (chownFault p fault), h)
  | .ok l => h.chownAt l new (chownFault p .notPermitted)

/-- Changes the owner of an open file. If the file lies in the tree, whoever opens it by a path
meets the new owner. -/
def chownOpen (h : Host) (fd : Nat) (new : Ownership) : Except Error Unit × Host :=
  match h.descriptors[fd]? with
  | none => (.error (.io (.other "Bad file descriptor (os error 9)")), h)
  | some f =>
    match f.location with
    | some l => h.chownAt l new (.io .notPermitted)
    | none =>
      if h.credentials.mayGive f.owner new then
        let f := { f with owner := f.owner.updated new }
        (.ok (), { h with descriptors := h.descriptors.set fd f })
      else (.error (.io .notPermitted), h)

/-- Takes the ids of `o`, the group first. A group stays taken when the user is refused. -/
def switchIds (h : Host) (o : Ownership) : Except Error Unit × Host :=
  match h.credentials.switchGroup o.group with
  | .error fault => (.error (.io fault), h)
  | .ok c =>
    match c.switchUser o.user with
    | .error fault => (.error (.io fault), { h with credentials := c })
    | .ok c' => (.ok (), { h with credentials := c' })

def process? (h : Host) (pid : UInt32) : Option ProcessInfo :=
  h.processes.find? (·.pid == pid)

def processOwner (h : Host) (pid : UInt32) : Except Error Ownership :=
  match h.process? pid with
  | some p => .ok p.owner
  | none => .error (.io .noSuchEntry)

/-- The label that a security module gives a process. -/
def processText (h : Host) (pid : UInt32) : Except Error String :=
  match h.process? pid with
  | some ⟨_, _, _, some label⟩ => .ok label
  | some _ => .error (.io .invalidArgument)
  | none => .error (.io .noSuchEntry)

def descriptorPath (h : Host) (fd : Nat) : Except Error Path :=
  match h.descriptors[fd]? with
  | some f => .ok f.link
  | none => .error (.io .noSuchEntry)

def readText (h : Host) (p : Path) : Except Error String :=
  (h.files.readText h.directory p).mapError .io

def start (h : Host) (t : Tool) (report : ToolFault → Error) : Except Error Unit × Host :=
  ((h.modules.start h.toSurroundings h.services t).mapError report,
    { h with services := .tool t :: h.services })

def call (h : Host) (c : SystemCall) (report : IoFault → Error) : Except Error Unit × Host :=
  ((h.modules.call h.toSurroundings h.services c).mapError report,
    { h with services := .call c :: h.services })

/-- One thing after the other, up to the first failure. -/
def inTurn : List (Host → Except Error Unit × Host) → Host → Except Error Unit × Host
  | [], h => (.ok (), h)
  | f :: fs, h =>
    match f h with
    | (.ok (), h) => inTurn fs h
    | (.error e, h) => (.error e, h)

end Host

end Confinement

/-!
# Failures

Everything that can go wrong is one value of `Error`. The kind is the constructor, the reason is
a typed fault where the library itself raises it, and the wording is in `Error.message` alone.
-/

namespace Confinement

/-- Why the operating system refuses an access. -/
inductive IoFault
  | noSuchEntry
  | notDirectory
  | isDirectory
  | invalidArgument
  | nameTooLong
  | tooManyLinks
  | notPermitted
  | accessDenied
  | noSuchProcess
  | noChildProcess
  /-- A text file holds bytes that are not UTF-8. -/
  | invalidText
  | nulInPath
  | other (text : String)
  deriving DecidableEq, Repr

def IoFault.isRefusal : IoFault → Bool
  | notPermitted => true
  | accessDenied => true
  | _ => false

def IoFault.message : IoFault → String
  | noSuchEntry => "No such file or directory (os error 2)"
  | notDirectory => "Not a directory (os error 20)"
  | isDirectory => "Is a directory (os error 21)"
  | invalidArgument => "Invalid argument (os error 22)"
  | nameTooLong => "File name too long (os error 36)"
  | tooManyLinks => "Too many levels of symbolic links (os error 40)"
  | notPermitted => "Operation not permitted (os error 1)"
  | accessDenied => "Permission denied (os error 13)"
  | noSuchProcess => "No such process (os error 3)"
  | noChildProcess => "No child processes (os error 10)"
  | invalidText => "stream did not contain valid UTF-8"
  | nulInPath => "file name contained an unexpected NUL byte"
  | other text => text

/-- Why a requested policy cannot be honoured. -/
inductive PolicyFault
  | driverNotFound (name : String)
  | noDriverAvailable
  /-- Confinement is required of a driver that confines nothing. -/
  | noneCannotConfine
  | stackInItself
  | notStack (driver : String)
  | unknownModel (model : String)
  | unconfinedRefused
  | staticWithoutLabel (technology : String)
  | baseLabelRefused
  | other (text : String)
  deriving DecidableEq, Repr

def PolicyFault.message : PolicyFault → String
  | driverNotFound name => "Security driver " ++ name ++ " not found"
  | noDriverAvailable => "No security driver available on this host"
  | noneCannotConfine => "Security driver \"none\" cannot create confined guests"
  | stackInItself => "Cannot nest a security stack into itself"
  | notStack driver => "Security driver '" ++ driver ++ "' is not a stack"
  | unknownModel model => "Unable to find security driver for model " ++ model
  | unconfinedRefused => "Unconfined guests are not allowed on this host"
  | staticWithoutLabel technology =>
    "Missing label for static " ++ technology ++ " security label"
  | baseLabelRefused => "Cannot set a base label with AppArmor"
  | other text => text

/-- Why a configuration or a definition is not accepted. -/
inductive ConfigFault
  | listedTwice (driver : String)
  | noneWithOthers
  | unreadableDefinition (format : String)
  | unreadableSettings
  | other (text : String)
  deriving DecidableEq, Repr

def ConfigFault.message : ConfigFault → String
  | listedTwice driver => "Security driver '" ++ driver ++ "' is listed more than once"
  | noneWithOthers => "Security driver \"none\" cannot be combined with other drivers"
  | unreadableDefinition format => "Failed to parse domain " ++ format ++ ":"
  | unreadableSettings => ""
  | other text => text

inductive DriverFault
  | noFreeLevel
  | levelReserved (level : String)
  | labelAlreadyDefined
  | unresolvedType
  | noGeneratedLabel
  | noProfileName
  | toolNotStarted (tool : String) (fault : IoFault)
  | fileNotRelabelled (output : String)
  | contextNotSet (attr : String) (fault : IoFault)
  | profileNotLoaded (output : String)
  | profileNotApplied (fault : IoFault)
  | other (text : String)
  deriving DecidableEq, Repr

def DriverFault.message : DriverFault → String
  | noFreeLevel => "no free MCS category pair left"
  | levelReserved level => "MCS level " ++ level ++ " is already reserved"
  | labelAlreadyDefined => "security label already defined for domain"
  | unresolvedType => "label type must be resolved before generation"
  | noGeneratedLabel => "domain has no generated label"
  | noProfileName => "domain has no profile name"
  | toolNotStarted tool fault => "Failed to run " ++ tool ++ ": " ++ fault.message
  | fileNotRelabelled output => "chcon failed: " ++ output
  | contextNotSet attr fault =>
    "Failed to set SELinux " ++ attr ++ " context: " ++ fault.message
  | profileNotLoaded output => "Failed to load AppArmor profile: " ++ output
  | profileNotApplied fault => "Failed to apply AppArmor profile: " ++ fault.message
  | other text => text

/-- A state that correct use never meets. -/
inductive InternalFault
  | stackWithoutState
  | noPrimary
  /-- The manager bound to `driver` keeps no state of the technology. -/
  | foreignState (driver technology : String)
  | closedManager
  /-- A stack is nested into itself through other stacks, so the operation has no end. -/
  | endlessNesting
  | pidOutOfRange (pid : UInt32)
  | signalFailed (signal : Int) (pid : UInt32) (fault : IoFault)
  | waitFailed (pid : UInt32) (fault : IoFault)
  | malformedStat (pid : UInt32)
  | other (text : String)
  deriving DecidableEq, Repr

def InternalFault.message : InternalFault → String
  | stackWithoutState => "stack driver bound to a manager without stack state"
  | noPrimary => "security stack has no primary driver"
  | foreignState driver technology =>
    "manager '" ++ driver ++ "' is not " ++ technology ++ " manager"
  | closedManager => "manager is closed"
  | endlessNesting => "security stack is nested into itself"
  | pidOutOfRange pid => "pid " ++ pid.toNat.repr ++ " out of range"
  | signalFailed signal pid fault =>
    "Failed to send signal " ++ signal.repr ++ " to " ++ pid.toNat.repr ++ ": " ++ fault.message
  | waitFailed pid fault => "waitpid(" ++ pid.toNat.repr ++ ") failed: " ++ fault.message
  | malformedStat pid => "malformed /proc/" ++ pid.toNat.repr ++ "/stat"
  | other text => text

inductive Error
  | openFailed (driver : String) (cause : Error)
  | notSupported (driver operation : String)
  | configUnsupported (fault : PolicyFault)
  | config (fault : ConfigFault)
  | invalidLabel (model label : String)
  | driver (driver : String) (fault : DriverFault)
  | invalidDomainName (name : String)
  | io (fault : IoFault)
  | serialization (text : String)
  | permissionDenied (operation : String)
  | unsupported (feature : String)
  | internal (fault : InternalFault)
  deriving DecidableEq, Repr

namespace Error

/-- The text shown for a failure. The cause of a refused opening is kept apart. -/
def message : Error → String
  | openFailed name _ => "Failed to open security driver '" ++ name ++ "'"
  | notSupported name operation =>
    "Operation '" ++ operation ++ "' is not supported by security driver '" ++ name ++ "'"
  | configUnsupported fault => "Unsupported configuration: " ++ fault.message
  | config fault => "Configuration error: " ++ fault.message
  | invalidLabel model label => "Invalid " ++ model ++ " security label: " ++ label
  | driver name fault => "Security driver '" ++ name ++ "' failed: " ++ fault.message
  | invalidDomainName name => "Invalid domain name: " ++ name
  | io fault => "I/O error: " ++ fault.message
  | serialization text => "Serialization error: " ++ text
  | permissionDenied operation => "Permission denied: " ++ operation
  | unsupported feature => "Feature not supported: " ++ feature
  | internal fault => "Internal error: " ++ fault.message

def code : Error → String
  | openFailed .. => "seclabel::driver::open_failed"
  | notSupported .. => "seclabel::driver::not_supported"
  | configUnsupported _ => "seclabel::config_unsupported"
  | config _ => "seclabel::config"
  | invalidLabel .. => "seclabel::label::invalid"
  | driver .. => "seclabel::driver::failed"
  | invalidDomainName _ => "seclabel::domain::invalid_name"
  | io _ => "seclabel::io"
  | serialization _ => "seclabel::serialization"
  | permissionDenied _ => "seclabel::permission_denied"
  | unsupported _ => "seclabel::unsupported"
  | internal _ => "seclabel::internal"

/-- Advice for the kinds of failure that the user can do something about. -/
def help? : Error → Option String
  | configUnsupported _ =>
    some "Check the configured security drivers and the domain's <seclabel> entries"
  | invalidDomainName _ =>
    some "Domain names must be alphanumeric with '.', '-' and '_', 1-64 characters"
  | permissionDenied _ => some "Try running with elevated privileges (sudo)"
  | unsupported _ => some "This feature requires Linux"
  | internal _ =>
    some "This is a bug, please report it at https://github.com/fishmindlabs360/seclabel/issues"
  | _ => none

/-- A lack of permission is reported by what was not permitted, any other fault in its own way. -/
def ofAccess (operation : String) (otherwise : IoFault → Error) (fault : IoFault) : Error :=
  if fault.isRefusal then .permissionDenied operation else otherwise fault

def cause? : Error → Option Error
  | openFailed _ cause => some cause
  | _ => none

end Error

/-- The earlier of two failures: the second result counts only if the first is a success. -/
def firstFailure (r s : Except Error Unit) : Except Error Unit :=
  match r with
  | .error e => .error e
  | .ok () => s

@[simp] theorem firstFailure_ok (s : Except Error Unit) : firstFailure (.ok ()) s = s := rfl

@[simp] theorem firstFailure_error (e : Error) (s : Except Error Unit) :
    firstFailure (.error e) s = .error e := rfl

theorem firstFailure_eq_ok_iff {r s : Except Error Unit} :
    firstFailure r s = .ok () ↔ r = .ok () ∧ s = .ok () := by
  match r with
  | .error e => simp
  | .ok () => simp

theorem firstFailure_assoc (r s t : Except Error Unit) :
    firstFailure (firstFailure r s) t = firstFailure r (firstFailure s t) := by
  cases r <;> rfl

/-- A chain of two steps succeeds if both do, the second on what the first one gives. -/
theorem bind_eq_ok_iff {α β : Type} {r : Except Error α} {f : α → Except Error β} {b : β} :
    r >>= f = .ok b ↔ ∃ a, r = .ok a ∧ f a = .ok b := by
  cases r with
  | error e => simp [bind, Except.bind]
  | ok a => simp [bind, Except.bind]

theorem map_eq_ok_iff {α β : Type} {r : Except Error α} {f : α → β} {b : β} :
    r.map f = .ok b ↔ ∃ a, r = .ok a ∧ f a = b := by
  cases r with
  | error e => simp [Except.map]
  | ok a => simp [Except.map]

end Confinement

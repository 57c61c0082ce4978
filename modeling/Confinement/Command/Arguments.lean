import Confinement.Command.Basic
import Confinement.Text

/-!
# Arguments of a command line

Arguments come in two levels: before the word that names the command and after it. The shared
options may stand on both levels, and what is given behind the command counts. An option or an
operand is checked when the next one begins or the arguments of its level end, so the earlier of two
mistakes is the one that is reported.
-/

namespace Confinement

/-- Why arguments are no invocation. The first two are requests and no mistakes. -/
inductive UsageFault
  | helpRequested
  | versionRequested
  | nothingGiven
  | commandMissing
  | commandUnknown
  | argumentUnknown
  | operandMissing
  /-- An option without a value, an empty path, or a name that is no choice. -/
  | valueInvalid
  /-- A number that is no process number. -/
  | numberInvalid
  | optionRepeated
  /-- A value for an option that takes none. -/
  | valueUnexpected
  deriving DecidableEq, Repr

/-- What an option or an operand is for. -/
inductive Item
  | config
  | driver
  | debug
  | domains
  | domain
  | pid
  | shell
  deriving DecidableEq, Repr

/-- An item with a value that has been checked. -/
inductive Given
  | config (file : Path)
  | driver (name : String)
  | debug
  | domains (directory : Path)
  | domain (file : Path)
  | pid (pid : UInt32)
  | shell (shell : Shell)
  deriving DecidableEq, Repr

def Given.item : Given → Item
  | config _ => .config
  | driver _ => .driver
  | debug => .debug
  | domains _ => .domains
  | domain _ => .domain
  | pid _ => .pid
  | shell _ => .shell

def helpVerb : String := "help"

def separator : String := "--"

/-- The number that a process argument writes. Zero may have a minus sign. -/
def pid? (s : List Char) : Option UInt32 :=
  match s with
  | '-' :: rest =>
    match Text.digits? rest with
    | some 0 => some 0
    | _ => none
  | s => Text.uint32? s

namespace Item

/-- Whether the item may be given several times on one level. -/
def repeats (i : Item) : Bool := i == driver

/-- The name of the option for an item that is given by option. -/
def option : Item → String
  | config => "config"
  | driver => "driver"
  | debug => "debug"
  | domains => "domains"
  | domain => "domain"
  | pid => "pid"
  | shell => "shell"

/-- Checks the text of a value. -/
def accept (i : Item) (text : String) : Except UsageFault Given :=
  let path (f : Path → Given) : Except UsageFault Given :=
    if text = "" then .error .valueInvalid else .ok (f ⟨text⟩)
  match i with
  | config => path .config
  | driver => .ok (.driver text)
  | debug => .ok .debug
  | domains => path .domains
  | domain => path .domain
  | pid =>
    match pid? text.toList with
    | some n => .ok (.pid n)
    | none => .error .numberInvalid
  | shell =>
    match Shell.ofName? text with
    | some s => .ok (.shell s)
    | none => .error .valueInvalid

end Item

namespace Verb

def operands : Verb → List Item
  | drivers => []
  | generate => [.domain]
  | verify => [.domain]
  | model => []
  | process => [.pid]
  | completions => [.shell]

/-- The options of a command besides the shared ones. -/
def options : Verb → List Item
  | generate => [.domains]
  | process => [.domain]
  | _ => []

end Verb

/-- The options that may stand before the command, or behind it. -/
def optionsAt (level : Option Verb) : List Item :=
  [.config, .driver, .debug] ++ (level.map Verb.options).getD []

/-- How an argument is written. -/
inductive Spelling
  | separator
  | long (name : String) (value : Option String)
  | short (letter : Char)
  | plain
  deriving DecidableEq, Repr

/-- The spelling of an argument. A lone dash is a plain argument. -/
def Spelling.of (argument : String) : Spelling :=
  match argument.toList with
  | ['-', '-'] => .separator
  | '-' :: '-' :: rest =>
    match Text.cutFirst '=' rest with
    | some (name, value) => .long (String.ofList name) (some (String.ofList value))
    | none => .long (String.ofList rest) none
  | '-' :: letter :: _ => .short letter
  | _ => .plain

/-- What has been read on one level. -/
structure Reading where
  given : List Given := []
  /-- The latest item, which is not checked yet, with its value, once there is one. -/
  pending : Option (Item × Option String) := none
  /-- The operands that are still to come. -/
  operands : List Item := []
  /-- Whether everything that follows is an operand. -/
  separated : Bool := false

namespace Reading

def has (r : Reading) (i : Item) : Bool := r.given.any (·.item == i)

/-- Whether the next argument is the value of an option. -/
def awaitsValue (r : Reading) : Bool :=
  match r.pending with
  | some (_, none) => true
  | _ => false

/-- Adds an item. Most items are given once. -/
def add (r : Reading) (i : Item) (text : String) : Except UsageFault Reading :=
  if r.has i && !i.repeats then .error .optionRepeated
  else (i.accept text).map fun g => { r with given := r.given ++ [g] }

/-- Checks the latest item. -/
def settle (r : Reading) : Except UsageFault Reading :=
  match r.pending with
  | none => .ok r
  | some (_, none) => .error .valueInvalid
  | some (i, some text) => { r with pending := none }.add i text

def long (level : Option Verb) (r : Reading) (name : String) (value : Option String) :
    Except UsageFault Reading := do
  let r ← r.settle
  match name, value with
  | "help", none => .error .helpRequested
  | "version", none => .error .versionRequested
  | "help", some _ => .error .valueUnexpected
  | "version", some _ => .error .valueUnexpected
  | _, _ =>
    match (optionsAt level).find? (·.option == name), value with
    | none, _ => .error .argumentUnknown
    | some .debug, none => r.add .debug ""
    | some .debug, some _ => .error .valueUnexpected
    | some i, some text => r.add i text
    | some i, none => .ok { r with pending := some (i, none) }

def short (r : Reading) (letter : Char) : Except UsageFault Reading := do
  let _ ← r.settle
  .error (match letter with
    | 'h' => .helpRequested
    | 'V' => .versionRequested
    | _ => .argumentUnknown)

/-- What is wrong with a word that no operand is left for. In front of the command the word was to
be a command, and is one too late if it stands behind the separator. -/
def surplus (level : Option Verb) (word : String) (separated : Bool) : UsageFault :=
  match level with
  | some _ => .argumentUnknown
  | none =>
    if separated ∧ (word = helpVerb ∨ (Verb.ofName? word).isSome) then .argumentUnknown
    else .commandUnknown

def operand (level : Option Verb) (r : Reading) (text : String) : Except UsageFault Reading := do
  let r ← r.settle
  match r.operands with
  | [] => .error (surplus level text r.separated)
  | i :: rest => .ok { r with pending := some (i, some text), operands := rest }

def take (level : Option Verb) (r : Reading) (argument : String) : Except UsageFault Reading :=
  if r.separated then r.operand level argument
  else match Spelling.of argument with
    | .separator => .ok { r with separated := true }
    | .long name value => r.long level name value
    | .short letter => r.short letter
    | .plain =>
      match r.pending with
      | some (i, none) => .ok { r with pending := some (i, some argument) }
      | _ => r.operand level argument

def behind (v : Verb) (arguments : List String) : Except UsageFault Reading := do
  let r ← arguments.foldlM (take (some v)) { operands := v.operands }
  r.settle

/-- The failure of a request for help on the commands that `words` name. -/
def helpOn (words : List String) : UsageFault :=
  match words with
  | [] => .helpRequested
  | [word] =>
    if word = helpVerb ∨ (Verb.ofName? word).isSome then .helpRequested else .commandUnknown
  | _ => .commandUnknown

/-- Reads the arguments in front of the command. Gives the command and the arguments behind it, if
there is a command. -/
def front (r : Reading) :
    List String → Except UsageFault (Reading × Option (Verb × List String))
  | [] => .ok (r, none)
  | argument :: rest =>
    if r.separated || r.awaitsValue then do front (← r.take none argument) rest
    else if argument = helpVerb then .error (helpOn rest)
    else match Verb.ofName? argument with
      | some v => .ok (r, some (v, rest))
      | none => do front (← r.take none argument) rest

end Reading

namespace Given

def config? (gs : List Given) : Option Path :=
  gs.findSome? fun
    | config file => some file
    | _ => none

def driverNames (gs : List Given) : List String :=
  gs.filterMap fun
    | driver name => some name
    | _ => none

def domains? (gs : List Given) : Option Path :=
  gs.findSome? fun
    | domains directory => some directory
    | _ => none

def domain? (gs : List Given) : Option Path :=
  gs.findSome? fun
    | domain file => some file
    | _ => none

def pid? (gs : List Given) : Option UInt32 :=
  gs.findSome? fun
    | pid n => some n
    | _ => none

def shell? (gs : List Given) : Option Shell :=
  gs.findSome? fun
    | shell s => some s
    | _ => none

end Given

/-- The shared options of two levels. What is given behind the command counts. -/
def Options.ofGiven (front behind : List Given) : Options where
  config := (Given.config? behind).or (Given.config? front)
  drivers :=
    match Given.driverNames behind with
    | [] => Given.driverNames front
    | names => names
  debug := front.contains .debug || behind.contains .debug

/-- The command that a verb makes of the arguments behind it, if no operand is missing. -/
def Command.ofGiven? (v : Verb) (gs : List Given) : Option Command :=
  match v with
  | .drivers => some .drivers
  | .generate => (Given.domain? gs).map fun file => .generate file (Given.domains? gs)
  | .verify => (Given.domain? gs).map .verify
  | .model => some .model
  | .process => (Given.pid? gs).map fun n => .process n (Given.domain? gs)
  | .completions => (Given.shell? gs).map .completions

/-- Reads the arguments of a command line. -/
def Invocation.ofArguments (arguments : List String) : Except UsageFault Invocation := do
  let (front, command) ← Reading.front {} arguments
  match command with
  | none =>
    let front ← front.settle
    .error (if front.given = [] then .nothingGiven else .commandMissing)
  | some (v, rest) =>
    let behind ← Reading.behind v rest
    match Command.ofGiven? v behind.given with
    | none => .error .operandMissing
    | some command =>
      let front ← front.settle
      .ok ⟨.ofGiven front.given behind.given, command⟩

end Confinement

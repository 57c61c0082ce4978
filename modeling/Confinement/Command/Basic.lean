import Confinement.Path

/-!
# Commands

What the command line can be asked for: a command with its operands, and options that all commands
share.
-/

namespace Confinement

/-- A shell that completions can be written for. -/
inductive Shell
  | bash
  | elvish
  | fish
  | powershell
  | zsh
  deriving DecidableEq, Repr

inductive Command
  /-- Lists the drivers and whether the host can use them. -/
  | drivers
  /-- Generates the labels of a domain. Levels that are held by the domains in a directory are not
  handed out. -/
  | generate (domain : Path) (domains : Option Path)
  /-- Checks the labels of a domain. -/
  | verify (domain : Path)
  /-- Lists the model and the domain of interpretation of every stacked driver. -/
  | model
  /-- Shows the label and the start time of a process. -/
  | process (pid : UInt32) (domain : Option Path)
  /-- Writes the completions for a shell. -/
  | completions (shell : Shell)
  deriving DecidableEq, Repr

/-- The options that all commands share. -/
structure Options where
  /-- The file of settings, instead of the standard one. -/
  config : Option Path := none
  /-- The drivers to stack, instead of those in the settings. -/
  drivers : List String := []
  /-- Whether details are logged. -/
  debug : Bool := false
  deriving DecidableEq, Repr

structure Invocation where
  options : Options
  command : Command
  deriving DecidableEq, Repr

namespace Shell

def all : List Shell := [bash, elvish, fish, powershell, zsh]

def name : Shell → String
  | bash => "bash"
  | elvish => "elvish"
  | fish => "fish"
  | powershell => "powershell"
  | zsh => "zsh"

def ofName? (s : String) : Option Shell := all.find? (·.name == s)

end Shell

/-- The word that names a command. -/
inductive Verb
  | drivers
  | generate
  | verify
  | model
  | process
  | completions
  deriving DecidableEq, Repr

namespace Verb

def all : List Verb := [drivers, generate, verify, model, process, completions]

def name : Verb → String
  | drivers => "drivers"
  | generate => "generate"
  | verify => "verify"
  | model => "model"
  | process => "process"
  | completions => "completions"

def ofName? (s : String) : Option Verb := all.find? (·.name == s)

theorem ofName?_name (v : Verb) : ofName? v.name = some v := by cases v <;> rfl

end Verb

end Confinement

import Confinement.Command.Basic
import Confinement.Layout
import Confinement.Manager.Assembly
import Confinement.Manager.Generation
import Confinement.Manager.Stored
import Confinement.Process.Children
import Confinement.Settings.Format

/-!
# Carrying out commands

A command reads files, works on the host's managers, writes lines, and stops with a report at the
first failure. The lines that it has written by then stay written. The report says which part of the
work did not succeed, and why.
-/

namespace Confinement

inductive Report
  /-- The settings could not be read. -/
  | settings (file : Path) (cause : Error)
  /-- The host's manager could not be assembled. -/
  | assembly (cause : Error)
  /-- The definition of a domain could not be read. -/
  | definition (file : Path) (cause : Error)
  | generation (domain : DomainName) (cause : Error)
  | verification (domain : DomainName) (driver : String) (cause : Error)
  | processLabel (pid : UInt32) (cause : Error)
  | startTime (pid : UInt32) (cause : Error)
  | directory (path : Path) (fault : IoFault)
  /-- A failure that speaks for itself. -/
  | plain (cause : Error)
  deriving DecidableEq

def Report.message : Report → String
  | settings file cause => "Failed to load " ++ file.text ++ ": " ++ cause.message
  | assembly cause => "Failed to initialize security drivers: " ++ cause.message
  | definition file cause => "Failed to load domain " ++ file.text ++ ": " ++ cause.message
  | generation domain cause =>
    "Failed to generate labels for " ++ domain.text ++ ": " ++ cause.message
  | verification domain driver cause =>
    "Domain " ++ domain.text ++ " failed " ++ driver ++ " verification: " ++ cause.message
  | processLabel pid cause =>
    "Failed to read label of process " ++ pid.toNat.repr ++ ": " ++ cause.message
  | startTime pid cause =>
    "Failed to read start time of process " ++ pid.toNat.repr ++ ": " ++ cause.message
  | directory path fault => "Failed to read " ++ path.text ++ ": " ++ fault.message
  | plain cause => cause.message

/-- What a command works with. -/
structure Console where
  engine : Engine
  /-- The lines that have been written. -/
  lines : List String := []

/-- What all commands find in place. -/
structure Station where
  layout : Layout := .standard
  registry : Registry := .standard
  /-- A supply of UUIDs that nobody has. -/
  fresh : Nat → Uuid

/-- A script works with the console and may stop with a report. -/
abbrev Script := ExceptT Report (StateM Console)

namespace Script

/-- Runs to the end. Gives the report, if there is one, and the lines. -/
def eval (script : Script Unit) (c : Console) : Option Report × List String :=
  match (script.run).run c with
  | (.ok (), c) => (none, c.lines)
  | (.error report, c) => (some report, c.lines)

/-- Writes lines. -/
def write (lines : List String) : Script Unit :=
  modify fun c => { c with lines := c.lines ++ lines }

/-- A value, or a stop with a report about the failure. -/
def expect {α : Type} (report : Error → Report) (r : Except Error α) : Script α :=
  match r with
  | .ok a => pure a
  | .error e => throw (report e)

/-- Has the engine do something. -/
def operate {α : Type} (report : Error → Report) (f : Engine → Except Error α × Engine) :
    Script α := do
  let c ← get
  let (r, engine) := f c.engine
  set { c with engine }
  expect report r

def host : Script Host := do
  return (← get).engine.host

end Script

/-- The settings in a file that has to be there, or in the standard file, if it is there. -/
def Layout.settings (l : Layout) (h : Host) (config : Option Path) : Except Report Settings :=
  let read (file : Path) := (Settings.ofFile h file).mapError (.settings file)
  match config with
  | some file => read file
  | none => if h.files.leads h.directory l.configFile then read l.configFile else .ok {}

/-- Settings with the drivers that the options name, if they name any. -/
def Options.apply (o : Options) (s : Settings) : Settings :=
  if o.drivers = [] then s else { s with drivers := o.drivers }

namespace Station

def settings (st : Station) (o : Options) : Script Settings := do
  let settings ← MonadExcept.ofExcept (st.layout.settings (← Script.host) o.config)
  pure (o.apply settings)

/-- The manager of the host. -/
def manager (st : Station) (o : Options) : Script ManagerId := do
  let settings ← st.settings o
  Script.operate .assembly (settings.assemble st.registry).eval

/-- The definition in a file. -/
def definition (st : Station) (file : Path) : Script Definition := do
  Script.expect (.definition file) (Definition.ofFile (st.fresh 0) (← Script.host) file)

/-- A line of the list of drivers. -/
def driverLine (name : String) (available : Bool) : String :=
  name ++ "\t" ++ if available then "yes" else "no"

/-- The lines of the list of drivers. Ownership and stacks are always there. -/
def driverLines (st : Station) (h : Host) (virtDriver : String) : List String :=
  ["NAME\tAVAILABLE"] ++ st.registry.map (fun d => driverLine d.name (d.usable h virtDriver)) ++
    [driverLine Driver.dac.name true, driverLine Driver.stack.name true]

def listDrivers (st : Station) (o : Options) : Script Unit := do
  let settings ← st.settings o
  Script.write (st.driverLines (← Script.host) settings.virtDriver)

/-- Reserves the levels of the stored domains except `current`. -/
def reserveKnown (st : Station) (m : ManagerId) (dir : Path) (current : Uuid) : Script Unit := do
  let c ← get
  let (r, engine) := c.engine.reserveKnownLevels m (fun i => st.fresh (i + 1)) dir current
  set { c with engine }
  match r with
  | .ok () => pure ()
  | .error fault => throw (.directory dir fault)

def generate (st : Station) (o : Options) (file : Path) (domains : Option Path) :
    Script Unit := do
  let m ← st.manager o
  let d ← st.definition file
  st.reserveKnown m (domains.getD st.layout.domains) d.uuid
  let d ← Script.operate (.generation d.name) fun s =>
    let (r, stage) := Engine.generateLabels m ⟨s, d⟩
    (r.map fun _ => stage.definition, stage.engine)
  Script.write (d.text.splitOn "\n")

/-- The name of a manager's driver. -/
def driverName (m : ManagerId) : Script String := do
  let c ← get
  pure ((c.engine.manager? m).elim "" (·.driver.name))

/-- Verifies with managers, up to the first failure. -/
def verifyEach (d : Definition) (ms : List ManagerId) : Script Unit :=
  ms.forM fun m => do
    let name ← driverName m
    Script.operate (.verification d.name name) (Engine.perform m .verify d)

def verify (st : Station) (o : Options) (file : Path) : Script Unit := do
  let m ← st.manager o
  let d ← st.definition file
  verifyEach d ((← get).engine.nested m)
  Script.write ["Domain " ++ d.name.text ++ " verified"]

/-- A definition for a process of which no domain is known. -/
def unknownDomain (st : Station) : Definition where
  name := ⟨"unknown", by decide⟩
  uuid := st.fresh 0

/-- Writes the model and the domain of interpretation of managers. -/
def writeModels (d : Definition) (ms : List ManagerId) : Script Unit :=
  ms.forM fun m => do
    let name ← driverName m
    let model ← Script.operate .plain (Engine.ask m .model d)
    let interpretation ← Script.operate .plain (Engine.ask m .interpretation d)
    Script.write [name ++ "\t" ++ model ++ "\t" ++ interpretation]

def listModels (st : Station) (o : Options) : Script Unit := do
  let m ← st.manager o
  Script.write ["DRIVER\tMODEL\tDOI"]
  writeModels st.unknownDomain ((← get).engine.nested m)

def showProcess (st : Station) (o : Options) (pid : UInt32) (domain : Option Path) :
    Script Unit := do
  let m ← st.manager o
  let d ← match domain with
    | some file => st.definition file
    | none => pure st.unknownDomain
  let label ← Script.operate (.processLabel pid) (Engine.ask m (.processLabel pid) d)
  let stat := ((← Script.host).process? pid).map (·.stat)
  let start ← Script.expect (.startTime pid) (startTime pid stat)
  Script.write
    ["Model:      " ++ label.model, "Label:      " ++ label.label,
      "Enforcing:  " ++ (if label.enforcing then "true" else "false"),
      "Start time: " ++ start.repr]

/-- Carries out an invocation. The text of completions is no work of this library: none is
written. -/
def run (st : Station) (i : Invocation) : Script Unit :=
  match i.command with
  | .drivers => st.listDrivers i.options
  | .generate domain domains => st.generate i.options domain domains
  | .verify domain => st.verify i.options domain
  | .model => st.listModels i.options
  | .process pid domain => st.showProcess i.options pid domain
  | .completions _ => pure ()

end Station

end Confinement

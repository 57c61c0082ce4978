import Confinement.Driver.Scene
import Confinement.Selinux.Context

/-!
# Labelling by security context

The label of a domain is the context of its processes, and its image label the context of its
files. A dynamic label takes a free level of the manager, and releasing the label frees the level.
Where contexts have no effect files and processes are left alone.
-/

namespace Confinement.Selinux

def imageLabel (level : Option String) : String := (Context.imageDefault.withLevel level).text

/-- The context that a dynamic label takes its parts but the level from. -/
def baseContext (e : LabelEntry) : Except Error Context :=
  match e.baseLabel with
  | some base => Context.parse base
  | none => .ok .domainDefault

/-- Completes the entry of the model. A dynamic entry reserves the level of its new label. -/
def generate (s : Scene) : Except Error (DriverState × Definition) :=
  match s.findEntry model with
  | none => .ok (s.state, s.definition)
  | some e =>
    match e.type with
    | .static =>
      match e.label with
      | none => .error (.configUnsupported (.staticWithoutLabel "SELinux"))
      | some label => do
        let context ← Context.parse label
        .ok (s.state, s.definition.editEntry model fun e =>
          { e with imageLabel := e.imageLabel.or (some (imageLabel context.level)) })
    | .dynamic =>
      match e.label with
      | some _ => .error (.driver model .labelAlreadyDefined)
      | none => do
        let base ← baseContext e
        let levels ← s.levels
        let (level, levels) ← levels.reserveNext
        .ok (.selinux levels, s.definition.editEntry model fun e =>
          { e with
            label := some (base.withLevel (some level)).text
            imageLabel := some (imageLabel (some level)) })
    | .unconfined => .ok (s.state, s.definition)
    | .undecided => .error (.driver model .unresolvedType)

def freeLevel (s : Scene) (level : String) : Except Error DriverState :=
  s.levels.map fun levels => .selinux (levels.erase level)

/-- Takes the label of a dynamic entry away and frees its level. The label is gone even if no level
can be read from it; then the image label stays. -/
def release (s : Scene) : Except Error Unit × Scene :=
  match s.findEntry model with
  | none => s.done
  | some e =>
    if e.type ≠ .dynamic then s.done
    else
      let bare := { s with definition := s.definition.editEntry model ({ · with label := none }) }
      let freed : Except Error DriverState :=
        match e.label with
        | none => .ok s.state
        | some label => do
          let context ← Context.parse label
          match context.level with
          | some level => freeLevel s level
          | none => .ok s.state
      match freed with
      | .error err => bare.fail err
      | .ok state =>
        (.ok (), { s with state, definition :=
          s.definition.editEntry model ({ · with label := none, imageLabel := none }) })

def reserveLevel (s : Scene) (level : String) : Except Error Unit × Scene :=
  match s.state with
  | .selinux levels =>
    let (r, levels) := levels.reserve level
    (r, { s with state := .selinux levels })
  | _ => s.fail (s.foreign "an SELinux")

/-- The level in the label of a dynamic entry. -/
def heldLevel (d : Definition) : Except Error (Option String) :=
  match d.findEntry model with
  | some e =>
    if e.type = .dynamic then
      match e.label with
      | some label => (Context.parse label).map (·.level)
      | none => .ok none
    else .ok none
  | none => .ok none

def reserveDomainLevel (s : Scene) : Except Error Unit × Scene :=
  s.after (heldLevel s.definition) fun
    | some level => reserveLevel s level
    | none => s.done

/-- A process's context without the marks of its end. -/
def trimEnd (text : String) : String :=
  let isMark (c : Char) : Bool := c == '\x00' || c == '\n'
  String.ofList (text.toList.reverse.dropWhile isMark).reverse

/-- Reserves the level that a process of the domain runs with. -/
def reserve (s : Scene) (pid : UInt32) : Except Error Unit × Scene :=
  if (s.findEntry model).any (·.type = .dynamic) then
    s.after (s.host.processText pid) fun text =>
      s.after (Context.parse (trimEnd text)) fun context =>
        match context.level with
        | some level => reserveLevel s level
        | none => s.done
  else s.done

/-- Checks every label of the entry, and that a static entry has one. -/
def verify (d : Definition) : Except Error Unit :=
  match d.findEntry model with
  | none => .ok ()
  | some e =>
    if e.type = .static ∧ e.label = none then
      .error (.configUnsupported (.staticWithoutLabel "SELinux"))
    else (e.label.toList ++ e.imageLabel.toList ++ e.baseLabel.toList).forM fun label =>
      (Context.parse label).map fun _ => ()

def attributeFault (attr : String) : IoFault → Error :=
  .ofAccess ("set SELinux " ++ attr ++ " context") fun fault =>
    .driver model (.contextNotSet attr fault)

/-- Writes an attribute of the process that holds a context. -/
def writeAttribute (attr text : String) (h : Host) : Except Error Unit × Host :=
  if h.modules.selinux then
    h.call (.writeFile ⟨"/proc/self/attr/" ++ attr⟩ text) (attributeFault attr)
  else (.ok (), h)

def chconFault : ToolFault → Error
  | .notStarted fault => .driver model (.toolNotStarted "chcon" fault)
  | .failed output => .driver model (.fileNotRelabelled output)

def setFileContext (path : Path) (context : String) (h : Host) : Except Error Unit × Host :=
  if h.modules.selinux then h.start (.chcon context path) chconFault else (.ok (), h)

def setOpenContext (descriptor : Nat) (context : String) (h : Host) : Except Error Unit × Host :=
  if h.modules.selinux then h.call (.setContext descriptor context) .io else (.ok (), h)

/-- The entry of a domain that is confined. -/
def confined? (d : Definition) : Option LabelEntry :=
  (d.findEntry model).filter (·.type ≠ .unconfined)

/-- The image label of a domain whose resources are labelled. -/
def relabelTarget? (d : Definition) : Option String :=
  ((d.findEntry model).filter (·.relabels)).bind (·.imageLabel)

/-- The context that the processes of the domain run in, if the domain is confined. -/
def processContext (d : Definition) : Except Error (Option Context) :=
  match confined? d with
  | none => .ok none
  | some e =>
    match e.label with
    | some label => (Context.parse label).map some
    | none => .error (.driver model .noGeneratedLabel)

/-- Labels a resource of the domain, if its resources are labelled. -/
def relabel (s : Scene) (f : String → Host → Except Error Unit × Host) :
    Except Error Unit × Scene :=
  s.withHostFor (relabelTarget? s.definition) f

/-- Labels something with the label of the domain, if the domain is confined and has one. -/
def confine (s : Scene) (f : String → Host → Except Error Unit × Host) :
    Except Error Unit × Scene :=
  s.withHostFor ((confined? s.definition).bind (·.label)) f

def perform (op : Operation) (s : Scene) : Except Error Unit × Scene :=
  match op with
  | .generate =>
    s.after (generate s) fun (state, definition) => (.ok (), { s with state, definition })
  | .release => release s
  | .reserve pid => reserve s pid
  | .verify => s.check (verify s.definition)
  | .setProcess =>
    s.after (processContext s.definition) fun context =>
      s.withHostFor context fun c => writeAttribute "exec" c.text
  | .setImage disk =>
    if disk.noRelabel then s.done
    else relabel s fun label =>
      setFileContext disk.path (if disk.readOnly then Context.readOnlyImage.text else label)
  | .restoreImage disk =>
    if disk.readOnly || disk.noRelabel then s.done
    else relabel s fun _ => setFileContext disk.path Context.imageRestore.text
  | .setSocket => confine s (writeAttribute "sockcreate")
  | .clearSocket =>
    s.withHostFor (confined? s.definition) fun _ => writeAttribute "sockcreate" ""
  | .setDaemonSocket => confine s (writeAttribute "sockcreate")
  | .setDevice device root => relabel s (setFileContext (device.pathIn root))
  | .restoreDevice device root =>
    relabel s fun _ => setFileContext (device.pathIn root) Context.deviceRestore.text
  | .setSavedState path => relabel s (setFileContext path)
  | .restoreSavedState path => relabel s fun _ => setFileContext path Context.imageRestore.text
  | .setOpenImage descriptor => relabel s (setOpenContext descriptor)
  | .setOpenTap descriptor => confine s (setOpenContext descriptor)

def mountOptions (d : Definition) : Option String := do
  let e ← d.findEntry model
  if e.type = .unconfined then none
  else
    let label ← e.imageLabel
    some ("context=\"" ++ label ++ "\"")

/-- Whether the host enforces contexts: its file says so by the one word 1. -/
def enforces (h : Host) : Bool :=
  h.modules.enforcement.any fun text => Text.words text.toList == [['1']]

def answer (q : Question) (s : Scene) : Except Error q.Answer :=
  match q with
  | .model => .ok model
  | .interpretation => .ok "0"
  | .processLabel pid =>
    (s.host.processText pid).map fun text => ⟨model, trimEnd text, enforces s.host⟩
  | .mountOptions => .ok (mountOptions s.definition)

end Confinement.Selinux

import Confinement.Driver.Scene

/-!
# Labelling by ownership

The label of a domain is the owner of its processes. Its resources get the owner that their label
names when they are labelled and go back to the owner 0:0 when they are restored, if the manager's
policy is to change owners at all.
-/

namespace Confinement.Dac

/-- The model name of the labels of this kind. -/
def model : String := "dac"

def processOwner (policy : OwnershipPolicy) (d : Definition) : Except Error Ownership :=
  match (d.findEntry model).bind (·.label) with
  | some label => Ownership.parse label
  | none => .ok policy.owner

/-- The owner that an entry names for resources: the image label counts before the label. -/
def entryOwner (policy : OwnershipPolicy) (e : LabelEntry) : Except Error Ownership :=
  match e.imageLabel.or e.label with
  | some label => Ownership.parse label
  | none => .ok policy.owner

/-- The owner that the domain's resources get, if they get one. -/
def imageOwner (policy : OwnershipPolicy) (d : Definition) : Except Error (Option Ownership) :=
  if policy.dynamic = false then .ok none
  else match d.findEntry model with
    | none => .ok (some policy.owner)
    | some e => if e.relabels then (entryOwner policy e).map some else .ok none

/-- Whether the domain's resources go back to the host. -/
def restores (policy : OwnershipPolicy) (d : Definition) : Bool :=
  policy.dynamic && !((d.findEntry model).any fun e => !e.relabels)

/-- Completes the entry of the model. The image label of an earlier run stays. -/
def generate (policy : OwnershipPolicy) (d : Definition) : Except Error Definition :=
  match d.findEntry model with
  | none => .ok d
  | some e =>
    let withImage (label : Option String) : Definition :=
      d.editEntry model fun e => { e with label, imageLabel := e.imageLabel.or label }
    match e.type with
    | .static =>
      match e.label with
      | none => .error (.configUnsupported (.staticWithoutLabel "DAC"))
      | some label => (Ownership.parse label).map fun _ => withImage (some label)
    | .dynamic => .ok (withImage (some policy.owner.label))
    | .unconfined => .ok d
    | .undecided => .error (.driver model .unresolvedType)

def verify (d : Definition) : Except Error Unit :=
  match d.findEntry model with
  | some e =>
    if e.type = .static then (Ownership.parse (e.label.getD "")).map fun _ => () else .ok ()
  | none => .ok ()

def setPath (s : Scene) (path : Path) : Except Error Unit × Scene :=
  s.after s.ownership fun policy =>
    s.after (imageOwner policy s.definition) fun
      | some owner => s.withHost (·.chown path owner)
      | none => s.done

/-- Gives an open file to the owner of the domain's resources. -/
def setOpen (s : Scene) (descriptor : Nat) : Except Error Unit × Scene :=
  s.after s.ownership fun policy =>
    s.after (imageOwner policy s.definition) fun
      | some owner => s.withHost (·.chownOpen descriptor owner)
      | none => s.done

def restorePath (s : Scene) (path : Path) : Except Error Unit × Scene :=
  s.after s.ownership fun policy =>
    if restores policy s.definition then s.withHost (·.chown path .root) else s.done

def perform (op : Operation) (s : Scene) : Except Error Unit × Scene :=
  match op with
  | .generate => s.after s.ownership fun policy => s.define (generate policy s.definition)
  | .verify => s.check (verify s.definition)
  | .setProcess =>
    s.after s.ownership fun policy =>
      s.after (processOwner policy s.definition) fun owner => s.withHost (·.switchIds owner)
  | .setImage disk => if disk.noRelabel then s.done else setPath s disk.path
  | .restoreImage disk =>
    if disk.readOnly || disk.noRelabel then s.done else restorePath s disk.path
  | .setDevice device root => setPath s (device.pathIn root)
  | .restoreDevice device root => restorePath s (device.pathIn root)
  | .setSavedState path => setPath s path
  | .restoreSavedState path => restorePath s path
  | .setOpenImage descriptor => setOpen s descriptor
  | .setOpenTap descriptor => setOpen s descriptor
  | .release => s.done
  | .reserve _ => s.done
  | .setSocket => s.done
  | .clearSocket => s.done
  | .setDaemonSocket => s.done

def answer (q : Question) (s : Scene) : Except Error q.Answer :=
  match q with
  | .model => .ok model
  | .interpretation => .ok "0"
  | .processLabel pid => (s.host.processOwner pid).map fun owner => ⟨model, owner.label, false⟩
  | .mountOptions => do
    let policy ← s.ownership
    let owner ← processOwner policy s.definition
    .ok (some owner.mountOptions)

end Confinement.Dac

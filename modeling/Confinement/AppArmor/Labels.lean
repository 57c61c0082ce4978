import Confinement.AppArmor.Profile
import Confinement.Driver.Scene

/-!
# Labelling by profile

The label of a domain is the name of its profile. A dynamic label is a profile made for the domain:
to label a resource is to add a rule for it, and to restore it is to remove the rule.
-/

namespace Confinement.AppArmor

def badName (label : String) : Error := .invalidLabel model label

/-- Completes the entry of the model. The image label always follows the label. -/
def generate (d : Definition) : Except Error Definition :=
  match d.findEntry model with
  | none => .ok d
  | some e =>
    if e.baseLabel ≠ none then .error (.configUnsupported .baseLabelRefused)
    else
      let withLabel (label : Option String) : Definition :=
        d.editEntry model ({ · with label, imageLabel := label })
      match e.type with
      | .static =>
        let name := e.label.getD ""
        if isProfileName name then .ok (withLabel e.label) else .error (badName name)
      | .dynamic =>
        match e.label with
        | some _ => .error (.driver model .labelAlreadyDefined)
        | none => .ok (withLabel (some (generatedName d.uuid)))
      | .unconfined => .ok d
      | .undecided => .error (.driver model .unresolvedType)

/-- The definition without the label that was made for it. -/
def unlabelled (d : Definition) : Definition :=
  d.editEntry model fun e =>
    if e.type = .dynamic then { e with label := none, imageLabel := none } else e

def verify (d : Definition) : Except Error Unit :=
  match d.findEntry model with
  | some e =>
    let name := e.label.getD ""
    if e.type = .static && !isProfileName name then .error (badName name) else .ok ()
  | none => .ok ()

def editRules (s : Scene) (f : Rules → Rules) : Except Error Unit × Scene :=
  s.keep (s.rules.map fun rules => .apparmor (f rules))

/-- Adds a rule, if the domain's resources are labelled at all. -/
def grant (s : Scene) (path : Path) (access : Access) : Except Error Unit × Scene :=
  if (s.findEntry model).any (·.relabels) then
    editRules s (Rules.edit s.definition.uuid (Grants.insert path access))
  else s.done

/-- Removes a rule. A domain without rules stays without. -/
def revoke (s : Scene) (path : Path) : Except Error Unit × Scene :=
  editRules s fun rules =>
    rules.map fun (u, g) => if u = s.definition.uuid then (u, g.erase path) else (u, g)

def renderProfile (s : Scene) : Except Error String :=
  match (s.findEntry model).bind (·.label) with
  | none => .error (.driver model .noProfileName)
  | some name => s.rules.map fun rules => render name (rules.grants s.definition.uuid)

/-- Has the next program run under the profile of the domain. A profile that was made for the domain
is loaded first. -/
def setProcess (s : Scene) : Except Error Unit × Scene :=
  match s.findEntry model with
  | none => s.done
  | some e =>
    if e.type = .unconfined then s.done
    else match e.label with
      | none => s.fail (.driver model .noProfileName)
      | some name =>
        if e.type = .dynamic then
          s.after (renderProfile s) fun text =>
            let profile : Profile := ⟨name, some text⟩
            s.withHost (Host.inTurn [profile.install Layout.standard.profiles, profile.enter])
        else s.withHost (Profile.enter ⟨name, none⟩)

def perform (op : Operation) (s : Scene) : Except Error Unit × Scene :=
  match op with
  | .generate => s.define (generate s.definition)
  | .release =>
    s.after s.rules fun rules =>
      (.ok (), { s with
        state := .apparmor (rules.release s.definition.uuid)
        definition := unlabelled s.definition })
  | .verify => s.check (verify s.definition)
  | .setProcess => setProcess s
  | .setImage disk =>
    if disk.noRelabel then s.done
    else grant s disk.path (if disk.readOnly then .read else .readWrite)
  | .restoreImage disk => revoke s disk.path
  | .setDevice device root => grant s (device.pathIn root) .readWrite
  | .restoreDevice device root => revoke s (device.pathIn root)
  | .setSavedState path => grant s path .readWrite
  | .restoreSavedState path => revoke s path
  | .setOpenImage descriptor =>
    s.after (s.host.descriptorPath descriptor) fun path => grant s path .readWrite
  | .setOpenTap descriptor =>
    s.after (s.host.descriptorPath descriptor) fun path => grant s path .readWrite
  | .reserve _ => s.done
  | .setSocket => s.done
  | .clearSocket => s.done
  | .setDaemonSocket => s.done

/-- The label and the mode of a process: the mode stands in parentheses behind a blank. -/
def splitMode : List Char → List Char × List Char
  | [] => ([], [])
  | ' ' :: '(' :: mode => ([], mode)
  | c :: rest => ((c :: (splitMode rest).1), (splitMode rest).2)

/-- Reads the label that the host gives a process. -/
def processLabel (text : String) : ProcessLabel :=
  let isMark (c : Char) : Bool := c == '\x00' || c == '\n'
  let trimmed := (text.toList.reverse.dropWhile isMark).reverse
  let (label, mode) := splitMode trimmed
  ⟨model, String.ofList label, "enforce".toList.isPrefixOf mode⟩

def answer (q : Question) (s : Scene) : Except Error q.Answer :=
  match q with
  | .model => .ok model
  | .interpretation => .ok "0"
  | .processLabel pid => (s.host.processText pid).map processLabel
  | .mountOptions => .ok none

end Confinement.AppArmor

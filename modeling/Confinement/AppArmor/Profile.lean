import Confinement.AppArmor.Rules
import Confinement.Host.Basic
import Confinement.Layout
import Confinement.Text

/-!
# Profiles

A profile is a text with a name, a fixed head and one line for each rule.
-/

namespace Confinement.AppArmor

/-- The model name of the labels of this kind. -/
def model : String := "apparmor"

/-- A profile that a process can run under. Its text is needed only if it is not yet loaded. -/
structure Profile where
  name : String
  content : Option String := none
  deriving DecidableEq, Repr

namespace Profile

def unconfined : Profile := { name := "unconfined" }

def loadFault : ToolFault → Error
  | .notStarted fault => .driver model (.toolNotStarted "apparmor_parser" fault)
  | .failed output => .driver model (.profileNotLoaded output)

/-- Writes the text of a profile into a directory and loads it from there. Nothing is loaded where
profiles have no effect. -/
def install (p : Profile) (dir : Path) (h : Host) : Except Error Unit × Host :=
  match p.content with
  | some text =>
    if h.modules.apparmor then
      let file := dir.join ⟨p.name⟩
      Host.inTurn
        [(·.call (.makeDirectories dir) .io), (·.call (.writeFile file text) .io),
          (·.start (.apparmorParser file) loadFault)] h
    else (.ok (), h)
  | none => (.ok (), h)

def applyFault : IoFault → Error :=
  .ofAccess "apply AppArmor profile" fun fault => .driver model (.profileNotApplied fault)

/-- The file that names the profile of the next program. -/
def attributeFile (h : Host) : Path :=
  if h.modules.profileAttribute then ⟨"/proc/self/attr/apparmor/exec"⟩
  else ⟨"/proc/self/attr/exec"⟩

/-- Has the next program of this process run under a profile. -/
def enter (p : Profile) (h : Host) : Except Error Unit × Host :=
  if h.modules.apparmor && p.name != unconfined.name then
    h.call (.writeFile (attributeFile h) ("exec " ++ p.name)) applyFault
  else (.ok (), h)

def load (p : Profile) (h : Host := {}) (dir : Path := Layout.standard.profiles) :
    Except Error Unit :=
  (p.install dir h).1

def apply (p : Profile) (h : Host := {}) : Except Error Unit := (p.enter h).1

end Profile

/-- Names are not empty and hold neither white space nor quotes. -/
def isProfileName (s : String) : Bool :=
  s ≠ "" && !s.toList.any fun c => Text.isBlank c || c == '"'

/-- The name of the profile that is made for a domain. -/
def generatedName (uuid : Uuid) : String := "seclabel-" ++ uuid.toString

def ruleLine (path : Path) (access : Access) : String :=
  "  \"" ++ path.text ++ "\" " ++ access.letters ++ ",\n"

/-- The lines before the rules. -/
def profileHead (name : String) : String :=
  "#include <tunables/global>\n" ++
    ("profile " ++ name ++ " flags=(attach_disconnected) \x7b\n") ++
    "  #include <abstractions/base>\n"

def profileFoot : String := "\x7d\n"

def render (name : String) (grants : Grants) : String :=
  profileHead name ++ String.join (grants.map fun (p, a) => ruleLine p a) ++ profileFoot

end Confinement.AppArmor

import Confinement.Manager.Basic
import Confinement.Toml.Reader

/-!
# Settings of a host

Which drivers a host stacks, under which policy, and who its domains run as. The settings are
written in TOML. Each of them may be left out and then has its default.
-/

namespace Confinement

open Document

structure Settings where
  virtDriver : String := "qemu"
  /-- The drivers to stack, the first one in charge. None leaves the choice to the host. -/
  drivers : List String := []
  defaultConfined : Bool := true
  requireConfined : Bool := false
  probesFormats : Bool := false
  dynamicOwnership : Bool := true
  user : UInt32 := 0
  group : UInt32 := 0
  deriving DecidableEq, Repr, Inhabited

namespace Settings

def policy (s : Settings) : Policy := ⟨s.probesFormats, s.defaultConfined, s.requireConfined⟩

def owner (s : Settings) : Ownership := ⟨s.user, s.group⟩

/-- Adds a driver to the stack. -/
def addDriver (s : Settings) (name : String) : Settings := { s with drivers := s.drivers ++ [name] }

/-- The first name that stands in `seen` or was met before. -/
def firstRepeated (seen : List String) : List String → Option String
  | [] => none
  | name :: rest => if name ∈ seen then some name else firstRepeated (name :: seen) rest

/-- Drivers are listed once, and the driver that confines nothing is listed alone. -/
def check (s : Settings) : Except Error Unit :=
  match firstRepeated [] s.drivers with
  | some name => .error (.config (.listedTwice name))
  | none =>
    if 1 < s.drivers.length ∧ Driver.noneName ∈ s.drivers then .error (.config .noneWithOthers)
    else .ok ()

theorem firstRepeated_eq_none_iff (seen names : List String) :
    firstRepeated seen names = none ↔ names.Nodup ∧ ∀ n ∈ names, n ∉ seen := by
  induction names generalizing seen with
  | nil => simp [firstRepeated]
  | cons n rest ih =>
    unfold firstRepeated
    by_cases h : n ∈ seen
    · simp [h]
    · simp only [h, if_false, ih, List.nodup_cons, List.mem_cons, not_or, forall_eq_or_imp,
        not_false_eq_true, true_and]
      constructor
      · rintro ⟨hd, hm⟩
        exact ⟨⟨fun hn => (hm n hn).1 rfl, hd⟩, fun m hr => (hm m hr).2⟩
      · rintro ⟨⟨hn, hd⟩, hm⟩
        exact ⟨hd, fun m hr => ⟨fun e => hn (e ▸ hr), hm m hr⟩⟩

def fieldNames : List String :=
  ["virt_driver", "security_driver", "security_default_confined", "security_require_confined",
    "allow_disk_format_probing", "dynamic_ownership", "user", "group"]

def read {ν : Type} (D : Dialect ν) (v : ν) : Option Settings := do
  let fields ← D.fields? fieldNames v
  let absent : Settings := {}
  let virtDriver ← field fields "virt_driver" absent.virtDriver D.text?
  let drivers ← field fields "security_driver" absent.drivers (list D D.text?)
  let defaultConfined ← field fields "security_default_confined" absent.defaultConfined D.bool?
  let requireConfined ← field fields "security_require_confined" absent.requireConfined D.bool?
  let probesFormats ← field fields "allow_disk_format_probing" absent.probesFormats D.bool?
  let dynamicOwnership ← field fields "dynamic_ownership" absent.dynamicOwnership D.bool?
  let user ← field fields "user" absent.user D.word?
  let group ← field fields "group" absent.group D.word?
  some
    { virtDriver, drivers, defaultConfined, requireConfined, probesFormats, dynamicOwnership, user,
      group }

def ofToml (s : String) : Except Error Settings :=
  match (Toml.Value.ofString? s).bind (read Toml.Value.dialect) with
  | some settings => .ok settings
  | none => .error (.config .unreadableSettings)

/-- Reads the settings in a file. -/
def ofFile (h : Host) (p : Path) : Except Error Settings := do
  ofToml (← h.readText p)

end Settings

end Confinement

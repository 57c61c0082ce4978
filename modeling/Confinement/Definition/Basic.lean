import Confinement.DomainName
import Confinement.Uuid
import Confinement.Path
import Confinement.Definition.Entry

/-!
# Domain definitions

The part of a virtual machine's definition that labelling reads and writes: label entries, disk
images and host devices. The first entry of a model is the one that counts.
-/

namespace Confinement

/-- A disk image. -/
structure Disk where
  path : Path
  format : Option String := none
  readOnly : Bool := false
  noRelabel : Bool := false
  deriving DecidableEq, Repr

/-- A device node of the host that a domain uses. -/
structure HostDevice where
  path : Path
  deriving DecidableEq, Repr

/-- Where the device is for a domain that sees `root` as its root. -/
def HostDevice.pathIn (dev : HostDevice) : Option Path → Path
  | none => dev.path
  | some root => root.join (if dev.path.isAbsolute then dev.path.fromRoot else dev.path)

/-- The label of a running process, as its driver reports it. -/
structure ProcessLabel where
  model : String
  label : String
  enforcing : Bool
  deriving DecidableEq, Repr

structure Definition where
  name : DomainName
  uuid : Uuid
  entries : List LabelEntry := []
  disks : List Disk := []
  devices : List HostDevice := []
  deriving DecidableEq

namespace Definition

/-- The first entry of a model. -/
def findEntry (d : Definition) (model : String) : Option LabelEntry :=
  d.entries.find? (·.isFor model)

/-- The position of the first entry of a model. -/
def position? (d : Definition) (model : String) : Option Nat :=
  d.entries.findIdx? (·.isFor model)

/-- Changes the first entry that satisfies `p`. -/
def editFirst (p : LabelEntry → Bool) (f : LabelEntry → LabelEntry) :
    List LabelEntry → List LabelEntry
  | [] => []
  | e :: rest => if p e then f e :: rest else e :: editFirst p f rest

/-- Changes the first entry of a model. -/
def editEntry (d : Definition) (model : String) (f : LabelEntry → LabelEntry) : Definition :=
  { d with entries := editFirst (·.isFor model) f d.entries }

def addEntry (d : Definition) (e : LabelEntry) : Definition :=
  { d with entries := d.entries ++ [e] }

/-- Takes the last entry away. -/
def dropLastEntry (d : Definition) : Definition := { d with entries := d.entries.dropLast }

/-- Puts `e` at a position that holds an entry. -/
def setEntryAt (d : Definition) (i : Nat) (e : LabelEntry) : Definition :=
  { d with entries := d.entries.set i e }

@[simp] theorem dropLastEntry_addEntry (d : Definition) (e : LabelEntry) :
    (d.addEntry e).dropLastEntry = d := by
  simp [dropLastEntry, addEntry]

@[simp] theorem editFirst_nil (p : LabelEntry → Bool) (f : LabelEntry → LabelEntry) :
    editFirst p f [] = [] := rfl

@[simp] theorem length_editFirst (p : LabelEntry → Bool) (f : LabelEntry → LabelEntry)
    (es : List LabelEntry) : (editFirst p f es).length = es.length := by
  induction es with
  | nil => rfl
  | cons e rest ih =>
    unfold editFirst
    split <;> simp [ih]

/-- An edit that keeps the model of the entry finds the edited entry again. -/
theorem findEntry_editEntry {d : Definition} {model : String} {f : LabelEntry → LabelEntry}
    (h : ∀ e, (f e).model = e.model) :
    (d.editEntry model f).findEntry model = (d.findEntry model).map f := by
  unfold editEntry findEntry
  induction d.entries with
  | nil => rfl
  | cons e rest ih =>
    unfold editFirst
    by_cases he : e.isFor model = true
    · have hf : (f e).isFor model = true := by
        simpa [LabelEntry.isFor, h] using he
      simp [he, hf]
    · simpa [he] using ih

/-- Entries of other models are not touched. -/
theorem findEntry_editEntry_of_ne {d : Definition} {model other : String}
    {f : LabelEntry → LabelEntry} (h : ∀ e, (f e).model = e.model) (hne : other ≠ model) :
    (d.editEntry model f).findEntry other = d.findEntry other := by
  unfold editEntry findEntry
  induction d.entries with
  | nil => rfl
  | cons e rest ih =>
    unfold editFirst
    by_cases he : e.isFor model = true
    · have h1 : e.isFor other = false := by
        simp only [LabelEntry.isFor, beq_iff_eq] at he
        simp [LabelEntry.isFor, he, hne.symm]
      have h2 : (f e).isFor other = false := by
        simpa [LabelEntry.isFor, h] using h1
      simp [he, h1, h2]
    · simp only [he]
      by_cases ho : e.isFor other = true <;> simp_all

end Definition

end Confinement

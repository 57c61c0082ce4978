/-!
# Label entries

A label entry says how one driver labels one domain. The driver is named by the entry's model.
-/

namespace Confinement

inductive LabelType
  /-- The policy of the manager decides. -/
  | undecided
  /-- The driver picks a label. -/
  | dynamic
  /-- The definition brings the label. -/
  | static
  | unconfined
  deriving DecidableEq, Repr

namespace LabelType

def text : LabelType → String
  | undecided => "default"
  | dynamic => "dynamic"
  | static => "static"
  | unconfined => "none"

def all : List LabelType := [undecided, dynamic, static, unconfined]

def ofText? (s : String) : Option LabelType := all.find? fun t => t.text == s

@[simp] theorem ofText?_text (t : LabelType) : ofText? t.text = some t := by
  cases t <;> decide

end LabelType

structure LabelEntry where
  model : Option String := none
  type : LabelType := .undecided
  /-- The label of the domain's processes. -/
  label : Option String := none
  /-- The label of the domain's files. -/
  imageLabel : Option String := none
  /-- What a dynamic label is derived from. -/
  baseLabel : Option String := none
  /-- The entry was made by label generation. -/
  implicit : Bool := false
  noRelabel : Bool := false
  deriving DecidableEq, Repr, Inhabited

namespace LabelEntry

/-- An entry for `model` as a definition may bring it. -/
def supplied (model : String) (type : LabelType) : LabelEntry := { model := some model, type }

/-- The entry that generation starts from when a definition brings none for `model`. -/
def implied (model : String) : LabelEntry := { model := some model, implicit := true }

def relabels (e : LabelEntry) : Bool := !e.noRelabel && e.type != .unconfined

def isFor (model : String) (e : LabelEntry) : Bool := e.model == some model

@[simp] theorem isFor_supplied (model : String) (type : LabelType) :
    (supplied model type).isFor model = true := by simp [isFor, supplied]

@[simp] theorem isFor_implied (model : String) : (implied model).isFor model = true := by
  simp [isFor, implied]

end LabelEntry

end Confinement

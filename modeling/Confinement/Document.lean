/-!
# Documents

Definitions and settings are read from documents of several formats. A dialect says how the values
of one format are taken for text, truth values, lists and records; what a definition or a setting is
made of is the same in all formats.
-/

namespace Confinement

inductive DocumentFormat
  | json
  | yaml
  | toml
  deriving DecidableEq, Repr

/-- The format that an extension stands for. No letter outside of ASCII is another case of one in
these names. -/
def DocumentFormat.ofExtension (ext : Option String) : DocumentFormat :=
  match ext.map String.toLower with
  | some "yaml" => .yaml
  | some "yml" => .yaml
  | some "toml" => .toml
  | _ => .json

/-- How the values of a format are read. Each field fails on a value of another kind. -/
structure Dialect (ν : Type) where
  text? : ν → Option String
  /-- Text, or a value that stands for its absence. -/
  optionalText? : ν → Option (Option String)
  bool? : ν → Option Bool
  word? : ν → Option UInt32
  choice? : ν → Option String
  items? : ν → Option (List ν)
  /-- The fields of a record, of those with a given name. -/
  fields? : List String → ν → Option (List (String × ν))

namespace Document

/-- The fields with known names. A known name that is repeated is a failure. -/
def knownFields {ν : Type} (names : List String) (fields : List (String × ν)) :
    Option (List (String × ν)) :=
  let known := fields.filter fun (name, _) => names.contains name
  if (known.map Prod.fst).Nodup then some known else none

/-- The value of a field, or `absent` if the record does not have it. -/
def field {ν α : Type} (fields : List (String × ν)) (name : String) (absent : α)
    (read : ν → Option α) : Option α :=
  match fields.lookup name with
  | some v => read v
  | none => some absent

def required {ν α : Type} (fields : List (String × ν)) (name : String) (read : ν → Option α) :
    Option α :=
  (fields.lookup name).bind read

def list {ν α : Type} (D : Dialect ν) (read : ν → Option α) (v : ν) : Option (List α) :=
  (D.items? v).bind fun items => items.mapM read

end Document

end Confinement

import Confinement.Definition.Basic
import Confinement.Document
import Confinement.Error
import Confinement.Host.Basic
import Confinement.Json.Printer
import Confinement.Toml.Reader
import Confinement.Yaml.Node

/-!
# Definitions as documents

The record of a definition, for every format that definitions are read from, and its written form.
A definition without a UUID gets a fresh one. The extension of a file's name says in which format
the file is written, whatever its case. JSON is the format of all names that do not say another.
-/

namespace Confinement

open Document

/-- The type of an entry, by its name. -/
def LabelType.read {ν : Type} (D : Dialect ν) (v : ν) : Option LabelType :=
  (D.choice? v).bind LabelType.ofText?

namespace LabelEntry

def fieldNames : List String :=
  ["model", "type", "label", "imagelabel", "baselabel", "implicit", "norelabel"]

def read {ν : Type} (D : Dialect ν) (v : ν) : Option LabelEntry := do
  let fields ← D.fields? fieldNames v
  let model ← field fields "model" none D.optionalText?
  let type ← field fields "type" .undecided (LabelType.read D)
  let label ← field fields "label" none D.optionalText?
  let imageLabel ← field fields "imagelabel" none D.optionalText?
  let baseLabel ← field fields "baselabel" none D.optionalText?
  let implicit ← field fields "implicit" false D.bool?
  let noRelabel ← field fields "norelabel" false D.bool?
  some { model, type, label, imageLabel, baseLabel, implicit, noRelabel }

end LabelEntry

namespace Disk

def fieldNames : List String := ["path", "format", "readonly", "norelabel"]

def read {ν : Type} (D : Dialect ν) (v : ν) : Option Disk := do
  let fields ← D.fields? fieldNames v
  let path ← required fields "path" D.text?
  let format ← field fields "format" none D.optionalText?
  let readOnly ← field fields "readonly" false D.bool?
  let noRelabel ← field fields "norelabel" false D.bool?
  some { path := ⟨path⟩, format, readOnly, noRelabel }

end Disk

namespace HostDevice

def fieldNames : List String := ["path"]

def read {ν : Type} (D : Dialect ν) (v : ν) : Option HostDevice := do
  let fields ← D.fields? fieldNames v
  let path ← required fields "path" D.text?
  some ⟨⟨path⟩⟩

end HostDevice

namespace Definition

def fieldNames : List String := ["name", "uuid", "seclabel", "disks", "hostdevs"]

def read {ν : Type} (D : Dialect ν) (fresh : Uuid) (v : ν) : Option Definition := do
  let fields ← D.fields? fieldNames v
  let name ← required fields "name" fun v => (D.text? v).bind DomainName.ofString?
  let uuid ← field fields "uuid" fresh fun v => (D.text? v).bind Uuid.ofString?
  let entries ← field fields "seclabel" [] (list D (LabelEntry.read D))
  let disks ← field fields "disks" [] (list D (Disk.read D))
  let devices ← field fields "hostdevs" [] (list D (HostDevice.read D))
  some { name, uuid, entries, disks, devices }

end Definition

def Json.text (s : String) : Json := .string (some s)

/-- A member with a text, left out if there is none. -/
def Json.optionalMember (name : String) (value : Option String) : List (Option String × Json) :=
  match value with
  | some s => [(some name, .text s)]
  | none => []

def LabelEntry.toJson (e : LabelEntry) : Json :=
  .object <|
    Json.optionalMember "model" e.model ++ [(some "type", .text e.type.text)] ++
      Json.optionalMember "label" e.label ++ Json.optionalMember "imagelabel" e.imageLabel ++
      Json.optionalMember "baselabel" e.baseLabel ++
      [(some "implicit", .bool e.implicit), (some "norelabel", .bool e.noRelabel)]

def Disk.toJson (disk : Disk) : Json :=
  .object <|
    [(some "path", .text disk.path.text)] ++ Json.optionalMember "format" disk.format ++
      [(some "readonly", .bool disk.readOnly), (some "norelabel", .bool disk.noRelabel)]

def HostDevice.toJson (dev : HostDevice) : Json := .object [(some "path", .text dev.path.text)]

namespace Definition

def toJson (d : Definition) : Json :=
  .object
    [(some "name", .text d.name.text), (some "uuid", .text d.uuid.toString),
      (some "seclabel", .array (d.entries.map LabelEntry.toJson)),
      (some "disks", .array (d.disks.map Disk.toJson)),
      (some "hostdevs", .array (d.devices.map HostDevice.toJson))]

/-- The written form of a definition. -/
def text (d : Definition) : String := d.toJson.toText

def ofJson (fresh : Uuid) (s : String) : Except Error Definition :=
  match (Json.ofString? s).bind (read Json.dialect fresh) with
  | some d => .ok d
  | none => .error (.config (.unreadableDefinition "JSON"))

def ofYaml (fresh : Uuid) (s : String) : Except Error Definition :=
  match (Yaml.Document.ofString? s).bind fun doc => read doc.dialect fresh doc.root with
  | some d => .ok d
  | none => .error (.config (.unreadableDefinition "YAML"))

def ofToml (fresh : Uuid) (s : String) : Except Error Definition :=
  match (Toml.Value.ofString? s).bind (read Toml.Value.dialect fresh) with
  | some d => .ok d
  | none => .error (.config (.unreadableDefinition "TOML"))

def ofText (format : DocumentFormat) (fresh : Uuid) (s : String) : Except Error Definition :=
  match format with
  | .json => ofJson fresh s
  | .yaml => ofYaml fresh s
  | .toml => ofToml fresh s

def ofFile (fresh : Uuid) (h : Host) (p : Path) : Except Error Definition := do
  ofText (.ofExtension p.extension?) fresh (← h.readText p)

end Definition

end Confinement

import Confinement.Definition.File
import Confinement.Proofs.Json.Reading

/-!
# Definitions survive being written

What one run writes the next one reads: the record of a definition has every field that the reader
looks for, a field that is left out is one whose absence means the same, and every name of a type,
every domain name and every UUID is read as what it was written for.
-/

namespace Confinement

/-! ### Records -/

namespace Json

/-- An object whose members have names. -/
def record (fields : List (String × Json)) : Json :=
  .object (fields.map fun p => (some p.1, p.2))

/-- The field with a text, left out if there is none. -/
def optionalField (name : String) (value : Option String) : List (String × Json) :=
  match value with
  | some s => [(name, .text s)]
  | none => []

variable {name other : String} {value : Option String} {fields : List (String × Json)}

@[simp] theorem text?_text (s : String) : dialect.text? (.text s) = some s := rfl

theorem namedMembers_map (fields : List (String × Json)) :
    namedMembers (fields.map fun p => (some p.1, p.2)) = some fields := by
  rw [namedMembers, List.mapM_map]
  exact (List.mapM_pure (m := Option) (f := id)).trans (by simp)

theorem keys_optionalField_sublist (name : String) (value : Option String) :
    ((optionalField name value).map Prod.fst).Sublist [name] := by
  cases value with
  | none => exact List.nil_sublist _
  | some s => exact List.Sublist.refl _

@[simp] theorem lookup_optionalField_self :
    (optionalField name value).lookup name = value.map .text := by
  cases value <;> simp [optionalField]

@[simp] theorem lookup_optionalField_of_ne (h : other ≠ name) :
    (optionalField name value).lookup other = none := by
  have hne : (other == name) = false := beq_eq_false_iff_ne.mpr h
  cases value <;> simp [optionalField, List.lookup_cons, hne]

theorem map_optionalField (name : String) (value : Option String) :
    (optionalField name value).map (fun p => (some p.1, p.2)) = optionalMember name value := by
  cases value <;> rfl

/-- The fields of a record come in the order of their names, some of them left out. -/
theorem fields?_record {names : List String} (hnames : names.Nodup)
    (h : (fields.map Prod.fst).Sublist names) :
    dialect.fields? names (record fields) = some fields := by
  have hknown : fields.filter (fun p => names.contains p.1) = fields := by
    refine List.filter_eq_self.mpr fun p hp => ?_
    exact List.contains_iff_mem.mpr (h.subset (List.mem_map_of_mem hp))
  change (namedMembers _).bind (Document.knownFields names) = _
  rw [namedMembers_map, Option.bind_some, Document.knownFields]
  simp only [hknown, if_pos (h.nodup hnames)]

theorem plain_record (h : ∀ p ∈ fields, Plain p.2) : Plain (record fields) := by
  refine .object ?_ ?_
  · intro m hm
    obtain ⟨p, -, rfl⟩ := List.mem_map.mp hm
    nofun
  · intro m hm
    obtain ⟨p, hp, rfl⟩ := List.mem_map.mp hm
    exact h p hp

theorem plain_optionalField {p : String × Json} (h : p ∈ optionalField name value) :
    Plain p.2 := by
  cases value with
  | none => cases h
  | some s =>
    obtain rfl := List.mem_singleton.mp h
    exact .text s

theorem plain_map {α : Type} {write : α → Json} (h : ∀ a, Plain (write a)) (as : List α) :
    Plain (.array (as.map write)) := by
  refine .array fun v hv => ?_
  obtain ⟨a, -, rfl⟩ := List.mem_map.mp hv
  exact h a

/-- A text that may be left out is read as what it is. -/
theorem field_of_lookup_text (h : fields.lookup name = value.map .text) :
    Document.field fields name none dialect.optionalText? = some value := by
  rw [Document.field, h]
  cases value <;> rfl

theorem field_of_lookup {α : Type} {v : Json} {a absent : α} {read : Json → Option α}
    (h : fields.lookup name = some v) (hv : read v = some a) :
    Document.field fields name absent read = some a := by
  rw [Document.field, h]
  exact hv

theorem field_of_lookup_bool {b absent : Bool} (h : fields.lookup name = some (.bool b)) :
    Document.field fields name absent dialect.bool? = some b :=
  field_of_lookup h rfl

theorem required_of_lookup {α : Type} {v : Json} {a : α} {read : Json → Option α}
    (h : fields.lookup name = some v) (hv : read v = some a) :
    Document.required fields name read = some a := by
  rw [Document.required, h]
  exact hv

/-- A list is read back if each of its items is. -/
theorem list_map {α : Type} {write : α → Json} {read : Json → Option α}
    (h : ∀ a, read (write a) = some a) (as : List α) :
    Document.list dialect read (.array (as.map write)) = some as := by
  have hpure : read ∘ write = fun a => (pure (id a) : Option α) := funext h
  change (as.map write).mapM read = some as
  rw [List.mapM_map, hpure, List.mapM_pure, List.map_id]
  rfl

end Json

/-! ### UUIDs -/

namespace Uuid

section Groups

variable {a b c d e : List Char}

/-- Five groups with hyphens between them. -/
def hyphenated (a b c d e : List Char) : List Char :=
  a ++ '-' :: (b ++ '-' :: (c ++ '-' :: (d ++ '-' :: e)))

/-- What follows a group and its hyphen. -/
theorem drop_group {n : Nat} (h : a.length = n) (rest : List Char) (k : Nat) :
    (a ++ '-' :: rest).drop (n + 1 + k) = rest.drop k := by
  rw [← h, Nat.add_assoc, List.drop_length_add_append, Nat.add_comm 1 k, List.drop_succ_cons]

theorem ofGroups?_hyphenated (ha : a.length = 8) (hb : b.length = 4) (hc : c.length = 4)
    (hd : d.length = 4) (he : e.length = 12) :
    ofGroups? (hyphenated a b c d e) = ofDigits? (a ++ b ++ c ++ d ++ e) := by
  have hlength : (hyphenated a b c d e).length = 36 := by
    simp [hyphenated, ha, hb, hc, hd, he]
  have hhyphens : [8, 13, 18, 23].all (fun i => (hyphenated a b c d e)[i]? == some '-') = true := by
    simp [hyphenated, List.getElem?_append, List.getElem?_cons, ha, hb, hc, hd]
  have hsecond : (hyphenated a b c d e).drop 9 = b ++ '-' :: (c ++ '-' :: (d ++ '-' :: e)) :=
    drop_group ha _ 0
  have hthird : (hyphenated a b c d e).drop 14 = c ++ '-' :: (d ++ '-' :: e) :=
    (drop_group ha _ 5).trans (drop_group hb _ 0)
  have hfourth : (hyphenated a b c d e).drop 19 = d ++ '-' :: e :=
    (drop_group ha _ 10).trans <| (drop_group hb _ 5).trans (drop_group hc _ 0)
  have hlast : (hyphenated a b c d e).drop 24 = e :=
    (drop_group ha _ 15).trans <| (drop_group hb _ 10).trans <|
      (drop_group hc _ 5).trans (drop_group hd _ 0)
  rw [ofGroups?, if_pos ⟨hlength, hhyphens⟩, hsecond, hthird, hfourth, hlast, hyphenated,
    List.take_left' ha, List.take_left' hb, List.take_left' hc, List.take_left' hd]

/-- The characters of a group. -/
def group (cs : List Char) (start size : Nat) : List Char := (cs.drop start).take size

/-- The groups are all characters, cut at the places of the hyphens. -/
theorem append_groups {cs : List Char} (h : cs.length = 32) :
    group cs 0 8 ++ group cs 8 4 ++ group cs 12 4 ++ group cs 16 4 ++ group cs 20 12 = cs := by
  have hcut : ∀ m n, group cs m n ++ cs.drop (m + n) = cs.drop m := by
    intro m n
    rw [group, ← List.drop_drop, List.take_append_drop]
  have hlast : group cs 20 12 = cs.drop 20 :=
    List.take_of_length_le (by simp [h])
  rw [hlast, List.append_assoc, List.append_assoc, List.append_assoc,
    show group cs 16 4 ++ cs.drop 20 = cs.drop 16 from hcut 16 4,
    show group cs 12 4 ++ cs.drop 16 = cs.drop 12 from hcut 12 4,
    show group cs 8 4 ++ cs.drop 12 = cs.drop 8 from hcut 8 4]
  exact hcut 0 8

theorem ofString?_of_hyphenated {s : String} (hs : s.toList = hyphenated a b c d e)
    (ha : a.length = 8) (hb : b.length = 4) (hc : c.length = 4) (hd : d.length = 4)
    (he : e.length = 12) : ofString? s = ofDigits? (a ++ b ++ c ++ d ++ e) := by
  have hlength : (hyphenated a b c d e).length = 36 := by
    simp [hyphenated, ha, hb, hc, hd, he]
  rw [← ofGroups?_hyphenated ha hb hc hd he, ofString?, hs]
  simp only [hlength, Nat.reduceEqDiff, if_false, if_true]

end Groups

theorem ofDigits?_map (u : Uuid) : ofDigits? (u.digits.map digitChar) = some u := by
  have hpure : digit? ∘ digitChar = fun d => (pure (id d) : Option (Fin 16)) :=
    funext digit?_digitChar
  have hdigits : (u.digits.map digitChar).mapM digit? = some u.digits := by
    rw [List.mapM_map, hpure, List.mapM_pure, List.map_id]
    rfl
  rw [ofDigits?, hdigits]
  simp [u.length_digits]

/-- A UUID is read back from its text. -/
theorem ofString?_toString (u : Uuid) : ofString? u.toString = some u := by
  let cs := u.digits.map digitChar
  have hlength : cs.length = 32 := by simp [cs, u.length_digits]
  have hgroup : ∀ start size, start + size ≤ 32 → (group cs start size).length = size := by
    intro start size h
    rw [group, List.length_take, List.length_drop, hlength]
    omega
  have htext : u.toString.toList = hyphenated (group cs 0 8) (group cs 8 4) (group cs 12 4)
      (group cs 16 4) (group cs 20 12) := by
    simp [toString, hyphenated, group, cs]
  rw [ofString?_of_hyphenated htext, append_groups hlength, ofDigits?_map]
  · exact hgroup 0 8 (by decide)
  · exact hgroup 8 4 (by decide)
  · exact hgroup 12 4 (by decide)
  · exact hgroup 16 4 (by decide)
  · exact hgroup 20 12 (by decide)

end Uuid

open Document (field required)
open Json (dialect record optionalField)

/-! ### Entries, disks and devices -/

namespace LabelEntry

/-- The written fields of an entry. -/
def fields (e : LabelEntry) : List (String × Json) :=
  optionalField "model" e.model ++ ([("type", .text e.type.text)] ++
    (optionalField "label" e.label ++ (optionalField "imagelabel" e.imageLabel ++
      (optionalField "baselabel" e.baseLabel ++
        [("implicit", .bool e.implicit), ("norelabel", .bool e.noRelabel)]))))

theorem toJson_eq (e : LabelEntry) : e.toJson = record e.fields := by
  simp [toJson, record, fields, Json.map_optionalField]

theorem read_toJson (e : LabelEntry) : read dialect e.toJson = some e := by
  have hsublist : (e.fields.map Prod.fst).Sublist fieldNames := by
    simp only [fields, List.map_append]
    exact .append (Json.keys_optionalField_sublist ..) <| .append (.refl _) <|
      .append (Json.keys_optionalField_sublist ..) <|
      .append (Json.keys_optionalField_sublist ..) <|
      .append (Json.keys_optionalField_sublist ..) (.refl _)
  have hmodel : field e.fields "model" none dialect.optionalText? = some e.model :=
    Json.field_of_lookup_text (by simp [fields, List.lookup_append, List.lookup_cons])
  have htype : field e.fields "type" .undecided (LabelType.read dialect) = some e.type :=
    Json.field_of_lookup (v := .text e.type.text)
      (by simp [fields, List.lookup_append]) (LabelType.ofText?_text e.type)
  have hlabel : field e.fields "label" none dialect.optionalText? = some e.label :=
    Json.field_of_lookup_text (by simp [fields, List.lookup_append, List.lookup_cons])
  have himage : field e.fields "imagelabel" none dialect.optionalText? = some e.imageLabel :=
    Json.field_of_lookup_text (by simp [fields, List.lookup_append, List.lookup_cons])
  have hbase : field e.fields "baselabel" none dialect.optionalText? = some e.baseLabel :=
    Json.field_of_lookup_text (by simp [fields, List.lookup_append, List.lookup_cons])
  have himplicit : field e.fields "implicit" false dialect.bool? = some e.implicit :=
    Json.field_of_lookup_bool (by simp [fields, List.lookup_append, List.lookup_cons])
  have hrelabel : field e.fields "norelabel" false dialect.bool? = some e.noRelabel :=
    Json.field_of_lookup_bool (by simp [fields, List.lookup_append, List.lookup_cons])
  rw [toJson_eq, read, Json.fields?_record (by decide) hsublist]
  simp only [Option.bind_eq_bind, Option.bind_some, hmodel, htype, hlabel, himage, hbase,
    himplicit, hrelabel]

theorem plain_toJson (e : LabelEntry) : Json.Plain e.toJson := by
  rw [toJson_eq]
  refine Json.plain_record fun p hp => ?_
  simp only [fields, List.mem_append, List.mem_cons, List.not_mem_nil, or_false] at hp
  rcases hp with hp | rfl | hp | hp | hp | rfl | rfl
  · exact Json.plain_optionalField hp
  · exact .text e.type.text
  · exact Json.plain_optionalField hp
  · exact Json.plain_optionalField hp
  · exact Json.plain_optionalField hp
  · exact .bool e.implicit
  · exact .bool e.noRelabel

end LabelEntry

namespace Disk

/-- The written fields of a disk image. -/
def fields (disk : Disk) : List (String × Json) :=
  [("path", .text disk.path.text)] ++ (optionalField "format" disk.format ++
    [("readonly", .bool disk.readOnly), ("norelabel", .bool disk.noRelabel)])

theorem toJson_eq (disk : Disk) : disk.toJson = record disk.fields := by
  simp [toJson, record, fields, Json.map_optionalField]

theorem read_toJson (disk : Disk) : read dialect disk.toJson = some disk := by
  have hsublist : (disk.fields.map Prod.fst).Sublist fieldNames := by
    simp only [fields, List.map_append]
    exact .append (.refl _) (.append (Json.keys_optionalField_sublist ..) (.refl _))
  have hpath : required disk.fields "path" dialect.text? = some disk.path.text :=
    Json.required_of_lookup (v := .text disk.path.text) (by simp [fields]) (by simp)
  have hformat : field disk.fields "format" none dialect.optionalText? = some disk.format :=
    Json.field_of_lookup_text (by simp [fields, List.lookup_append, List.lookup_cons])
  have hreadOnly : field disk.fields "readonly" false dialect.bool? = some disk.readOnly :=
    Json.field_of_lookup_bool (by simp [fields, List.lookup_append, List.lookup_cons])
  have hrelabel : field disk.fields "norelabel" false dialect.bool? = some disk.noRelabel :=
    Json.field_of_lookup_bool (by simp [fields, List.lookup_append, List.lookup_cons])
  rw [toJson_eq, read, Json.fields?_record (by decide) hsublist]
  simp only [Option.bind_eq_bind, Option.bind_some, hpath, hformat, hreadOnly, hrelabel]

theorem plain_toJson (disk : Disk) : Json.Plain disk.toJson := by
  rw [toJson_eq]
  refine Json.plain_record fun p hp => ?_
  simp only [fields, List.mem_append, List.mem_cons, List.not_mem_nil, or_false] at hp
  rcases hp with rfl | hp | rfl | rfl
  · exact .text disk.path.text
  · exact Json.plain_optionalField hp
  · exact .bool disk.readOnly
  · exact .bool disk.noRelabel

end Disk

namespace HostDevice

theorem toJson_eq (dev : HostDevice) : dev.toJson = record [("path", .text dev.path.text)] := rfl

theorem read_toJson (dev : HostDevice) : read dialect dev.toJson = some dev := by
  have hsublist : ([("path", Json.text dev.path.text)].map Prod.fst).Sublist fieldNames := .refl _
  rw [toJson_eq, read, Json.fields?_record (by decide) hsublist]
  rfl

theorem plain_toJson (dev : HostDevice) : Json.Plain dev.toJson := by
  rw [toJson_eq]
  refine Json.plain_record fun p hp => ?_
  obtain rfl := List.mem_singleton.mp hp
  exact .text dev.path.text

end HostDevice

/-! ### Whole definitions -/

namespace Definition

/-- The written fields of a definition. -/
def fields (d : Definition) : List (String × Json) :=
  [("name", .text d.name.text), ("uuid", .text d.uuid.toString),
    ("seclabel", .array (d.entries.map LabelEntry.toJson)),
    ("disks", .array (d.disks.map Disk.toJson)),
    ("hostdevs", .array (d.devices.map HostDevice.toJson))]

theorem toJson_eq (d : Definition) : d.toJson = record d.fields := rfl

theorem read_toJson (fresh : Uuid) (d : Definition) : read dialect fresh d.toJson = some d := by
  have hsublist : (d.fields.map Prod.fst).Sublist fieldNames := .refl _
  have hname : required d.fields "name" (fun v => (dialect.text? v).bind DomainName.ofString?) =
      some d.name :=
    Json.required_of_lookup (v := .text d.name.text) (by simp [fields]) (by simp)
  have huuid : field d.fields "uuid" fresh (fun v => (dialect.text? v).bind Uuid.ofString?) =
      some d.uuid :=
    Json.field_of_lookup (v := .text d.uuid.toString) (by simp [fields, List.lookup_cons])
      (by simp [Uuid.ofString?_toString])
  have hentries : field d.fields "seclabel" [] (Document.list dialect (LabelEntry.read dialect)) =
      some d.entries :=
    Json.field_of_lookup (v := .array (d.entries.map LabelEntry.toJson))
      (by simp [fields, List.lookup_cons]) (Json.list_map LabelEntry.read_toJson d.entries)
  have hdisks : field d.fields "disks" [] (Document.list dialect (Disk.read dialect)) =
      some d.disks :=
    Json.field_of_lookup (v := .array (d.disks.map Disk.toJson))
      (by simp [fields, List.lookup_cons]) (Json.list_map Disk.read_toJson d.disks)
  have hdevices : field d.fields "hostdevs" [] (Document.list dialect (HostDevice.read dialect)) =
      some d.devices :=
    Json.field_of_lookup (v := .array (d.devices.map HostDevice.toJson))
      (by simp [fields, List.lookup_cons]) (Json.list_map HostDevice.read_toJson d.devices)
  rw [toJson_eq, read, Json.fields?_record (by decide) hsublist]
  simp only [Option.bind_eq_bind, Option.bind_some, hname, huuid, hentries, hdisks, hdevices]

theorem plain_toJson (d : Definition) : Json.Plain d.toJson := by
  rw [toJson_eq]
  refine Json.plain_record fun p hp => ?_
  simp only [fields, List.mem_cons, List.not_mem_nil, or_false] at hp
  rcases hp with rfl | rfl | rfl | rfl | rfl
  · exact .text d.name.text
  · exact .text d.uuid.toString
  · exact Json.plain_map LabelEntry.plain_toJson d.entries
  · exact Json.plain_map Disk.plain_toJson d.disks
  · exact Json.plain_map HostDevice.plain_toJson d.devices

/-- A text that a definition is written as gives the definition back, whatever the fresh UUID is. -/
theorem read_text (fresh : Uuid) (d : Definition) :
    (Json.ofString? d.text).bind (read dialect fresh) = some d := by
  rw [text, Json.ofString?_toText d.plain_toJson, Option.bind_some, read_toJson]

/-- Every definition, with whatever texts and however many entries, disks and devices, is read back
exactly from what it is written as. -/
theorem ofJson_text (fresh : Uuid) (d : Definition) : ofJson fresh d.text = .ok d := by
  rw [ofJson, read_text]

end Definition

end Confinement

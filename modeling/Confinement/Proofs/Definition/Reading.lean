import Confinement.Definition.File
import Confinement.Host.Basic

/-!
# What is read of a document

A definition is read from a text of one of three formats, or from a file whose name says which one
it is. What is read depends on the fresh UUID only where the document has none. Every entry of the
document is read, also one whose model an entry before it has already.
-/

namespace Confinement

namespace Definition

variable {u : Uuid} {d : Definition}

/-- What a text of a given format is read as, if it can be read. -/
def document? (format : DocumentFormat) (fresh : Uuid) (text : String) : Option Definition :=
  match format with
  | .json => (Json.ofString? text).bind fun v => read Json.dialect fresh v
  | .yaml => (Yaml.Document.ofString? text).bind fun doc => read doc.dialect fresh doc.root
  | .toml => (Toml.Value.ofString? text).bind fun v => read Toml.Value.dialect fresh v

theorem ofText_eq_ok_iff {format : DocumentFormat} {text : String} :
    ofText format u text = .ok d ↔ document? format u text = some d := by
  cases format with
  | json =>
    rw [ofText, ofJson, document?]
    cases (Json.ofString? text).bind (read Json.dialect u) <;> simp
  | yaml =>
    rw [ofText, ofYaml, document?]
    cases (Yaml.Document.ofString? text).bind fun doc => read doc.dialect u doc.root <;> simp
  | toml =>
    rw [ofText, ofToml, document?]
    cases (Toml.Value.ofString? text).bind (read Toml.Value.dialect u) <;> simp

end Definition

/-! ### Definitions without a UUID -/

/-- A field has its value whatever stands for its absence, or it is absent. -/
theorem Document.field_cases {ν α : Type} {fields : List (String × ν)} {name : String}
    {absent value : α} {read : ν → Option α} (h : field fields name absent read = some value) :
    (∀ a, field fields name a read = some value) ∨
      value = absent ∧ ∀ a, field fields name a read = some a := by
  unfold field at h ⊢
  cases hl : fields.lookup name with
  | some v =>
    rw [hl] at h
    exact .inl fun _ => h
  | none =>
    rw [hl] at h
    exact .inr ⟨(Option.some.inj h).symm, fun _ => rfl⟩

namespace Definition

/-- The same definition, but for the fresh UUID if that is the one it has. -/
def Refreshed (u u' : Uuid) (d d' : Definition) : Prop :=
  d' = d ∨ d.uuid = u ∧ d' = { d with uuid := u' }

variable {u : Uuid} {d : Definition}

/-- A record is read alike whatever the fresh UUID is. -/
theorem refreshed_of_read {ν : Type} {D : Dialect ν} {v : ν} (h : read D u v = some d)
    (u' : Uuid) : ∃ d', read D u' v = some d' ∧ Refreshed u u' d d' := by
  unfold read at h ⊢
  simp only [Option.bind_eq_bind, Option.bind_eq_some_iff] at h ⊢
  obtain ⟨fields, hfields, name, hname, uuid, huuid, entries, hentries, disks, hdisks, devices,
    hdevices, hd⟩ := h
  obtain rfl := Option.some.inj hd
  rcases Document.field_cases huuid with hgiven | ⟨rfl, habsent⟩
  · exact ⟨_, ⟨fields, hfields, name, hname, uuid, hgiven u', entries, hentries, disks, hdisks,
      devices, hdevices, rfl⟩, .inl rfl⟩
  · exact ⟨_, ⟨fields, hfields, name, hname, u', habsent u', entries, hentries, disks, hdisks,
      devices, hdevices, rfl⟩, .inr ⟨rfl, rfl⟩⟩

/-- So is a document that has a record at its root. -/
theorem refreshed_of_bind {α ν : Type} {o : Option α} {D : α → Dialect ν} {root : α → ν}
    (h : (o.bind fun a => read (D a) u (root a)) = some d) (u' : Uuid) :
    ∃ d', (o.bind fun a => read (D a) u' (root a)) = some d' ∧ Refreshed u u' d d' := by
  obtain ⟨a, rfl, h⟩ := Option.bind_eq_some_iff.mp h
  exact refreshed_of_read h u'

theorem refreshed_of_document? {format : DocumentFormat} {text : String}
    (h : document? format u text = some d) (u' : Uuid) :
    ∃ d', document? format u' text = some d' ∧ Refreshed u u' d d' := by
  cases format with
  | json => exact refreshed_of_bind h u'
  | yaml => exact refreshed_of_bind h u'
  | toml => exact refreshed_of_bind h u'

/-- A file is read alike whatever the fresh UUID is. -/
theorem refreshed_of_ofFile {host : Host} {p : Path} (h : ofFile u host p = .ok d) (u' : Uuid) :
    ∃ d', ofFile u' host p = .ok d' ∧ Refreshed u u' d d' := by
  unfold ofFile at h ⊢
  cases htext : host.readText p with
  | error e =>
    rw [htext] at h
    cases h
  | ok text =>
    rw [htext] at h
    obtain ⟨d', hd', hsame⟩ := refreshed_of_document? (ofText_eq_ok_iff.mp h) u'
    exact ⟨d', ofText_eq_ok_iff.mpr hd', hsame⟩

/-- The models that the entries name, in order. -/
def models (d : Definition) : List (Option String) := d.entries.map (·.model)

end Definition

/-! ### The models in a document -/

namespace Document

variable {ν α β : Type} {D : Dialect ν} {read : ν → Option α} {part : ν → Option β} {f : α → β}

/-- What is read of every item is read of the list. -/
theorem mapM_of_read (h : ∀ v a, read v = some a → part v = some (f a)) {vs : List ν}
    {as : List α} (hvs : vs.mapM read = some as) : vs.mapM part = some (as.map f) := by
  induction vs generalizing as with
  | nil =>
    obtain rfl := Option.some.inj hvs
    rfl
  | cons v vs ih =>
    simp only [List.mapM_cons, Option.bind_eq_bind, Option.bind_eq_some_iff] at hvs
    obtain ⟨a, hv, as', hvs, has⟩ := hvs
    obtain rfl := Option.some.inj has
    rw [List.mapM_cons, h v a hv, ih hvs]
    rfl

theorem field_list_of_read (h : ∀ v a, read v = some a → part v = some (f a))
    {fields : List (String × ν)} {name : String} {as : List α}
    (hfield : field fields name [] (list D read) = some as) :
    field fields name [] (list D part) = some (as.map f) := by
  unfold field at hfield ⊢
  cases hl : fields.lookup name with
  | none =>
    rw [hl] at hfield
    obtain rfl := Option.some.inj hfield
    rfl
  | some v =>
    rw [hl] at hfield
    obtain ⟨items, hitems, has⟩ := Option.bind_eq_some_iff.mp hfield
    dsimp only
    rw [list, hitems, Option.bind_some, mapM_of_read h has]

end Document

open Document (field list)

/-- The model that the record of an entry names. -/
def LabelEntry.modelIn {ν : Type} (D : Dialect ν) (v : ν) : Option (Option String) :=
  (D.fields? fieldNames v).bind fun fields => field fields "model" none D.optionalText?

theorem LabelEntry.modelIn_of_read {ν : Type} (D : Dialect ν) (v : ν) (e : LabelEntry)
    (h : read D v = some e) : modelIn D v = some e.model := by
  simp only [read, Option.bind_eq_bind, Option.bind_eq_some_iff] at h
  obtain ⟨fields, hfields, model, hmodel, type, -, label, -, imageLabel, -, baseLabel, -, implicit,
    -, noRelabel, -, he⟩ := h
  obtain rfl := Option.some.inj he
  rw [modelIn, hfields, Option.bind_some, hmodel]

namespace Definition

/-- The models that the entries in the record of a definition name, in order. -/
def modelsIn {ν : Type} (D : Dialect ν) (v : ν) : Option (List (Option String)) :=
  (D.fields? fieldNames v).bind fun fields =>
    field fields "seclabel" [] (list D (LabelEntry.modelIn D))

theorem modelsIn_of_read {ν : Type} {D : Dialect ν} {v : ν} {u : Uuid} {d : Definition}
    (h : read D u v = some d) : modelsIn D v = some d.models := by
  simp only [read, Option.bind_eq_bind, Option.bind_eq_some_iff] at h
  obtain ⟨fields, hfields, name, -, uuid, -, entries, hentries, disks, -, devices, -, hd⟩ := h
  obtain rfl := Option.some.inj hd
  rw [modelsIn, hfields, Option.bind_some]
  exact Document.field_list_of_read (LabelEntry.modelIn_of_read D) hentries

/-- The models that the entries in a text of a given format name, in order. -/
def textModels? (format : DocumentFormat) (text : String) : Option (List (Option String)) :=
  match format with
  | .json => (Json.ofString? text).bind (modelsIn Json.dialect)
  | .yaml => (Yaml.Document.ofString? text).bind fun doc => modelsIn doc.dialect doc.root
  | .toml => (Toml.Value.ofString? text).bind (modelsIn Toml.Value.dialect)

/-- All entries of the text are read, whatever models they name. -/
theorem textModels?_of_ofText {format : DocumentFormat} {text : String} {u : Uuid} {d : Definition}
    (h : ofText format u text = .ok d) : textModels? format text = some d.models := by
  have h := ofText_eq_ok_iff.mp h
  cases format with
  | json =>
    obtain ⟨v, hv, h⟩ := Option.bind_eq_some_iff.mp h
    rw [textModels?, hv, Option.bind_some, modelsIn_of_read h]
  | yaml =>
    obtain ⟨doc, hdoc, h⟩ := Option.bind_eq_some_iff.mp h
    rw [textModels?, hdoc, Option.bind_some, modelsIn_of_read h]
  | toml =>
    obtain ⟨v, hv, h⟩ := Option.bind_eq_some_iff.mp h
    rw [textModels?, hv, Option.bind_some, modelsIn_of_read h]

/-- The definition is read from a text of a given format, by itself or from a file whose name says
that it is of this format. -/
inductive ReadFrom (format : DocumentFormat) (text : String) (d : Definition) : Prop
  | text {u : Uuid} (h : ofText format u text = .ok d)
  | file {u : Uuid} {host : Host} {p : Path} (hp : .ofExtension p.extension? = format)
      (contents : host.readText p = .ok text) (h : ofFile u host p = .ok d)

theorem ReadFrom.textModels? {format : DocumentFormat} {text : String} {d : Definition}
    (h : d.ReadFrom format text) : textModels? format text = some d.models := by
  cases h with
  | text h => exact textModels?_of_ofText h
  | @file u host p hp contents h =>
    subst hp
    rw [ofFile, contents] at h
    exact textModels?_of_ofText h

end Definition

end Confinement

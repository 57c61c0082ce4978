import Confinement.Manager.Generation

/-!
# The first entry of a model

A definition is edited at the first entry of a model, by position or by search. Both edits are one
and the same, a second edit finds the entry that the first one left, and an entry of a model that
had none is found where it was added. An edit of nothing but the two labels leaves all else of a
definition as it is.
-/

namespace Confinement

namespace LabelEntry

/-- The entry with other labels. -/
def withLabels (e : LabelEntry) (label imageLabel : Option String) : LabelEntry :=
  { e with label, imageLabel }

/-- All of an entry but its labels. -/
def bare (e : LabelEntry) : LabelEntry := e.withLabels none none

@[simp] theorem model_withLabels (e : LabelEntry) (l i : Option String) :
    (e.withLabels l i).model = e.model := rfl

@[simp] theorem type_withLabels (e : LabelEntry) (l i : Option String) :
    (e.withLabels l i).type = e.type := rfl

@[simp] theorem baseLabel_withLabels (e : LabelEntry) (l i : Option String) :
    (e.withLabels l i).baseLabel = e.baseLabel := rfl

@[simp] theorem implicit_withLabels (e : LabelEntry) (l i : Option String) :
    (e.withLabels l i).implicit = e.implicit := rfl

@[simp] theorem noRelabel_withLabels (e : LabelEntry) (l i : Option String) :
    (e.withLabels l i).noRelabel = e.noRelabel := rfl

@[simp] theorem bare_withLabels (e : LabelEntry) (l i : Option String) :
    (e.withLabels l i).bare = e.bare := rfl

@[simp] theorem withLabels_self (e : LabelEntry) : e.withLabels e.label e.imageLabel = e := rfl

theorem isFor_iff {model : String} {e : LabelEntry} :
    e.isFor model = true ↔ e.model = some model := by
  simp [isFor]

theorem isFor_congr {model : String} {e e' : LabelEntry} (h : e'.model = e.model) :
    e'.isFor model = e.isFor model := by
  simp [isFor, h]

end LabelEntry

namespace Definition

/-- A domain that has label entries and nothing else. -/
def guest (entries : List LabelEntry) : Definition where
  name := ⟨"guest1", rfl⟩
  uuid := ⟨List.replicate 32 ⟨0, Nat.succ_pos 15⟩, rfl⟩
  entries := entries

theorem findEntry_eq_none_iff {d : Definition} {model : String} :
    d.findEntry model = none ↔ ∀ e ∈ d.entries, e.model ≠ some model := by
  simp [findEntry, LabelEntry.isFor]

/-- A position is known exactly for the models that have an entry, and it is that of the entry. -/
theorem locateEntry_eq_some {d : Definition} {model : String} {i : Nat} {e : LabelEntry}
    (h : d.locateEntry model = some (i, e)) :
    d.position? model = some i ∧ d.entries[i]? = some e ∧ d.findEntry model = some e := by
  obtain ⟨j, hj, hm⟩ := Option.bind_eq_some_iff.mp h
  obtain ⟨e', he', hp⟩ := Option.map_eq_some_iff.mp hm
  obtain ⟨rfl, rfl⟩ := Prod.mk.inj hp
  refine ⟨hj, he', ?_⟩
  obtain ⟨hlt, hfor, hfirst⟩ := List.findIdx?_eq_some_iff_getElem.mp hj
  obtain ⟨_, hget⟩ := List.getElem?_eq_some_iff.mp he'
  refine List.find?_eq_some_iff_getElem.mpr ⟨hget ▸ hfor, j, hlt, hget, ?_⟩
  intro k hk
  simpa using hfirst k hk

theorem locateEntry_eq_none_iff {d : Definition} {model : String} :
    d.locateEntry model = none ↔ d.findEntry model = none := by
  constructor
  · intro h
    cases hp : d.position? model with
    | none => exact List.find?_eq_none.mpr (by simpa using List.findIdx?_eq_none_iff.mp hp)
    | some i =>
      obtain ⟨hlt, -, -⟩ := List.findIdx?_eq_some_iff_getElem.mp hp
      simp [locateEntry, hp, List.getElem?_eq_getElem hlt] at h
  · intro h
    cases hl : d.locateEntry model with
    | none => rfl
    | some p =>
      obtain ⟨-, -, hf⟩ := locateEntry_eq_some hl
      simp [hf] at h

/-- A search edits the entry that stands at the first position of the model. -/
theorem editFirst_eq_set {p : LabelEntry → Bool} {f : LabelEntry → LabelEntry}
    {es : List LabelEntry} {i : Nat} {e : LabelEntry} (hi : es.findIdx? p = some i)
    (he : es[i]? = some e) : editFirst p f es = es.set i (f e) := by
  induction es generalizing i with
  | nil => simp at hi
  | cons x rest ih =>
    unfold editFirst
    by_cases hx : p x = true
    · have hi0 : i = 0 := by simpa [List.findIdx?_cons, hx, eq_comm] using hi
      subst hi0
      obtain rfl : x = e := by simpa using he
      simp [hx]
    · simp only [hx, Bool.false_eq_true, if_false]
      obtain ⟨j, hj, rfl⟩ : ∃ j, rest.findIdx? p = some j ∧ j + 1 = i := by
        simpa [List.findIdx?_cons, hx] using hi
      rw [List.set_cons_succ, ih hj (by simpa using he)]

theorem editEntry_eq_setEntryAt {d : Definition} {model : String} {i : Nat} {e : LabelEntry}
    (h : d.locateEntry model = some (i, e)) (f : LabelEntry → LabelEntry) :
    d.editEntry model f = d.setEntryAt i (f e) := by
  obtain ⟨hp, he, -⟩ := locateEntry_eq_some h
  unfold editEntry setEntryAt
  rw [editFirst_eq_set hp he]

/-- The entry put back at its position undoes every edit of it. -/
theorem setEntryAt_editEntry {d : Definition} {model : String} {i : Nat} {e : LabelEntry}
    (h : d.locateEntry model = some (i, e)) (f : LabelEntry → LabelEntry) :
    (d.editEntry model f).setEntryAt i e = d := by
  obtain ⟨-, he, -⟩ := locateEntry_eq_some h
  obtain ⟨hlt, hget⟩ := List.getElem?_eq_some_iff.mp he
  rw [editEntry_eq_setEntryAt h]
  subst hget
  simp [setEntryAt]

theorem editFirst_of_forall {p : LabelEntry → Bool} {f : LabelEntry → LabelEntry}
    {es : List LabelEntry} (h : ∀ e ∈ es, p e = false) : editFirst p f es = es := by
  induction es with
  | nil => rfl
  | cons e rest ih =>
    have he := h e (List.mem_cons_self ..)
    have hr := ih fun e' h' => h e' (List.mem_cons_of_mem e h')
    simp [editFirst, he, hr]

/-- Without an entry of the model there is nothing to edit. -/
theorem editEntry_of_none {d : Definition} {model : String} (h : d.findEntry model = none)
    (f : LabelEntry → LabelEntry) : d.editEntry model f = d := by
  have he : ∀ e ∈ d.entries, e.isFor model = false := by
    intro e he
    simpa using List.find?_eq_none.mp h e he
  unfold editEntry
  rw [editFirst_of_forall he]

theorem editFirst_append_of_forall {p : LabelEntry → Bool} {f : LabelEntry → LabelEntry}
    {es : List LabelEntry} (h : ∀ e ∈ es, p e = false) (rest : List LabelEntry) :
    editFirst p f (es ++ rest) = es ++ editFirst p f rest := by
  induction es with
  | nil => rfl
  | cons e es ih =>
    have he := h e (List.mem_cons_self ..)
    have hr := ih fun e' h' => h e' (List.mem_cons_of_mem e h')
    simp [editFirst, he, hr]

/-- An entry that was added for a model without one is the entry that an edit finds. -/
theorem editEntry_addEntry {d : Definition} {model : String} {e : LabelEntry}
    (h : d.findEntry model = none) (he : e.model = some model) (f : LabelEntry → LabelEntry) :
    (d.addEntry e).editEntry model f = d.addEntry (f e) := by
  have hes : ∀ e ∈ d.entries, e.isFor model = false := by
    intro e he
    simpa using List.find?_eq_none.mp h e he
  have hf : e.isFor model = true := LabelEntry.isFor_iff.mpr he
  unfold editEntry addEntry
  rw [editFirst_append_of_forall hes]
  simp [editFirst, hf]

/-- Two edits of one model are one edit, if the first leaves the model in place. -/
theorem editEntry_editEntry {model : String} {f : LabelEntry → LabelEntry}
    (hf : ∀ e, (f e).model = e.model) (d : Definition) (g : LabelEntry → LabelEntry) :
    (d.editEntry model f).editEntry model g = d.editEntry model fun e => g (f e) := by
  have hes : ∀ es, editFirst (·.isFor model) g (editFirst (·.isFor model) f es) =
      editFirst (·.isFor model) (fun e => g (f e)) es := by
    intro es
    induction es with
    | nil => rfl
    | cons e rest ih =>
      by_cases he : e.isFor model = true
      · have hfe : (f e).isFor model = true := by rwa [LabelEntry.isFor_congr (hf e)]
        simp [editFirst, he, hfe]
      · simp only [editFirst, he, Bool.false_eq_true, if_false, ih]
  unfold editEntry
  simp only [hes]

/-- An edit is decided by what it makes of the entry that it finds. -/
theorem editEntry_congr {d : Definition} {model : String} {f g : LabelEntry → LabelEntry}
    (h : ∀ e, d.findEntry model = some e → f e = g e) :
    d.editEntry model f = d.editEntry model g := by
  cases hl : d.locateEntry model with
  | none =>
    have hn := locateEntry_eq_none_iff.mp hl
    rw [editEntry_of_none hn, editEntry_of_none hn]
  | some p =>
    obtain ⟨i, e⟩ := p
    obtain ⟨-, -, hf⟩ := locateEntry_eq_some hl
    rw [editEntry_eq_setEntryAt hl, editEntry_eq_setEntryAt hl, h e hf]

theorem findEntry_addEntry (d : Definition) (e : LabelEntry) (model : String) :
    (d.addEntry e).findEntry model =
      (d.findEntry model).or (if e.model = some model then some e else none) := by
  unfold findEntry addEntry
  rw [List.find?_append]
  by_cases h : e.model = some model <;> simp [LabelEntry.isFor, h]

/-- The domain is confined by the first entry of a model. -/
def Confines (d : Definition) (model : String) : Prop :=
  ∃ e, d.findEntry model = some e ∧ (e.type = .dynamic ∨ e.type = .static)

/-- No two entries are of the same model. -/
def Unambiguous (d : Definition) : Prop := (d.entries.filterMap (·.model)).Nodup

/-- Where no model is met twice an edit changes all entries of the model. -/
theorem editFirst_eq_map {es : List LabelEntry} (h : (es.filterMap (·.model)).Nodup)
    (model : String) (f : LabelEntry → LabelEntry) : editFirst (·.isFor model) f es =
      es.map fun e => if e.isFor model = true then f e else e := by
  induction es with
  | nil => rfl
  | cons e rest ih =>
    rw [List.map_cons, editFirst]
    cases hm : e.model with
    | none =>
      rw [List.filterMap_cons_none hm] at h
      have he : e.isFor model = false := by simp [LabelEntry.isFor, hm]
      simp [he, ih h]
    | some other =>
      rw [List.filterMap_cons_some hm, List.nodup_cons] at h
      by_cases ho : other = model
      · subst ho
        have hrest : rest.map (fun e => if e.isFor other = true then f e else e) = rest := by
          refine (List.map_congr_left fun e' he' => ?_).trans (List.map_id rest)
          have hne : e'.isFor other = false := by
            rw [Bool.eq_false_iff]
            intro hf
            exact h.1 (List.mem_filterMap.mpr ⟨e', he', LabelEntry.isFor_iff.mp hf⟩)
          simp [hne]
        have he : e.isFor other = true := LabelEntry.isFor_iff.mpr hm
        simp [he, hrest]
      · have he : e.isFor model = false := by simp [LabelEntry.isFor, hm, ho]
        simp [he, ih h.2]

/-! ### Edits of nothing but the labels -/

/-- The second definition is the first one but for the labels of the first entry of a model. -/
def Relabelled (model : String) (d d' : Definition) : Prop :=
  ∃ label imageLabel, d' = d.editEntry model (·.withLabels label imageLabel)

theorem Relabelled.refl (model : String) (d : Definition) : d.Relabelled model d := by
  cases hf : d.findEntry model with
  | none => exact ⟨none, none, (editEntry_of_none hf _).symm⟩
  | some e =>
    cases hl : d.locateEntry model with
    | none => simp [locateEntry_eq_none_iff.mp hl] at hf
    | some p =>
      obtain ⟨i, e'⟩ := p
      refine ⟨e'.label, e'.imageLabel, ?_⟩
      rw [editEntry_eq_setEntryAt hl, LabelEntry.withLabels_self]
      obtain ⟨-, he, -⟩ := locateEntry_eq_some hl
      obtain ⟨hlt, rfl⟩ := List.getElem?_eq_some_iff.mp he
      simp [setEntryAt]

/-- Any edit that sets the labels of the entry it finds, whatever they are computed from. -/
theorem Relabelled.of_edit {d : Definition} {model : String} {f : LabelEntry → LabelEntry}
    (hf : ∀ e, ∃ label imageLabel, f e = e.withLabels label imageLabel) :
    d.Relabelled model (d.editEntry model f) := by
  cases h : d.findEntry model with
  | none =>
    rw [editEntry_of_none h]
    exact .refl model d
  | some e =>
    obtain ⟨label, imageLabel, hfe⟩ := hf e
    refine ⟨label, imageLabel, editEntry_congr ?_⟩
    intro e' he'
    obtain rfl : e = e' := Option.some.inj (h.symm.trans he')
    exact hfe

/-- Two definitions that differ in labels only, whatever entries they belong to. -/
def SameButLabels (d d' : Definition) : Prop :=
  { d' with entries := d'.entries.map LabelEntry.bare } =
    { d with entries := d.entries.map LabelEntry.bare }

theorem SameButLabels.refl (d : Definition) : d.SameButLabels d := rfl

theorem SameButLabels.trans {d d' d'' : Definition} (h : d.SameButLabels d')
    (h' : d'.SameButLabels d'') : d.SameButLabels d'' := Eq.trans h' h

theorem Relabelled.sameButLabels {model : String} {d d' : Definition} (h : d.Relabelled model d') :
    d.SameButLabels d' := by
  obtain ⟨label, imageLabel, rfl⟩ := h
  have hes : ∀ es, (editFirst (·.isFor model) (·.withLabels label imageLabel) es).map
      LabelEntry.bare = es.map LabelEntry.bare := by
    intro es
    induction es with
    | nil => rfl
    | cons e rest ih =>
      unfold editFirst
      split
      · simp
      · simp [ih]
  simp only [SameButLabels, editEntry, hes]

theorem SameButLabels.map_bare {d d' : Definition} (h : d.SameButLabels d') :
    d'.entries.map LabelEntry.bare = d.entries.map LabelEntry.bare := congrArg Definition.entries h

/-- Models are found again, and with everything but the labels as it was. -/
theorem SameButLabels.findEntry {d d' : Definition} (h : d.SameButLabels d') (model : String) :
    (d'.findEntry model).map LabelEntry.bare = (d.findEntry model).map LabelEntry.bare := by
  have hfind : ∀ es : List LabelEntry, (es.find? (·.isFor model)).map LabelEntry.bare =
      (es.map LabelEntry.bare).find? (·.isFor model) := by
    intro es
    rw [List.find?_map]
    rfl
  unfold Definition.findEntry
  rw [hfind, hfind, h.map_bare]

theorem SameButLabels.findEntry_eq_none {d d' : Definition} (h : d.SameButLabels d')
    {model : String} (hn : d.findEntry model = none) : d'.findEntry model = none := by
  have hf := h.findEntry model
  rw [hn, Option.map_none] at hf
  exact Option.map_eq_none_iff.mp hf

theorem SameButLabels.confines {d d' : Definition} (h : d.SameButLabels d') {model : String}
    (hc : d.Confines model) : d'.Confines model := by
  obtain ⟨e, he, ht⟩ := hc
  have hf := h.findEntry model
  rw [he, Option.map_some] at hf
  obtain ⟨e', he', hbare⟩ := Option.map_eq_some_iff.mp hf
  have htype := congrArg LabelEntry.type hbare
  change e'.type = e.type at htype
  exact ⟨e', he', by rwa [htype]⟩

end Definition

end Confinement

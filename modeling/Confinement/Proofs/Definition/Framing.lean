import Confinement.Proofs.Definition.Entries

/-!
# Definitions that differ in first entries

Only the first entry of a model is ever edited. Definitions that have come from one another by such
edits have the same entries at all other positions, so they are equal as soon as every model is
found with the same entry.
-/

namespace Confinement.Definition

variable {a b c d : Definition} {model : String} {i : Nat}

theorem getElem?_of_position? (h : d.position? model = some i) :
    d.entries[i]? = d.findEntry model := by
  obtain ⟨hlt, -, -⟩ := List.findIdx?_eq_some_iff_getElem.mp h
  have hl : d.locateEntry model = some (i, d.entries[i]) := by
    simp [locateEntry, h, List.getElem?_eq_getElem hlt]
  obtain ⟨-, he, hf⟩ := locateEntry_eq_some hl
  exact he.trans hf.symm

/-- The second definition is the first one but for the first entries of models. -/
structure Framed (d c : Definition) : Prop where
  rest : { c with entries := [] } = { d with entries := [] }
  models : c.entries.map (·.model) = d.entries.map (·.model)
  others : ∀ i : Nat, (∀ model, d.position? model ≠ some i) → c.entries[i]? = d.entries[i]?

/-- What stands first is a matter of the models alone. -/
theorem position?_congr (h : c.entries.map (·.model) = d.entries.map (·.model)) (model : String) :
    c.position? model = d.position? model := by
  have hpos : ∀ d : Definition, d.position? model =
      (d.entries.map (·.model)).findIdx? (· == some model) := by
    intro d
    rw [List.findIdx?_map]
    rfl
  rw [hpos, hpos, h]

namespace Framed

theorem refl (d : Definition) : d.Framed d := ⟨rfl, rfl, fun _ _ => rfl⟩

theorem trans (h : a.Framed b) (h' : b.Framed c) : a.Framed c where
  rest := h'.rest.trans h.rest
  models := h'.models.trans h.models
  others i hi := by
    refine (h'.others i fun model => ?_).trans (h.others i hi)
    rw [position?_congr h.models]
    exact hi model

theorem editEntry (d : Definition) (model : String) {f : LabelEntry → LabelEntry}
    (hf : ∀ e, (f e).model = e.model) : d.Framed (d.editEntry model f) := by
  cases hl : d.locateEntry model with
  | none =>
    rw [editEntry_of_none (locateEntry_eq_none_iff.mp hl)]
    exact .refl d
  | some p =>
    obtain ⟨j, e⟩ := p
    obtain ⟨hp, he, -⟩ := locateEntry_eq_some hl
    rw [editEntry_eq_setEntryAt hl]
    refine ⟨rfl, ?_, fun i hi => ?_⟩
    · obtain ⟨hlt, rfl⟩ := List.getElem?_eq_some_iff.mp he
      have hlt' : j < (d.entries.map (·.model)).length := by rwa [List.length_map]
      have hself : (d.entries.map (·.model))[j] = (d.entries[j]).model := List.getElem_map ..
      rw [setEntryAt, List.map_set, hf, ← hself, List.set_getElem_self]
    · refine List.getElem?_set_ne ?_
      rintro rfl
      exact hi model hp

theorem uuid (h : d.Framed c) : c.uuid = d.uuid := by
  have hrest := congrArg Definition.uuid h.rest
  exact hrest

theorem entries_ne_nil (h : d.Framed c) (hd : d.entries ≠ []) : c.entries ≠ [] := by
  intro hc
  have hmodels := h.models
  rw [hc, List.map_nil] at hmodels
  exact hd (List.map_eq_nil_iff.mp hmodels.symm)

/-- Nothing differs if no first entry does. -/
theorem eq (h : d.Framed c) (hf : ∀ model, c.findEntry model = d.findEntry model) : c = d := by
  have hentries : c.entries = d.entries := by
    refine List.ext_getElem? fun i => ?_
    by_cases hi : ∃ model, d.position? model = some i
    · obtain ⟨model, hp⟩ := hi
      rw [getElem?_of_position? ((position?_congr h.models model).trans hp),
        getElem?_of_position? hp, hf model]
    · exact h.others i (not_exists.mp hi)
  have hwith : ∀ a : Definition, a = { { a with entries := [] } with entries := a.entries } :=
    fun _ => rfl
  rw [hwith c, hwith d, h.rest, hentries]

end Framed

end Confinement.Definition

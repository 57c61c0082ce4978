import Confinement.Proofs.Selinux.Codec
import Confinement.Proofs.Selinux.Outcomes

/-!
# Levels that domains take and give back

A domain holds the level that its dynamic label is read to carry. To generate a label takes a free
level for a domain that holds none, to release it gives the level back. In all other cases, and
whenever one of the two fails, the reserved levels stay and the domain holds what it held.
-/

namespace Confinement.Selinux

/-- The first entry of the model is dynamic, and its label is read to carry the level. -/
def Holds (d : Definition) (level : String) : Prop :=
  ∃ e label c, d.findEntry model = some e ∧ e.type = .dynamic ∧ e.label = some label ∧
    Context.parse label = .ok c ∧ c.level = some level

theorem holds_iff_heldLevel {d : Definition} {level : String} :
    Holds d level ↔ heldLevel d = .ok (some level) := by
  unfold Holds heldLevel
  cases hf : d.findEntry model with
  | none => simp
  | some e =>
    by_cases ht : e.type = .dynamic
    · cases hl : e.label with
      | none => simp [ht, hl]
      | some label => simp [ht, hl, map_eq_ok_iff]
    · simp [ht]

/-- Under a dynamic entry the label alone decides. -/
theorem holds_iff_of_label {d : Definition} {e : LabelEntry} (hf : d.findEntry model = some e)
    (ht : e.type = .dynamic) {label : String} (hl : e.label = some label) (level : String) :
    Holds d level ↔ ∃ c, Context.parse label = .ok c ∧ c.level = some level := by
  unfold Holds
  simp [hf, ht, hl]

/-- No domain holds two levels. -/
theorem Holds.unique {d : Definition} {level level' : String} (h : Holds d level)
    (h' : Holds d level') : level = level' := by
  have heq := (holds_iff_heldLevel.mp h).symm.trans (holds_iff_heldLevel.mp h')
  exact Option.some.inj (Except.ok.inj heq)

/-- Only a dynamic entry with a label holds a level. -/
theorem not_holds_of {d : Definition} {e : LabelEntry} (hf : d.findEntry model = some e)
    (he : e.type ≠ .dynamic ∨ e.label = none) (level : String) : ¬Holds d level := by
  rintro ⟨e', label, c, hf', ht, hl, -⟩
  obtain rfl : e = e' := Option.some.inj (hf.symm.trans hf')
  rcases he with he | he
  · exact he ht
  · rw [he] at hl
    cases hl

/-- An edit of the entry decides whether a level is held after it. -/
theorem not_holds_editEntry {d : Definition} {e : LabelEntry} (hf : d.findEntry model = some e)
    {f : LabelEntry → LabelEntry} (hmodel : ∀ e, (f e).model = e.model)
    (he : (f e).type ≠ .dynamic ∨ (f e).label = none) (level : String) :
    ¬Holds (d.editEntry model f) level := by
  refine not_holds_of (e := f e) ?_ he level
  rw [Definition.findEntry_editEntry hmodel, hf, Option.map_some]

/-- A label that is written into a dynamic entry is held with its level. -/
theorem holds_editEntry_iff {d : Definition} {e : LabelEntry} (hf : d.findEntry model = some e)
    {f : LabelEntry → LabelEntry} (hmodel : ∀ e, (f e).model = e.model) {c : Context}
    (hc : c.WellFormed) {level : String} (ht : (f e).type = .dynamic)
    (hl : (f e).label = some (c.withLevel (some level)).text) (l : String) :
    Holds (d.editEntry model f) l ↔ l = level := by
  have hfound : (d.editEntry model f).findEntry model = some (f e) := by
    rw [Definition.findEntry_editEntry hmodel, hf, Option.map_some]
  have hparse := Context.parse_text (hc.withLevel (some level))
  rw [holds_iff_of_label hfound ht hl, hparse]
  constructor
  · rintro ⟨c', hc', hlevel⟩
    obtain rfl := Except.ok.inj hc'
    exact (Option.some.inj hlevel).symm
  · rintro rfl
    exact ⟨_, rfl, rfl⟩

/-- What a request to label or release one domain does to the levels and to the domain. -/
inductive Exchange (levels : Levels) (d : Definition) : Levels → Definition → Prop
  /-- Nothing changes hands. -/
  | kept {d' : Definition} (same : ∀ level, Holds d' level ↔ Holds d level) :
      Exchange levels d levels d'
  /-- A domain without a level takes a free one. -/
  | taken {d' : Definition} {level : String} (free : level ∉ levels)
      (before : ∀ l, ¬Holds d l) (after : ∀ l, Holds d' l ↔ l = level) :
      Exchange levels d (levels.insert level) d'
  /-- A domain gives its level back. -/
  | given {d' : Definition} {level : String} (before : Holds d level)
      (after : ∀ l, ¬Holds d' l) : Exchange levels d (levels.erase level) d'

theorem Exchange.refl (levels : Levels) (d : Definition) : Exchange levels d levels d :=
  .kept fun _ => Iff.rfl

/-- What the technology makes of a scene, in terms of levels. -/
def Exchanges (levels : Levels) (d : Definition) (s' : Scene) : Prop :=
  ∃ levels', s'.state = .selinux levels' ∧ Exchange levels d levels' s'.definition

theorem wellFormed_of_baseContext {e : LabelEntry} {c : Context} (h : baseContext e = .ok c) :
    c.WellFormed := by
  unfold baseContext at h
  split at h
  · exact Context.wellFormed_of_parse h
  · obtain rfl := Except.ok.inj h
    exact Context.wellFormed_domainDefault

/-- The image labels that are made up can be read, whatever level they take over. -/
theorem parse_imageLabel (level : Option String) :
    Context.parse (imageLabel level) = .ok (Context.imageDefault.withLevel level) := by
  have hdefault : Context.imageDefault.WellFormed := by
    refine ⟨⟨?_, ?_⟩, ⟨?_, ?_⟩, ⟨?_, ?_⟩⟩ <;> decide
  exact Context.parse_text (hdefault.withLevel level)

/-- To generate a label takes a free level, or nothing changes hands. -/
theorem exchanges_generate {s : Scene} {levels : Levels} (hs : s.state = .selinux levels) :
    Exchanges levels s.definition (perform .generate s).2 := by
  have hkept : Exchanges levels s.definition s := ⟨levels, hs, .refl levels s.definition⟩
  rcases perform_generate_cases s with ⟨e, hp⟩ | ⟨state, d, hc, hp⟩
  · rw [hp]
    exact hkept
  · rw [hp]
    cases hc with
    | missing found => exact hkept
    | unconfined found type => exact hkept
    | @static e label c found type labelled parsed =>
      have hstatic : e.type ≠ .dynamic := by
        rw [type]
        decide
      refine ⟨levels, hs, .kept fun level => iff_of_false ?_ ?_⟩
      · refine not_holds_editEntry found ?_ (.inl hstatic) level
        exact fun _ => rfl
      · exact not_holds_of found (.inl hstatic) level
    | @dynamic e base held level found type unlabelled based kept free =>
      have hlevels : held = levels := by
        simpa [Scene.levels, hs, eq_comm] using kept
      subst hlevels
      refine ⟨_, rfl, .taken free (not_holds_of found (.inr unlabelled)) fun l => ?_⟩
      refine holds_editEntry_iff found ?_ (wellFormed_of_baseContext based) type rfl l
      exact fun _ => rfl

/-- To release a label gives its level back, or nothing changes hands. -/
theorem exchanges_release {s : Scene} {levels : Levels} (hs : s.state = .selinux levels) :
    Exchanges levels s.definition (perform .release s).2 := by
  have hkept : Exchanges levels s.definition s := ⟨levels, hs, .refl levels s.definition⟩
  have hgone : ∀ e, s.findEntry model = some e → ∀ l, ¬Holds (s.definition.editEntry model
      ({ · with label := none, imageLabel := none })) l :=
    fun e found => not_holds_editEntry found (fun _ => rfl) (.inr rfl)
  change Exchanges levels s.definition (release s).2
  generalize hr : release s = out
  have hout := released s
  rw [hr] at hout
  cases hout with
  | missing found => exact hkept
  | fixed found type => exact hkept
  | @freed e label c level held found type labelled parsed leveled kept =>
    have hlevels : held = levels := by
      simpa [Scene.levels, hs, eq_comm] using kept
    subst hlevels
    have hheld := (holds_iff_of_label found type labelled level).mpr ⟨c, parsed, leveled⟩
    exact ⟨_, rfl, .given hheld (hgone e found)⟩
  | @cleared e found type unleveled legible =>
    refine ⟨levels, hs, .kept fun l => iff_of_false (hgone e found l) ?_⟩
    rintro ⟨e', label, c, found', -, labelled, parsed, leveled⟩
    obtain rfl := Option.some.inj (found'.symm.trans found)
    rw [unleveled label c labelled parsed] at leveled
    cases leveled
  | @refused e label err found type labelled failed =>
    have hbare : ∀ l, ¬Holds (s.definition.editEntry model ({ · with label := none })) l :=
      not_holds_editEntry found (fun _ => rfl) (.inr rfl)
    refine ⟨levels, hs, .kept fun l => iff_of_false (hbare l) ?_⟩
    rw [holds_iff_of_label found type labelled]
    rintro ⟨c, parsed, -⟩
    rcases failed with failed | failed
    · rw [parsed] at failed
      cases failed
    · simp [Scene.levels, hs] at failed

/-- A level is reserved for a domain that holds one, and it was free before. -/
theorem reserveDomainLevel_ok {s : Scene} {levels : Levels} (hs : s.state = .selinux levels)
    (h : (reserveDomainLevel s).1 = .ok ()) :
    ((reserveDomainLevel s).2.state = .selinux levels ∧ ∀ level, ¬Holds s.definition level) ∨
    ∃ level, level ∉ levels ∧ (reserveDomainLevel s).2.state = .selinux (levels.insert level) ∧
      Holds s.definition level := by
  unfold reserveDomainLevel at h ⊢
  cases hheld : heldLevel s.definition with
  | error e =>
    rw [hheld] at h
    cases h
  | ok held =>
    rw [hheld, Scene.after_ok] at h
    rw [Scene.after_ok]
    cases held with
    | none =>
      refine .inl ⟨hs, fun level hl => ?_⟩
      rw [holds_iff_heldLevel, hheld] at hl
      cases hl
    | some level =>
      dsimp only at h ⊢
      unfold reserveLevel Levels.reserve at h ⊢
      rw [hs] at h ⊢
      dsimp only at h ⊢
      by_cases hmem : levels.contains level = true
      · rw [if_pos hmem] at h
        cases h
      · rw [if_neg hmem]
        exact .inr ⟨level, by rwa [Std.ExtHashSet.mem_iff_contains], rfl,
          holds_iff_heldLevel.mpr hheld⟩

end Confinement.Selinux

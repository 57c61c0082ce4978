import Confinement.Proofs.Selinux.Effects

/-!
# What a new label is made of

To generate a label fails and changes nothing, or it fills in the two labels of one entry and
changes nothing else of the definition. The labels of a dynamic entry are read back as a context
that the entry names and as the context of images, both with the one level that was free before and
is reserved then.
-/

namespace Confinement

/-! ### Entries that are completed -/

namespace Selinux

theorem baseContext_eq_ok_iff {e : LabelEntry} {base : Context} : baseContext e = .ok base ↔
    (∀ text, e.baseLabel = some text → Context.parse text = .ok base) ∧
      (e.baseLabel = none → base = .domainDefault) := by
  unfold baseContext
  cases e.baseLabel with
  | none => simp [eq_comm]
  | some text => simp

namespace Completed

variable {s : Scene} {state : DriverState} {d' : Definition} {e : LabelEntry}

/-- A dynamic entry gets two labels that are read back with one and the same level, a free one. -/
theorem of_dynamic (h : Completed s state d') (hf : s.findEntry model = some e)
    (ht : e.type = .dynamic) {levels : Levels} (hs : s.state = .selinux levels) :
    ∃ base level label image, baseContext e = .ok base ∧ level ∉ levels ∧
      Context.parse label = .ok (base.withLevel (some level)) ∧
      Context.parse image = .ok (Context.imageDefault.withLevel (some level)) ∧
      state = .selinux (levels.insert level) ∧
      d' = s.definition.editEntry model (·.withLabels (some label) (some image)) := by
  cases h with
  | missing found => cases hf.symm.trans found
  | unconfined found type =>
    obtain rfl := Option.some.inj (hf.symm.trans found)
    cases ht.symm.trans type
  | static found type labelled parsed =>
    obtain rfl := Option.some.inj (hf.symm.trans found)
    cases ht.symm.trans type
  | @dynamic _ base held level found type unlabelled based kept free =>
    obtain rfl := Option.some.inj (hf.symm.trans found)
    have hheld : held = levels := by simpa [Scene.levels, hs, eq_comm] using kept
    subst hheld
    have hbase := wellFormed_of_baseContext based
    exact ⟨base, level, _, _, based, free, Context.parse_text (hbase.withLevel (some level)),
      parse_imageLabel (some level), rfl, rfl⟩

/-- A static entry keeps its label, which can be read, and its image label if it has one. -/
theorem of_static (h : Completed s state d') (hf : s.findEntry model = some e)
    (ht : e.type = .static) : ∃ label c, e.label = some label ∧ Context.parse label = .ok c ∧
      state = s.state ∧ d' = s.definition.editEntry model
        (·.withLabels (some label) (some (e.imageLabel.getD (imageLabel c.level)))) := by
  cases h with
  | missing found => cases hf.symm.trans found
  | unconfined found type =>
    obtain rfl := Option.some.inj (hf.symm.trans found)
    cases ht.symm.trans type
  | @static _ label c found type labelled parsed =>
    obtain rfl := Option.some.inj (hf.symm.trans found)
    refine ⟨label, c, labelled, parsed, rfl, Definition.editEntry_congr fun e' hf' => ?_⟩
    obtain rfl := Option.some.inj (hf.symm.trans hf')
    cases himage : e.imageLabel <;> simp [LabelEntry.withLabels, labelled]
  | dynamic found type unlabelled based kept free =>
    obtain rfl := Option.some.inj (hf.symm.trans found)
    cases ht.symm.trans type

/-- Nothing else is completed. -/
theorem of_neither (h : Completed s state d')
    (hn : ∀ e, s.findEntry model = some e → e.type ≠ .dynamic ∧ e.type ≠ .static) :
    state = s.state ∧ d' = s.definition := by
  cases h with
  | missing found => exact ⟨rfl, rfl⟩
  | unconfined found type => exact ⟨rfl, rfl⟩
  | static found type labelled parsed => exact absurd type (hn _ found).2
  | dynamic found type unlabelled based kept free => exact absurd type (hn _ found).1

end Completed

end Selinux

/-! ### Managers that complete them -/

namespace Engine

open Selinux

variable {s : Engine} {id : ManagerId} {levels : Levels}

/-- A manager of contexts completes the entry of a domain, or it only notes that it was asked. -/
theorem edit_generate_cases (hk : s.KeepsLevels id levels) (d : Definition) :
    (∃ err, edit id .generate ⟨s, d⟩ = (.error err, ⟨s.noted id .generate, d⟩)) ∨
    ∃ levels' d', Completed ⟨model, .selinux levels, s.host, d⟩ (.selinux levels') d' ∧
      edit id .generate ⟨s, d⟩ =
        (.ok (), ⟨(s.noted id .generate).withLevels id levels', d'⟩) := by
  rcases perform_generate_cases ⟨model, .selinux levels, s.host, d⟩ with
    ⟨err, hperform⟩ | ⟨state, d', hcompleted, hperform⟩
  · refine .inl ⟨err, ?_⟩
    rw [edit_contexts hk .generate rfl hperform rfl rfl, withLevels_self (hk.noted .generate)]
  · obtain ⟨levels', rfl⟩ : ∃ levels', state = .selinux levels' := by
      cases hcompleted with
      | dynamic found type unlabelled based kept free => exact ⟨_, rfl⟩
      | _ => exact ⟨levels, rfl⟩
    exact .inr ⟨levels', d', hcompleted, edit_contexts hk .generate rfl hperform rfl rfl⟩

/-- A generation that fails changes nothing. One that succeeds on a dynamic entry reserves one level
that was free, and writes two labels: the first is read as the context that the entry names, or the
one of domains, the second as the one of images, both with the new level in place of their own. One
that succeeds on a static entry reserves nothing and keeps the label, and an image label that is
missing becomes the context of images with the level of the label. Apart from that, and on other
entries, all stays as it was. -/
theorem new_labels_carry_taken_level (hk : s.KeepsLevels id levels) (d : Definition) :
    (∀ err st, edit id .generate ⟨s, d⟩ = (.error err, st) → st = ⟨s.noted id .generate, d⟩) ∧
    ∀ st, edit id .generate ⟨s, d⟩ = (.ok (), st) →
      (∀ e, d.findEntry model = some e → e.type = .dynamic → ∃ base level label image,
        (∀ text, e.baseLabel = some text → Context.parse text = .ok base) ∧
        (e.baseLabel = none → base = .domainDefault) ∧
        level ∉ levels ∧
        Context.parse label = .ok (base.withLevel (some level)) ∧
        Context.parse image = .ok (Context.imageDefault.withLevel (some level)) ∧
        st = ⟨(s.noted id .generate).withLevels id (levels.insert level),
          d.editEntry model (·.withLabels (some label) (some image))⟩) ∧
      (∀ e, d.findEntry model = some e → e.type = .static → ∃ label c,
        e.label = some label ∧ Context.parse label = .ok c ∧
        st = ⟨s.noted id .generate, d.editEntry model (·.withLabels (some label)
          (some (e.imageLabel.getD (Context.imageDefault.withLevel c.level).text)))⟩) ∧
      ((∀ e, d.findEntry model = some e → e.type ≠ .dynamic ∧ e.type ≠ .static) →
        st = ⟨s.noted id .generate, d⟩) := by
  rcases edit_generate_cases hk d with ⟨err, hedit⟩ | ⟨levels', d', hcompleted, hedit⟩
  · refine ⟨fun err' st h => ?_, fun st h => ?_⟩
    · exact (Prod.mk.inj (h.symm.trans hedit)).2
    · cases h.symm.trans hedit
  · have hkept : levels' = levels →
        (s.noted id .generate).withLevels id levels' = s.noted id .generate := by
      rintro rfl
      exact withLevels_self (hk.noted .generate)
    refine ⟨fun err st h => ?_, fun st h => ?_⟩
    · cases h.symm.trans hedit
    obtain ⟨-, rfl⟩ := Prod.mk.inj (h.symm.trans hedit)
    refine ⟨fun e hf ht => ?_, fun e hf ht => ?_, fun hneither => ?_⟩
    · obtain ⟨base, level, label, image, hbase, hfree, hlabel, himage, hlevels, rfl⟩ :=
        hcompleted.of_dynamic hf ht rfl
      obtain rfl := DriverState.selinux.inj hlevels
      obtain ⟨hgiven, habsent⟩ := baseContext_eq_ok_iff.mp hbase
      exact ⟨base, level, label, image, hgiven, habsent, hfree, hlabel, himage, rfl⟩
    · obtain ⟨label, c, hlabel, hparse, hlevels, rfl⟩ := hcompleted.of_static hf ht
      rw [hkept (DriverState.selinux.inj hlevels)]
      exact ⟨label, c, hlabel, hparse, rfl⟩
    · obtain ⟨hlevels, rfl⟩ := hcompleted.of_neither hneither
      rw [hkept (DriverState.selinux.inj hlevels)]

/-- A guest that brings the parts of its context, and another entry that cannot be read. -/
def basedGuest : Definition := .guest [
  { model := some "selinux"
    type := .dynamic
    baseLabel := some "user_u:user_r:custom_t:s0-s1:c5" },
  { model := some "selinux", type := .static, label := some "garbage" }]

/-- The new level replaces the one that the guest brings. -/
theorem taken_level_basedGuest : ∃ level label image st,
    edit 0 .generate ⟨contextHost, basedGuest⟩ = (.ok (), st) ∧
    st.engine.KeepsLevels 0 ((∅ : Levels).insert level) ∧
    Context.parse label = .ok ⟨"user_u", "user_r", "custom_t", some level⟩ ∧
    Context.parse image = .ok ⟨"system_u", "object_r", "svirt_image_t", some level⟩ ∧
    st.definition = basedGuest.editEntry model (·.withLabels (some label) (some image)) := by
  have hm : contextHost.manager? 0 = some ⟨.selinux, "qemu", {}, .selinux ∅⟩ := rfl
  have hk : contextHost.KeepsLevels 0 ∅ := ⟨_, hm, rfl, rfl⟩
  have hbase : Context.parse "user_u:user_r:custom_t:s0-s1:c5" =
      .ok ⟨"user_u", "user_r", "custom_t", some "s0-s1:c5"⟩ := by decide
  obtain ⟨t, hedit, -⟩ := edit_generate_of_free hm Std.ExtHashSet.not_mem_empty
    (d := basedGuest) rfl rfl rfl hbase
  obtain ⟨hdynamic, -, -⟩ := (new_labels_carry_taken_level hk basedGuest).2 _ hedit
  obtain ⟨base, level, label, image, hgiven, -, -, hlabel, himage, hst⟩ := hdynamic _ rfl rfl
  obtain rfl := Except.ok.inj (hbase.symm.trans (hgiven _ rfl))
  refine ⟨level, label, image, _, hedit, ?_, hlabel, himage, congrArg Stage.definition hst⟩
  rw [hst]
  exact (hk.noted .generate).withLevels

end Engine

end Confinement

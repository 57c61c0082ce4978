import Confinement.Proofs.Selinux.Demands

/-!
# What a release leaves behind

To label or release a domain touches nothing of the engine but the levels of the manager that is
asked, and leaves a note of the call. A release that succeeds frees the level of the domain and
clears both labels. A release that fails frees no level, but it has taken the label away before it
fails, and the image label stays alone.
-/

namespace Confinement

/-! ### Labels that cannot be read -/

namespace Selinux

variable {d : Definition} {err : Error}

/-- No level can be read if the first entry is dynamic and its label is no context. -/
theorem heldLevel_eq_error_iff : heldLevel d = .error err ↔
    ∃ e label, d.findEntry model = some e ∧ e.type = .dynamic ∧ e.label = some label ∧
      Context.parse label = .error err := by
  unfold heldLevel
  cases hf : d.findEntry model with
  | none => simp
  | some e =>
    by_cases ht : e.type = .dynamic
    · cases hl : e.label with
      | none => simp [ht, hl]
      | some label => cases hc : Context.parse label <;> simp [ht, hl, hc, Except.map]
    · simp [ht]

theorem release_of_illegible {s : Scene} (hd : heldLevel s.definition = .error err) :
    release s = (.error err, { s with
      definition := s.definition.editEntry model ({ · with label := none }) }) := by
  obtain ⟨e, label, hf, ht, hl, hc⟩ := heldLevel_eq_error_iff.mp hd
  have hf : s.findEntry model = some e := hf
  rw [release, hf]
  simp only [ht, ne_eq, not_true_eq_false, if_false, hl, hc]
  rfl

/-- The label is lost: the definition is not what it was. -/
theorem editEntry_ne_of_illegible (hd : heldLevel d = .error err) :
    d.editEntry model ({ · with label := none }) ≠ d := by
  obtain ⟨e, label, hf, -, hl, -⟩ := heldLevel_eq_error_iff.mp hd
  intro hsame
  have hfound : (d.editEntry model ({ · with label := none })).findEntry model =
      (d.findEntry model).map ({ · with label := none }) :=
    Definition.findEntry_editEntry fun _ => rfl
  rw [hsame, hf, Option.map_some, Option.some.injEq] at hfound
  have hlabel := congrArg LabelEntry.label hfound
  rw [hl] at hlabel
  cases hlabel

/-- A label that can be read is released with its level, if it has one. -/
theorem release_of_legible {s : Scene} {levels : Levels} {held : Option String}
    (hs : s.state = .selinux levels) (hd : heldLevel s.definition = .ok held) :
    ∃ levels', release s = (.ok (), { s with
        state := .selinux levels', definition := s.definition.emptied .selinux }) ∧
      ∀ l, l ∈ levels' ↔ l ∈ levels ∧ ¬Holds s.definition l := by
  obtain ⟨levels', hstate, hmem⟩ := release_levels hs
  have hrelease := release_eq hs hd
  rw [hrelease] at hstate
  refine ⟨levels', ?_, hmem⟩
  rw [hrelease, show s.state.freed s.definition = .selinux levels' from hstate]

end Selinux

namespace Engine

open Selinux

variable {s : Engine} {id : ManagerId} {levels levels' : Levels} {d : Definition}

/-! ### Engines after a request -/

/-- The engine has noted that the manager of contexts was asked. -/
def noted (s : Engine) (id : ManagerId) (op : Operation) : Engine :=
  s.record id .selinux (.operation op)

theorem KeepsLevels.noted (hk : s.KeepsLevels id levels) (op : Operation) :
    (s.noted id op).KeepsLevels id levels := hk

/-- All that the technology can change of the engine is the levels of the manager. -/
theorem edit_contexts (hk : s.KeepsLevels id levels) (op : Operation) (hop : op.edits = true)
    {r : Except Error Unit} {out : Scene}
    (h : Selinux.perform op ⟨model, .selinux levels, s.host, d⟩ = (r, out))
    (hstate : out.state = .selinux levels') (hhost : out.host = s.host) :
    edit id op ⟨s, d⟩ = (r, ⟨(s.noted id op).withLevels id levels', out.definition⟩) := by
  obtain ⟨⟨driver, virtDriver, policy, state⟩, hm, rfl, rfl⟩ := hk
  have hverify : op ≠ .verify := by
    rintro rfl
    cases hop
  have hsingle : Driver.selinux.technology ≠ .stack := by decide
  have hm' : (s.noted id op).manager? id = _ := hm
  rw [edit_of_hooks_none hm (Manager.members?_of_ne hsingle) hverify rfl, withLevels_eq hm']
  change ((Selinux.perform op ⟨model, .selinux levels, s.host, d⟩).1, Stage.leave _ _ _ _
    (Selinux.perform op ⟨model, .selinux levels, s.host, d⟩).2) = _
  rw [h]
  simp only [Stage.leave, Stage.redefine, hop, if_true, hstate, hhost]
  rfl

theorem edit_release_of_illegible (hk : s.KeepsLevels id levels) {err : Error}
    (hd : heldLevel d = .error err) : edit id .release ⟨s, d⟩ =
      (.error err, ⟨s.noted id .release, d.editEntry model ({ · with label := none })⟩) := by
  have hrelease := release_of_illegible (s := ⟨model, .selinux levels, s.host, d⟩) hd
  rw [edit_contexts hk .release rfl hrelease rfl rfl, withLevels_self (hk.noted .release)]

theorem edit_release_of_legible (hk : s.KeepsLevels id levels) {held : Option String}
    (hd : heldLevel d = .ok held) : ∃ levels', edit id .release ⟨s, d⟩ =
        (.ok (), ⟨(s.noted id .release).withLevels id levels', d.emptied .selinux⟩) ∧
      ∀ l, l ∈ levels' ↔ l ∈ levels ∧ ¬Holds d l := by
  obtain ⟨levels', hrelease, hmem⟩ :=
    release_of_legible (s := ⟨model, .selinux levels, s.host, d⟩) rfl hd
  exact ⟨levels', edit_contexts hk .release rfl hrelease rfl rfl, hmem⟩

/-- A release fails exactly if the label of the dynamic entry is no context. Then it frees no level
and keeps all of the definition but the label, which is lost. A release that succeeds takes both
labels from a dynamic entry and frees its level, if it has one. Apart from that, and without a
dynamic entry, all stays as it was. -/
theorem failed_release_loses_label (hk : s.KeepsLevels id levels) (d : Definition) :
    (∀ err, (edit id .release ⟨s, d⟩).1 = .error err ↔
      ∃ e label, d.findEntry model = some e ∧ e.type = .dynamic ∧ e.label = some label ∧
        Context.parse label = .error err) ∧
    (∀ err st, edit id .release ⟨s, d⟩ = (.error err, st) →
      st = ⟨s.noted id .release, d.editEntry model ({ · with label := none })⟩ ∧
        st.definition ≠ d) ∧
    (∀ st, edit id .release ⟨s, d⟩ = (.ok (), st) →
      (∀ e, d.findEntry model = some e → e.type = .dynamic → ∃ levels',
        st = ⟨(s.noted id .release).withLevels id levels',
          d.editEntry model ({ · with label := none, imageLabel := none })⟩ ∧
        ∀ l, l ∈ levels' ↔ l ∈ levels ∧ ¬Holds d l) ∧
      ((∀ e, d.findEntry model = some e → e.type ≠ .dynamic) → st = ⟨s.noted id .release, d⟩)) := by
  cases hd : heldLevel d with
  | error err =>
    have hedit := edit_release_of_illegible hk hd
    refine ⟨fun err' => ?_, ?_, ?_⟩
    · rw [hedit, ← heldLevel_eq_error_iff, hd, Except.error.injEq, Except.error.injEq]
    · rintro _ st h
      obtain ⟨-, rfl⟩ := Prod.mk.inj (hedit.symm.trans h)
      exact ⟨rfl, editEntry_ne_of_illegible hd⟩
    · intro st h
      rw [hedit] at h
      cases h
  | ok held =>
    obtain ⟨levels', hedit, hmem⟩ := edit_release_of_legible hk hd
    refine ⟨fun err => ?_, ?_, ?_⟩
    · rw [hedit, ← heldLevel_eq_error_iff, hd]
      simp
    · intro err st h
      rw [hedit] at h
      cases h
    · intro st h
      obtain ⟨-, rfl⟩ := Prod.mk.inj (hedit.symm.trans h)
      refine ⟨fun e hf ht => ⟨levels', ?_, hmem⟩, fun hne => ?_⟩
      · have hempty : d.emptied .selinux =
            d.editEntry model ({ · with label := none, imageLabel := none }) := by
          refine Definition.editEntry_congr fun e' hf' => ?_
          obtain rfl := Option.some.inj (hf.symm.trans hf')
          exact Technology.emptied_of_makesOnce ⟨.inl rfl, ht⟩
        rw [hempty]
      · -- Nothing is held, so the levels are the same too.
        have hsame : levels' = levels := Std.ExtHashSet.ext_mem fun l => by
          rw [hmem, and_iff_left_iff_imp]
          rintro - ⟨e, label, c, hf, ht, -⟩
          exact hne e hf ht
        rw [hsame, withLevels_self (hk.noted .release),
          Definition.emptied_eq_self fun e hf hmakes => hne e hf hmakes.2]

/-- A guest whose label somebody has overwritten. -/
def garbledGuest : Definition := .guest [{
  model := some "selinux"
  type := .dynamic
  label := some "garbage"
  imageLabel := some "system_u:object_r:svirt_image_t:s0:c0,c1" }]

theorem parse_garbage : Context.parse "garbage" = .error (.invalidLabel model "garbage") := by
  decide

/-- To release it fails, and only the image label is left then. -/
theorem loses_label_garbledGuest :
    edit 0 .release ⟨contextHost, garbledGuest⟩ =
      (.error (.invalidLabel model "garbage"), ⟨contextHost.noted 0 .release, .guest [{
        model := some "selinux"
        type := .dynamic
        imageLabel := some "system_u:object_r:svirt_image_t:s0:c0,c1" }]⟩) := by
  have hk : contextHost.KeepsLevels 0 ∅ := ⟨_, rfl, rfl, rfl⟩
  obtain ⟨hfails, hlost, -⟩ := failed_release_loses_label hk garbledGuest
  have herror := (hfails (.invalidLabel model "garbage")).mpr
    ⟨_, "garbage", rfl, rfl, rfl, parse_garbage⟩
  cases hr : edit 0 .release ⟨contextHost, garbledGuest⟩ with
  | mk r st =>
    rw [hr] at herror
    subst herror
    obtain ⟨rfl, -⟩ := hlost _ st hr
    rfl

/-- A release that fails does not leave the definition as it was. -/
theorem garbled_label_is_lost : ∃ err st,
    edit 0 .release ⟨contextHost, garbledGuest⟩ = (.error err, st) ∧
      st.definition ≠ garbledGuest ∧ contextHost.KeepsLevels 0 ∅ := by
  have hk : contextHost.KeepsLevels 0 ∅ := ⟨_, rfl, rfl, rfl⟩
  have hd : heldLevel garbledGuest = .error (.invalidLabel model "garbage") :=
    heldLevel_eq_error_iff.mpr ⟨_, "garbage", rfl, rfl, rfl, parse_garbage⟩
  exact ⟨_, _, edit_release_of_illegible hk hd, editEntry_ne_of_illegible hd, hk⟩

end Engine

end Confinement

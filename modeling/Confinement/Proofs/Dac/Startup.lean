import Confinement.Proofs.Dac.Reconfiguration

/-!
# The owner of a domain that starts

An entry that is dynamic and has no image label gets both labels from the owner that the manager is
configured with. Whoever reads one of them reads that owner, because a label is read as the owner
that it was written for: the domain's processes run as it, its file systems are mounted for it, and
its resources are given to it.
-/

namespace Confinement

namespace Dac

variable {policy : OwnershipPolicy} {d : Definition} {e : LabelEntry} {owner : Ownership}

/-- Processes run as the owner that the label of the entry was written for. -/
theorem processOwner_of_label (hf : d.findEntry model = some e)
    (hl : e.label = some owner.label) : processOwner policy d = .ok owner := by
  rw [processOwner, hf, Option.bind_some, hl]
  exact Ownership.parse_label owner

/-- Resources are for the owner that the image label was written for. -/
theorem wants_of_imageLabel (hf : d.findEntry model = some e)
    (hi : e.imageLabel = some owner.label) : Wants policy d owner := by
  rw [Wants, hf, Option.bind_some, hi, Option.some_or]
  exact Ownership.parse_label owner

end Dac

namespace Stage

/-- A process that the manager labels for the domain asks for the ids of `owner`. -/
def RunsAs (st : Stage) (id : ManagerId) (owner : Ownership) : Prop :=
  ∃ t, st.engine.perform id .setProcess st.definition =
      ((st.engine.host.switchIds owner).1, t) ∧ t.host = (st.engine.host.switchIds owner).2

/-- A file system that is mounted for the domain belongs to `owner`. -/
def MountsFor (st : Stage) (id : ManagerId) (owner : Ownership) : Prop :=
  (st.engine.ask id .mountOptions st.definition).1 = .ok (some owner.mountOptions)

/-- Every resource that the manager labels for the domain is given to `owner`. -/
def GivesTo (st : Stage) (id : ManagerId) (owner : Ownership) : Prop :=
  ∀ op r, Dac.labelled? op = some r → ∃ t, st.engine.perform id op st.definition =
    ((st.engine.host.give owner r).1, t) ∧ t.host = (st.engine.host.give owner r).2

variable {st : Stage} {id : ManagerId} {policy : OwnershipPolicy} {owner : Ownership}

theorem runsAs_of_processOwner (hk : st.engine.KeepsPolicy id policy)
    (h : Dac.processOwner policy st.definition = .ok owner) : st.RunsAs id owner := by
  have hscene : Dac.perform .setProcess (st.engine.ownerScene policy st.definition) =
      (st.engine.ownerScene policy st.definition).withHost (·.switchIds owner) := by
    simp only [Dac.perform, Engine.ownerScene, Scene.ownership, h, Scene.after_ok]
  obtain ⟨t, hperform, -, hhost⟩ := Engine.perform_owners_of_withHost hk hscene
  exact ⟨t, hperform, hhost⟩

theorem mountsFor_of_processOwner (hk : st.engine.KeepsPolicy id policy)
    (h : Dac.processOwner policy st.definition = .ok owner) : st.MountsFor id owner := by
  rw [MountsFor, Engine.ask_owners hk]
  simp [Dac.answer, Engine.ownerScene, Scene.ownership, h, bind, Except.bind]

theorem givesTo_of_imageOwner (hk : st.engine.KeepsPolicy id policy)
    (h : Dac.imageOwner policy st.definition = .ok (some owner)) : st.GivesTo id owner := by
  intro op r hr
  have hscene : Dac.perform op (st.engine.ownerScene policy st.definition) =
      (st.engine.ownerScene policy st.definition).withHost (·.give owner r) := by
    rw [Dac.perform_of_labelled? hr]
    exact Dac.giveTo_of_some rfl h
  obtain ⟨t, hperform, -, hhost⟩ := Engine.perform_owners_of_withHost hk hscene
  exact ⟨t, hperform, hhost⟩

end Stage

namespace Engine

/-- A label is read as the owner that it was written for. So a manager of owners generates labels
for a dynamic entry without an image label with success, and then the owner that it is configured
with is the one that it finds for processes, that these run as and that file systems are mounted
for. If the manager hands resources over and the entry does not forbid it, it is also the one that
it finds for resources and gives them to. -/
theorem configured_owner_is_used :
    (∀ owner : Ownership, Ownership.parse owner.label = .ok owner) ∧
    ∀ (s : Engine) (id : ManagerId) (policy : OwnershipPolicy) (d : Definition) (e : LabelEntry),
      s.KeepsPolicy id policy → d.findEntry Dac.model = some e → e.type = .dynamic →
      e.imageLabel = none → ∃ st, edit id .generate ⟨s, d⟩ = (.ok (), st) ∧
        st.engine.KeepsPolicy id policy ∧
        Dac.processOwner policy st.definition = .ok policy.owner ∧
        st.RunsAs id policy.owner ∧ st.MountsFor id policy.owner ∧
        (policy.dynamic = true → e.noRelabel = false →
          Dac.imageOwner policy st.definition = .ok (some policy.owner) ∧
            st.GivesTo id policy.owner) := by
  refine ⟨Ownership.parse_label, fun s id policy d e hk hf ht hi => ?_⟩
  have howned : Stage.Owned ⟨s, d⟩ id policy e := ⟨hk, hf, ht⟩
  obtain ⟨st, hedit, hkept, hfound, -⟩ := howned.generate
  have hlabel : (e.ownedBy policy.owner).label = some policy.owner.label := rfl
  have himage : (e.ownedBy policy.owner).imageLabel = some policy.owner.label := by
    rw [LabelEntry.ownedBy, hi]
    rfl
  have hprocess : Dac.processOwner policy st.definition = .ok policy.owner :=
    Dac.processOwner_of_label hfound hlabel
  refine ⟨st, hedit, hkept, hprocess, Stage.runsAs_of_processOwner hkept hprocess,
    Stage.mountsFor_of_processOwner hkept hprocess, fun hd hn => ?_⟩
  have hrelabels : (e.ownedBy policy.owner).relabels = true := by
    simp [LabelEntry.relabels, LabelEntry.ownedBy, hn, ht]
  have hh : Dac.HandsOver policy st.definition :=
    ⟨hd, fun e' he' => by rwa [← Option.some.inj (hfound.symm.trans he')]⟩
  have himages : Dac.imageOwner policy st.definition = .ok (some policy.owner) :=
    (Dac.imageOwner_eq_ok_iff hh).mpr ⟨_, rfl, Dac.wants_of_imageLabel hfound himage⟩
  exact ⟨himages, Stage.givesTo_of_imageOwner hkept himages⟩

/-- The guest starts, its file systems are mounted for 107:107, and its disk is given to this
owner. -/
theorem owner_used_ownedGuest : ∃ st t, edit 0 .generate ⟨imageHost, ownedGuest⟩ = (.ok (), st) ∧
    (st.engine.ask 0 .mountOptions st.definition).1 = .ok (some "uid=107,gid=107") ∧
    st.engine.perform 0 (.setImage imageDisk) st.definition =
      ((st.engine.host.give ⟨107, 107⟩ (.file imageDisk.path)).1, t) := by
  obtain ⟨-, hstart⟩ := configured_owner_is_used
  obtain ⟨st, hedit, -, -, -, hmounts, hresources⟩ :=
    hstart imageHost 0 _ ownedGuest _ keepsPolicy_imageHost rfl rfl rfl
  obtain ⟨-, hgives⟩ := hresources rfl rfl
  obtain ⟨t, hperform, -⟩ := hgives _ _ labelled?_imageDisk
  exact ⟨st, t, hedit, hmounts, hperform⟩

end Engine

end Confinement

import Confinement.Proofs.Dac.Codec
import Confinement.Proofs.Dac.Handover
import Confinement.Proofs.Manager.Opening

/-!
# Managers of owners that are configured anew

The owner of a manager may be changed between two generations for one domain. Every generation
writes the label of the owner that the manager has then. The image label is written by the first one
and stays, also when the domain is released. So processes run as the owner that was configured last,
and images are given to the one that was configured when the first label was generated.
-/

namespace Confinement

namespace Dac

/-- What a manager of owners is asked while it is in use for one domain. -/
inductive Act
  | setOwner (owner : Ownership)
  | setDynamic (dynamic : Bool)
  | generate
  | release
  deriving DecidableEq, Repr

def Act.configure (policy : OwnershipPolicy) : Act → OwnershipPolicy
  | setOwner owner => { policy with owner }
  | setDynamic dynamic => { policy with dynamic }
  | generate => policy
  | release => policy

def configured (policy : OwnershipPolicy) (acts : List Act) : OwnershipPolicy :=
  acts.foldl Act.configure policy

/-- The owner that a request writes labels of, if it writes any. -/
def Act.written? (policy : OwnershipPolicy) : Act → Option Ownership
  | generate => some policy.owner
  | _ => none

/-- The owner that is configured when labels are generated for the first time. -/
def firstOwner? (policy : OwnershipPolicy) : List Act → Option Ownership
  | [] => none
  | act :: acts => (act.written? policy).or (firstOwner? (act.configure policy) acts)

end Dac

namespace Stage

def act (id : ManagerId) (st : Stage) : Dac.Act → Stage
  | .setOwner owner => { st with engine := ((setOwner id owner).eval st.engine).2 }
  | .setDynamic dynamic => { st with engine := ((setDynamicOwnership id dynamic).eval st.engine).2 }
  | .generate => (Engine.edit id .generate st).2
  | .release => (Engine.edit id .release st).2

def actAll (id : ManagerId) (acts : List Dac.Act) (st : Stage) : Stage := acts.foldl (act id) st

/-- The manager keeps a policy, and the first entry for owners is a dynamic one. -/
structure Owned (st : Stage) (id : ManagerId) (policy : OwnershipPolicy) (e : LabelEntry) :
    Prop where
  kept : st.engine.KeepsPolicy id policy
  found : st.definition.findEntry Dac.model = some e
  type : e.type = .dynamic

end Stage

/-- The entry once its labels have been generated for an owner. -/
def LabelEntry.ownedBy (e : LabelEntry) (owner : Ownership) : LabelEntry :=
  e.withLabels (some owner.label) (e.imageLabel.or (some owner.label))

namespace Engine

variable {s : Engine} {id : ManagerId} {policy : OwnershipPolicy}

theorem keepsPolicy_editOwnership (hk : s.KeepsPolicy id policy)
    (f : OwnershipPolicy → OwnershipPolicy) :
    ((editOwnership id f).eval s).2.KeepsPolicy id (f policy) := by
  obtain ⟨m, hm, hd, hs⟩ := hk
  rw [eval_editOwnership hm hs]
  exact ⟨_, manager?_setManager_self hm _, hd, rfl⟩

end Engine

namespace Stage.Owned

open Engine

variable {st : Stage} {id : ManagerId} {policy : OwnershipPolicy} {e : LabelEntry}

/-- A label is generated with success whenever the entry is dynamic. -/
theorem generate (h : st.Owned id policy e) : ∃ st', edit id .generate st = (.ok (), st') ∧
    st'.Owned id policy (e.ownedBy policy.owner) := by
  obtain ⟨s, d⟩ := st
  obtain ⟨t, hedit, hkept, -⟩ := edit_owners h.kept .generate d
  let relabel : LabelEntry → LabelEntry := fun e => e.ownedBy policy.owner
  have hfound : d.findEntry Dac.model = some e := h.found
  have hgenerate : Dac.perform .generate (s.ownerScene policy d) =
      (.ok (), { s.ownerScene policy d with definition := d.editEntry Dac.model relabel }) := by
    simp only [Dac.perform, ownerScene, Scene.ownership, Dac.generate, hfound, h.type,
      Scene.after_ok, Scene.define_ok]
    rfl
  rw [hgenerate] at hedit
  have hrelabelled : (d.editEntry Dac.model relabel).findEntry Dac.model =
      (d.findEntry Dac.model).map relabel := Definition.findEntry_editEntry fun _ => rfl
  rw [hfound, Option.map_some] at hrelabelled
  exact ⟨_, hedit, hkept, hrelabelled, h.type⟩

/-- Only a generation writes labels, and an image label that is there stays. -/
theorem act (h : st.Owned id policy e) (a : Dac.Act) : ∃ e',
    (st.act id a).Owned id (a.configure policy) e' ∧
      e'.imageLabel = e.imageLabel.or ((a.written? policy).map (·.label)) := by
  cases a with
  | setOwner owner =>
    exact ⟨e, ⟨keepsPolicy_editOwnership h.kept _, h.found, h.type⟩, by simp [Dac.Act.written?]⟩
  | setDynamic dynamic =>
    exact ⟨e, ⟨keepsPolicy_editOwnership h.kept _, h.found, h.type⟩, by simp [Dac.Act.written?]⟩
  | generate =>
    obtain ⟨st', hedit, howned⟩ := h.generate
    exact ⟨_, by rw [Stage.act, hedit]; exact howned, rfl⟩
  | release =>
    obtain ⟨t, hedit, hkept, -⟩ := edit_owners h.kept .release st.definition
    have hstage : st.act id .release = ⟨t, st.definition⟩ := congrArg Prod.snd hedit
    exact ⟨e, by rw [hstage]; exact ⟨hkept, h.found, h.type⟩, by simp [Dac.Act.written?]⟩

/-- The image label of all requests is that of the first generation. -/
theorem actAll (h : st.Owned id policy e) (acts : List Dac.Act) : ∃ e',
    (st.actAll id acts).Owned id (Dac.configured policy acts) e' ∧
      e'.imageLabel = e.imageLabel.or ((Dac.firstOwner? policy acts).map (·.label)) := by
  induction acts generalizing st policy e with
  | nil => exact ⟨e, h, by simp [Dac.firstOwner?]⟩
  | cons a acts ih =>
    obtain ⟨e₁, howned, hfirst⟩ := h.act a
    obtain ⟨e₂, howned', hrest⟩ := ih howned
    refine ⟨e₂, howned', ?_⟩
    rw [hrest, hfirst, Option.or_assoc, ← Option.map_or]
    rfl

end Stage.Owned

namespace Engine

variable {s : Engine} {id : ManagerId} {policy : OwnershipPolicy} {d : Definition} {e : LabelEntry}

/-- However a manager is configured and asked in between, the next label for a dynamic entry is
generated with success. The processes then run as the owner that is configured now, but images are
given to the one that was configured when the first label was generated, if the entry had no image
label before. So the two labels are the same only if these owners are. -/
theorem images_go_to_first_owner (hk : s.KeepsPolicy id policy)
    (hf : d.findEntry Dac.model = some e) (ht : e.type = .dynamic) (hi : e.imageLabel = none)
    (acts : List Dac.Act) : ∃ st x current first,
      edit id .generate (Stage.actAll id acts ⟨s, d⟩) = (.ok (), st) ∧
      st.engine.KeepsPolicy id (Dac.configured policy acts) ∧
      current = (Dac.configured policy acts).owner ∧
      first = (Dac.firstOwner? policy acts).getD current ∧
      st.definition.findEntry Dac.model = some x ∧
      x.label = some current.label ∧ x.imageLabel = some first.label ∧
      (x.imageLabel = x.label ↔ first = current) ∧
      Dac.processOwner (Dac.configured policy acts) st.definition = .ok current ∧
      (Dac.HandsOver (Dac.configured policy acts) st.definition →
        Dac.imageOwner (Dac.configured policy acts) st.definition = .ok (some first)) := by
  have howned : Stage.Owned ⟨s, d⟩ id policy e := ⟨hk, hf, ht⟩
  obtain ⟨e', howned', himage⟩ := howned.actAll acts
  obtain ⟨st, hedit, hkept, hfound, -⟩ := howned'.generate
  rw [hi, Option.none_or] at himage
  let current := (Dac.configured policy acts).owner
  let first := (Dac.firstOwner? policy acts).getD current
  have hlabel : (e'.ownedBy current).label = some current.label := rfl
  have hfirst : (e'.ownedBy current).imageLabel = some first.label := by
    change e'.imageLabel.or (some current.label) = some first.label
    rw [himage]
    cases hx : Dac.firstOwner? policy acts <;> simp [first, hx]
  refine ⟨st, e'.ownedBy current, current, first, hedit, hkept, rfl, rfl, hfound, hlabel, hfirst,
    ?_, ?_, fun hh => ?_⟩
  · rw [hfirst, hlabel, Option.some.injEq, Ownership.label_inj]
  · rw [Dac.processOwner, hfound, Option.bind_some, hlabel]
    exact Ownership.parse_label current
  · refine (Dac.imageOwner_eq_ok_iff hh).mpr ⟨first, rfl, ?_⟩
    rw [Dac.Wants, hfound, Option.bind_some, hfirst, Option.some_or]
    exact Ownership.parse_label first

/-- A guest that leaves its owner to the manager. -/
def ownedGuest : Definition := .guest [.supplied "dac" .dynamic]

/-- The guest has run for one owner, and the manager is configured for another. -/
def nextOwner : List Dac.Act := [.generate, .release, .setOwner ⟨108, 108⟩]

/-- Processes of the guest run as the second owner when it starts again, and its images are still
given to the first one. -/
theorem first_owner_ownedGuest : ∃ st x,
    edit 0 .generate (Stage.actAll 0 nextOwner ⟨imageHost, ownedGuest⟩) = (.ok (), st) ∧
      st.definition.findEntry Dac.model = some x ∧
      x.label = some (Ownership.label ⟨108, 108⟩) ∧
      x.imageLabel = some (Ownership.label ⟨107, 107⟩) ∧ x.imageLabel ≠ x.label := by
  obtain ⟨st, x, current, first, hedit, -, rfl, rfl, hfound, hlabel, himage, hsame, -⟩ :=
    images_go_to_first_owner keepsPolicy_imageHost (d := ownedGuest) rfl rfl rfl nextOwner
  exact ⟨st, x, hedit, hfound, hlabel, himage, fun h => absurd (hsame.mp h) (by decide)⟩

/-- The image label does not follow the owner that is configured: the guest came without one, and
after the generation for the second owner it is not the label. -/
theorem image_owner_outlives_configuration : ∃ st x,
    edit 0 .generate (Stage.actAll 0 [.generate, .setOwner ⟨108, 108⟩]
        ⟨imageHost, ownedGuest⟩) = (.ok (), st) ∧
      st.definition.findEntry Dac.model = some x ∧
      x.label = some "+108:+108" ∧ x.imageLabel = some "+107:+107" :=
  ⟨_, _, rfl, rfl, by decide, by decide⟩

end Engine

end Confinement

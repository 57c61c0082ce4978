import Confinement.Manager.Resources
import Confinement.Proofs.Generation.Turns
import Confinement.Proofs.Host.Owners

/-!
# Requests to a manager of owners

Such a manager keeps its policy, whatever it is asked. If resources are handed over at all, an
operation that labels a resource gives it to the owner that the domain wants, and an operation that
restores one gives it to the host. Where they are not handed over no file has another owner after
any operation.
-/

namespace Confinement

namespace Dac

variable {s : Scene} {policy : OwnershipPolicy} {d : Definition} {op : Operation} {r : Resource}
  {owner : Ownership}

/-- What an operation is to give to the owner of the domain. -/
def labelled? : Operation → Option Resource
  | .setImage disk => if disk.noRelabel then none else some (.file disk.path)
  | .setDevice device root => some (.file (device.pathIn root))
  | .setSavedState path => some (.file path)
  | .setOpenImage descriptor => some (.descriptor descriptor)
  | .setOpenTap descriptor => some (.descriptor descriptor)
  | _ => none

/-- The file that an operation is to give back to the host. -/
def restored? : Operation → Option Path
  | .restoreImage disk => if disk.readOnly || disk.noRelabel then none else some disk.path
  | .restoreDevice device root => some (device.pathIn root)
  | .restoreSavedState path => some path
  | _ => none

/-- The resources of the domain are handed over. -/
structure HandsOver (policy : OwnershipPolicy) (d : Definition) : Prop where
  dynamic : policy.dynamic = true
  relabels : ∀ e, d.findEntry model = some e → e.relabels = true

/-- The owner that the domain wants for its resources: the one of the image label, else the one of
the label, else the one of the manager. -/
def Wants (policy : OwnershipPolicy) (d : Definition) (owner : Ownership) : Prop :=
  match (d.findEntry model).bind fun e => e.imageLabel.or e.label with
  | some text => Ownership.parse text = .ok owner
  | none => owner = policy.owner

theorem restores_eq_true_iff : restores policy d = true ↔ HandsOver policy d := by
  have hiff : HandsOver policy d ↔
      policy.dynamic = true ∧ ∀ e, d.findEntry model = some e → e.relabels = true :=
    ⟨fun h => ⟨h.dynamic, h.relabels⟩, fun h => ⟨h.1, h.2⟩⟩
  rw [hiff, restores]
  cases d.findEntry model <;> simp

theorem imageOwner_of_not_handsOver (h : ¬HandsOver policy d) : imageOwner policy d = .ok none := by
  rw [← restores_eq_true_iff, restores] at h
  unfold imageOwner
  cases hd : policy.dynamic with
  | false => simp
  | true =>
    cases hf : d.findEntry model with
    | none => simp [hd, hf] at h
    | some e =>
      have hr : e.relabels = false := by simpa [hd, hf] using h
      simp [hr]

/-- A domain whose resources are handed over wants one owner, or its label cannot be read. -/
theorem imageOwner_eq_ok_iff (h : HandsOver policy d) {o : Option Ownership} :
    imageOwner policy d = .ok o ↔ ∃ owner, o = some owner ∧ Wants policy d owner := by
  unfold imageOwner Wants
  simp only [h.dynamic, Bool.true_eq_false, if_false]
  cases hf : d.findEntry model with
  | none => simp [eq_comm]
  | some e =>
    simp only [h.relabels e hf, if_true, entryOwner, Option.bind_some]
    cases e.imageLabel.or e.label with
    | none => simp [Except.map, eq_comm]
    | some text => simp [map_eq_ok_iff, and_comm, @eq_comm _ o]

/-! ### One operation -/

/-- Gives a resource to whom `choose` names, if it names anyone. -/
def giveTo (choose : OwnershipPolicy → Definition → Except Error (Option Ownership))
    (f : Ownership → Host → Except Error Unit × Host) (s : Scene) : Except Error Unit × Scene :=
  s.after s.ownership fun policy =>
    s.after (choose policy s.definition) fun
      | some owner => s.withHost (f owner)
      | none => s.done

/-- Whom a resource goes back to. -/
def restored (policy : OwnershipPolicy) (d : Definition) : Except Error (Option Ownership) :=
  .ok (if restores policy d then some .root else none)

theorem restorePath_eq (s : Scene) (path : Path) :
    restorePath s path = giveTo restored (fun owner h => h.chown path owner) s := by
  unfold restorePath giveTo restored
  cases s.ownership with
  | error e => rfl
  | ok policy =>
    simp only [Scene.after_ok]
    split <;> rfl

section

variable {choose : OwnershipPolicy → Definition → Except Error (Option Ownership)}
  {f : Ownership → Host → Except Error Unit × Host}

theorem giveTo_of_some (hs : s.state = .dac policy)
    (hc : choose policy s.definition = .ok (some owner)) :
    giveTo choose f s = s.withHost (f owner) := by
  simp [giveTo, Scene.ownership_eq_ok_iff.mpr hs, hc]

theorem giveTo_of_none (hs : s.state = .dac policy) (hc : choose policy s.definition = .ok none) :
    giveTo choose f s = s.done := by
  simp [giveTo, Scene.ownership_eq_ok_iff.mpr hs, hc]

theorem giveTo_of_error (hs : s.state = .dac policy) {e : Error}
    (hc : choose policy s.definition = .error e) : giveTo choose f s = (.error e, s) := by
  simp [giveTo, Scene.ownership_eq_ok_iff.mpr hs, hc]

end

/-- To label a resource is to give it to the owner that is wanted. -/
theorem perform_of_labelled? (h : labelled? op = some r) (s : Scene) :
    perform op s = giveTo imageOwner (fun owner h => h.give owner r) s := by
  cases op with
  | setImage disk =>
    simp only [labelled?] at h
    split at h
    · cases h
    · rename_i hlabelled
      obtain rfl := Option.some.inj h
      simp only [perform, hlabelled, Bool.false_eq_true, if_false]
      rfl
  | setDevice | setSavedState | setOpenImage | setOpenTap =>
    obtain rfl := Option.some.inj h
    rfl
  | _ => cases h

/-- To restore a file is to give it to the host. -/
theorem perform_of_restored? {p : Path} (h : restored? op = some p) (s : Scene) :
    perform op s = giveTo restored (fun owner h => h.chown p owner) s := by
  cases op with
  | restoreImage disk =>
    simp only [restored?] at h
    split at h
    · cases h
    · rename_i hlabelled
      obtain rfl := Option.some.inj h
      simp only [perform, hlabelled, Bool.false_eq_true, if_false, restorePath_eq]
  | restoreDevice | restoreSavedState =>
    obtain rfl := Option.some.inj h
    simp only [perform, restorePath_eq]
  | _ => cases h

/-- Nothing is done about disks that are exempt. -/
theorem perform_setImage_of_none {disk : Disk} (h : labelled? (.setImage disk) = none) (s : Scene) :
    perform (.setImage disk) s = s.done := by
  have hskipped : disk.noRelabel = true := by simpa [labelled?] using h
  simp only [perform, hskipped, if_true]

/-- Nothing is done about disks that are not to be restored. -/
theorem perform_restoreImage_of_none {disk : Disk} (h : restored? (.restoreImage disk) = none)
    (s : Scene) : perform (.restoreImage disk) s = s.done := by
  have hskipped : (disk.readOnly || disk.noRelabel) = true := by
    by_contra hkept
    simp [restored?, hkept] at h
  simp only [perform, hskipped, if_true]

/-- To take other ids changes the ids of the process. -/
theorem switchIds_snd (h : Host) (o : Ownership) :
    ∃ credentials, (h.switchIds o).2 = { h with credentials } := by
  unfold Host.switchIds
  split
  · exact ⟨h.credentials, rfl⟩
  · split
    · exact ⟨_, rfl⟩
    · exact ⟨_, rfl⟩

/-- What neither labels nor restores changes at most the ids of the process and the definition. -/
theorem perform_of_none (hl : labelled? op = none) (hr : restored? op = none) (s : Scene) :
    ∃ credentials definition, (perform op s).2 =
      { s with host := { s.host with credentials }, definition } := by
  cases op with
  | generate =>
    simp only [perform]
    cases s.ownership with
    | error e => exact ⟨_, _, rfl⟩
    | ok policy =>
      simp only [Scene.after_ok]
      cases generate policy s.definition <;> exact ⟨_, _, rfl⟩
  | setProcess =>
    simp only [perform]
    cases s.ownership with
    | error e => exact ⟨_, _, rfl⟩
    | ok policy =>
      simp only [Scene.after_ok]
      cases processOwner policy s.definition with
      | error e => exact ⟨_, _, rfl⟩
      | ok owner =>
        obtain ⟨credentials, hids⟩ := switchIds_snd s.host owner
        exact ⟨credentials, s.definition, by simp only [Scene.after_ok, Scene.withHost, hids]⟩
  | setImage disk =>
    rw [perform_setImage_of_none hl]
    exact ⟨_, _, rfl⟩
  | restoreImage disk =>
    rw [perform_restoreImage_of_none hr]
    exact ⟨_, _, rfl⟩
  | setDevice | setSavedState | setOpenImage | setOpenTap => cases hl
  | restoreDevice | restoreSavedState => cases hr
  | _ => exact ⟨_, _, rfl⟩

theorem state_giveTo (choose : OwnershipPolicy → Definition → Except Error (Option Ownership))
    (f : Ownership → Host → Except Error Unit × Host) (s : Scene) :
    (giveTo choose f s).2.state = s.state := by
  unfold giveTo
  cases s.ownership with
  | error e => rfl
  | ok policy =>
    simp only [Scene.after_ok]
    cases choose policy s.definition with
    | error e => rfl
    | ok o => cases o <;> rfl

/-- No operation changes the policy. -/
theorem state_perform (op : Operation) (s : Scene) : (perform op s).2.state = s.state := by
  cases hl : labelled? op with
  | some r => rw [perform_of_labelled? hl, state_giveTo]
  | none =>
    cases hr : restored? op with
    | some p => rw [perform_of_restored? hr, state_giveTo]
    | none =>
      obtain ⟨credentials, definition, hout⟩ := perform_of_none hl hr s
      rw [hout]

/-- Where resources are not handed over no owner changes. -/
theorem owners_perform_of_not_handsOver (hs : s.state = .dac policy)
    (h : ¬HandsOver policy s.definition) (op : Operation) :
    (perform op s).2.host.files = s.host.files ∧
      (perform op s).2.host.descriptors = s.host.descriptors := by
  have hrestored : restored policy s.definition = .ok none := by
    rw [restored, if_neg fun hr => h (restores_eq_true_iff.mp hr)]
  cases hl : labelled? op with
  | some r =>
    rw [perform_of_labelled? hl, giveTo_of_none hs (imageOwner_of_not_handsOver h)]
    exact ⟨rfl, rfl⟩
  | none =>
    cases hr : restored? op with
    | some p =>
      rw [perform_of_restored? hr, giveTo_of_none hs hrestored]
      exact ⟨rfl, rfl⟩
    | none =>
      obtain ⟨credentials, definition, hout⟩ := perform_of_none hl hr s
      rw [hout]
      exact ⟨rfl, rfl⟩

end Dac

namespace Engine

variable {s : Engine} {id : ManagerId} {policy : OwnershipPolicy}

/-! ### Operations of managers -/

/-- A manager of owners, with the policy that it keeps. -/
def KeepsPolicy (s : Engine) (id : ManagerId) (policy : OwnershipPolicy) : Prop :=
  ∃ m, s.manager? id = some m ∧ m.driver = .dac ∧ m.state = .dac policy

/-- What the manager works on for a domain. -/
def ownerScene (s : Engine) (policy : OwnershipPolicy) (d : Definition) : Scene :=
  ⟨Dac.model, .dac policy, s.host, d⟩

/-- The manager does what its technology does, and keeps its policy. -/
theorem edit_owners (hk : s.KeepsPolicy id policy) (op : Operation) (d : Definition) :
    ∃ t, edit id op ⟨s, d⟩ = ((Dac.perform op (s.ownerScene policy d)).1,
        ⟨t, if op.edits then (Dac.perform op (s.ownerScene policy d)).2.definition else d⟩) ∧
      t.KeepsPolicy id policy ∧ t.host = (Dac.perform op (s.ownerScene policy d)).2.host := by
  obtain ⟨⟨driver, virtDriver, flags, state⟩, hm, rfl, rfl⟩ := hk
  have hworks : Driver.dac ∈ Driver.workers := by simp [Driver.workers]
  have hperform : Driver.dac.technology.perform op ⟨Driver.dac.name, .dac policy, s.host, d⟩ =
    Dac.perform op (s.ownerScene policy d) := rfl
  obtain ⟨t, hedit, ht, hhost⟩ := edit_worker hm hworks hperform
  refine ⟨t, hedit, ⟨_, by rw [ht, Function.update_self], rfl, ?_⟩, hhost⟩
  exact Dac.state_perform op (s.ownerScene policy d)

theorem perform_owners (hk : s.KeepsPolicy id policy) (op : Operation) (d : Definition) :
    ∃ t, s.perform id op d = ((Dac.perform op (s.ownerScene policy d)).1, t) ∧
      t.KeepsPolicy id policy ∧ t.host = (Dac.perform op (s.ownerScene policy d)).2.host := by
  obtain ⟨t, hedit, ht⟩ := edit_owners hk op d
  refine ⟨t, ?_, ht⟩
  have hperform : s.perform id op d =
      ((edit id op ⟨s, d⟩).1, (edit id op ⟨s, d⟩).2.engine) := rfl
  rw [hperform, hedit]

/-- What works on the host alone is done to the host that the manager has. -/
theorem perform_owners_of_withHost (hk : s.KeepsPolicy id policy) {op : Operation} {d : Definition}
    {f : Host → Except Error Unit × Host}
    (h : Dac.perform op (s.ownerScene policy d) = (s.ownerScene policy d).withHost f) :
    ∃ t, s.perform id op d = ((f s.host).1, t) ∧ t.KeepsPolicy id policy ∧
      t.host = (f s.host).2 := by
  obtain ⟨t, hperform, hkept, hhost⟩ := perform_owners hk op d
  rw [h] at hperform hhost
  exact ⟨t, hperform, hkept, hhost⟩

theorem ask_owners (hk : s.KeepsPolicy id policy) (q : Question) (d : Definition) :
    (s.ask id q d).1 = Dac.answer q (s.ownerScene policy d) := by
  obtain ⟨⟨driver, virtDriver, flags, state⟩, hm, rfl, rfl⟩ := hk
  exact ask_worker hm (by simp [Driver.workers]) q d

end Engine

end Confinement

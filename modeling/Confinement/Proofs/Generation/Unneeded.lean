import Confinement.Proofs.Dac.Requests
import Confinement.Proofs.Selinux.Outcomes

/-!
# Entries that confine nothing

A generation adds an entry that confines nothing only if there are no other entries, and a domain
without the entry is treated by most drivers just as one with it. Ownership is the exception: where
resources are handed over to their domain's owner, a domain without an entry of owners is handed
them too, and one whose entry confines nothing is not.
-/

namespace Confinement

/-- The entry that is made up for a model when the policy leaves domains unconfined. -/
def LabelEntry.unneeded (model : String) : LabelEntry :=
  { model := some model, type := .unconfined, implicit := true, noRelabel := true }

namespace LabelEntry

@[simp] theorem type_unneeded (model : String) : (unneeded model).type = .unconfined := rfl

@[simp] theorem relabels_unneeded (model : String) : (unneeded model).relabels = false := rfl

end LabelEntry

/-! ### Drivers that find the entry, or none -/

theorem Definition.findEntry_addEntry_unneeded {d : Definition} {model : String}
    (hn : d.findEntry model = none) :
    (d.addEntry (.unneeded model)).findEntry model = some (.unneeded model) := by
  rw [findEntry_addEntry, hn]
  simp [LabelEntry.unneeded]

/-- The scene with one more entry in the definition. -/
def Scene.addEntry (s : Scene) (e : LabelEntry) : Scene :=
  { s with definition := s.definition.addEntry e }

section Technologies

variable {s : Scene}

/-- Contexts are for confined domains, and only dynamic ones are taken back. -/
theorem Selinux.perform_addEntry (hn : s.findEntry model = none) (op : Operation) :
    perform op (s.addEntry (.unneeded model)) =
      ((perform op s).1, (perform op s).2.addEntry (.unneeded model)) := by
  have hu : (s.addEntry (.unneeded model)).findEntry model = some (.unneeded model) :=
    Definition.findEntry_addEntry_unneeded hn
  have hn' : s.definition.findEntry model = none := hn
  have hu' : (s.addEntry (.unneeded model)).definition.findEntry model = some (.unneeded model) :=
    hu
  have hleft : LeavesAlone s.definition := leavesAlone_of_forall fun e he => by
    cases hn'.symm.trans he
  have hleft' : LeavesAlone (s.addEntry (.unneeded model)).definition :=
    leavesAlone_of_forall fun e he => by
      obtain rfl := Option.some.inj (hu'.symm.trans he)
      rfl
  cases op with
  | generate =>
    simp only [perform, generate, hn, hu, LabelEntry.type_unneeded, Scene.after_ok]
  | release =>
    simp only [perform, release, hn, hu, LabelEntry.type_unneeded]
    rfl
  | reserve pid =>
    simp only [perform, reserve, hn, hu]
    rfl
  | verify =>
    simp only [perform, verify, hn', hu']
    rfl
  | _ =>
    rw [perform_of_leavesAlone hleft rfl, perform_of_leavesAlone hleft' rfl]
    rfl

theorem Selinux.answer_addEntry (hn : s.findEntry model = none) (q : Question) :
    answer q (s.addEntry (.unneeded model)) = answer q s := by
  have hu : (s.addEntry (.unneeded model)).definition.findEntry model = some (.unneeded model) :=
    Definition.findEntry_addEntry_unneeded hn
  have hn : s.definition.findEntry model = none := hn
  cases q with
  | mountOptions =>
    simp only [answer, mountOptions, hn, hu]
    rfl
  | _ => rfl

/-- Rules are changed without a look at the entries. -/
theorem AppArmor.editRules_addEntry (s : Scene) (e : LabelEntry) (f : Rules → Rules) :
    editRules (s.addEntry e) f = ((editRules s f).1, (editRules s f).2.addEntry e) := by
  have hrules : (s.addEntry e).rules = s.rules := rfl
  unfold editRules
  rw [hrules]
  cases s.rules <;> rfl

/-- No rules are made for domains that are not confined. -/
theorem AppArmor.grant_addEntry (hn : s.findEntry model = none) (path : Path) (access : Access) :
    grant (s.addEntry (.unneeded model)) path access =
      ((grant s path access).1, (grant s path access).2.addEntry (.unneeded model)) := by
  have hu : (s.addEntry (.unneeded model)).findEntry model = some (.unneeded model) :=
    Definition.findEntry_addEntry_unneeded hn
  simp only [grant, hn, hu, Option.any_none, Option.any_some, LabelEntry.relabels_unneeded]
  rfl

/-- Profiles and rules are for confined domains. Rules are dropped for any. -/
theorem AppArmor.perform_addEntry (hn : s.findEntry model = none) (op : Operation) :
    perform op (s.addEntry (.unneeded model)) =
      ((perform op s).1, (perform op s).2.addEntry (.unneeded model)) := by
  have hu : (s.addEntry (.unneeded model)).findEntry model = some (.unneeded model) :=
    Definition.findEntry_addEntry_unneeded hn
  have hn' : s.definition.findEntry model = none := hn
  have hu' : (s.addEntry (.unneeded model)).definition.findEntry model = some (.unneeded model) :=
    hu
  cases op with
  | generate =>
    simp only [perform, generate, hn', hu']
    rfl
  | release =>
    have hrules : (s.addEntry (.unneeded model)).rules = s.rules := rfl
    have hkept : unlabelled (s.addEntry (.unneeded model)).definition =
        (s.addEntry (.unneeded model)).definition := by
      refine Definition.editEntry_self fun e he => ?_
      obtain rfl := Option.some.inj (hu'.symm.trans he)
      rfl
    have hkept' : unlabelled s.definition = s.definition := Definition.editEntry_of_none hn' _
    simp only [perform, hrules, hkept, hkept']
    cases s.rules <;> rfl
  | verify =>
    simp only [perform, verify, hn', hu']
    rfl
  | setProcess =>
    simp only [perform, setProcess, hn, hu]
    rfl
  | setImage disk =>
    simp only [perform]
    split
    · rfl
    · exact grant_addEntry hn ..
  | restoreImage disk => exact editRules_addEntry ..
  | setDevice device root => exact grant_addEntry hn ..
  | restoreDevice device root => exact editRules_addEntry ..
  | setSavedState path => exact grant_addEntry hn ..
  | restoreSavedState path => exact editRules_addEntry ..
  | setOpenImage descriptor | setOpenTap descriptor =>
    have hhost : (s.addEntry (.unneeded model)).host = s.host := rfl
    simp only [perform, hhost]
    cases s.host.descriptorPath descriptor with
    | error e => rfl
    | ok path => exact grant_addEntry hn ..
  | _ => rfl

theorem AppArmor.answer_addEntry (q : Question) (e : LabelEntry) :
    answer q (s.addEntry e) = answer q s := by
  cases q <;> rfl

/-- What an operation of a manager of owners does to the host for a domain that brings no owner, if
it hands anything over. -/
def Dac.handover (owner : Ownership) : Operation → Option (Host → Except Error Unit × Host)
  | .setImage disk => if disk.noRelabel then none else some (·.chown disk.path owner)
  | .restoreImage disk =>
    if disk.readOnly || disk.noRelabel then none else some (·.chown disk.path .root)
  | .setDevice device root => some (·.chown (device.pathIn root) owner)
  | .restoreDevice device root => some (·.chown (device.pathIn root) .root)
  | .setSavedState path => some (·.chown path owner)
  | .restoreSavedState path => some (·.chown path .root)
  | .setOpenImage descriptor => some (·.chownOpen descriptor owner)
  | .setOpenTap descriptor => some (·.chownOpen descriptor owner)
  | _ => none

namespace Dac

variable {policy : OwnershipPolicy} {op : Operation}

/-- For a domain without an entry the policy alone names someone, and for a domain whose entry
confines nothing no one is named. -/
structure Discerns (choose : OwnershipPolicy → Definition → Except Error (Option Ownership))
    (owner : OwnershipPolicy → Ownership) : Prop where
  missing : ∀ policy d, d.findEntry model = none →
    choose policy d = .ok (if policy.dynamic then some (owner policy) else none)
  unneeded : ∀ policy d, d.findEntry model = some (.unneeded model) → choose policy d = .ok none

theorem discerns_imageOwner : Discerns imageOwner (·.owner) where
  missing policy d hn := by cases hd : policy.dynamic <;> simp [imageOwner, hd, hn]
  unneeded policy d hu := by cases hd : policy.dynamic <;> simp [imageOwner, hd, hu]

theorem discerns_restored : Discerns restored fun _ => .root where
  missing policy d hn := by cases hd : policy.dynamic <;> simp [restored, restores, hd, hn]
  unneeded policy d hu := by simp [restored, restores, hu]

variable {choose : OwnershipPolicy → Definition → Except Error (Option Ownership)}
  {owner : OwnershipPolicy → Ownership} {f : Ownership → Host → Except Error Unit × Host}

theorem giveTo_of_dynamic (h : Discerns choose owner) (hn : s.findEntry model = none)
    (hs : s.state = .dac policy) (hd : policy.dynamic = true) :
    giveTo choose f s = s.withHost (f (owner policy)) ∧
      giveTo choose f (s.addEntry (.unneeded model)) = (s.addEntry (.unneeded model)).done := by
  have ho : s.ownership = .ok policy := Scene.ownership_eq_ok_iff.mpr hs
  have ho' : (s.addEntry (.unneeded model)).ownership = .ok policy := ho
  have hu : choose policy (s.addEntry (.unneeded model)).definition = .ok none :=
    h.unneeded policy _ (Definition.findEntry_addEntry_unneeded hn)
  constructor
  · simp [giveTo, ho, h.missing policy s.definition hn, hd]
  · simp only [giveTo, ho', hu, Scene.after_ok]

theorem giveTo_of_still (h : Discerns choose owner) (hn : s.findEntry model = none)
    (hstill : ∀ policy, s.state = .dac policy → policy.dynamic = false) :
    giveTo choose f (s.addEntry (.unneeded model)) =
      ((giveTo choose f s).1, (giveTo choose f s).2.addEntry (.unneeded model)) := by
  have howner : (s.addEntry (.unneeded model)).ownership = s.ownership := rfl
  unfold giveTo
  rw [howner]
  cases ho : s.ownership with
  | error e => rfl
  | ok policy =>
    have hd := hstill policy (Scene.ownership_eq_ok_iff.mp ho)
    have hu : choose policy (s.addEntry (.unneeded model)).definition = .ok none :=
      h.unneeded policy _ (Definition.findEntry_addEntry_unneeded hn)
    simp only [Scene.after_ok, h.missing policy s.definition hn, hu, hd, Bool.false_eq_true,
      if_false]
    rfl

/-- What is handed over is what is labelled or restored. -/
theorem handover_eq (owner : Ownership) (op : Operation) : handover owner op =
    match labelled? op with
    | some r => some fun h => h.give owner r
    | none => (restored? op).map fun p h => h.chown p .root := by
  cases op with
  | setImage disk =>
    simp only [handover, labelled?]
    split <;> rfl
  | restoreImage disk =>
    simp only [handover, labelled?, restored?]
    split <;> rfl
  | _ => rfl

/-- Whatever is handed over is so for a domain without an entry, and not for one with the entry. -/
theorem perform_of_handover (hn : s.findEntry model = none) (hs : s.state = .dac policy)
    (hd : policy.dynamic = true) {f : Host → Except Error Unit × Host}
    (hf : handover policy.owner op = some f) :
    perform op s = s.withHost f ∧
      perform op (s.addEntry (.unneeded model)) = (s.addEntry (.unneeded model)).done := by
  rw [handover_eq] at hf
  cases hlabelled : labelled? op with
  | some r =>
    rw [hlabelled] at hf
    obtain rfl := Option.some.inj hf
    rw [perform_of_labelled? hlabelled, perform_of_labelled? hlabelled]
    exact giveTo_of_dynamic discerns_imageOwner hn hs hd
  | none =>
    rw [hlabelled] at hf
    obtain ⟨p, hrestored, rfl⟩ := Option.map_eq_some_iff.mp hf
    rw [perform_of_restored? hrestored, perform_of_restored? hrestored]
    exact giveTo_of_dynamic discerns_restored hn hs hd

/-- Where nothing is handed over the entry makes no difference. -/
theorem perform_addEntry (hn : s.findEntry model = none)
    (hop : ∀ policy, s.state = .dac policy → policy.dynamic = true →
      handover policy.owner op = none) :
    perform op (s.addEntry (.unneeded model)) =
      ((perform op s).1, (perform op s).2.addEntry (.unneeded model)) := by
  have hn' : s.definition.findEntry model = none := hn
  have hu : (s.addEntry (.unneeded model)).definition.findEntry model = some (.unneeded model) :=
    Definition.findEntry_addEntry_unneeded hn
  have howner : (s.addEntry (.unneeded model)).ownership = s.ownership := rfl
  have hstill : (∀ owner, handover owner op ≠ none) →
      ∀ policy, s.state = .dac policy → policy.dynamic = false := by
    intro hhands policy hs
    rw [Bool.eq_false_iff]
    exact fun hd => hhands policy.owner (hop policy hs hd)
  cases hlabelled : labelled? op with
  | some r =>
    rw [perform_of_labelled? hlabelled, perform_of_labelled? hlabelled]
    exact giveTo_of_still discerns_imageOwner hn (hstill (by simp [handover_eq, hlabelled]))
  | none =>
    cases hrestored : restored? op with
    | some p =>
      rw [perform_of_restored? hrestored, perform_of_restored? hrestored]
      exact giveTo_of_still discerns_restored hn
        (hstill (by simp [handover_eq, hlabelled, hrestored]))
    | none =>
      cases op with
      | generate =>
        simp only [perform, howner]
        cases s.ownership with
        | error e => rfl
        | ok policy =>
          simp only [Scene.after_ok, generate, hn', hu]
          rfl
      | verify =>
        simp only [perform, verify, hn', hu]
        rfl
      | setProcess =>
        simp only [perform, howner]
        cases s.ownership with
        | error e => rfl
        | ok policy =>
          simp only [Scene.after_ok, processOwner, hn', hu]
          rfl
      | setImage disk =>
        rw [perform_setImage_of_none hlabelled, perform_setImage_of_none hlabelled]
        rfl
      | restoreImage disk =>
        rw [perform_restoreImage_of_none hrestored, perform_restoreImage_of_none hrestored]
        rfl
      | setDevice | setSavedState | setOpenImage | setOpenTap => cases hlabelled
      | restoreDevice | restoreSavedState => cases hrestored
      | _ => rfl

theorem answer_addEntry (hn : s.findEntry model = none) (q : Question) :
    answer q (s.addEntry (.unneeded model)) = answer q s := by
  have hn' : s.definition.findEntry model = none := hn
  have hu : (s.addEntry (.unneeded model)).definition.findEntry model = some (.unneeded model) :=
    Definition.findEntry_addEntry_unneeded hn
  cases q with
  | mountOptions =>
    have howner : (s.addEntry (.unneeded model)).ownership = s.ownership := rfl
    simp only [answer, howner, processOwner, hn', hu]
    rfl
  | _ => rfl

end Dac

end Technologies

/-! ### Managers that are asked about the domain -/

/-- What an operation of the manager hands over for a domain that brings no owner, if it hands
anything over. -/
def Manager.handover (m : Manager) (op : Operation) : Option (Host → Except Error Unit × Host) :=
  match m.driver.technology, m.state with
  | .dac, .dac policy => if policy.dynamic then Dac.handover policy.owner op else none
  | _, _ => none

namespace Manager

variable {m : Manager} {s : Scene} {op : Operation}

/-- What hands nothing over does the same with the entry and without it. -/
theorem perform_addEntry (hw : m.driver ∈ Driver.workers) (hs : s.state = m.state)
    (hn : s.findEntry m.driver.name = none) (hop : m.handover op = none) :
    m.driver.technology.perform op (s.addEntry (.unneeded m.driver.name)) =
      ((m.driver.technology.perform op s).1,
        (m.driver.technology.perform op s).2.addEntry (.unneeded m.driver.name)) := by
  obtain ⟨driver, virtDriver, policy, state⟩ := m
  simp only [Driver.workers, List.mem_cons, List.not_mem_nil, or_false] at hw
  rcases hw with rfl | rfl | rfl | rfl
  · exact Selinux.perform_addEntry hn op
  · exact AppArmor.perform_addEntry hn op
  · refine Dac.perform_addEntry hn fun owners howners hd => ?_
    obtain rfl : state = .dac owners := hs.symm.trans howners
    simpa [handover, Driver.dac, hd] using hop
  · rfl

/-- What hands something over does so without the entry, and does nothing with it. -/
theorem perform_of_handover (hw : m.driver ∈ Driver.workers) (hs : s.state = m.state)
    (hn : s.findEntry m.driver.name = none) {f : Host → Except Error Unit × Host}
    (hop : m.handover op = some f) :
    m.driver.technology.perform op s = s.withHost f ∧
      m.driver.technology.perform op (s.addEntry (.unneeded m.driver.name)) =
        (s.addEntry (.unneeded m.driver.name)).done := by
  obtain ⟨driver, virtDriver, policy, state⟩ := m
  simp only [Driver.workers, List.mem_cons, List.not_mem_nil, or_false] at hw
  rcases hw with rfl | rfl | rfl | rfl
  · cases hop
  · cases hop
  · cases state with
    | dac owners =>
      cases hd : owners.dynamic with
      | false => simp [handover, Driver.dac, hd] at hop
      | true =>
        have hf : Dac.handover owners.owner op = some f := by
          simpa [handover, Driver.dac, hd] using hop
        exact Dac.perform_of_handover hn hs hd hf
    | _ => cases hop
  · cases hop

theorem answer_addEntry (hw : m.driver ∈ Driver.workers)
    (hn : s.findEntry m.driver.name = none) (q : Question) :
    m.driver.technology.answer q (s.addEntry (.unneeded m.driver.name)) =
      m.driver.technology.answer q s := by
  obtain ⟨driver, virtDriver, policy, state⟩ := m
  simp only [Driver.workers, List.mem_cons, List.not_mem_nil, or_false] at hw
  rcases hw with rfl | rfl | rfl | rfl
  · exact Selinux.answer_addEntry hn q
  · exact AppArmor.answer_addEntry q _
  · exact Dac.answer_addEntry hn q
  · rfl

end Manager

namespace Engine

variable {s : Engine} {id : ManagerId} {m : Manager} {d : Definition}

/-- A domain without an entry of the manager's model is treated as one with an entry that confines
nothing, except that its resources are handed over where owners are set. -/
theorem unneeded_entry_only_prevents_handover (hm : s.manager? id = some m)
    (hw : m.driver ∈ Driver.workers) (hn : d.findEntry m.driver.name = none) :
    (∀ q, (s.ask id q (d.addEntry (.unneeded m.driver.name))).1 = (s.ask id q d).1) ∧
    (∀ op, m.handover op = none → ∃ r d' t t', edit id op ⟨s, d⟩ = (r, ⟨t, d'⟩) ∧
      edit id op ⟨s, d.addEntry (.unneeded m.driver.name)⟩ =
        (r, ⟨t', d'.addEntry (.unneeded m.driver.name)⟩) ∧
      t'.host = t.host ∧ ∀ n, t'.manager? n = t.manager? n) ∧
    ∀ op f, m.handover op = some f → ∃ t t', edit id op ⟨s, d⟩ = ((f s.host).1, ⟨t, d⟩) ∧
      t.host = (f s.host).2 ∧ (∀ n, t.manager? n = s.manager? n) ∧
      edit id op ⟨s, d.addEntry (.unneeded m.driver.name)⟩ =
        (.ok (), ⟨t', d.addEntry (.unneeded m.driver.name)⟩) ∧
      t'.host = s.host ∧ ∀ n, t'.manager? n = s.manager? n := by
  let sc : Scene := ⟨m.driver.name, m.state, s.host, d⟩
  have hself : Function.update s.manager? id (some { m with state := m.state }) = s.manager? := by
    rw [← hm, Function.update_eq_self]
  refine ⟨fun q => ?_, fun op hop => ?_, fun op f hop => ?_⟩
  · rw [ask_worker hm hw, ask_worker hm hw]
    exact Manager.answer_addEntry (s := sc) hw hn q
  · rcases hp : m.driver.technology.perform op sc with ⟨r, out⟩
    have hadded := Manager.perform_addEntry (s := sc) hw rfl hn hop
    rw [hp] at hadded
    obtain ⟨t, hedit, ht, hhost⟩ := edit_worker hm hw hp
    obtain ⟨t', hedit', ht', hhost'⟩ := edit_worker hm hw hadded
    refine ⟨r, if op.edits then out.definition else d, t, t', hedit, ?_, hhost'.trans hhost.symm,
      fun n => by rw [ht', ht]; rfl⟩
    rw [hedit']
    cases op.edits <;> rfl
  · obtain ⟨hwithout, hwith⟩ := Manager.perform_of_handover (s := sc) hw rfl hn hop
    obtain ⟨t, hedit, ht, hhost⟩ := edit_worker hm hw hwithout
    obtain ⟨t', hedit', ht', hhost'⟩ := edit_worker hm hw hwith
    refine ⟨t, t', ?_, hhost, fun n => by rw [ht]; exact congrFun hself n, ?_, hhost',
      fun n => by rw [ht']; exact congrFun hself n⟩
    · rw [hedit]
      cases op.edits <;> rfl
    · rw [hedit']
      cases op.edits <;> rfl

/-- A manager of owners that hands resources over, on a host without files. -/
def handingHost : Engine where
  host := { files := ⟨[([], ⟨.directory, .root⟩)]⟩ }
  managers := [some ⟨.dac, "qemu", {}, .dac { owner := ⟨107, 107⟩, dynamic := true }⟩]
  held := [0]

def missingDisk : Disk := { path := ⟨"/nonexistent/disk.img"⟩ }

theorem chown_missingDisk (owner : Ownership) :
    handingHost.host.chown missingDisk.path owner =
      (.error (.io .noSuchEntry), handingHost.host) := by
  have hsegments : missingDisk.path.segments = ["", "nonexistent", "disk.img"] := by rfl
  have hlocate : handingHost.host.files.locate handingHost.host.directory missingDisk.path =
      .error .noSuchEntry := by
    unfold FileTree.locate
    rw [hsegments, if_neg (by decide), if_neg (by decide), if_neg (by decide), FileTree.walk,
      FileTree.walk]
    rfl
  simp only [Host.chown, hlocate]
  rfl

/-- To hand the disk over fails without an entry. With the entry it is not tried, and the domain's
owner is the same. -/
theorem handed_over_handingHost :
    (edit 0 (.setImage missingDisk) ⟨handingHost, .guest []⟩).1 = .error (.io .noSuchEntry) ∧
      (edit 0 (.setImage missingDisk) ⟨handingHost, .guest [.unneeded "dac"]⟩).1 = .ok () ∧
      (handingHost.ask 0 .mountOptions (.guest [.unneeded "dac"])).1 =
        (handingHost.ask 0 .mountOptions (.guest [])).1 := by
  have hworks : Driver.dac ∈ Driver.workers := by simp [Driver.workers]
  have hm : handingHost.manager? 0 =
      some ⟨.dac, "qemu", {}, .dac { owner := ⟨107, 107⟩, dynamic := true }⟩ := rfl
  obtain ⟨hask, -, hover⟩ := unneeded_entry_only_prevents_handover (d := .guest []) hm hworks rfl
  obtain ⟨t, t', hwithout, -, -, hwith, -⟩ := hover (.setImage missingDisk) _ rfl
  refine ⟨?_, congrArg Prod.fst hwith, hask .mountOptions⟩
  rw [hwithout, chown_missingDisk]

/-- The entry that confines nothing is seen: without it the disk is handed over. -/
theorem missing_entry_hands_over :
    (edit 0 (.setImage missingDisk) ⟨handingHost, .guest []⟩).1 = .error (.io .noSuchEntry) ∧
      (edit 0 (.setImage missingDisk) ⟨handingHost, .guest [.unneeded "dac"]⟩).1 = .ok () :=
  ⟨congrArg Prod.fst (chown_missingDisk ⟨107, 107⟩), rfl⟩

end Engine

end Confinement

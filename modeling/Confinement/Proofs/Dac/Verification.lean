import Confinement.Proofs.Dac.Codec
import Confinement.Proofs.Dac.Handover
import Confinement.Proofs.Generation.Checked

/-!
# Labels that the check does not read

The check of an entry for owners reads the label, and only if the entry is static. Processes and
mounted file systems are labelled with the label of an entry of any type, and resources, where they
are handed over, with the image label or else the label. So an entry may pass the check though a
text that is read later is no label. Exactly that text is then the reason of the failure, and no
other operation fails for a label.
-/

namespace Confinement

variable {model text : String}

/-! ### Failures that are not about labels -/

namespace Host

theorem chownFault_ne_invalidLabel (p : Path) (fault : IoFault) :
    chownFault p fault ≠ .invalidLabel model text := by
  unfold chownFault Error.ofAccess
  split <;> simp

/-- A change of owner in the tree fails for a label only if its refusal is about one. -/
theorem chownAt_ne_invalidLabel (h : Host) (l : Location) (new : Ownership) {refusal : Error}
    (hrefusal : refusal ≠ .invalidLabel model text) :
    (h.chownAt l new refusal).1 ≠ .error (.invalidLabel model text) := by
  unfold chownAt
  split
  · simp
  · split
    · simp
    · simpa using hrefusal

theorem give_ne_invalidLabel (h : Host) (new : Ownership) (r : Resource) :
    (h.give new r).1 ≠ .error (.invalidLabel model text) := by
  cases r with
  | file path =>
    simp only [give, chown]
    split
    · exact fun hfault => chownFault_ne_invalidLabel _ _ (Except.error.inj hfault)
    · exact chownAt_ne_invalidLabel h _ new (chownFault_ne_invalidLabel path .notPermitted)
  | descriptor n =>
    simp only [give, chownOpen]
    split
    · simp
    · split
      · exact chownAt_ne_invalidLabel h _ new (by simp)
      · split <;> simp

theorem switchIds_ne_invalidLabel (h : Host) (o : Ownership) :
    (h.switchIds o).1 ≠ .error (.invalidLabel model text) := by
  unfold switchIds
  split
  · simp
  · split <;> simp

end Host

/-- A value that is worked with fails for a label if it cannot be had for one, as long as the work
itself does not. -/
theorem Scene.after_invalidLabel_iff {α : Type} {s : Scene} {r : Except Error α}
    {f : α → Except Error Unit × Scene} (hf : ∀ a, (f a).1 ≠ .error (.invalidLabel model text)) :
    (s.after r f).1 = .error (.invalidLabel model text) ↔
      r = .error (.invalidLabel model text) := by
  cases r with
  | error e => simp
  | ok a => simp [hf a]

namespace Dac

variable {s : Scene} {policy : OwnershipPolicy} {d : Definition} {e : LabelEntry} {op : Operation}

/-! ### Labels that are read -/

/-- The label of the entry that an operation reads, if it reads one. The check and the generation of
labels, which are left out, read the label of a static entry. -/
def consulted? (policy : OwnershipPolicy) (e : LabelEntry) (op : Operation) : Option String :=
  if op = .setProcess then e.label
  else if (labelled? op).isSome && policy.dynamic && e.relabels then e.imageLabel.or e.label
  else none

/-- A label that is read for a resource is the image label or one that processes have too. -/
theorem consulted?_cases {label : String} (h : consulted? policy e op = some label) :
    e.label = some label ∨
      policy.dynamic = true ∧ e.relabels = true ∧ e.imageLabel = some label := by
  unfold consulted? at h
  split at h
  · exact .inl h
  · split at h
    · rename_i hread
      simp only [Bool.and_eq_true] at hread
      rcases Option.or_eq_some_iff.mp h with himage | ⟨-, hlabel⟩
      · exact .inr ⟨hread.1.2, hread.2, himage⟩
      · exact .inl hlabel
    · cases h

theorem processOwner_eq_error_iff (hf : d.findEntry Dac.model = some e) {x : Error} :
    processOwner policy d = .error x ↔
      ∃ label, e.label = some label ∧ Ownership.parse label = .error x := by
  rw [processOwner, hf, Option.bind_some]
  cases e.label <;> simp

theorem imageOwner_eq_error_iff (hf : d.findEntry Dac.model = some e) {x : Error} :
    imageOwner policy d = .error x ↔ (policy.dynamic = true ∧ e.relabels = true) ∧
      ∃ label, e.imageLabel.or e.label = some label ∧ Ownership.parse label = .error x := by
  simp only [imageOwner, entryOwner, hf]
  cases policy.dynamic with
  | false => simp
  | true =>
    cases e.relabels with
    | false => simp
    | true =>
      cases e.imageLabel.or e.label with
      | none => simp [Except.map]
      | some label => cases hp : Ownership.parse label <;> simp [Except.map, hp]

/-- A resource that goes to the host goes there whatever the labels are. -/
theorem restore_ne_invalidLabel (hs : s.state = .dac policy) {p : Path} :
    (giveTo restored (fun owner h => h.chown p owner) s).1 ≠
      .error (.invalidLabel model text) := by
  by_cases hr : restores policy s.definition = true
  · have hroot : restored policy s.definition = .ok (some .root) := by rw [restored, if_pos hr]
    rw [giveTo_of_some hs hroot]
    exact s.host.give_ne_invalidLabel .root (.file p)
  · have hnone : restored policy s.definition = .ok none := by rw [restored, if_neg hr]
    simp [giveTo_of_none hs hnone, Scene.done]

/-- The labels of an entry that passes the check can be generated, or fail for something else. -/
theorem generate_ne_invalidLabel (hf : d.findEntry Dac.model = some e)
    (ha : Technology.dac.Accepts e) : generate policy d ≠ .error (.invalidLabel model text) := by
  simp only [generate, hf]
  cases ht : e.type with
  | static =>
    obtain ⟨owner, hread⟩ := ha ht
    cases hlabel : e.label with
    | none => simp
    | some label =>
      rw [hlabel, Option.getD_some] at hread
      simp [hread, Except.map]
  | dynamic | unconfined | undecided => simp

/-- What neither labels nor restores a resource, nor labels the process, fails for no label. -/
theorem perform_ne_invalidLabel (hs : s.state = .dac policy)
    (hf : s.definition.findEntry Dac.model = some e) (ha : Technology.dac.Accepts e)
    (hl : labelled? op = none) (hr : restored? op = none) (hop : op ≠ .setProcess) :
    (perform op s).1 ≠ .error (.invalidLabel model text) := by
  cases op with
  | generate =>
    have hgenerate : generate policy s.definition ≠ .error (.invalidLabel model text) :=
      generate_ne_invalidLabel hf ha
    rw [perform, Scene.ownership_eq_ok_iff.mpr hs, Scene.after_ok]
    cases hg : generate policy s.definition with
    | ok d => simp
    | error x => simpa [hg] using hgenerate
  | verify => simp [perform, Scene.check, (verify_eq_ok_iff hf).mpr ha]
  | setProcess => exact absurd rfl hop
  | setImage disk => simp [perform_setImage_of_none hl, Scene.done]
  | restoreImage disk => simp [perform_restoreImage_of_none hr, Scene.done]
  | setDevice | setSavedState | setOpenImage | setOpenTap => cases hl
  | restoreDevice | restoreSavedState => cases hr
  | _ => simp [perform, Scene.done]

/-- An operation for an entry that passes the check fails for a label only if it reads one, and then
as the reading of this label fails. -/
theorem perform_invalidLabel_iff (hs : s.state = .dac policy)
    (hf : s.definition.findEntry Dac.model = some e) (ha : Technology.dac.Accepts e)
    (op : Operation) : (perform op s).1 = .error (.invalidLabel model text) ↔
      ∃ label, consulted? policy e op = some label ∧
        Ownership.parse label = .error (.invalidLabel model text) := by
  have howner := Scene.ownership_eq_ok_iff.mpr hs
  by_cases hop : op = .setProcess
  · subst hop
    rw [perform, howner, Scene.after_ok, Scene.after_invalidLabel_iff, processOwner_eq_error_iff hf]
    · simp [consulted?]
    · exact s.host.switchIds_ne_invalidLabel
  cases hl : labelled? op with
  | some r =>
    rw [perform_of_labelled? hl, giveTo, howner, Scene.after_ok, Scene.after_invalidLabel_iff,
      imageOwner_eq_error_iff hf]
    · simp [consulted?, hop, hl, and_assoc]
    · rintro (_ | owner)
      · simp [Scene.done]
      · exact s.host.give_ne_invalidLabel owner r
  | none =>
    have hconsulted : consulted? policy e op = none := by simp [consulted?, hop, hl]
    have hother : (perform op s).1 ≠ .error (.invalidLabel model text) := by
      cases hr : restored? op with
      | some p =>
        rw [perform_of_restored? hr]
        exact restore_ne_invalidLabel hs
      | none => exact perform_ne_invalidLabel hs hf ha hl hr hop
    simp [hconsulted, hother]

theorem answer_mountOptions_invalidLabel_iff (hs : s.state = .dac policy)
    (hf : s.definition.findEntry Dac.model = some e) :
    answer .mountOptions s = .error (.invalidLabel model text) ↔
      ∃ label, e.label = some label ∧
        Ownership.parse label = .error (.invalidLabel model text) := by
  have howner : processOwner policy s.definition = .error (.invalidLabel model text) ↔ _ :=
    processOwner_eq_error_iff hf
  rw [← howner]
  simp only [answer, Scene.ownership_eq_ok_iff.mpr hs]
  cases hp : processOwner policy s.definition <;> simp [bind, Except.bind, hp]

end Dac

namespace Engine

variable {s : Engine} {id : ManagerId} {policy : OwnershipPolicy} {d : Definition} {e : LabelEntry}

theorem accepts_of_verify (hk : s.KeepsPolicy id policy) (hf : d.findEntry Dac.model = some e)
    (hv : (s.perform id .verify d).1 = .ok ()) : Technology.dac.Accepts e := by
  obtain ⟨⟨driver, virtDriver, flags, state⟩, hm, rfl, rfl⟩ := hk
  exact (perform_verify_iff hm (by simp [Driver.workers]) d).mp hv e hf

theorem perform_invalidLabel_iff (hk : s.KeepsPolicy id policy)
    (hf : d.findEntry Dac.model = some e) (ha : Technology.dac.Accepts e) (op : Operation) :
    (s.perform id op d).1 = .error (.invalidLabel model text) ↔
      ∃ label, Dac.consulted? policy e op = some label ∧
        Ownership.parse label = .error (.invalidLabel model text) := by
  obtain ⟨t, hperform, -⟩ := perform_owners hk op d
  rw [hperform]
  exact Dac.perform_invalidLabel_iff (s := s.ownerScene policy d) rfl hf ha op

theorem ask_mountOptions_invalidLabel_iff (hk : s.KeepsPolicy id policy)
    (hf : d.findEntry Dac.model = some e) :
    (s.ask id .mountOptions d).1 = .error (.invalidLabel model text) ↔
      ∃ label, e.label = some label ∧
        Ownership.parse label = .error (.invalidLabel model text) := by
  rw [ask_owners hk]
  exact Dac.answer_mountOptions_invalidLabel_iff (s := s.ownerScene policy d) rfl hf

/-- Nothing that a manager is asked about the domain fails for a label. -/
structure LabelsServe (s : Engine) (id : ManagerId) (d : Definition) : Prop where
  operation : ∀ op model text, (s.perform id op d).1 ≠ .error (.invalidLabel model text)
  mountOptions : ∀ model text, (s.ask id .mountOptions d).1 ≠ .error (.invalidLabel model text)

/-- With an entry that passes the check an operation fails for a label exactly if the label that it
reads cannot be read, and the mount options do if the label of processes cannot. So nothing fails
for a label if, and only if, this label can be read although the entry is not static, and so can the
image label where resources are handed over. -/
theorem labelsServe_of_verify_iff (hk : s.KeepsPolicy id policy)
    (hf : d.findEntry Dac.model = some e) (hv : (s.perform id .verify d).1 = .ok ()) :
    (∀ op model text, (s.perform id op d).1 = .error (.invalidLabel model text) ↔
      ∃ label, Dac.consulted? policy e op = some label ∧
        Ownership.parse label = .error (.invalidLabel model text)) ∧
    (∀ model text, (s.ask id .mountOptions d).1 = .error (.invalidLabel model text) ↔
      ∃ label, e.label = some label ∧
        Ownership.parse label = .error (.invalidLabel model text)) ∧
    (s.LabelsServe id d ↔
      (e.type ≠ .static → ∀ label, e.label = some label →
        ∃ owner, Ownership.parse label = .ok owner) ∧
      (policy.dynamic = true → e.relabels = true → ∀ label, e.imageLabel = some label →
        ∃ owner, Ownership.parse label = .ok owner)) := by
  have ha := accepts_of_verify hk hf hv
  have hops : ∀ op model text, (s.perform id op d).1 = .error (.invalidLabel model text) ↔ _ :=
    fun op model text => perform_invalidLabel_iff hk hf ha op
  have hmount : ∀ model text,
      (s.ask id .mountOptions d).1 = .error (.invalidLabel model text) ↔ _ :=
    fun model text => ask_mountOptions_invalidLabel_iff hk hf
  refine ⟨hops, hmount, fun hserve => ⟨fun _ label hlabel => ?_, fun hd hr label himage => ?_⟩,
    fun ⟨hother, himages⟩ => ?_⟩
  · refine (Ownership.parse_cases label).resolve_right fun herror => ?_
    exact hserve.mountOptions _ _ ((hmount _ _).mpr ⟨label, hlabel, herror⟩)
  · refine (Ownership.parse_cases label).resolve_right fun herror => ?_
    have hconsulted : Dac.consulted? policy e (.setOpenImage 0) = some label := by
      simp [Dac.consulted?, Dac.labelled?, hd, hr, himage]
    exact hserve.operation _ _ _ ((hops _ _ _).mpr ⟨label, hconsulted, herror⟩)
  · -- The label of a static entry has been read by the check.
    have hlabels : ∀ label, e.label = some label → ∃ owner, Ownership.parse label = .ok owner := by
      intro label hlabel
      by_cases ht : e.type = .static
      · simpa only [hlabel, Option.getD_some] using ha ht
      · exact hother ht label hlabel
    refine ⟨fun op model text hfail => ?_, fun model text hfail => ?_⟩
    · obtain ⟨label, hconsulted, herror⟩ := (hops op model text).mp hfail
      have hread : ∃ owner, Ownership.parse label = .ok owner := by
        rcases Dac.consulted?_cases hconsulted with hlabel | ⟨hd, hr, himage⟩
        · exact hlabels label hlabel
        · exact himages hd hr label himage
      obtain ⟨owner, hread⟩ := hread
      cases hread.symm.trans herror
    · obtain ⟨label, hlabel, herror⟩ := (hmount model text).mp hfail
      obtain ⟨owner, hread⟩ := hlabels label hlabel
      cases hread.symm.trans herror

/-- A guest with a static owner and an owner of its images. -/
def imageOwnerGuest (image : String) : Definition := .guest [
  { LabelEntry.supplied "dac" .static with label := some "+5:+6", imageLabel := some image }]

/-- If both owners can be read nothing fails for them. -/
theorem labels_serve_imageOwnerGuest :
    (imageHost.perform 0 .verify (imageOwnerGuest "7:8")).1 = .ok () ∧
      imageHost.LabelsServe 0 (imageOwnerGuest "7:8") := by
  have hv : (imageHost.perform 0 .verify (imageOwnerGuest "7:8")).1 = .ok () := by rfl
  have hread : Ownership.parse "7:8" = .ok ⟨7, 8⟩ := by rfl
  refine ⟨hv, ((labelsServe_of_verify_iff keepsPolicy_imageHost rfl hv).2.2).mpr ⟨?_, ?_⟩⟩
  · intro ht
    exact absurd rfl ht
  · rintro - - label ⟨⟩
    exact ⟨_, hread⟩

/-- A guest that is not confined, with a label that is no owner. -/
def nobodyGuest : Definition := .guest [
  { LabelEntry.supplied "dac" .unconfined with label := some "nobody" }]

/-- Both guests pass the check. The image label of the one is read when an image is labelled, and
the label of the other when its process is. -/
theorem unread_labels_pass_check :
    (imageHost.perform 0 .verify (imageOwnerGuest "garbage")).1 = .ok () ∧
      (imageHost.perform 0 (.setImage imageDisk) (imageOwnerGuest "garbage")).1 =
        .error (.invalidLabel "dac" "garbage") ∧
      (imageHost.perform 0 .verify nobodyGuest).1 = .ok () ∧
      (imageHost.perform 0 .setProcess nobodyGuest).1 = .error (.invalidLabel "dac" "nobody") ∧
      (imageHost.ask 0 .mountOptions nobodyGuest).1 = .error (.invalidLabel "dac" "nobody") :=
  ⟨rfl, rfl, rfl, rfl, rfl⟩

end Engine

end Confinement

import Confinement.Proofs.Dac.Handover

/-!
# Handing over and giving back all resources of a domain

To label all resources of a domain hands over the files that its disks and devices lead to and no
others, but for disks that are exempt. To restore them gives back the same files but for those that
only read-only disks lead to: another domain may share them. Disks and devices may lead to one and
the same file, also through links. Such a file is handed over several times and given back if one of
them is to be restored.
-/

namespace Confinement

namespace Definition

variable {d : Definition}

/-- The paths of what labels are for: disks that are not exempt, and devices. -/
def labelledPaths (d : Definition) : List Path :=
  (d.disks.filter fun disk => !disk.noRelabel).map (·.path) ++ d.devices.map (·.path)

/-- The paths of what is restored: disks that are neither exempt nor read-only, and devices. -/
def restoredPaths (d : Definition) : List Path :=
  (d.disks.filter fun disk => !disk.noRelabel && !disk.readOnly).map (·.path) ++
    d.devices.map (·.path)

/-- What is restored has been labelled. -/
theorem mem_labelledPaths_of_mem_restoredPaths {p : Path} (h : p ∈ d.restoredPaths) :
    p ∈ d.labelledPaths := by
  simp only [restoredPaths, labelledPaths, List.mem_append, List.mem_map, List.mem_filter,
    Bool.and_eq_true] at h ⊢
  exact h.imp_left fun ⟨disk, hmem, hpath⟩ => ⟨disk, ⟨hmem.1, hmem.2.1⟩, hpath⟩

/-- Every operation that labels the resources is about one of their paths. -/
theorem labelled?_of_mem_settingOperations {op : Operation} (h : op ∈ d.settingOperations none) :
    ∃ p ∈ d.labelledPaths, Dac.labelled? op = some (.file p) := by
  simp only [settingOperations, labelledDisks, Option.toList_none, List.map_nil, List.append_nil,
    List.mem_append, List.mem_map] at h
  rcases h with ⟨disk, hdisk, rfl⟩ | ⟨device, hdevice, rfl⟩
  · have hlabelled : disk.noRelabel = false := by simpa using (List.mem_filter.mp hdisk).2
    refine ⟨disk.path, List.mem_append_left _ (List.mem_map_of_mem hdisk), ?_⟩
    simp [Dac.labelled?, hlabelled]
  · exact ⟨device.path, List.mem_append_right _ (List.mem_map_of_mem hdevice), rfl⟩

theorem exists_settingOperation {p : Path} (h : p ∈ d.labelledPaths) :
    ∃ op ∈ d.settingOperations none, Dac.labelled? op = some (.file p) := by
  simp only [labelledPaths, List.mem_append, List.mem_map] at h
  rcases h with ⟨disk, hdisk, rfl⟩ | ⟨device, hdevice, rfl⟩
  · have hlabelled : disk.noRelabel = false := by simpa using (List.mem_filter.mp hdisk).2
    refine ⟨.setImage disk, ?_, by simp [Dac.labelled?, hlabelled]⟩
    exact List.mem_append_left _ (List.mem_append_left _ (List.mem_map_of_mem hdisk))
  · refine ⟨.setDevice device none, ?_, rfl⟩
    exact List.mem_append_left _ (List.mem_append_right _ (List.mem_map_of_mem hdevice))

/-- The operations that restore the resources are about just the paths of what is restored. -/
theorem mem_filterMap_restored?_iff {p : Path} :
    p ∈ d.restoringOperations.filterMap Dac.restored? ↔ p ∈ d.restoredPaths := by
  simp only [restoringOperations, labelledDisks, restoredPaths, List.filterMap_append,
    List.filterMap_map, List.mem_append, List.mem_filterMap, List.mem_map, List.mem_filter]
  refine or_congr (exists_congr fun disk => ?_) (exists_congr fun device => ?_)
  · cases hn : disk.noRelabel <;> cases hr : disk.readOnly <;> simp [Dac.restored?, hn, hr]
  · simp [Dac.restored?, HostDevice.pathIn]

end Definition

namespace Engine

variable {s t : Engine} {id : ManagerId} {policy : OwnershipPolicy} {d : Definition}
  {op : Operation} {ops : List Operation}

/-! ### Runs of operations -/

section Runs

variable {P : Engine → Prop}

/-- What every operation keeps is kept by all of them, up to the first failure. -/
theorem performWhile_keeps (hstep : ∀ u, P u → ∀ op ∈ ops, P (u.perform id op d).2) (hs : P s) :
    P (s.performWhile id d ops).2 := by
  induction ops generalizing s with
  | nil => exact hs
  | cons op ops ih =>
    have hfirst := hstep s hs op (List.mem_cons_self ..)
    rw [performWhile]
    split
    · rename_i u hperform
      rw [hperform] at hfirst
      exact ih (fun v hv op' hop' => hstep v hv op' (List.mem_cons_of_mem op hop')) hfirst
    · rename_i e u hperform
      rwa [hperform] at hfirst

theorem performEvery_keeps (hstep : ∀ u, P u → ∀ op ∈ ops, P (u.perform id op d).2) (hs : P s) :
    P (s.performEvery id d ops).2 := by
  induction ops generalizing s with
  | nil => exact hs
  | cons op ops ih =>
    rw [performEvery]
    exact ih (fun v hv op' hop' => hstep v hv op' (List.mem_cons_of_mem op hop'))
      (hstep s hs op (List.mem_cons_self ..))

/-- Operations that come to an end without a failure have all succeeded, each on an engine that has
kept what they keep. -/
theorem succeeded_of_performWhile (hstep : ∀ u, P u → ∀ op ∈ ops, P (u.perform id op d).2)
    (hs : P s) (hok : (s.performWhile id d ops).1 = .ok ()) :
    ∀ op ∈ ops, ∃ u, P u ∧ (u.perform id op d).1 = .ok () := by
  induction ops generalizing s with
  | nil => nofun
  | cons op ops ih =>
    have hfirst := hstep s hs op (List.mem_cons_self ..)
    rw [performWhile] at hok
    split at hok
    · rename_i u hperform
      rw [hperform] at hfirst
      intro op' hop'
      rcases List.mem_cons.mp hop' with rfl | hop'
      · exact ⟨s, hs, congrArg Prod.fst hperform⟩
      · exact ih (fun v hv op' hop' => hstep v hv op' (List.mem_cons_of_mem op hop')) hfirst hok
          op' hop'
    · cases hok

end Runs

/-! ### Resources that are handed over -/

theorem handedOver_perform (hk : s.KeepsPolicy id policy) (hh : Dac.HandsOver policy d) {p : Path}
    (hr : Dac.labelled? op = some (.file p)) {ps : List Path} (hp : p ∈ ps) :
    Host.HandedOver ps s.host (s.perform id op d).2.host := by
  obtain ⟨t, -, ⟨wanted, -, hperform, hhost⟩ | ⟨-, e, hperform, hhost⟩⟩ :=
    perform_labelled?_cases hk hh hr
  · rw [hperform, hhost]
    exact .chown hp s.host wanted
  · rw [hperform, hhost]
    exact .refl ps s.host

/-- To label all resources hands over files that their paths lead to. If it succeeds every path
leads to a file. -/
theorem handedOver_setAll (hk : s.KeepsPolicy id policy) (hh : Dac.HandsOver policy d) :
    (s.setAll id d none).2.KeepsPolicy id policy ∧
    Host.HandedOver d.labelledPaths s.host (s.setAll id d none).2.host ∧
    ((s.setAll id d none).1 = .ok () →
      ∀ p ∈ d.labelledPaths, (s.host.ownerOf? (.file p)).isSome = true) := by
  let P : Engine → Prop := fun u =>
    u.KeepsPolicy id policy ∧ Host.HandedOver d.labelledPaths s.host u.host
  have hstep : ∀ u, P u → ∀ op ∈ d.settingOperations none, P (u.perform id op d).2 := by
    rintro u ⟨hku, hu⟩ op hop
    obtain ⟨p, hp, hr⟩ := Definition.labelled?_of_mem_settingOperations hop
    obtain ⟨v, hperform, hkv, -⟩ := perform_owners hku op d
    refine ⟨by rwa [hperform], hu.trans (handedOver_perform hku hh hr hp)⟩
  have hs : P s := ⟨hk, .refl _ s.host⟩
  obtain ⟨hkept, hhanded⟩ := performWhile_keeps hstep hs
  refine ⟨hkept, hhanded, fun hok p hp => ?_⟩
  obtain ⟨op, hop, hr⟩ := Definition.exists_settingOperation hp
  obtain ⟨u, ⟨hku, hu⟩, hresult⟩ := succeeded_of_performWhile hstep hs hok op hop
  obtain ⟨wanted, -, hgive⟩ := give_of_perform hku hh hr (Prod.ext hresult rfl)
  obtain ⟨old, hold, -⟩ := Host.ownerOf?_of_give hgive
  rw [← hu.same.isSome_ownerOf?, hold, Option.isSome_some]

/-! ### Files that are given back -/

/-- Of the operations that restore the resources those do nothing that give nothing back. -/
theorem perform_of_skipped (hop : op ∈ d.restoringOperations) (hr : Dac.restored? op = none)
    (sc : Scene) : Dac.perform op sc = sc.done := by
  simp only [Definition.restoringOperations, List.mem_append, List.mem_map] at hop
  rcases hop with ⟨disk, -, rfl⟩ | ⟨device, -, rfl⟩
  · exact Dac.perform_restoreImage_of_none hr sc
  · cases hr

theorem givenBack_perform (hk : s.KeepsPolicy id policy) (hh : Dac.HandsOver policy d)
    (hop : op ∈ d.restoringOperations) : ∃ r t, s.perform id op d = (r, t) ∧
      t.KeepsPolicy id policy ∧ Host.GivenBack (Dac.restored? op).toList s.host r t.host := by
  obtain ⟨t, hperform, hkept, hhost⟩ := perform_owners hk op d
  have hs : (s.ownerScene policy d).state = .dac policy := rfl
  refine ⟨_, t, hperform, hkept, ?_⟩
  rw [hhost]
  cases hr : Dac.restored? op with
  | some p =>
    have hroot : Dac.restored policy d = .ok (some .root) := by
      rw [Dac.restored, if_pos (Dac.restores_eq_true_iff.mpr hh)]
    rw [Dac.perform_of_restored? hr, Dac.giveTo_of_some hs hroot]
    exact .chown s.host p
  | none =>
    rw [perform_of_skipped hop hr]
    exact .nil s.host

theorem givenBack_performEvery (hk : s.KeepsPolicy id policy) (hh : Dac.HandsOver policy d)
    (hops : ∀ op ∈ ops, op ∈ d.restoringOperations) : ∃ r t, s.performEvery id d ops = (r, t) ∧
      Host.GivenBack (ops.filterMap Dac.restored?) s.host r t.host := by
  induction ops generalizing s with
  | nil => exact ⟨_, s, rfl, .nil s.host⟩
  | cons op ops ih =>
    obtain ⟨r, u, hperform, hkept, hfirst⟩ :=
      givenBack_perform hk hh (hops op (List.mem_cons_self ..))
    obtain ⟨r', t, hrest, hothers⟩ :=
      ih hkept fun op' hop' => hops op' (List.mem_cons_of_mem op hop')
    refine ⟨firstFailure r r', t, by rw [performEvery, hperform]; simp only [hrest], ?_⟩
    have hpaths : (op :: ops).filterMap Dac.restored? =
        (Dac.restored? op).toList ++ ops.filterMap Dac.restored? := by
      cases hr : Dac.restored? op <;> simp [hr]
    rw [hpaths]
    exact hfirst.append hothers

/-- To restore all resources is to give back what their paths lead to. -/
theorem givenBack_restoreAll (hk : s.KeepsPolicy id policy) (hh : Dac.HandsOver policy d) :
    ∃ r t, s.restoreAll id d = (r, t) ∧ Host.GivenBack d.restoredPaths s.host r t.host := by
  obtain ⟨r, t, hrestore, hback⟩ := givenBack_performEvery hk hh fun op hop => hop
  exact ⟨r, t, hrestore, hback.congr fun p => Definition.mem_filterMap_restored?_iff.symm⟩

/-! ### Matching sets of files -/

/-- Where resources are not handed over nothing that is asked changes an owner. -/
theorem owners_of_not_handsOver (hk : s.KeepsPolicy id policy) (hh : ¬Dac.HandsOver policy d) :
    ∀ u : Engine, (∃ op, u = (s.perform id op d).2) ∨ (∃ saved, u = (s.setAll id d saved).2) ∨
        u = (s.restoreAll id d).2 →
      u.host.files = s.host.files ∧ u.host.descriptors = s.host.descriptors := by
  let P : Engine → Prop := fun u => u.KeepsPolicy id policy ∧
    u.host.files = s.host.files ∧ u.host.descriptors = s.host.descriptors
  have hstep : ∀ u, P u → ∀ op, P (u.perform id op d).2 := by
    rintro u ⟨hku, hfiles, hdescriptors⟩ op
    obtain ⟨v, hperform, hkv, hhost⟩ := perform_owners hku op d
    obtain ⟨hf, hd⟩ := Dac.owners_perform_of_not_handsOver (s := u.ownerScene policy d) rfl hh op
    rw [hperform]
    exact ⟨hkv, by rw [hhost, hf]; exact hfiles, by rw [hhost, hd]; exact hdescriptors⟩
  have hs : P s := ⟨hk, rfl, rfl⟩
  rintro u (⟨op, rfl⟩ | ⟨saved, rfl⟩ | rfl)
  · exact (hstep s hs op).2
  · exact (performWhile_keeps (fun u hu op _ => hstep u hu op) hs).2
  · exact (performEvery_keeps (fun u hu op _ => hstep u hu op) hs).2

/-- Resources are handed over or not at all. If they are and all are labelled with success, only
files change hands that a disk that is not exempt or a device leads to. To restore all resources
afterwards gives the host every file that such a disk, unless it is read-only, or a device leads to,
as far as the process may give it back, and leaves all other files to the owners that they have. It
succeeds if the process may give back all of them, as a privileged process may. -/
theorem restored_files_match_labelled_files (hk : s.KeepsPolicy id policy) (d : Definition) :
    (¬Dac.HandsOver policy d → ∀ u : Engine,
      (∃ op, u = (s.perform id op d).2) ∨ (∃ saved, u = (s.setAll id d saved).2) ∨
        u = (s.restoreAll id d).2 →
      u.host.files = s.host.files ∧ u.host.descriptors = s.host.descriptors) ∧
    (Dac.HandsOver policy d → ∀ t, s.setAll id d none = (.ok (), t) →
      (∀ l, ¬s.host.Leads d.labelledPaths l →
        t.host.files.owner? l = s.host.files.owner? l) ∧
      ∃ r u, t.restoreAll id d = (r, u) ∧
        (s.host.credentials.privileged = true → r = .ok ()) ∧
        (r = .ok () ↔ ∀ l, s.host.Leads d.restoredPaths l → t.host.MayGiveBack l) ∧
        (∀ l, s.host.Leads d.restoredPaths l → t.host.MayGiveBack l →
          u.host.files.owner? l = some .root) ∧
        ∀ l, ¬(s.host.Leads d.restoredPaths l ∧ t.host.MayGiveBack l) →
          u.host.files.owner? l = t.host.files.owner? l) := by
  refine ⟨owners_of_not_handsOver hk, fun hh t hset => ?_⟩
  obtain ⟨hkept, hhanded, hpresent⟩ := handedOver_setAll hk hh
  rw [hset] at hkept hhanded hpresent
  obtain ⟨r, u, hrestore, hback⟩ := givenBack_restoreAll hkept hh
  have hleads : ∀ l, t.host.Leads d.restoredPaths l ↔ s.host.Leads d.restoredPaths l := fun l =>
    hhanded.same.leads_iff
  -- Since all were labelled with success every path leads to a file that has an owner.
  have hfound : ∀ p ∈ d.restoredPaths, (t.host.ownerOf? (.file p)).isSome = true := by
    intro p hp
    rw [hhanded.same.isSome_ownerOf?]
    exact hpresent rfl p (Definition.mem_labelledPaths_of_mem_restoredPaths hp)
  have hresult := hback.result_iff hfound
  refine ⟨hhanded.owners, r, u, hrestore, fun hprivileged => hresult.mpr fun l hl => ?_, ?_,
    fun l hl hmay => hback.given l ((hleads l).mpr hl) hmay, fun l hl => hback.kept l ?_⟩
  · refine Host.mayGiveBack_of_privileged (by rw [hhanded.same.credentials, hprivileged]) ?_
    obtain ⟨p, hp, hlocate⟩ := hl
    obtain ⟨old, hold⟩ := Option.isSome_iff_exists.mp (hfound p hp)
    obtain ⟨k, hk, ho⟩ := Host.ownerOf?_file_eq_some_iff.mp hold
    obtain rfl := Except.ok.inj (hlocate.symm.trans hk)
    rw [ho, Option.isSome_some]
  · simpa only [hleads] using hresult
  · exact fun hback => hl ⟨(hleads l).mp hback.1, hback.2⟩

def diskGuest : Definition := { Definition.guest [] with disks := [imageDisk] }

/-- The disk goes to the owner of the manager and back. -/
theorem returned_imageDisk : ∃ t u, imageHost.setAll 0 diskGuest none = (.ok (), t) ∧
    t.host.files.owner? ["disk.img"] = some ⟨107, 107⟩ ∧
    t.restoreAll 0 diskGuest = (.ok (), u) ∧
    u.host.files.owner? ["disk.img"] = some .root := by
  have hh : Dac.HandsOver { owner := ⟨107, 107⟩, dynamic := true } diskGuest := ⟨rfl, nofun⟩
  obtain ⟨t, -, ⟨wanted, hwants, hperform, hhost⟩ | ⟨hnone, -⟩⟩ :=
    perform_labelled?_cases keepsPolicy_imageHost hh labelled?_imageDisk
  · obtain rfl : wanted = ⟨107, 107⟩ := hwants
    rw [give_imageDisk] at hperform hhost
    have hset : imageHost.setAll 0 diskGuest none = (.ok (), t) := by
      change imageHost.performWhile 0 diskGuest [.setImage imageDisk] = (.ok (), t)
      simp only [performWhile, hperform]
    have howner : t.host.files.owner? ["disk.img"] = some ⟨107, 107⟩ := by
      rw [hhost]
      rfl
    have hleads : imageHost.host.Leads diskGuest.restoredPaths ["disk.img"] :=
      ⟨imageDisk.path, List.mem_singleton_self _, locate_imageDisk ..⟩
    obtain ⟨-, r, u, hrestore, hprivileged, hall, hgiven, -⟩ :=
      (restored_files_match_labelled_files keepsPolicy_imageHost diskGuest).2 hh t hset
    obtain rfl := hprivileged rfl
    exact ⟨t, u, hset, howner, hrestore, hgiven _ hleads (hall.mp rfl _ hleads)⟩
  · exact absurd rfl (hnone ⟨107, 107⟩)

/-- A process without privileges, which has the ids that the manager hands resources over to, on a
host with one file that it owns. -/
def ownHost : Engine where
  host := { files := diskTree ⟨1000, 1000⟩, credentials := { ids := ⟨1000, 1000⟩ } }
  managers := [some ⟨.dac, "qemu", {}, .dac { owner := ⟨1000, 1000⟩, dynamic := true }⟩]
  held := [0]

/-- The disk can be labelled, since it stays with its owner, but not given back to the host. -/
theorem disk_kept_ownHost : ∃ t u, ownHost.setAll 0 diskGuest none = (.ok (), t) ∧
    t.restoreAll 0 diskGuest = (.error (.permissionDenied "chown /disk.img"), u) ∧
    u.host.files.owner? ["disk.img"] = some ⟨1000, 1000⟩ := by
  let policy : OwnershipPolicy := { owner := ⟨1000, 1000⟩, dynamic := true }
  have hk : ownHost.KeepsPolicy 0 policy := ⟨_, rfl, rfl, rfl⟩
  have hkept : ownHost.host.give ⟨1000, 1000⟩ (.file imageDisk.path) = (.ok (), ownHost.host) := by
    rw [Host.give, chown_imageDisk rfl, if_pos (by decide)]
    rfl
  have hrefused : ownHost.host.chown imageDisk.path .root =
      (.error (.permissionDenied "chown /disk.img"), ownHost.host) := by
    rw [chown_imageDisk rfl, if_neg (by decide)]
  have hlabels : Dac.perform (.setImage imageDisk) (ownHost.ownerScene policy diskGuest) =
      (ownHost.ownerScene policy diskGuest).withHost (·.give ⟨1000, 1000⟩ (.file imageDisk.path)) :=
    rfl
  obtain ⟨t, hset, hkt, ht⟩ := perform_owners_of_withHost hk hlabels
  rw [hkept] at hset ht
  have hrestores : Dac.perform (.restoreImage imageDisk) (t.ownerScene policy diskGuest) =
      (t.ownerScene policy diskGuest).withHost (·.chown imageDisk.path .root) := rfl
  obtain ⟨u, hrestore, -, hu⟩ := perform_owners_of_withHost hkt hrestores
  rw [ht, hrefused] at hrestore hu
  refine ⟨t, u, ?_, ?_, by rw [hu]; rfl⟩
  · change ownHost.performWhile 0 diskGuest [.setImage imageDisk] = (.ok (), t)
    simp only [performWhile, hset]
  · change t.performEvery 0 diskGuest [.restoreImage imageDisk] = _
    simp only [performEvery, hrestore, firstFailure_error]

end Engine

end Confinement

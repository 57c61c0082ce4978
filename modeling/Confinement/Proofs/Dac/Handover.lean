import Confinement.Proofs.Dac.Requests

/-!
# Who owns what was handed over

An operation that labels a resource with success leaves it to the owner that the domain wants, id by
id, whoever owned it before. The one exception is the id that a change of owner takes for no change:
a label may name it, and then the resource keeps the id that it had.
-/

namespace Confinement

/-- A change of owner reaches the owner that was asked for unless it was asked to keep an id. -/
theorem Ownership.updated_eq_iff {old new : Ownership} : old.updated new = new ↔
    (new.user = unchanged → old.user = unchanged) ∧
      (new.group = unchanged → old.group = unchanged) := by
  obtain ⟨user, group⟩ := new
  simp only [updated, mk.injEq]
  refine and_congr ?_ ?_
  · by_cases h : user = unchanged <;> simp [h]
  · by_cases h : group = unchanged <;> simp [h]

namespace Engine

variable {s t : Engine} {id : ManagerId} {policy : OwnershipPolicy} {d : Definition}
  {op : Operation} {r : Resource}

/-- To label a resource is to change its owner to the one that is wanted, if one can be read. -/
theorem perform_labelled?_cases (hk : s.KeepsPolicy id policy) (hh : Dac.HandsOver policy d)
    (hr : Dac.labelled? op = some r) : ∃ t, t.KeepsPolicy id policy ∧
      ((∃ wanted, Dac.Wants policy d wanted ∧
          s.perform id op d = ((s.host.give wanted r).1, t) ∧ t.host = (s.host.give wanted r).2) ∨
        (∀ wanted, ¬Dac.Wants policy d wanted) ∧
          ∃ e, s.perform id op d = (.error e, t) ∧ t.host = s.host) := by
  obtain ⟨t, hperform, hkept, hhost⟩ := perform_owners hk op d
  have hs : (s.ownerScene policy d).state = .dac policy := rfl
  rw [Dac.perform_of_labelled? hr] at hperform hhost
  refine ⟨t, hkept, ?_⟩
  cases ho : Dac.imageOwner policy d with
  | error e =>
    rw [Dac.giveTo_of_error hs ho] at hperform hhost
    refine .inr ⟨fun wanted hwants => ?_, e, hperform, hhost⟩
    cases ho.symm.trans ((Dac.imageOwner_eq_ok_iff hh).mpr ⟨wanted, rfl, hwants⟩)
  | ok o =>
    obtain ⟨wanted, rfl, hwants⟩ := (Dac.imageOwner_eq_ok_iff hh).mp ho
    rw [Dac.giveTo_of_some hs ho] at hperform hhost
    exact .inl ⟨wanted, hwants, hperform, hhost⟩

theorem give_of_perform (hk : s.KeepsPolicy id policy) (hh : Dac.HandsOver policy d)
    (hr : Dac.labelled? op = some r) (h : s.perform id op d = (.ok (), t)) :
    ∃ wanted, Dac.Wants policy d wanted ∧ s.host.give wanted r = (.ok (), t.host) := by
  obtain ⟨t', -, ⟨wanted, hwants, hperform, hhost⟩ | ⟨-, e, hfailed, -⟩⟩ :=
    perform_labelled?_cases hk hh hr
  · obtain ⟨hresult, rfl⟩ := Prod.mk.inj (h.symm.trans hperform)
    exact ⟨wanted, hwants, Prod.ext hresult.symm hhost.symm⟩
  · cases h.symm.trans hfailed

/-- A resource that is labelled with success has, id by id, the owner that its domain wants, but it
keeps an id for which the domain wants the one that means no change. So it has exactly the owner
that is wanted unless that id is asked for where another one was. -/
theorem labelled_resource_has_wanted_owner (hk : s.KeepsPolicy id policy)
    (hh : Dac.HandsOver policy d) (hr : Dac.labelled? op = some r)
    (h : s.perform id op d = (.ok (), t)) :
    ∃ wanted old, Dac.Wants policy d wanted ∧ s.host.ownerOf? r = some old ∧
      t.host.ownerOf? r = some (old.updated wanted) ∧
      (t.host.ownerOf? r = some wanted ↔
        (wanted.user = Ownership.unchanged → old.user = Ownership.unchanged) ∧
          (wanted.group = Ownership.unchanged → old.group = Ownership.unchanged)) := by
  obtain ⟨wanted, hwants, hgive⟩ := give_of_perform hk hh hr h
  obtain ⟨old, hold, hnew⟩ := Host.ownerOf?_of_give hgive
  refine ⟨wanted, old, hwants, hold, hnew, ?_⟩
  rw [hnew, Option.some.injEq, Ownership.updated_eq_iff]

/-- A disk in the root directory. -/
def diskTree (owner : Ownership) : FileTree :=
  ⟨[([], ⟨.directory, .root⟩), (["disk.img"], ⟨.file .empty, owner⟩)]⟩

def imageDisk : Disk := { path := ⟨"/disk.img"⟩ }

theorem locate_imageDisk (owner : Ownership) (here : Location) :
    (diskTree owner).locate here imageDisk.path = .ok ["disk.img"] := by
  have hsegments : imageDisk.path.segments = ["", "disk.img"] := by rfl
  have habsolute : imageDisk.path.isAbsolute = true := by decide
  have hdirectory : (diskTree owner).isDirectory [] = true := rfl
  unfold FileTree.locate
  rw [hsegments, if_neg (by decide), if_neg (by decide), if_neg (by decide), if_pos habsolute]
  rw [FileTree.walk, if_neg (by rw [hdirectory]; decide), if_pos (by decide)]
  rw [FileTree.walk, if_neg (by rw [hdirectory]; decide), if_neg (by decide), if_neg (by decide),
    if_neg (by decide)]
  change FileTree.walk _ _ ["disk.img"] [] = .ok ["disk.img"]
  rw [FileTree.walk]

/-- The disk goes to a new owner if the process may give it. -/
theorem chown_imageDisk {h : Host} {old : Ownership} (hfiles : h.files = diskTree old)
    (new : Ownership) : h.chown imageDisk.path new =
      if h.credentials.mayGive old new then
        (.ok (), { h with files := diskTree (old.updated new) })
      else (.error (.permissionDenied "chown /disk.img"), h) := by
  have howner : (diskTree old).owner? ["disk.img"] = some old := rfl
  have hset : (diskTree old).setOwner ["disk.img"] (old.updated new) =
    diskTree (old.updated new) := rfl
  simp only [Host.chown, Host.chownAt, hfiles, locate_imageDisk, howner, hset]
  rfl

/-- A manager that hands resources over, for a process that may do so, on a host with one file. -/
def imageHost : Engine where
  host := { files := diskTree .root, credentials := { privileged := true } }
  managers := [some ⟨.dac, "qemu", {}, .dac { owner := ⟨107, 107⟩, dynamic := true }⟩]
  held := [0]

theorem give_imageDisk (new : Ownership) :
    imageHost.host.give new (.file imageDisk.path) = (.ok (), { imageHost.host with
      files := diskTree (Ownership.root.updated new) }) := by
  have hmay : imageHost.host.credentials.mayGive .root new = true :=
    Credentials.mayGive_of_privileged rfl ..
  rw [Host.give, chown_imageDisk rfl, if_pos hmay]

theorem labelled?_imageDisk :
    Dac.labelled? (.setImage imageDisk) = some (.file imageDisk.path) := rfl

theorem owner_imageDisk : imageHost.host.ownerOf? (.file imageDisk.path) = some .root :=
  Host.ownerOf?_file_eq_some_iff.mpr ⟨_, locate_imageDisk .root [], rfl⟩

theorem keepsPolicy_imageHost :
    imageHost.KeepsPolicy 0 { owner := ⟨107, 107⟩, dynamic := true } := ⟨_, rfl, rfl, rfl⟩

/-- A guest that brings no label wants the owner of the manager, and its disk gets it. -/
theorem wanted_owner_imageDisk : ∃ t,
    imageHost.perform 0 (.setImage imageDisk) (.guest []) = (.ok (), t) ∧
      t.host.ownerOf? (.file imageDisk.path) = some ⟨107, 107⟩ := by
  have hh : Dac.HandsOver { owner := ⟨107, 107⟩, dynamic := true } (.guest []) := ⟨rfl, nofun⟩
  obtain ⟨t, -, ⟨wanted, -, hperform, -⟩ | ⟨hnone, -⟩⟩ :=
    perform_labelled?_cases keepsPolicy_imageHost hh labelled?_imageDisk
  · rw [give_imageDisk] at hperform
    obtain ⟨wanted, old, hwants, -, -, hexact⟩ :=
      labelled_resource_has_wanted_owner keepsPolicy_imageHost hh labelled?_imageDisk hperform
    obtain rfl : wanted = ⟨107, 107⟩ := hwants
    exact ⟨t, hperform, hexact.mpr ⟨nofun, nofun⟩⟩
  · exact absurd rfl (hnone ⟨107, 107⟩)

/-- A guest whose label names the ids that mean no change. -/
def reservedGuest : Definition := .guest [
  { model := some "dac", type := .static, label := some "+4294967295:+4294967295" }]

/-- The disk of the guest is labelled with success and stays with the owner that it had. -/
theorem reserved_ids_keep_owner : ∃ t,
    imageHost.perform 0 (.setImage imageDisk) reservedGuest = (.ok (), t) ∧
      Dac.Wants { owner := ⟨107, 107⟩, dynamic := true } reservedGuest
        ⟨4294967295, 4294967295⟩ ∧
      t.host.ownerOf? (.file imageDisk.path) = some ⟨0, 0⟩ := by
  have hh : Dac.HandsOver { owner := ⟨107, 107⟩, dynamic := true } reservedGuest :=
    ⟨rfl, fun e he => by obtain rfl := Option.some.inj he; rfl⟩
  have hparse : Ownership.parse "+4294967295:+4294967295" = .ok ⟨4294967295, 4294967295⟩ := by
    decide
  obtain ⟨t, -, ⟨wanted, hwants, hperform, hhost⟩ | ⟨hnone, -⟩⟩ :=
    perform_labelled?_cases keepsPolicy_imageHost hh labelled?_imageDisk
  · obtain rfl := Except.ok.inj (hparse.symm.trans hwants)
    have hresult : (imageHost.host.give ⟨4294967295, 4294967295⟩ (.file imageDisk.path)).1 =
        .ok () := congrArg Prod.fst (give_imageDisk _)
    rw [hresult] at hperform
    obtain ⟨old, hold, hnew⟩ := Host.ownerOf?_of_give (Prod.ext hresult hhost.symm)
    obtain rfl := Option.some.inj (owner_imageDisk.symm.trans hold)
    exact ⟨t, hperform, hparse, hnew⟩
  · exact absurd hparse (hnone ⟨4294967295, 4294967295⟩)

end Engine

end Confinement

import Confinement.Host.Basic

/-!
# What changes of owners change

A change of owner reaches the one file that the path leads to and leaves the tree as it is, so every
path leads where it led before, however many files have changed hands. Files that go back to the
host may do so again: a path that leads to a file for the second time makes no difference.
-/

namespace Confinement

namespace FileTree

variable (t : FileTree) (l : Location) (o : Ownership)

/-- What is at a location stays what it is. -/
theorem exists_node?_setOwner {t : FileTree} {k : Location} {n : FileNode}
    (h : t.node? k = some n) : ∃ owner, (t.setOwner l o).node? k = some ⟨n.content, owner⟩ := by
  rw [node?_setOwner, h, Option.map_some]
  by_cases hk : k = l
  · exact ⟨o, by rw [if_pos hk]⟩
  · exact ⟨n.owner, by rw [if_neg hk]⟩

theorem isDirectory_setOwner (k : Location) : (t.setOwner l o).isDirectory k = t.isDirectory k := by
  unfold isDirectory
  rw [node?_setOwner]
  rcases t.node? k with _ | ⟨content, owner⟩
  · rfl
  · by_cases hk : k = l
    · cases content <;> simp [hk]
    · simp [hk]

/-- Owners play no part on the way along a path. -/
theorem walk_setOwner (links : Nat) (here : Location) (segments : List String) :
    (t.setOwner l o).walk links here segments = t.walk links here segments := by
  fun_induction walk t links here segments with
  | case1 => rw [walk]
  | case2 links here s rest hd =>
    rw [walk]
    simp [isDirectory_setOwner, hd]
  | case3 links here s rest hd hidle ih =>
    rw [walk]
    simp [isDirectory_setOwner, hd, hidle, ih]
  | case4 links here rest hd hidle ih =>
    rw [walk]
    simp [isDirectory_setOwner, hd, hidle, ih]
  | case5 links here s rest hd hidle hup hlong =>
    rw [walk]
    simp [isDirectory_setOwner, hd, hidle, hup, hlong]
  | case6 links here s rest hd hidle hup hlong hnode =>
    rw [walk]
    simp [isDirectory_setOwner, hd, hidle, hup, hlong, node?_setOwner, hnode]
  | case7 here s rest hd hidle hup hlong target owner hnode =>
    obtain ⟨owner', hnode'⟩ := exists_node?_setOwner l o hnode
    rw [walk]
    simp [isDirectory_setOwner, hd, hidle, hup, hlong, hnode']
  | case8 here s rest hd hidle hup hlong target owner hnode links ih =>
    obtain ⟨owner', hnode'⟩ := exists_node?_setOwner l o hnode
    rw [walk]
    simpa [isDirectory_setOwner, hd, hidle, hup, hlong, hnode'] using ih
  | case9 links here s rest hd hidle hup hlong node hlink hnode ih =>
    obtain ⟨owner', hnode'⟩ := exists_node?_setOwner l o hnode
    obtain ⟨content, owner⟩ := node
    rw [walk]
    cases content with
    | link target => exact (hlink target owner rfl).elim
    | directory => simp [isDirectory_setOwner, hd, hidle, hup, hlong, hnode', ih]
    | file bytes => simp [isDirectory_setOwner, hd, hidle, hup, hlong, hnode', ih]

theorem locate_setOwner (here : Location) (p : Path) :
    (t.setOwner l o).locate here p = t.locate here p := by
  simp only [locate, walk_setOwner]

end FileTree

namespace Credentials

/-- Who may give a file to the host may do so again. -/
theorem mayGive_root {c : Credentials} {old : Ownership} (h : c.mayGive old .root = true) :
    c.mayGive .root .root = true := by
  have hzero : (Ownership.root.user == Ownership.unchanged) = false := by decide
  have hzero' : (Ownership.root.group == Ownership.unchanged) = false := by decide
  simp only [mayGive, hzero, hzero', Bool.false_or, Bool.or_eq_true, Bool.and_eq_true,
    beq_iff_eq] at h ⊢
  rcases h with hprivileged | ⟨⟨howns, hroot⟩, -⟩
  · exact .inl hprivileged
  · -- Without privileges only the user 0 may give a file to the user 0.
    have huser : c.ids.user = Ownership.root.user := howns.trans hroot.symm
    exact .inr ⟨⟨huser, trivial⟩, huser, .inr trivial⟩

theorem mayGive_of_privileged {c : Credentials} (h : c.privileged = true) (old new : Ownership) :
    c.mayGive old new = true := by
  simp [mayGive, h]

end Credentials

/-- What has an owner: the file that a path leads to, or an open file. -/
inductive Resource
  | file (path : Path)
  | descriptor (n : Nat)
  deriving DecidableEq, Repr

namespace Host

variable {h h' h'' : Host} {p : Path} {new : Ownership}

/-- The owner that a resource has. An open file that lies in the tree has the owner that it has
there. -/
def ownerOf? (h : Host) : Resource → Option Ownership
  | .file path => (h.files.locate h.directory path).toOption.bind h.files.owner?
  | .descriptor n =>
    (h.descriptors[n]?).bind fun f => f.location.elim (some f.owner) h.files.owner?

/-- Changes the owner of a resource. -/
def give (h : Host) (new : Ownership) : Resource → Except Error Unit × Host
  | .file path => h.chown path new
  | .descriptor n => h.chownOpen n new

/-! ### One change -/

theorem ownerOf?_file_eq_some_iff {o : Ownership} : h.ownerOf? (.file p) = some o ↔
    ∃ l, h.files.locate h.directory p = .ok l ∧ h.files.owner? l = some o := by
  cases hl : h.files.locate h.directory p with
  | error fault => simp [ownerOf?, hl, Except.toOption]
  | ok l => simp [ownerOf?, hl, Except.toOption]

/-- The owner of a file in the tree changes exactly if the file is there and may be given to the new
owner. A failure changes nothing. -/
theorem chownAt_cases (h : Host) (l : Location) (new : Ownership) (refusal : Error) :
    (∃ old, h.files.owner? l = some old ∧ h.credentials.mayGive old new = true ∧
      h.chownAt l new refusal =
        (.ok (), { h with files := h.files.setOwner l (old.updated new) })) ∨
    (∀ old, h.files.owner? l = some old → h.credentials.mayGive old new = false) ∧
      ∃ e, h.chownAt l new refusal = (.error e, h) := by
  unfold chownAt
  cases ho : h.files.owner? l with
  | none => exact .inr ⟨by simp, _, rfl⟩
  | some old =>
    cases hmay : h.credentials.mayGive old new with
    | true => exact .inl ⟨old, rfl, hmay, by simp [hmay]⟩
    | false => exact .inr ⟨by simp [hmay], refusal, by simp [hmay]⟩

/-- A change of owner succeeds exactly on a file that is there and may be given to the new owner. If
it fails it changes nothing. -/
theorem chown_cases (h : Host) (p : Path) (new : Ownership) :
    (∃ l old, h.files.locate h.directory p = .ok l ∧ h.files.owner? l = some old ∧
      h.credentials.mayGive old new = true ∧
      h.chown p new = (.ok (), { h with files := h.files.setOwner l (old.updated new) })) ∨
    (∀ old, h.ownerOf? (.file p) = some old → h.credentials.mayGive old new = false) ∧
      ∃ e, h.chown p new = (.error e, h) := by
  simp only [ownerOf?_file_eq_some_iff, chown]
  cases hl : h.files.locate h.directory p with
  | error fault => exact .inr ⟨by simp, _, rfl⟩
  | ok l =>
    rcases chownAt_cases h l new (chownFault p .notPermitted) with
      ⟨old, ho, hmay, hchown⟩ | ⟨hno, e, hchown⟩
    · exact .inl ⟨l, old, rfl, ho, hmay, hchown⟩
    · exact .inr ⟨by simpa using hno, e, hchown⟩

/-- The owner at a location after a change with success. -/
theorem owner?_of_chownAt {l : Location} {refusal : Error}
    (hchown : h.chownAt l new refusal = (.ok (), h')) :
    h'.descriptors = h.descriptors ∧ ∃ old, h.files.owner? l = some old ∧
      h'.files.owner? l = some (old.updated new) := by
  rcases chownAt_cases h l new refusal with ⟨old, ho, -, hout⟩ | ⟨-, e, hout⟩
  · obtain ⟨-, rfl⟩ := Prod.mk.inj (hchown.symm.trans hout)
    exact ⟨rfl, old, ho, by simp [FileTree.owner?_setOwner, ho]⟩
  · cases hchown.symm.trans hout

/-- A resource whose owner is changed with success has the new owner, but for ids that the request
keeps. -/
theorem ownerOf?_of_give {r : Resource} (hgive : h.give new r = (.ok (), h')) :
    ∃ old, h.ownerOf? r = some old ∧ h'.ownerOf? r = some (old.updated new) := by
  cases r with
  | file path =>
    rcases chown_cases h path new with ⟨l, old, hl, ho, -, hchown⟩ | ⟨-, e, hchown⟩
    · obtain ⟨-, rfl⟩ := Prod.mk.inj (hgive.symm.trans hchown)
      refine ⟨old, ownerOf?_file_eq_some_iff.mpr ⟨l, hl, ho⟩,
        ownerOf?_file_eq_some_iff.mpr ⟨l, ?_, ?_⟩⟩
      · simpa only [FileTree.locate_setOwner] using hl
      · simp [FileTree.owner?_setOwner, ho]
    · cases hgive.symm.trans hchown
  | descriptor n =>
    simp only [give, chownOpen] at hgive
    split at hgive
    · cases hgive
    · rename_i f hf
      split at hgive
      · rename_i l hl
        obtain ⟨hsame, old, hold, hnew⟩ := owner?_of_chownAt hgive
        exact ⟨old, by simp [ownerOf?, hf, hl, hold], by simp [ownerOf?, hsame, hf, hl, hnew]⟩
      · rename_i hl
        split at hgive
        · obtain ⟨-, rfl⟩ := Prod.mk.inj hgive
          obtain ⟨hlt, -⟩ := List.getElem?_eq_some_iff.mp hf
          exact ⟨f.owner, by simp [ownerOf?, hf, hl], by simp [ownerOf?, hlt, hl]⟩
        · cases hgive

/-! ### Several changes -/

variable {ps qs : List Path} {l : Location}

/-- A location that one of the paths leads to. -/
def Leads (h : Host) (ps : List Path) (l : Location) : Prop :=
  ∃ p ∈ ps, h.files.locate h.directory p = .ok l

theorem leads_append : h.Leads (ps ++ qs) l ↔ h.Leads ps l ∨ h.Leads qs l := by
  simp [Leads, or_and_right, exists_or]

/-- The hosts differ in nothing but the owners of files. -/
structure SameButOwners (h h' : Host) : Prop where
  locate : ∀ here p, h'.files.locate here p = h.files.locate here p
  /-- Every file has an owner as before. -/
  present : ∀ l, (h'.files.owner? l).isSome = (h.files.owner? l).isSome
  directory : h'.directory = h.directory
  descriptors : h'.descriptors = h.descriptors
  processes : h'.processes = h.processes
  credentials : h'.credentials = h.credentials
  modules : h'.modules = h.modules
  services : h'.services = h.services

namespace SameButOwners

theorem refl (h : Host) : h.SameButOwners h where
  locate _ _ := rfl
  present _ := rfl
  directory := rfl
  descriptors := rfl
  processes := rfl
  credentials := rfl
  modules := rfl
  services := rfl

theorem trans (hs : h.SameButOwners h') (hs' : h'.SameButOwners h'') : h.SameButOwners h'' where
  locate here p := (hs'.locate here p).trans (hs.locate here p)
  present l := (hs'.present l).trans (hs.present l)
  directory := hs'.directory.trans hs.directory
  descriptors := hs'.descriptors.trans hs.descriptors
  processes := hs'.processes.trans hs.processes
  credentials := hs'.credentials.trans hs.credentials
  modules := hs'.modules.trans hs.modules
  services := hs'.services.trans hs.services

theorem leads_iff (hs : h.SameButOwners h') : h'.Leads ps l ↔ h.Leads ps l := by
  simp only [Leads, hs.locate, hs.directory]

/-- What has an owner keeps having one. -/
theorem isSome_ownerOf? (hs : h.SameButOwners h') (r : Resource) :
    (h'.ownerOf? r).isSome = (h.ownerOf? r).isSome := by
  cases r with
  | file path =>
    simp only [ownerOf?, hs.locate, hs.directory]
    cases (h.files.locate h.directory path).toOption with
    | none => rfl
    | some l => exact hs.present l
  | descriptor n =>
    simp only [ownerOf?, hs.descriptors]
    rcases h.descriptors[n]? with _ | ⟨link, _ | l, owner⟩
    · rfl
    · rfl
    · exact hs.present l

theorem chown (h : Host) (p : Path) (new : Ownership) : h.SameButOwners (h.chown p new).2 := by
  rcases chown_cases h p new with ⟨l, old, -, -, -, hchown⟩ | ⟨-, e, hchown⟩
  · rw [hchown]
    refine ⟨fun here q => FileTree.locate_setOwner .., fun k => ?_, rfl, rfl, rfl, rfl, rfl, rfl⟩
    rw [FileTree.owner?_setOwner]
    split <;> simp
  · rw [hchown]
    exact .refl h

end SameButOwners

/-- No files but those that the paths lead to have been handed over. -/
structure HandedOver (ps : List Path) (h h' : Host) : Prop where
  same : h.SameButOwners h'
  owners : ∀ l, ¬h.Leads ps l → h'.files.owner? l = h.files.owner? l

namespace HandedOver

theorem refl (ps : List Path) (h : Host) : HandedOver ps h h := ⟨.refl h, fun _ _ => rfl⟩

theorem trans (ho : HandedOver ps h h') (ho' : HandedOver ps h' h'') : HandedOver ps h h'' where
  same := ho.same.trans ho'.same
  owners l hl := by
    rw [ho'.owners l (by rwa [ho.same.leads_iff]), ho.owners l hl]

theorem chown (hp : p ∈ ps) (h : Host) (new : Ownership) :
    HandedOver ps h (h.chown p new).2 where
  same := .chown h p new
  owners := by
    intro k hk
    rcases chown_cases h p new with ⟨l, old, hl, -, -, hchown⟩ | ⟨-, e, hchown⟩
    · have hne : k ≠ l := by
        rintro rfl
        exact hk ⟨p, hp, hl⟩
      rw [hchown, FileTree.owner?_setOwner, if_neg hne]
    · rw [hchown]

end HandedOver

/-- The process may give the file at a location back to the host. -/
def MayGiveBack (h : Host) (l : Location) : Prop :=
  ∃ old, h.files.owner? l = some old ∧ h.credentials.mayGive old .root = true

/-- A privileged process may give back every file that there is. -/
theorem mayGiveBack_of_privileged (hp : h.credentials.privileged = true)
    (ho : (h.files.owner? l).isSome = true) : h.MayGiveBack l := by
  obtain ⟨old, hold⟩ := Option.isSome_iff_exists.mp ho
  exact ⟨old, hold, Credentials.mayGive_of_privileged hp old .root⟩

/-- It was tried to give back all files that the paths lead to. What may be given back belongs to
the host then, and no other file has changed hands. -/
structure GivenBack (ps : List Path) (h : Host) (r : Except Error Unit) (h' : Host) : Prop where
  same : h.SameButOwners h'
  given : ∀ l, h.Leads ps l → h.MayGiveBack l → h'.files.owner? l = some .root
  kept : ∀ l, ¬(h.Leads ps l ∧ h.MayGiveBack l) → h'.files.owner? l = h.files.owner? l
  result : r = .ok () ↔ ∀ p ∈ ps, ∃ l, h.files.locate h.directory p = .ok l ∧ h.MayGiveBack l

namespace GivenBack

variable {r r' : Except Error Unit}

theorem nil (h : Host) : GivenBack [] h (.ok ()) h where
  same := .refl h
  given _ hl := by simp [Leads] at hl
  kept _ _ := rfl
  result := by simp

theorem chown (h : Host) (p : Path) :
    GivenBack [p] h (h.chown p .root).1 (h.chown p .root).2 := by
  have hleads : ∀ l, h.Leads [p] l ↔ h.files.locate h.directory p = .ok l := by simp [Leads]
  have hsame := SameButOwners.chown h p .root
  rcases chown_cases h p .root with ⟨l, old, hl, ho, hmay, hchown⟩ | ⟨hno, e, hchown⟩
  · have hback : h.MayGiveBack l := ⟨old, ho, hmay⟩
    have hroot : old.updated .root = .root := rfl
    rw [hchown, hroot] at hsame ⊢
    refine ⟨hsame, fun k hk _ => ?_, fun k hk => ?_, by simpa [hl] using hback⟩
    · obtain rfl := Except.ok.inj (hl.symm.trans ((hleads k).mp hk))
      simp [FileTree.owner?_setOwner, ho]
    · have hne : k ≠ l := by
        rintro rfl
        exact hk ⟨(hleads k).mpr hl, hback⟩
      rw [FileTree.owner?_setOwner, if_neg hne]
  · have hback : ∀ l, h.files.locate h.directory p = .ok l → ¬h.MayGiveBack l := by
      rintro l hl ⟨old, ho, hmay⟩
      rw [hno old (ownerOf?_file_eq_some_iff.mpr ⟨l, hl, ho⟩)] at hmay
      cases hmay
    rw [hchown]
    exact ⟨.refl h, fun k hk hmay => absurd hmay (hback k ((hleads k).mp hk)), fun _ _ => rfl,
      by simpa using hback⟩

/-- Only the set of paths matters. -/
theorem congr (hg : GivenBack ps h r h') (hqs : ∀ p, p ∈ qs ↔ p ∈ ps) : GivenBack qs h r h' := by
  have hleads : ∀ l, h.Leads qs l ↔ h.Leads ps l := fun l => by simp only [Leads, hqs]
  refine ⟨hg.same, fun l hl => hg.given l ((hleads l).mp hl), fun l hl => hg.kept l ?_, ?_⟩
  · rwa [← hleads]
  · simp only [hg.result, hqs]

/-- If every path leads to a file, all is given back as soon as every file may be. -/
theorem result_iff (hg : GivenBack ps h r h')
    (hfound : ∀ p ∈ ps, (h.ownerOf? (.file p)).isSome = true) :
    r = .ok () ↔ ∀ l, h.Leads ps l → h.MayGiveBack l := by
  rw [hg.result]
  constructor
  · rintro hall l ⟨p, hp, hl⟩
    obtain ⟨k, hk, hmay⟩ := hall p hp
    obtain rfl := Except.ok.inj (hl.symm.trans hk)
    exact hmay
  · intro hall p hp
    obtain ⟨old, hold⟩ := Option.isSome_iff_exists.mp (hfound p hp)
    obtain ⟨l, hl, -⟩ := ownerOf?_file_eq_some_iff.mp hold
    exact ⟨l, hl, hall l ⟨p, hp, hl⟩⟩

/-- Whether a file may be given back does not change on the way. -/
theorem mayGiveBack_iff (hg : GivenBack ps h r h') (l : Location) :
    h'.MayGiveBack l ↔ h.MayGiveBack l := by
  by_cases hback : h.Leads ps l ∧ h.MayGiveBack l
  · have hroot := hg.given l hback.1 hback.2
    obtain ⟨old, -, hmay⟩ := hback.2
    refine iff_of_true ⟨.root, hroot, ?_⟩ hback.2
    rw [hg.same.credentials]
    exact Credentials.mayGive_root hmay
  · rw [MayGiveBack, hg.kept l hback, hg.same.credentials]
    rfl

theorem append (hg : GivenBack ps h r h') (hg' : GivenBack qs h' r' h'') :
    GivenBack (ps ++ qs) h (firstFailure r r') h'' where
  same := hg.same.trans hg'.same
  given := by
    intro l hl hmay
    have hqs : h'.Leads qs l ↔ h.Leads qs l := hg.same.leads_iff
    rw [leads_append, ← hqs] at hl
    by_cases hlater : h'.Leads qs l
    · exact hg'.given l hlater ((hg.mayGiveBack_iff l).mpr hmay)
    · rw [hg'.kept l fun hback => hlater hback.1]
      exact hg.given l (hl.resolve_right hlater) hmay
  kept := by
    intro l hl
    have hqs : h'.Leads qs l ↔ h.Leads qs l := hg.same.leads_iff
    rw [leads_append, ← hqs] at hl
    rw [hg'.kept l fun hback => hl ⟨.inr hback.1, (hg.mayGiveBack_iff l).mp hback.2⟩,
      hg.kept l fun hback => hl ⟨.inl hback.1, hback.2⟩]
  result := by
    simp only [firstFailure_eq_ok_iff, hg.result, hg'.result, hg.mayGiveBack_iff, hg.same.locate,
      hg.same.directory, List.mem_append, or_imp, forall_and]

end GivenBack

end Host

end Confinement

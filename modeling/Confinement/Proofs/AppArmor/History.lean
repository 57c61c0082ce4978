import Confinement.Manager.Stored
import Confinement.Proofs.AppArmor.Grants
import Confinement.Proofs.Definition.Entries
import Confinement.Proofs.Manager.Requests

/-!
# The last request about a path decides

A manager of profiles is asked to label and to restore the resources of many domains, and to release
domains, in any order. What its rules then let a domain do with a path is what the last request says
that was about this domain and this path. So the profile of one domain shows nothing of what was
asked for others.
-/

namespace Confinement.AppArmor

/-! ### What a request is about -/

/-- A request about a domain, with the host and the definition as they are when it is made. -/
structure Occasion where
  host : Host
  definition : Definition
  operation : Operation

namespace Occasion

/-- The rule that the request asks for. An open file is known by its link. -/
def wanted? (o : Occasion) : Option (Path × Access) :=
  match o.operation with
  | .setImage disk =>
    if disk.noRelabel then none
    else some (disk.path, if disk.readOnly then .read else .readWrite)
  | .setDevice device root => some (device.pathIn root, .readWrite)
  | .setSavedState path => some (path, .readWrite)
  | .setOpenImage descriptor => (o.host.descriptors[descriptor]?).map (·.link, .readWrite)
  | .setOpenTap descriptor => (o.host.descriptors[descriptor]?).map (·.link, .readWrite)
  | _ => none

/-- The path that the request restores. -/
def restored? (o : Occasion) : Option Path :=
  match o.operation with
  | .restoreImage disk => some disk.path
  | .restoreDevice device root => some (device.pathIn root)
  | .restoreSavedState path => some path
  | _ => none

/-- The resources of the domain are labelled at all. -/
def Relabels (o : Occasion) : Prop :=
  ∃ e, o.definition.findEntry model = some e ∧ e.relabels = true

/-- The request gives the domain with a UUID an access to a path. -/
structure Gives (o : Occasion) (uuid : Uuid) (p : Path) (a : Access) : Prop where
  domain : o.definition.uuid = uuid
  relabels : o.Relabels
  wanted : ∃ q, o.wanted? = some (q, a) ∧ p.same q = true

/-- The request takes a path from the domain with a UUID, by itself or with all others. -/
structure Takes (o : Occasion) (uuid : Uuid) (p : Path) : Prop where
  domain : o.definition.uuid = uuid
  taken : o.operation = .release ∨ ∃ q, o.restored? = some q ∧ p.same q = true

/-- The request says what the domain with a UUID may do with a path. -/
def Decides (o : Occasion) (uuid : Uuid) (p : Path) : Prop :=
  (∃ a, o.Gives uuid p a) ∨ o.Takes uuid p

/-- All that a request can do to the rules of the manager. -/
inductive Change (o : Occasion) (rules : Rules) : Rules → Prop
  | granted {path : Path} {access : Access} (relabels : o.Relabels)
      (wanted : o.wanted? = some (path, access)) :
      Change o rules (rules.edit o.definition.uuid (Grants.insert path access))
  | restored {path : Path} (restored : o.restored? = some path) :
      Change o rules (rules.map fun (u, g) =>
        if u = o.definition.uuid then (u, g.erase path) else (u, g))
  | released (release : o.operation = .release) :
      Change o rules (rules.release o.definition.uuid)
  | none (ungranted : o.wanted? = none ∨ ¬o.Relabels) (unrestored : o.restored? = none)
      (unreleased : o.operation ≠ .release) : Change o rules rules

end Occasion

/-! ### What a request does to the rules -/

namespace Rules

theorem grants_cons (u : Uuid) (g : Grants) (rules : Rules) (uuid : Uuid) :
    grants ((u, g) :: rules) uuid = if uuid = u then g else rules.grants uuid := by
  by_cases h : uuid = u
  · simp [grants, h]
  · have hne : (uuid == u) = false := by simpa using h
    simp [grants, List.lookup_cons, h, hne]

theorem grants_map_erase (rules : Rules) (uuid other : Uuid) (path : Path) :
    grants (rules.map fun (u, g) => if u = uuid then (u, g.erase path) else (u, g)) other =
      if other = uuid then (rules.grants uuid).erase path else rules.grants other := by
  induction rules with
  | nil => simp [grants, Grants.erase]
  | cons r rest ih =>
    obtain ⟨u, g⟩ := r
    simp only [List.map_cons]
    by_cases hu : u = uuid
    · subst hu
      rw [if_pos rfl, grants_cons, grants_cons, grants_cons, ih]
      by_cases ho : other = u <;> simp [ho]
    · rw [if_neg hu, grants_cons, grants_cons, grants_cons, ih, if_neg (Ne.symm hu)]
      by_cases ho : other = u
      · simp [ho, hu]
      · simp [ho]

/-- The rules of every domain stand in the order of their paths. -/
def Sorted (rules : Rules) : Prop := ∀ uuid, (rules.grants uuid).Sorted

end Rules

namespace Occasion

variable {o : Occasion} {rules rules' : Rules} {uuid : Uuid} {path p : Path} {access a : Access}

/-- A request to label restores nothing. -/
theorem restored?_of_wanted? {r : Path × Access} (h : o.wanted? = some r) :
    o.restored? = none ∧ o.operation ≠ .release := by
  obtain ⟨host, definition, operation⟩ := o
  cases operation with
  | release | restoreImage | restoreDevice | restoreSavedState => cases h
  | _ => exact ⟨rfl, nofun⟩

theorem wanted?_of_restored? (h : o.restored? = some path) : o.wanted? = none := by
  cases hw : o.wanted? with
  | none => rfl
  | some r => cases h.symm.trans (restored?_of_wanted? hw).1

theorem gives_iff (hl : o.Relabels) (hw : o.wanted? = some (path, access)) :
    o.Gives o.definition.uuid p a ↔ p.same path = true ∧ access = a := by
  constructor
  · rintro ⟨-, -, q, hq, hsame⟩
    obtain ⟨rfl, rfl⟩ := Prod.mk.inj (Option.some.inj (hw.symm.trans hq))
    exact ⟨hsame, rfl⟩
  · rintro ⟨hsame, rfl⟩
    exact ⟨rfl, hl, path, hw, hsame⟩

theorem not_gives (h : o.wanted? = none ∨ ¬o.Relabels) : ¬o.Gives uuid p a := by
  rintro ⟨-, hl, q, hq, -⟩
  rcases h with hw | hno
  · cases hw.symm.trans hq
  · exact hno hl

theorem takes_iff (hr : o.restored? = some path) :
    o.Takes o.definition.uuid p ↔ p.same path = true := by
  constructor
  · rintro ⟨-, hrelease | ⟨q, hq, hsame⟩⟩
    · simp [restored?, hrelease] at hr
    · obtain rfl := Option.some.inj (hr.symm.trans hq)
      exact hsame
  · exact fun hsame => ⟨rfl, .inr ⟨path, hr, hsame⟩⟩

theorem not_takes (hr : o.restored? = none) (hrelease : o.operation ≠ .release) :
    ¬o.Takes uuid p := by
  rintro ⟨-, h | ⟨q, hq, -⟩⟩
  · exact hrelease h
  · cases hr.symm.trans hq

namespace Change

/-- The rules of other domains stay as they are. -/
theorem grants_of_ne (h : o.Change rules rules') (hne : o.definition.uuid ≠ uuid) :
    rules'.grants uuid = rules.grants uuid := by
  cases h with
  | granted relabels wanted => rw [Rules.grants_edit, if_neg hne.symm]
  | restored restored => rw [Rules.grants_map_erase, if_neg hne.symm]
  | released release => rw [Rules.grants_release, if_neg hne.symm]
  | none ungranted unrestored unreleased => rfl

theorem sorted (h : o.Change rules rules') (hs : rules.Sorted) : rules'.Sorted := by
  intro uuid
  by_cases hu : o.definition.uuid = uuid
  · subst hu
    cases h with
    | granted relabels wanted =>
      rw [Rules.grants_edit, if_pos rfl]
      exact (hs _).insert ..
    | restored restored =>
      rw [Rules.grants_map_erase, if_pos rfl]
      exact (hs _).erase _
    | released release =>
      rw [Rules.grants_release, if_pos rfl]
      exact Grants.sorted_nil
    | none ungranted unrestored unreleased => exact hs _
  · rw [h.grants_of_ne hu]
    exact hs uuid

/-- The rules say what the request says, and where it says nothing, what they said before. -/
theorem access?_eq_some_iff (h : o.Change rules rules') :
    (rules'.grants uuid).access? p = some a ↔
      o.Gives uuid p a ∨ ¬o.Decides uuid p ∧ (rules.grants uuid).access? p = some a := by
  by_cases hu : o.definition.uuid = uuid
  · subst hu
    cases h with
    | @granted path access relabels wanted =>
      obtain ⟨hrest, hrelease⟩ := restored?_of_wanted? wanted
      rw [Rules.grants_edit, if_pos rfl, Grants.access?_insert]
      simp only [Decides, gives_iff relabels wanted, not_takes hrest hrelease, or_false]
      by_cases hsame : p.same path = true <;> simp [hsame]
    | @restored path restored =>
      have hgives : ∀ b, ¬o.Gives o.definition.uuid p b := fun b =>
        not_gives (.inl (wanted?_of_restored? restored))
      rw [Rules.grants_map_erase, if_pos rfl, Grants.access?_erase]
      simp only [Decides, hgives, exists_false, takes_iff restored, false_or]
      by_cases hsame : p.same path = true <;> simp [hsame]
    | released release =>
      have htakes : o.Takes o.definition.uuid p := ⟨rfl, .inl release⟩
      have hgives : ¬o.Gives o.definition.uuid p a := by
        refine not_gives (.inl ?_)
        simp [wanted?, release]
      rw [Rules.grants_release, if_pos rfl, Grants.access?_nil]
      simp [Decides, htakes, hgives]
    | none ungranted unrestored unreleased =>
      have hgives : ∀ b, ¬o.Gives o.definition.uuid p b := fun b => not_gives ungranted
      simp [Decides, hgives, not_takes unrestored unreleased]
  · have hgives : ∀ b, ¬o.Gives uuid p b := fun b hg => hu hg.domain
    have htakes : ¬o.Takes uuid p := fun ht => hu ht.domain
    rw [h.grants_of_ne hu]
    simp [Decides, hgives, htakes]

end Change

end Occasion

section Perform

variable {s : Scene} {rules : Rules}

theorem rules_eq (hs : s.state = .apparmor rules) : s.rules = .ok rules := by
  simp [Scene.rules, hs]

/-- A rule is added to those of the domain if its resources are labelled. -/
theorem change_grant (hs : s.state = .apparmor rules) {op : Operation} {path : Path}
    {access : Access} (hw : (Occasion.mk s.host s.definition op).wanted? = some (path, access)) :
    ∃ rules', (grant s path access).2.state = .apparmor rules' ∧
      (Occasion.mk s.host s.definition op).Change rules rules' := by
  obtain ⟨hrest, hrel⟩ := Occasion.restored?_of_wanted? hw
  unfold grant
  cases hf : s.findEntry model with
  | none =>
    have hl : ¬(Occasion.mk s.host s.definition op).Relabels := by
      rintro ⟨e, he, -⟩
      cases hf.symm.trans he
    exact ⟨rules, hs, .none (.inr hl) hrest hrel⟩
  | some e =>
    by_cases he : e.relabels = true
    · refine ⟨_, ?_, .granted ⟨e, hf, he⟩ hw⟩
      simp [editRules, rules_eq hs, Scene.keep, Except.map, he]
    · have hl : ¬(Occasion.mk s.host s.definition op).Relabels := by
        rintro ⟨e', he', hrelabels⟩
        obtain rfl := Option.some.inj (hf.symm.trans he')
        exact he hrelabels
      refine ⟨rules, ?_, .none (.inr hl) hrest hrel⟩
      simpa [he, Scene.done] using hs

/-- A descriptor stands for the file that it leads to. -/
theorem change_grant_open (hs : s.state = .apparmor rules) {op : Operation} {descriptor : Nat}
    (hop : op = .setOpenImage descriptor ∨ op = .setOpenTap descriptor) :
    ∃ rules', (s.after (s.host.descriptorPath descriptor) fun path =>
        grant s path .readWrite).2.state = .apparmor rules' ∧
      (Occasion.mk s.host s.definition op).Change rules rules' := by
  have hw : (Occasion.mk s.host s.definition op).wanted? =
      (s.host.descriptors[descriptor]?).map (·.link, .readWrite) := by
    rcases hop with rfl | rfl <;> rfl
  unfold Host.descriptorPath
  cases hd : s.host.descriptors[descriptor]? with
  | none =>
    rw [hd, Option.map_none] at hw
    refine ⟨rules, hs, .none (.inl hw) ?_ ?_⟩
    · rcases hop with rfl | rfl <;> rfl
    · rcases hop with rfl | rfl <;> nofun
  | some file =>
    rw [hd, Option.map_some] at hw
    exact change_grant hs hw

theorem change_revoke (hs : s.state = .apparmor rules) {op : Operation} {path : Path}
    (hr : (Occasion.mk s.host s.definition op).restored? = some path) :
    ∃ rules', (revoke s path).2.state = .apparmor rules' ∧
      (Occasion.mk s.host s.definition op).Change rules rules' := by
  refine ⟨_, ?_, .restored hr⟩
  simp [revoke, editRules, rules_eq hs, Scene.keep, Except.map]

/-- To run under a profile changes nothing but the host. -/
theorem state_setProcess (s : Scene) : (setProcess s).2.state = s.state := by
  unfold setProcess
  split
  · rfl
  · split
    · rfl
    · split
      · rfl
      · split
        · cases renderProfile s <;> rfl
        · rfl

/-- Whatever is asked, the rules change as the request says, and in no other way. -/
theorem change_perform (hs : s.state = .apparmor rules) (op : Operation) :
    ∃ rules', (perform op s).2.state = .apparmor rules' ∧
      (Occasion.mk s.host s.definition op).Change rules rules' := by
  cases op with
  | setImage disk =>
    unfold perform
    by_cases hd : disk.noRelabel = true
    · simp only [hd, if_true]
      refine ⟨rules, hs, .none (.inl ?_) rfl nofun⟩
      simp [Occasion.wanted?, hd]
    · simp only [hd, Bool.false_eq_true, if_false]
      refine change_grant hs ?_
      simp [Occasion.wanted?, hd]
  | setDevice device root => exact change_grant hs rfl
  | setSavedState path => exact change_grant hs rfl
  | setOpenImage descriptor => exact change_grant_open hs (.inl rfl)
  | setOpenTap descriptor => exact change_grant_open hs (.inr rfl)
  | restoreImage disk => exact change_revoke hs rfl
  | restoreDevice device root => exact change_revoke hs rfl
  | restoreSavedState path => exact change_revoke hs rfl
  | release =>
    refine ⟨_, ?_, .released rfl⟩
    simp [perform, rules_eq hs]
  | generate =>
    refine ⟨rules, ?_, .none (.inl rfl) rfl nofun⟩
    unfold perform
    cases generate s.definition <;> exact hs
  | setProcess => exact ⟨rules, (state_setProcess s).trans hs, .none (.inl rfl) rfl nofun⟩
  | _ => exact ⟨rules, hs, .none (.inl rfl) rfl nofun⟩

end Perform

end Confinement.AppArmor

namespace Confinement.Engine

open AppArmor

variable {s : Engine} {id : ManagerId} {rules : Rules} {d : Definition}

/-! ### Requests to the manager -/

/-- A manager of profiles, with the rules that it keeps. -/
def KeepsRules (s : Engine) (id : ManagerId) (rules : Rules) : Prop :=
  ∃ m, s.manager? id = some m ∧ m.driver = .apparmor ∧ m.state = .apparmor rules

theorem KeepsRules.unique {rules' : Rules} (h : s.KeepsRules id rules)
    (h' : s.KeepsRules id rules') : rules = rules' := by
  obtain ⟨m, hm, -, hstate⟩ := h
  obtain ⟨m', hm', -, hstate'⟩ := h'
  obtain rfl := Option.some.inj (hm.symm.trans hm')
  exact DriverState.apparmor.inj (hstate.symm.trans hstate')

/-- The engine once a manager has been asked. -/
def meet (id : ManagerId) (s : Engine) (o : Occasion) : Engine :=
  (edit id o.operation ⟨{ s with host := o.host }, o.definition⟩).2.engine

/-- The engine once a manager has been asked on several occasions. -/
def meetAll (id : ManagerId) (os : List Occasion) (s : Engine) : Engine := os.foldl (meet id) s

theorem change_meet (hk : s.KeepsRules id rules) (o : Occasion) :
    ∃ rules', (s.meet id o).KeepsRules id rules' ∧ o.Change rules rules' := by
  obtain ⟨m, hm, hd, hstate⟩ := hk
  have hm' : ({ s with host := o.host } : Engine).manager? id = some m := hm
  have hn : m.members? = none := Manager.members?_of_ne (by rw [hd]; decide)
  have hhooks : m.driver.hooks.perform s.trace o.operation o.definition = none := by
    rw [hd]
    rfl
  by_cases hop : o.operation = .verify
  · -- A check is not even passed on if there is no entry to check.
    refine ⟨rules, ?_, .none (.inl ?_) ?_ ?_⟩
    · unfold meet
      rw [edit_of_members?_none hm' hn, Stage.visit, manager_eq_ok_iff.mpr hm']
      dsimp only
      split
      · exact ⟨m, hm', hd, hstate⟩
      · rw [hhooks]
        refine ⟨_, Stage.manager?_leave hm' _ _, hd, ?_⟩
        simp only [hd, hop]
        exact hstate
    · simp [Occasion.wanted?, hop]
    · simp [Occasion.restored?, hop]
    · simp [hop]
  · obtain ⟨rules', hstate', hchange⟩ :=
      change_perform (s := (Stage.mk { s with host := o.host } o.definition).scene m)
        hstate o.operation
    refine ⟨rules', ?_, hchange⟩
    unfold meet
    rw [edit_of_hooks_none hm' hn hop hhooks]
    refine ⟨_, Stage.manager?_leave hm' _ _, hd, ?_⟩
    simp only [hd]
    exact hstate'

/-- The profile of a domain shows the rules of this domain. -/
theorem profile_eq (hk : s.KeepsRules id rules) (d : Definition) :
    s.profile id d = match (d.findEntry model).bind (·.label) with
      | none => .error (.driver model .noProfileName)
      | some name => .ok (render name (rules.grants d.uuid)) := by
  obtain ⟨m, hm, hd, hstate⟩ := hk
  unfold profile
  rw [manager_eq_ok_iff.mpr hm]
  dsimp only
  unfold renderProfile
  rw [rules_eq (s := ⟨m.driver.name, m.state, s.host, d⟩) hstate]
  rfl

/-! ### Runs -/

/-- The last request of a run that decides about a path gives the access. -/
def LastGives (os : List Occasion) (uuid : Uuid) (p : Path) (a : Access) : Prop :=
  ∃ before o after, os = before ++ o :: after ∧ o.Gives uuid p a ∧
    ∀ later ∈ after, ¬later.Decides uuid p

theorem lastGives_cons_iff {o : Occasion} {os : List Occasion} {uuid : Uuid} {p : Path}
    {a : Access} : LastGives (o :: os) uuid p a ↔
      LastGives os uuid p a ∨ o.Gives uuid p a ∧ ∀ later ∈ os, ¬later.Decides uuid p := by
  constructor
  · rintro ⟨before, o', after, hsplit, hgives, hlater⟩
    cases before with
    | nil =>
      obtain ⟨rfl, rfl⟩ := List.cons.inj hsplit
      exact .inr ⟨hgives, hlater⟩
    | cons _ before =>
      obtain ⟨-, rfl⟩ := List.cons.inj hsplit
      exact .inl ⟨before, o', after, rfl, hgives, hlater⟩
  · rintro (⟨before, o', after, rfl, hgives, hlater⟩ | ⟨hgives, hlater⟩)
    · exact ⟨o :: before, o', after, rfl, hgives, hlater⟩
    · exact ⟨[], o, os, rfl, hgives, hlater⟩

/-- After a run the rules say what its last word on a path is, or what they said before it. -/
theorem access?_meetAll (hk : s.KeepsRules id rules) (os : List Occasion) :
    ∃ rules', (s.meetAll id os).KeepsRules id rules' ∧ (rules.Sorted → rules'.Sorted) ∧
      ∀ uuid p a, (rules'.grants uuid).access? p = some a ↔ LastGives os uuid p a ∨
        (∀ o ∈ os, ¬o.Decides uuid p) ∧ (rules.grants uuid).access? p = some a := by
  induction os generalizing s rules with
  | nil =>
    refine ⟨rules, hk, fun hs => hs, fun uuid p a => ?_⟩
    simp [LastGives]
  | cons o os ih =>
    obtain ⟨rules₁, hk₁, hchange⟩ := change_meet hk o
    obtain ⟨rules', hk', hsorted, hiff⟩ := ih hk₁
    refine ⟨rules', hk', fun hs => hsorted (hchange.sorted hs), fun uuid p a => ?_⟩
    rw [hiff, hchange.access?_eq_some_iff, lastGives_cons_iff, List.forall_mem_cons]
    grind

/-- Requests about other domains do not show in the profile of a domain. -/
theorem profile_meetAll (hk : s.KeepsRules id rules) {os : List Occasion}
    (hos : ∀ o ∈ os, o.definition.uuid ≠ d.uuid) :
    (s.meetAll id os).profile id d = s.profile id d := by
  induction os generalizing s rules with
  | nil => rfl
  | cons o os ih =>
    obtain ⟨ho, hos⟩ := List.forall_mem_cons.mp hos
    obtain ⟨rules', hk', hchange⟩ := change_meet hk o
    have hfirst : (s.meet id o).profile id d = s.profile id d := by
      rw [profile_eq hk', profile_eq hk, hchange.grants_of_ne ho]
    exact (ih hk' hos).trans hfirst

/-- Whatever a manager of profiles is asked, and about whichever domains, a domain has an access to
a path exactly if the last request that decides about the two gives it. Requests about other domains
change nothing in the profile of a domain. -/
theorem rules_follow_last_request (hk : s.KeepsRules id []) (os : List Occasion) :
    (∃ rules, (s.meetAll id os).KeepsRules id rules ∧ ∀ uuid p a,
      (rules.grants uuid).access? p = some a ↔
        ∃ before o after, os = before ++ o :: after ∧ o.Gives uuid p a ∧
          ∀ later ∈ after, ¬later.Decides uuid p) ∧
    ∀ d more, (∀ o ∈ more, o.definition.uuid ≠ d.uuid) →
      (s.meetAll id (os ++ more)).profile id d = (s.meetAll id os).profile id d := by
  obtain ⟨rules, hrules, -, hiff⟩ := access?_meetAll hk os
  refine ⟨⟨rules, hrules, fun uuid p a => ?_⟩, fun d more hmore => ?_⟩
  · have hempty : (Rules.grants [] uuid).access? p ≠ some a := nofun
    rw [hiff, or_iff_left fun h => hempty h.2]
    rfl
  · have hsplit : s.meetAll id (os ++ more) = (s.meetAll id os).meetAll id more :=
      List.foldl_append
    rw [hsplit, profile_meetAll hrules hmore]

/-- A manager of profiles without rules. -/
def profileHost : Engine where
  managers := [some ⟨.apparmor, "qemu", {}, .apparmor []⟩]
  held := [0]

/-- A guest that is labelled with a profile of its own. -/
def namedGuest : Definition :=
  .guest [{ LabelEntry.supplied "apparmor" .dynamic with
    label := some "seclabel-00000000-0000-0000-0000-000000000000"
    imageLabel := some "seclabel-00000000-0000-0000-0000-000000000000" }]

/-- The guest under another UUID. -/
def otherGuest : Definition :=
  { namedGuest with uuid := ⟨List.replicate 32 ⟨1, by decide⟩, rfl⟩ }

/-- The guest is given a file, first to write and then, in another spelling, only to read. Another
file is restored meanwhile. -/
def sharedImage : List Occasion :=
  [⟨{}, namedGuest, .setImage { path := ⟨"/images/a.img"⟩ }⟩,
   ⟨{}, namedGuest, .setImage { path := ⟨"/images//./a.img"⟩, readOnly := true }⟩,
   ⟨{}, namedGuest, .restoreImage { path := ⟨"/images/b.img"⟩ }⟩]

/-- The guest may read the file, by any spelling of its path, and it does not matter to its profile
that the other guest is given the file, too, and is then released. -/
theorem access_sharedImage :
    (∃ rules, (profileHost.meetAll 0 sharedImage).KeepsRules 0 rules ∧
      (rules.grants namedGuest.uuid).access? ⟨"/images/a.img/"⟩ = some .read) ∧
    (profileHost.meetAll 0 (sharedImage ++
        [⟨{}, otherGuest, .setImage { path := ⟨"/images/a.img"⟩ }⟩, ⟨{}, otherGuest, .release⟩])
      ).profile 0 namedGuest = (profileHost.meetAll 0 sharedImage).profile 0 namedGuest := by
  have hk : profileHost.KeepsRules 0 [] := ⟨_, rfl, rfl, rfl⟩
  have hother : otherGuest.uuid ≠ namedGuest.uuid := by decide
  obtain ⟨⟨rules, hrules, hiff⟩, happart⟩ := rules_follow_last_request hk sharedImage
  refine ⟨⟨rules, hrules, (hiff _ _ _).mpr
    ⟨sharedImage.take 1, _, sharedImage.drop 2, rfl, ?_, ?_⟩⟩, happart namedGuest _ ?_⟩
  · exact ⟨rfl, ⟨_, rfl, rfl⟩, _, rfl, by decide⟩
  · intro later hlater
    obtain rfl := List.mem_singleton.mp hlater
    rintro (⟨a, ha⟩ | ⟨-, hrelease | ⟨q, hq, hsame⟩⟩)
    · exact Occasion.not_gives (.inl rfl) ha
    · cases hrelease
    · obtain rfl := Option.some.inj hq
      exact absurd hsame (by decide)
  · simpa using hother

end Confinement.Engine

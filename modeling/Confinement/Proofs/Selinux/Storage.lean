import Confinement.Proofs.Definition.Reading
import Confinement.Proofs.Selinux.Demands

/-!
# Levels of stored domains are not handed out again

Before a label is generated the levels are reserved that the definitions in a directory hold. What
is reserved then depends on what the files say, and not on the order in which the directory lists
them: a file that cannot be read, a context that cannot be read and a level that is reserved already
take nothing away from the other files.
-/

namespace Confinement

/-! ### The levels in a directory -/

open Selinux (Levels Holds model heldLevel holds_iff_heldLevel heldLevel_congr)

/-- A file of the directory defines another domain than `current`, one that holds the level. A
domain without a UUID has the fresh one. -/
def Host.StoresLevel (h : Host) (fresh : Uuid) (dir : Path) (names : List String) (current : Uuid)
    (level : String) : Prop :=
  ∃ name ∈ names, ∃ d, Definition.ofFile fresh h (dir.join ⟨name⟩) = .ok d ∧ d.uuid ≠ current ∧
    Holds d level

variable {h : Host} {dir : Path} {names : List String} {current : Uuid} {level : String}

theorem Host.mem_definitionsIn {fresh : Nat → Uuid} {d : Definition} :
    d ∈ h.definitionsIn fresh dir names ↔ ∃ (i : Nat) (name : String), names[i]? = some name ∧
      Definition.ofFile (fresh i) h (dir.join ⟨name⟩) = .ok d := by
  unfold definitionsIn
  rw [List.mem_filterMap]
  constructor
  · rintro ⟨⟨name, i⟩, hmem, hd⟩
    refine ⟨i, name, List.mem_zipIdx_iff_getElem?.mp hmem, ?_⟩
    dsimp only at hd
    cases hfile : Definition.ofFile (fresh i) h (dir.join ⟨name⟩) with
    | error e =>
      rw [hfile] at hd
      cases hd
    | ok d' =>
      rw [hfile] at hd
      exact congrArg Except.ok (Option.some.inj hd)
  · rintro ⟨i, name, hi, hd⟩
    refine ⟨(name, i), List.mem_zipIdx_iff_getElem?.mpr hi, ?_⟩
    dsimp only
    rw [hd]
    rfl

/-- Which levels the definitions of a directory hold depends neither on the order of the files nor
on the fresh UUIDs, as long as none of these is `current`. -/
theorem Host.storesLevel_iff {fresh : Nat → Uuid} (hfresh : ∀ i, fresh i ≠ current) {u : Uuid}
    (hu : u ≠ current) : h.StoresLevel u dir names current level ↔
      ∃ d ∈ h.definitionsIn fresh dir names, d.uuid ≠ current ∧ Holds d level := by
  have hmoves : ∀ {u u' : Uuid} {p : Path} {d : Definition}, Definition.ofFile u h p = .ok d →
      d.uuid ≠ current → Holds d level → u' ≠ current →
      ∃ d', Definition.ofFile u' h p = .ok d' ∧ d'.uuid ≠ current ∧ Holds d' level := by
    intro u u' p d hd hne hheld hu'
    obtain ⟨d', hd', hsame⟩ := Definition.refreshed_of_ofFile hd u'
    rcases hsame with rfl | ⟨-, rfl⟩
    · exact ⟨d', hd', hne, hheld⟩
    · exact ⟨_, hd', hu', hheld⟩
  constructor
  · rintro ⟨name, hname, d, hd, hne, hheld⟩
    obtain ⟨i, hi⟩ := List.mem_iff_getElem?.mp hname
    obtain ⟨d', hd', hne', hheld'⟩ := hmoves hd hne hheld (hfresh i)
    exact ⟨d', mem_definitionsIn.mpr ⟨i, name, hi, hd'⟩, hne', hheld'⟩
  · rintro ⟨d, hmem, hne, hheld⟩
    obtain ⟨i, name, hi, hd⟩ := mem_definitionsIn.mp hmem
    obtain ⟨d', hd', hne', hheld'⟩ := hmoves hd hne hheld hu
    exact ⟨name, List.mem_of_getElem? hi, d', hd', hne', hheld'⟩

theorem Host.storesLevel_perm {names' : List String} (hp : names'.Perm names) {u : Uuid} :
    h.StoresLevel u dir names' current level ↔ h.StoresLevel u dir names current level := by
  simp only [StoresLevel, hp.mem_iff]

/-- The directory lists the names. One that is not there lists none. -/
def Host.Lists (h : Host) (dir : Path) (names : List String) : Prop :=
  h.files.names h.directory dir = .ok names ∨
    h.files.names h.directory dir = .error .noSuchEntry ∧ names = []

/-! ### Reserving them -/

namespace Engine

variable {s : Engine} {id keeper : ManagerId} {levels levels' : Levels}

/-- Whatever becomes of the single reservations, all levels that one of the domains holds are
reserved after them, and nothing else has changed. -/
theorem reserveAll_eq (hk : s.KeepsLevels keeper levels) (ds : List Definition) :
    ∃ levels', ds.foldl (fun s d => (s.reserveDomainLevel keeper d).2) s =
        s.withLevels keeper levels' ∧
      ∀ l, l ∈ levels' ↔ l ∈ levels ∨ ∃ d ∈ ds, Holds d l := by
  induction ds generalizing s levels with
  | nil => exact ⟨levels, (withLevels_self hk).symm, by simp⟩
  | cons d ds ih =>
    obtain ⟨mid, hmid, hmem⟩ := reserveDomainLevel_eq hk d
    have hmid' : (s.withLevels keeper mid).KeepsLevels keeper mid := hk.withLevels
    obtain ⟨levels', hrest, hmem'⟩ := ih hmid'
    refine ⟨levels', ?_, fun l => ?_⟩
    · rw [List.foldl_cons, hmid, hrest, withLevels_withLevels hk]
    · rw [hmem', hmem, List.exists_mem_cons_iff, or_assoc]

theorem reserveStored_eq (hk : s.KeepsLevels keeper levels) (current : Uuid)
    (stored : List Definition) :
    ∃ levels', s.reserveStored keeper current stored = s.withLevels keeper levels' ∧
      ∀ l, l ∈ levels' ↔ l ∈ levels ∨ ∃ d ∈ stored, d.uuid ≠ current ∧ Holds d l := by
  obtain ⟨levels', heq, hmem⟩ := reserveAll_eq hk (stored.filter (·.uuid != current))
  refine ⟨levels', heq, fun l => ?_⟩
  simp only [hmem, List.mem_filter, bne_iff_ne, and_assoc]

/-- What the files say does not decide whether the reservation succeeds, only whether they can be
listed. -/
theorem reserveKnownLevels_eq_ok_iff (hkeeper : s.levelKeeper? id = some keeper)
    {fresh : Nat → Uuid} {t : Engine} :
    s.reserveKnownLevels id fresh dir current = (.ok (), t) ↔
      ∃ names, s.host.Lists dir names ∧
        t = s.reserveStored keeper current (s.host.definitionsIn fresh dir names) := by
  rw [reserveKnownLevels, hkeeper]
  dsimp only
  unfold Host.Lists
  cases hnames : s.host.files.names s.host.directory dir with
  | ok names =>
    simp only [Prod.mk.injEq, true_and, Except.ok.injEq, reduceCtorEq, false_and, or_false,
      exists_eq_left', eq_comm]
  | error fault =>
    by_cases hmissing : fault = .noSuchEntry
    · subst hmissing
      have hnone : s.reserveStored keeper current (s.host.definitionsIn fresh dir []) = s := rfl
      simp [hnone, eq_comm]
    · simp [hmissing]

/-- Whatever a directory holds, once its levels are reserved the first member that labels through
contexts reserves exactly what it reserved before and what the stored domains other than `current`
hold. This does not depend on the order of the files or on fresh UUIDs. Nothing else has changed,
and a label that the member makes up then has another level than all of these. -/
theorem stored_levels_not_handed_out {before after : List ManagerId} {fresh : Nat → Uuid}
    {t : Engine} (hnested : s.nested id = before ++ keeper :: after)
    (hbefore : ∀ n ∈ before, ∀ m, s.manager? n = some m → m.driver.name ≠ model)
    (hk : s.KeepsLevels keeper levels) (hfresh : ∀ i, fresh i ≠ current)
    (h : s.reserveKnownLevels id fresh dir current = (.ok (), t)) :
    ∃ names levels', s.host.Lists dir names ∧ t = s.withLevels keeper levels' ∧
      t.KeepsLevels keeper levels' ∧ (∀ n, n ≠ keeper → t.manager? n = s.manager? n) ∧
      (∀ u, u ≠ current → ∀ level, level ∈ levels' ↔
        level ∈ levels ∨ s.host.StoresLevel u dir names current level) ∧
      (∀ names' fresh', names'.Perm names → (∀ i, fresh' i ≠ current) →
        s.reserveStored keeper current (s.host.definitionsIn fresh' dir names') = t) ∧
      ∀ d st, edit keeper .generate ⟨t, d⟩ = (.ok (), st) →
        ∀ x, st.definition.findEntry model = some x → x.type = .dynamic →
          ∃ level, Holds st.definition level ∧ level ∉ levels' := by
  obtain ⟨names, hlists, rfl⟩ :=
    (reserveKnownLevels_eq_ok_iff (levelKeeper?_eq hnested hbefore hk)).mp h
  have hreserved : ∀ names' fresh', names'.Perm names → (∀ i, fresh' i ≠ current) →
      ∃ levels', s.reserveStored keeper current (s.host.definitionsIn fresh' dir names') =
          s.withLevels keeper levels' ∧
        ∀ u, u ≠ current → ∀ level, level ∈ levels' ↔
          level ∈ levels ∨ s.host.StoresLevel u dir names current level := by
    intro names' fresh' hperm hfresh'
    obtain ⟨levels', heq, hmem⟩ :=
      reserveStored_eq hk current (s.host.definitionsIn fresh' dir names')
    refine ⟨levels', heq, fun u hu level => ?_⟩
    rw [hmem, ← Host.storesLevel_iff hfresh' hu, Host.storesLevel_perm hperm]
  obtain ⟨levels', heq, hmem⟩ := hreserved names fresh (.refl names) hfresh
  refine ⟨names, levels', hlists, heq, heq ▸ hk.withLevels, fun n hn => ?_, hmem, ?_, ?_⟩
  · obtain ⟨m, hm, -⟩ := hk
    rw [heq, withLevels_eq hm, manager?_setManager_of_ne s hn]
  · intro names' fresh' hperm hfresh'
    obtain ⟨levels'', heq', hmem'⟩ := hreserved names' fresh' hperm hfresh'
    have hsame : levels'' = levels' := Std.ExtHashSet.ext_mem fun level => by
      rw [hmem' (fresh 0) (hfresh 0), hmem (fresh 0) (hfresh 0)]
    rw [heq', heq, hsame]
  · intro d st hgenerate x hx ht
    obtain ⟨level, hnext, hheld, -⟩ := holds_of_generate (heq ▸ hk.withLevels) hgenerate hx ht
    exact ⟨level, hheld, (Selinux.Levels.reserveNext_eq_ok hnext).1⟩

/-- The definition of a guest that runs with the first pair of all. It has no UUID. -/
def storedText : String :=
  "name: guest2\nseclabel:\n- model: selinux\n  type: dynamic\n" ++
    "  label: system_u:system_r:svirt_t:s0:c0,c1\n"

/-- A stack of profiles and of contexts, on a host that stores a guest and a note. -/
def storingHost : Engine where
  host := { files := ⟨[([], ⟨.directory, .root⟩),
    (["guest2.yaml"], ⟨.file storedText.toUTF8, .root⟩),
    (["notes.txt"], ⟨.file "two guests".toUTF8, .root⟩)]⟩ }
  managers :=
    [some ⟨.apparmor, "qemu", {}, .apparmor []⟩,
     some ⟨.selinux, "qemu", {}, .selinux ∅⟩,
     some ⟨.stack, "qemu", {}, .stack [0, 1]⟩]
  held := [2]

theorem names_storingHost :
    storingHost.host.files.names storingHost.host.directory ⟨"/"⟩ =
      .ok ["guest2.yaml", "notes.txt"] := by
  have hsegments : (Path.mk "/").segments = ["", ""] := by rfl
  have hlocate : storingHost.host.files.locate storingHost.host.directory ⟨"/"⟩ = .ok [] := by
    unfold FileTree.locate
    rw [hsegments, if_neg (by decide), if_neg (by decide), if_neg (by decide), FileTree.walk,
      FileTree.walk, FileTree.walk]
    rfl
  rw [FileTree.names, hlocate]
  rfl

theorem readText_storingHost :
    storingHost.host.readText ((Path.mk "/").join ⟨"guest2.yaml"⟩) = .ok storedText := by
  have hpath : (Path.mk "/").join ⟨"guest2.yaml"⟩ = ⟨"/guest2.yaml"⟩ := by decide
  have hsegments : (Path.mk "/guest2.yaml").segments = ["", "guest2.yaml"] := by rfl
  have hroot : storingHost.host.files.isDirectory [] = true := rfl
  have hnode : storingHost.host.files.node? ["guest2.yaml"] =
      some ⟨.file storedText.toUTF8, .root⟩ := rfl
  have hlocate : storingHost.host.files.locate storingHost.host.directory ⟨"/guest2.yaml"⟩ =
      .ok ["guest2.yaml"] := by
    unfold FileTree.locate
    rw [hsegments, if_neg (by decide), if_neg (by decide), if_neg (by decide),
      if_pos (by decide)]
    simp [FileTree.walk, hroot, hnode, Path.isIdle, FileTree.maxName]
    decide
  have htext : String.fromUTF8? storedText.toUTF8 = some storedText := by
    simp only [String.fromUTF8?, String.toUTF8_eq_toByteArray]
    exact dif_pos storedText.isValidUTF8
  rw [hpath, Host.readText, FileTree.readText, hlocate]
  simp only [bind, Except.bind, hnode, htext]
  rfl

/-- The stored guest gets a UUID, and it has the level that its file says. -/
theorem read_storedText : ∃ d,
    Definition.ofFile (numberedGuest 1 none).uuid storingHost.host
      ((Path.mk "/").join ⟨"guest2.yaml"⟩) = .ok d ∧
    d.uuid = (numberedGuest 1 none).uuid ∧ Holds d "s0:c0,c1" := by
  have hread : (Definition.document? .yaml (numberedGuest 1 none).uuid storedText).map
      (fun d => (d.uuid, d.entries)) = some ((numberedGuest 1 none).uuid,
        (numberedGuest 1 (some "system_u:system_r:svirt_t:s0:c0,c1")).entries) := by
    decide +kernel
  have hformat : DocumentFormat.ofExtension ((Path.mk "/").join ⟨"guest2.yaml"⟩).extension? =
      .yaml := by
    decide +kernel
  obtain ⟨d, hd, hparts⟩ := Option.map_eq_some_iff.mp hread
  obtain ⟨huuid, hentries⟩ := Prod.mk.inj hparts
  refine ⟨d, ?_, huuid, ?_⟩
  · rw [Definition.ofFile, readText_storingHost, hformat]
    exact Definition.ofText_eq_ok_iff.mpr hd
  · rw [holds_iff_heldLevel]
    have hfind : d.findEntry model =
        (numberedGuest 1 (some "system_u:system_r:svirt_t:s0:c0,c1")).findEntry model := by
      rw [Definition.findEntry, hentries]
      rfl
    rw [heldLevel_congr hfind]
    rfl

/-- The level of the stored guest is reserved for the stack's second member, and no new label gets
it. -/
theorem level_of_stored_guest_kept : ∃ t,
    storingHost.reserveKnownLevels 2 (fun _ => (numberedGuest 1 none).uuid) ⟨"/"⟩
      (numberedGuest 0 none).uuid = (.ok (), t) ∧
    ∃ levels, t.KeepsLevels 1 levels ∧ "s0:c0,c1" ∈ levels ∧
      ∀ d st, edit 1 .generate ⟨t, d⟩ = (.ok (), st) →
        ∀ x, st.definition.findEntry model = some x → x.type = .dynamic →
          ∃ level, Holds st.definition level ∧ level ≠ "s0:c0,c1" := by
  have hfresh : (numberedGuest 1 none).uuid ≠ (numberedGuest 0 none).uuid := by decide
  have hkeeper : storingHost.levelKeeper? 2 = some 1 := rfl
  have hreserve : storingHost.reserveKnownLevels 2 (fun _ => (numberedGuest 1 none).uuid) ⟨"/"⟩
      (numberedGuest 0 none).uuid = (.ok (), _) :=
    (reserveKnownLevels_eq_ok_iff hkeeper).mpr ⟨_, .inl names_storingHost, rfl⟩
  have hbefore : ∀ n ∈ [0], ∀ m, storingHost.manager? n = some m → m.driver.name ≠ model := by
    intro n hn m hm
    obtain rfl := List.mem_singleton.mp hn
    obtain rfl := Option.some.inj hm
    decide
  obtain ⟨names, levels, hlists, -, hkeeps, -, hmem, -, hnext⟩ :=
    @stored_levels_not_handed_out ⟨"/"⟩ (numberedGuest 0 none).uuid storingHost 2 1 ∅ [0] []
      (fun _ => (numberedGuest 1 none).uuid) _ rfl hbefore ⟨_, rfl, rfl, rfl⟩ (fun _ => hfresh)
      hreserve
  have hnames : names = ["guest2.yaml", "notes.txt"] := by
    rcases hlists with hlists | ⟨hlists, -⟩
    · exact Except.ok.inj (hlists.symm.trans names_storingHost)
    · rw [names_storingHost] at hlists
      cases hlists
  obtain ⟨d, hd, huuid, hheld⟩ := read_storedText
  have hreserved : "s0:c0,c1" ∈ levels :=
    (hmem _ hfresh _).mpr (.inr ⟨_, by simp [hnames], d, hd, huuid ▸ hfresh, hheld⟩)
  refine ⟨_, hreserve, levels, hkeeps, hreserved, fun d st hgenerate x hx ht => ?_⟩
  obtain ⟨level, hheld, hfree⟩ := hnext d st hgenerate x hx ht
  exact ⟨level, hheld, fun heq => hfree (heq ▸ hreserved)⟩

end Engine

end Confinement

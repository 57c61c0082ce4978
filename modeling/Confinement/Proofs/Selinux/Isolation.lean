import Mathlib.Logic.Function.Basic
import Confinement.Manager.Stored
import Confinement.Proofs.Definition.Entries
import Confinement.Proofs.Manager.Requests
import Confinement.Proofs.Selinux.Exchange

/-!
# Domains of one manager hold different levels

The domains of one manager are labelled and released in any order, and any of these requests may
fail. At every point the domains hold different levels, and the manager reserves the levels that it
was told to keep clear of and those that the domains hold, and no others.
-/

namespace Confinement.Selinux

variable {ι : Type}

/-! ### Levels and who holds them -/

/-- The levels are those of `kept` and those that are held, each by one holder. -/
structure Isolated (kept levels : Levels) (holds : ι → String → Prop) : Prop where
  apart : ∀ i j level, holds i level → holds j level → i = j
  fresh : ∀ i level, holds i level → level ∉ kept
  exact : ∀ level, level ∈ levels ↔ level ∈ kept ∨ ∃ i, holds i level

namespace Isolated

variable {kept levels : Levels} {holds holds' : ι → String → Prop}

theorem congr (h : Isolated kept levels holds) (heq : ∀ i l, holds' i l ↔ holds i l) :
    Isolated kept levels holds' := by
  have hsame : holds' = holds := by
    funext i l
    exact propext (heq i l)
  rwa [hsame]

theorem take (h : Isolated kept levels holds) {level : String} (hfree : level ∉ levels) (i : ι)
    (htake : ∀ j l, holds' j l ↔ (j = i ∧ l = level) ∨ holds j l) :
    Isolated kept (levels.insert level) holds' := by
  have hheld : ∀ j, ¬holds j level := fun j hj => hfree ((h.exact level).mpr (.inr ⟨j, hj⟩))
  refine ⟨?_, ?_, ?_⟩
  · intro j k l hj hk
    rcases (htake j l).mp hj with ⟨rfl, rfl⟩ | hj
    · rcases (htake k l).mp hk with ⟨rfl, -⟩ | hk
      · rfl
      · exact absurd hk (hheld k)
    · rcases (htake k l).mp hk with ⟨rfl, rfl⟩ | hk
      · exact absurd hj (hheld j)
      · exact h.apart j k l hj hk
  · intro j l hj
    rcases (htake j l).mp hj with ⟨rfl, rfl⟩ | hj
    · exact fun hkept => hfree ((h.exact l).mpr (.inl hkept))
    · exact h.fresh j l hj
  · intro l
    rw [Std.ExtHashSet.mem_insert, beq_iff_eq, h.exact]
    constructor
    · rintro (rfl | hkept | ⟨j, hj⟩)
      · exact .inr ⟨i, (htake i level).mpr (.inl ⟨rfl, rfl⟩)⟩
      · exact .inl hkept
      · exact .inr ⟨j, (htake j l).mpr (.inr hj)⟩
    · rintro (hkept | ⟨j, hj⟩)
      · exact .inr (.inl hkept)
      · rcases (htake j l).mp hj with ⟨-, rfl⟩ | hj
        · exact .inl rfl
        · exact .inr (.inr ⟨j, hj⟩)

theorem give (h : Isolated kept levels holds) {level : String} {i : ι} (hi : holds i level)
    (honly : ∀ l, holds i l → l = level) (hgive : ∀ j l, holds' j l ↔ j ≠ i ∧ holds j l) :
    Isolated kept (levels.erase level) holds' := by
  refine ⟨?_, ?_, ?_⟩
  · intro j k l hj hk
    exact h.apart j k l ((hgive j l).mp hj).2 ((hgive k l).mp hk).2
  · intro j l hj
    exact h.fresh j l ((hgive j l).mp hj).2
  · intro l
    rw [Std.ExtHashSet.mem_erase, beq_eq_false_iff_ne, h.exact]
    constructor
    · rintro ⟨hne, hkept | ⟨j, hj⟩⟩
      · exact .inl hkept
      · refine .inr ⟨j, (hgive j l).mpr ⟨?_, hj⟩⟩
        rintro rfl
        exact hne (honly l hj).symm
    · rintro (hkept | ⟨j, hj⟩)
      · refine ⟨?_, .inl hkept⟩
        rintro rfl
        exact h.fresh i level hi hkept
      · obtain ⟨hne, hj⟩ := (hgive j l).mp hj
        refine ⟨?_, .inr ⟨j, hj⟩⟩
        rintro rfl
        exact hne (h.apart j i level hj hi)

/-- What a request to one of the domains does keeps the domains apart. -/
theorem exchange [DecidableEq ι] {levels' : Levels} {defs : ι → Definition} {i : ι}
    {d' : Definition} (h : Isolated kept levels fun j => Holds (defs j))
    (hx : Exchange levels (defs i) levels' d') :
    Isolated kept levels' fun j => Holds (Function.update defs i d' j) := by
  cases hx with
  | kept same =>
    refine h.congr fun j l => ?_
    by_cases hj : j = i
    · subst hj
      rw [Function.update_self, same]
    · rw [Function.update_of_ne hj]
  | taken free before after =>
    refine h.take free i fun j l => ?_
    by_cases hj : j = i
    · subst hj
      rw [Function.update_self, after]
      simp [before]
    · rw [Function.update_of_ne hj]
      simp [hj]
  | given before after =>
    refine h.give before (fun l hl => hl.unique before) fun j l => ?_
    by_cases hj : j = i
    · subst hj
      rw [Function.update_self]
      simp [after]
    · rw [Function.update_of_ne hj]
      simp [hj]

end Isolated

end Confinement.Selinux

namespace Confinement.Engine

open Selinux

variable {s : Engine} {id : ManagerId} {m : Manager} {levels : Levels}

/-! ### Requests to the manager -/

/-- Reserves the levels that several domains hold already, up to the first refusal. -/
def reserveEach (id : ManagerId) : List Definition → Engine → Except Error Unit × Engine
  | [], s => (.ok (), s)
  | d :: ds, s =>
    match s.reserveDomainLevel id d with
    | (.ok (), s) => s.reserveEach id ds
    | (.error e, s) => (.error e, s)

/-- A manager of security contexts, with what it reserves. -/
def KeepsLevels (s : Engine) (id : ManagerId) (levels : Levels) : Prop :=
  ∃ m, s.manager? id = some m ∧ m.driver = .selinux ∧ m.state = .selinux levels

/-- The manager labels or releases a domain by an exchange of levels. -/
theorem exchange_edit (hk : s.KeepsLevels id levels) {op : Operation}
    (hop : op = .generate ∨ op = .release) (d : Definition) :
    ∃ levels', (edit id op ⟨s, d⟩).2.engine.KeepsLevels id levels' ∧
      Exchange levels d levels' (edit id op ⟨s, d⟩).2.definition := by
  obtain ⟨m, hm, hd, hstate⟩ := hk
  have hsingle : m.driver.technology ≠ .stack := by
    rw [hd]
    decide
  have hhooks : m.driver.hooks.perform s.trace op d = none := by
    rw [hd]
    rfl
  have htech : ∀ scene, m.driver.technology.perform op scene = Selinux.perform op scene := by
    intro scene
    rw [hd]
    rfl
  have hverify : op ≠ .verify := by
    rcases hop with rfl | rfl <;> decide
  have hedits : op.edits = true := by
    rcases hop with rfl | rfl <;> rfl
  rw [edit_of_hooks_none hm (Manager.members?_of_ne hsingle) hverify hhooks, htech]
  have hx : Exchanges levels d
      (Selinux.perform op ((Stage.record ⟨s, d⟩ id m.driver op).scene m)).2 := by
    rcases hop with rfl | rfl
    · exact exchanges_generate hstate
    · exact exchanges_release hstate
  obtain ⟨levels', hstate', hx⟩ := hx
  refine ⟨levels', ⟨_, Stage.manager?_leave hm op _, hd, hstate'⟩, ?_⟩
  rwa [Stage.definition_leave hedits]

theorem keepsLevels_reserve (hk : s.KeepsLevels id levels) {d : Definition} {t : Engine}
    (h : s.reserveDomainLevel id d = (.ok (), t)) :
    (t.KeepsLevels id levels ∧ ∀ level, ¬Holds d level) ∨
    ∃ level, level ∉ levels ∧ t.KeepsLevels id (levels.insert level) ∧ Holds d level := by
  obtain ⟨m, hm, hd, hstate⟩ := hk
  unfold reserveDomainLevel withScene at h
  rw [manager_eq_ok_iff.mpr hm] at h
  dsimp only at h
  obtain ⟨hok, rfl⟩ := Prod.mk.inj h
  have hm' := manager?_setManager_self hm
  rcases Selinux.reserveDomainLevel_ok hstate hok with
    ⟨hstate', hnone⟩ | ⟨level, hfree, hstate', hl⟩
  · exact .inl ⟨⟨_, hm' _, hd, hstate'⟩, hnone⟩
  · exact .inr ⟨level, hfree, ⟨_, hm' _, hd, hstate'⟩, hl⟩

/-- The levels of domains that run already are added one by one to those that are held. -/
theorem isolated_reserveEach {kept : Levels} {defs : ι → Definition} {holds : ι → String → Prop}
    (hk : s.KeepsLevels id levels) (h : Isolated kept levels holds) {running : List ι} {t : Engine}
    (ht : s.reserveEach id (running.map defs) = (.ok (), t)) :
    ∃ levels', t.KeepsLevels id levels' ∧
      Isolated kept levels' fun i l => holds i l ∨ i ∈ running ∧ Holds (defs i) l := by
  induction running generalizing s levels holds with
  | nil =>
    obtain ⟨-, rfl⟩ := Prod.mk.inj ht
    exact ⟨levels, hk, h.congr (by simp)⟩
  | cons i running ih =>
    rw [List.map_cons, reserveEach] at ht
    cases hstep : s.reserveDomainLevel id (defs i) with
    | mk r mid =>
      rw [hstep] at ht
      cases r with
      | error e => cases ht
      | ok u =>
        -- The domain joins the holders, whether it holds a level or not.
        obtain ⟨levels', hk', h'⟩ : ∃ levels', mid.KeepsLevels id levels' ∧
            Isolated kept levels' fun j l => holds j l ∨ j = i ∧ Holds (defs j) l := by
          rcases keepsLevels_reserve hk hstep with ⟨hk', hnone⟩ | ⟨level, hfree, hk', hl⟩
          · refine ⟨levels, hk', h.congr fun j l => ?_⟩
            simp only [or_iff_left_iff_imp]
            rintro ⟨rfl, hj⟩
            exact absurd hj (hnone l)
          · refine ⟨_, hk', h.take hfree i fun j l => ?_⟩
            rw [or_comm]
            refine or_congr_left (and_congr_right ?_)
            rintro rfl
            exact ⟨fun hj => hj.unique hl, fun hj => hj ▸ hl⟩
        obtain ⟨levels'', hk'', h''⟩ := ih hk' h' ht
        refine ⟨levels'', hk'', h''.congr fun j l => ?_⟩
        rw [List.mem_cons, or_and_right, or_assoc]

end Confinement.Engine

namespace Confinement

open Selinux

variable {ι : Type} [DecidableEq ι]

/-! ### Runs -/

/-- An engine and several domains. -/
structure Fleet (ι : Type) where
  engine : Engine
  definitions : ι → Definition

/-- A request to label or to release one of the domains. -/
inductive Errand (ι : Type)
  | generate (i : ι)
  | release (i : ι)

namespace Fleet

def edit (id : ManagerId) (i : ι) (op : Operation) (f : Fleet ι) : Fleet ι :=
  let st := (Engine.edit id op ⟨f.engine, f.definitions i⟩).2
  ⟨st.engine, Function.update f.definitions i st.definition⟩

def after (id : ManagerId) (f : Fleet ι) : Errand ι → Fleet ι
  | .generate i => f.edit id i .generate
  | .release i => f.edit id i .release

def run (id : ManagerId) (f : Fleet ι) (errands : List (Errand ι)) : Fleet ι :=
  errands.foldl (after id) f

/-- The manager reserves `kept` and the levels that the domains hold, each by one of them. -/
def Isolated (id : ManagerId) (kept : Levels) (f : Fleet ι) : Prop :=
  ∃ levels, f.engine.KeepsLevels id levels ∧
    Selinux.Isolated kept levels fun i => Holds (f.definitions i)

variable {id : ManagerId} {kept : Levels} {f : Fleet ι}

theorem Isolated.edit (h : f.Isolated id kept) (i : ι) {op : Operation}
    (hop : op = .generate ∨ op = .release) : (f.edit id i op).Isolated id kept := by
  obtain ⟨levels, hk, hiso⟩ := h
  obtain ⟨levels', hk', hx⟩ := Engine.exchange_edit hk hop (f.definitions i)
  exact ⟨levels', hk', hiso.exchange hx⟩

theorem Isolated.after (h : f.Isolated id kept) (errand : Errand ι) :
    (f.after id errand).Isolated id kept := by
  cases errand with
  | generate i => exact h.edit i (.inl rfl)
  | release i => exact h.edit i (.inr rfl)

theorem Isolated.run (h : f.Isolated id kept) (errands : List (Errand ι)) :
    (f.run id errands).Isolated id kept := by
  induction errands generalizing f with
  | nil => exact h
  | cons errand errands ih => exact ih (h.after errand)

end Fleet

/-- Whatever requests follow on the reservation of the levels of domains that run already, the
domains hold different levels, none of those kept clear of, and the manager reserves these levels
and no others. -/
theorem levels_isolated_along_runs {s t : Engine} {id : ManagerId} {kept : Levels}
    {defs : ι → Definition} {running : List ι} (hk : s.KeepsLevels id kept)
    (ht : s.reserveEach id (running.map defs) = (.ok (), t))
    (hrest : ∀ i, i ∉ running → ∀ e, (defs i).findEntry model = some e → e.type = .dynamic →
      e.label = none) (errands : List (Errand ι)) :
    ((Fleet.mk t defs).run id errands).Isolated id kept := by
  have hnone : Selinux.Isolated kept kept fun (_ : ι) (_ : String) => False :=
    ⟨by simp, by simp, by simp⟩
  obtain ⟨levels, hk', hiso⟩ := Engine.isolated_reserveEach hk hnone ht
  refine Fleet.Isolated.run ⟨levels, hk', hiso.congr fun i l => ?_⟩ errands
  constructor
  · intro hl
    by_cases hi : i ∈ running
    · exact .inr ⟨hi, hl⟩
    · obtain ⟨e, label, c, hf, hdyn, hlabel, -⟩ := hl
      rw [hrest i hi e hf hdyn] at hlabel
      cases hlabel
  · rintro (hl | ⟨-, hl⟩)
    · cases hl
    · exact hl

/-- A manager of security contexts that reserves nothing yet. -/
def contextHost : Engine where
  managers := [some ⟨.selinux, "qemu", {}, .selinux ∅⟩]
  held := [0]

/-- A guest that runs with a level, and one without a label. -/
def contextGuests (running : Bool) : Definition :=
  .guest [{
    model := some "selinux"
    type := .dynamic
    label := if running then some "system_u:system_r:svirt_t:s0:c0,c1" else none }]

/-- The label of the second guest keeps clear of the first one, also when that one starts again. -/
theorem isolated_contextGuests : ∃ t,
    contextHost.reserveEach 0 ([true].map contextGuests) = (.ok (), t) ∧
    ((Fleet.mk t contextGuests).run 0
      [.generate false, .generate true, .release true, .generate true]).Isolated 0 ∅ := by
  have hm : contextHost.manager 0 = .ok ⟨.selinux, "qemu", {}, .selinux ∅⟩ := rfl
  have hk : contextHost.KeepsLevels 0 ∅ := ⟨_, rfl, rfl, rfl⟩
  have hheld : heldLevel (contextGuests true) = .ok (some "s0:c0,c1") := rfl
  have hfree : Levels.reserve ∅ "s0:c0,c1" = (.ok (), (∅ : Levels).insert "s0:c0,c1") := by
    simp [Levels.reserve]
  have ht : contextHost.reserveEach 0 ([true].map contextGuests) =
      (.ok (), (contextHost.reserveEach 0 ([true].map contextGuests)).2) := by
    refine Prod.ext ?_ rfl
    simp only [List.map_cons, List.map_nil, Engine.reserveEach, Engine.reserveDomainLevel,
      Engine.withScene, hm, Selinux.reserveDomainLevel, hheld, Scene.after_ok, reserveLevel, hfree]
  refine ⟨_, ht, levels_isolated_along_runs hk ht ?_ _⟩
  intro i hi e he hdyn
  have hfalse : i = false := by simpa using hi
  subst hfalse
  obtain rfl := Option.some.inj he
  rfl

end Confinement

import Confinement.Proofs.Driver.TakingBack
import Confinement.Proofs.Generation.Turns
import Confinement.Proofs.Selinux.Isolation

/-!
# What becomes of a level

A manager of contexts is asked for all kinds of things and about any definitions, also those that it
has never labelled. A level stays reserved until a definition is released whose own context carries
it, and as long as it is reserved no new label takes it.
-/

namespace Confinement

/-! ### Free pairs -/

namespace Selinux

/-- The level is one of those that are handed out. -/
def IsPair (level : String) : Prop :=
  ∃ lo hi, lo < hi ∧ hi < categories ∧ level = pairLevel lo hi

variable {levels levels' : Levels} {level : String}

/-- The free pair is the first one, by the higher category and then by the lower one. -/
theorem Levels.first_of_firstFree (h : levels.firstFree = some level) :
    ∃ lo hi, lo < hi ∧ hi < categories ∧ level = pairLevel lo hi ∧
      ∀ lo' hi', lo' < hi' → hi' < hi ∨ hi' = hi ∧ lo' < lo → pairLevel lo' hi' ∈ levels := by
  obtain ⟨before, hi, after, hsplit, hlevel, hbefore⟩ := List.findSome?_eq_some_iff.mp h
  obtain ⟨lo, hlo, rfl⟩ := Option.map_eq_some_iff.mp hlevel
  obtain ⟨-, hmem, hbelow⟩ := List.find?_range_eq_some.mp hlo
  have hhi : hi < categories := by
    rw [← List.mem_range, hsplit]
    exact List.mem_append_right before (List.mem_cons_self ..)
  refine ⟨lo, hi, List.mem_range.mp hmem, hhi, rfl, fun lo' hi' hlt hfirst => ?_⟩
  rw [Std.ExtHashSet.mem_iff_contains]
  rcases hfirst with hfirst | ⟨rfl, hfirst⟩
  · -- What comes before `hi` in the range is smaller, so a smaller category comes before.
    have hsorted : (before ++ hi :: after).Pairwise (· < ·) := hsplit ▸ List.pairwise_lt_range
    have hmem' : hi' ∈ before ++ hi :: after :=
      hsplit ▸ List.mem_range.mpr (Nat.lt_trans hfirst hhi)
    have hmem' : hi' ∈ before := by
      rcases List.mem_append.mp hmem' with hmem' | hmem'
      · exact hmem'
      · have hafter := (List.pairwise_append.mp hsorted).2.1
        rcases List.mem_cons.mp hmem' with rfl | hmem'
        · exact absurd hfirst (Nat.lt_irrefl hi')
        · exact absurd hfirst (Nat.lt_asymm (List.rel_of_pairwise_cons hafter hmem'))
    have hnone := Option.map_eq_none_iff.mp (hbefore hi' hmem')
    simpa using List.find?_eq_none.mp hnone lo' (List.mem_range.mpr hlt)
  · simpa using hbelow lo' hfirst

theorem Levels.firstFree_of_reserveNext (h : levels.reserveNext = .ok (level, levels')) :
    levels.firstFree = some level := by
  unfold reserveNext at h
  cases hfree : levels.firstFree with
  | none =>
    rw [hfree] at h
    cases h
  | some l =>
    rw [hfree] at h
    obtain ⟨rfl, -⟩ := Prod.mk.inj (Except.ok.inj h)
    rfl

theorem Levels.isPair_of_reserveNext (h : levels.reserveNext = .ok (level, levels')) :
    IsPair level := by
  obtain ⟨lo, hi, hlt, hhi, rfl, -⟩ := first_of_firstFree (firstFree_of_reserveNext h)
  exact ⟨lo, hi, hlt, hhi, rfl⟩

/-- The first pair of all is handed out first. -/
theorem Levels.reserveNext_of_free (h : pairLevel 0 1 ∉ levels) :
    levels.reserveNext = .ok (pairLevel 0 1, levels.insert (pairLevel 0 1)) := by
  have hfree : levels.contains (pairLevel 0 1) = false := by
    rwa [Std.ExtHashSet.mem_iff_contains, Bool.not_eq_true] at h
  have hzero : levels.firstFreeBelow 0 = none := rfl
  have hone : levels.firstFreeBelow 1 = some (pairLevel 0 1) := by
    simp [firstFreeBelow, hfree]
  have hrange : ∀ n, List.range (n + 2) = 0 :: 1 :: List.range' 2 n := by
    intro n
    rw [List.range_eq_range', List.range'_succ, List.range'_succ]
  have hfirst : levels.firstFree = some (pairLevel 0 1) := by
    rw [firstFree, show categories = 1022 + 2 from rfl, hrange, List.findSome?_cons, hzero,
      List.findSome?_cons, hone]
  unfold reserveNext
  rw [hfirst]

/-! ### What a demand does to the levels -/

/-- What a manager of contexts is asked: an operation for a domain, with the host as it is then, or
to reserve the level that a domain has already. -/
inductive Demand
  | operation (host : Host) (op : Operation) (d : Definition)
  | reservation (d : Definition)

/-- A definition that carries the level is released. -/
inductive Demand.Frees (level : String) : Demand → Prop
  | release {host : Host} {d : Definition} (held : Holds d level) :
      Frees level (.operation host .release d)

/-- The level comes with a domain that has it already, in its label or in its process. -/
inductive Demand.Brings (level : String) : Demand → Prop
  | stored {d : Definition} (held : Holds d level) : Brings level (.reservation d)
  | running {host : Host} {pid : UInt32} {d : Definition} {e : LabelEntry} {text : String}
      {c : Context} (found : d.findEntry model = some e) (type : e.type = .dynamic)
      (read : host.processText pid = .ok text) (parsed : Context.parse (trimEnd text) = .ok c)
      (leveled : c.level = some level) : Brings level (.operation host (.reserve pid) d)

/-- What is reserved once a demand is met: the levels that were reserved and are not freed, those
that the demand brings, and at most one free pair, for a label that is asked for. -/
structure Demand.Moves (x : Demand) (levels levels' : Levels) (taken : Option String) : Prop where
  mem_iff : ∀ l, l ∈ levels' ↔ l ∈ levels ∧ ¬x.Frees l ∨ x.Brings l ∨ taken = some l
  pair : ∀ l, taken = some l → l ∉ levels ∧ IsPair l
  asked : taken ≠ none → ∃ host d, x = .operation host .generate d

namespace Demand

variable {x : Demand} {d : Definition} {host : Host}

theorem frees_release : (Demand.operation host .release d).Frees level ↔ Holds d level :=
  ⟨fun ⟨held⟩ => held, .release⟩

theorem not_frees_reservation : ¬(Demand.reservation d).Frees level := fun h => by cases h

theorem brings_reservation : (Demand.reservation d).Brings level ↔ Holds d level :=
  ⟨fun h => by cases h; assumption, .stored⟩

/-- No free pair is taken if no label is asked for. -/
theorem Moves.untaken (h : ∀ l, l ∈ levels' ↔ l ∈ levels ∧ ¬x.Frees l ∨ x.Brings l) :
    x.Moves levels levels' none where
  mem_iff l := by
    have hnone : ¬none = some l := fun h => by cases h
    rw [h, ← or_assoc, or_iff_left hnone]
  pair _ h := by cases h
  asked h := absurd rfl h

/-- The levels stay if nothing is freed, and only levels are brought that are reserved. -/
theorem Moves.still (hfrees : ∀ l, ¬x.Frees l) (hbrings : ∀ l, x.Brings l → l ∈ levels) :
    x.Moves levels levels none :=
  .untaken fun l => by
    rw [and_iff_left (hfrees l), or_iff_left_of_imp (hbrings l)]

end Demand

section Scenes

variable {s : Scene}

theorem mem_reserve {level l : String} :
    l ∈ (levels.reserve level).2 ↔ l ∈ levels ∨ l = level := by
  unfold Levels.reserve
  by_cases h : levels.contains level = true
  · rw [if_pos h]
    rw [← Std.ExtHashSet.mem_iff_contains] at h
    exact ⟨.inl, fun hl => hl.elim id (· ▸ h)⟩
  · rw [if_neg h, Std.ExtHashSet.mem_insert, beq_iff_eq, or_comm, eq_comm]

/-- To reserve a level has it reserved, whether it was free before or not. -/
theorem reserveLevel_levels (hs : s.state = .selinux levels) (level : String) :
    (reserveLevel s level).2 = { s with state := .selinux (levels.reserve level).2 } := by
  rw [reserveLevel, hs]

/-- Whether the reservation succeeds or fails, it reserves the level of the domain and no other. -/
theorem reserveDomainLevel_levels (hs : s.state = .selinux levels) :
    ∃ levels', (reserveDomainLevel s).2 = { s with state := .selinux levels' } ∧
      ∀ l, l ∈ levels' ↔ l ∈ levels ∨ Holds s.definition l := by
  have hself : s = { s with state := .selinux levels } := by rw [← hs]
  unfold reserveDomainLevel
  cases hheld : heldLevel s.definition with
  | error e => exact ⟨levels, hself, fun l => by simp [holds_iff_heldLevel, hheld]⟩
  | ok held =>
    rw [Scene.after_ok]
    cases held with
    | none => exact ⟨levels, hself, fun l => by simp [holds_iff_heldLevel, hheld]⟩
    | some level =>
      refine ⟨_, reserveLevel_levels hs level, fun l => ?_⟩
      rw [mem_reserve, holds_iff_heldLevel, hheld]
      simp [eq_comm]

/-- Whether the release succeeds or fails, it frees the level of the domain and no other. -/
theorem release_levels (hs : s.state = .selinux levels) :
    ∃ levels', (release s).2.state = .selinux levels' ∧
      ∀ l, l ∈ levels' ↔ l ∈ levels ∧ ¬Holds s.definition l := by
  have hkept : (∀ l, ¬Holds s.definition l) →
      ∀ l, l ∈ levels ↔ l ∈ levels ∧ ¬Holds s.definition l :=
    fun hnone l => (and_iff_left (hnone l)).symm
  generalize hr : release s = out
  have hout := released s
  rw [hr] at hout
  cases hout with
  | missing found =>
    have found : s.definition.findEntry model = none := found
    exact ⟨levels, hs, hkept fun l => by simp [Holds, found]⟩
  | fixed found type => exact ⟨levels, hs, hkept (not_holds_of found (.inl type))⟩
  | @freed e label c level held found type labelled parsed leveled kept =>
    obtain rfl : levels = held := by simpa [Scene.levels, hs] using kept
    refine ⟨_, rfl, fun l => ?_⟩
    rw [Std.ExtHashSet.mem_erase, beq_eq_false_iff_ne, holds_iff_of_label found type labelled,
      parsed]
    simp [leveled, and_comm]
  | @cleared e found type unleveled legible =>
    refine ⟨levels, hs, hkept ?_⟩
    rintro l ⟨e', label, c, found', -, labelled, parsed, leveled⟩
    obtain rfl := Option.some.inj (found'.symm.trans found)
    rw [unleveled label c labelled parsed] at leveled
    cases leveled
  | @refused e label err found type labelled failed =>
    refine ⟨levels, hs, hkept fun l => ?_⟩
    rw [holds_iff_of_label found type labelled]
    rintro ⟨c, parsed, -⟩
    rcases failed with failed | failed
    · rw [parsed] at failed
      cases failed
    · simp [Scene.levels, hs] at failed

/-- To ask for a label takes a free pair for a dynamic entry, or leaves the levels as they are. -/
theorem generate_levels (hs : s.state = .selinux levels) :
    (perform .generate s).2.state = .selinux levels ∨ ∃ level, level ∉ levels ∧ IsPair level ∧
      (perform .generate s).2.state = .selinux (levels.insert level) := by
  unfold perform
  cases hg : generate s with
  | error e => exact .inl hs
  | ok p =>
    obtain ⟨state, d⟩ := p
    cases hf : s.findEntry model with
    | none =>
      cases completed_of_generate hg with
      | missing found => exact .inl hs
      | unconfined found type => exact .inl hs
      | static found type labelled parsed => exact .inl hs
      | dynamic found type unlabelled based kept free =>
        rw [hf] at found
        cases found
    | some e =>
      obtain ⟨x, hfills⟩ := fills_of_generate hf hg
      rw [hs] at hfills
      cases hfills with
      | selinuxUnconfined type => exact .inl rfl
      | selinuxStatic type labelled parsed => exact .inl rfl
      | @selinuxDynamic levels levels' level e base type unlabelled based free =>
        obtain ⟨hfree, rfl⟩ := Levels.reserveNext_eq_ok free
        exact .inr ⟨level, hfree, Levels.isPair_of_reserveNext free, rfl⟩

/-- To take over a running domain reserves the level of its process, if the domain has one. -/
theorem moves_reserve (hs : s.state = .selinux levels) (pid : UInt32) :
    ∃ levels', (reserve s pid).2.state = .selinux levels' ∧
      (Demand.operation s.host (.reserve pid) s.definition).Moves levels levels' none := by
  have hfrees : ∀ l, ¬(Demand.operation s.host (.reserve pid) s.definition).Frees l := nofun
  by_cases hany : (s.findEntry model).any (·.type = .dynamic)
  · obtain ⟨e, hf, ht⟩ := (Option.any_eq_true _ _).mp hany
    have ht : e.type = .dynamic := by simpa using ht
    rw [reserve, if_pos hany]
    cases htext : s.host.processText pid with
    | error err =>
      refine ⟨levels, hs, .still hfrees ?_⟩
      rintro l (_ | ⟨-, -, read, -, -⟩)
      rw [htext] at read
      cases read
    | ok text =>
      rw [Scene.after_ok]
      cases hc : Context.parse (trimEnd text) with
      | error err =>
        refine ⟨levels, hs, .still hfrees ?_⟩
        rintro l (_ | ⟨-, -, read, parsed, -⟩)
        obtain rfl := Except.ok.inj (htext.symm.trans read)
        rw [hc] at parsed
        cases parsed
      | ok c =>
        rw [Scene.after_ok]
        -- The process decides: what the demand brings is the level of its context, if it has one.
        have hbrings : ∀ l, (Demand.operation s.host (.reserve pid) s.definition).Brings l ↔
            c.level = some l := by
          refine fun l => ⟨?_, fun leveled => .running hf ht htext hc leveled⟩
          rintro (_ | ⟨-, -, read, parsed, leveled⟩)
          obtain rfl := Except.ok.inj (htext.symm.trans read)
          obtain rfl := Except.ok.inj (hc.symm.trans parsed)
          exact leveled
        cases hl : c.level with
        | none => exact ⟨levels, hs, .still hfrees fun l h => by simp [hbrings, hl] at h⟩
        | some level =>
          refine ⟨_, by rw [reserveLevel_levels hs], .untaken fun l => ?_⟩
          rw [mem_reserve, and_iff_left (hfrees l), hbrings, hl, Option.some.injEq, eq_comm]
  · rw [reserve, if_neg hany]
    refine ⟨levels, hs, .still hfrees ?_⟩
    rintro l (_ | ⟨found, type, -, -, -⟩)
    have found : s.findEntry model = _ := found
    simp [found, type] at hany

/-- What any operation does to the levels. -/
theorem moves_perform (hs : s.state = .selinux levels) (op : Operation) :
    ∃ levels' taken, (perform op s).2.state = .selinux levels' ∧
      (Demand.operation s.host op s.definition).Moves levels levels' taken := by
  cases op with
  | generate =>
    rcases generate_levels hs with hkept | ⟨level, hfree, hpair, htaken⟩
    · exact ⟨levels, none, hkept, .still nofun nofun⟩
    · refine ⟨_, some level, htaken, fun l => ?_, ?_, fun _ => ⟨_, _, rfl⟩⟩
      · have hfrees : ¬(Demand.operation s.host .generate s.definition).Frees l := nofun
        have hbrings : ¬(Demand.operation s.host .generate s.definition).Brings l := nofun
        rw [Std.ExtHashSet.mem_insert, beq_iff_eq]
        simp only [hfrees, hbrings, not_false_eq_true, and_true, false_or, Option.some.injEq,
          or_comm]
      · rintro l ⟨rfl⟩
        exact ⟨hfree, hpair⟩
  | release =>
    obtain ⟨levels', hstate, hmem⟩ := release_levels hs
    refine ⟨levels', none, hstate, .untaken fun l => ?_⟩
    have hbrings : ¬(Demand.operation s.host .release s.definition).Brings l := nofun
    rw [hmem, Demand.frees_release, or_iff_left hbrings]
  | reserve pid =>
    obtain ⟨levels', hstate, hmoves⟩ := moves_reserve hs pid
    exact ⟨levels', none, hstate, hmoves⟩
  | verify => exact ⟨levels, none, hs, .still nofun nofun⟩
  | _ =>
    exact ⟨levels, none, Eq.trans (state_perform_of_setsContext rfl s) hs, .still nofun nofun⟩

end Scenes

end Selinux

/-! ### Demands to one manager -/

namespace Engine

open Selinux

variable {s : Engine} {id : ManagerId} {levels : Levels} {level : String}

/-- The engine once a manager has met a demand. -/
def serve (id : ManagerId) (s : Engine) : Demand → Engine
  | .operation host op d => (edit id op ⟨{ s with host }, d⟩).2.engine
  | .reservation d => (s.reserveDomainLevel id d).2

/-- The engine once a manager has met several demands. -/
def serveAll (id : ManagerId) (xs : List Demand) (s : Engine) : Engine := xs.foldl (serve id) s

theorem KeepsLevels.unique {levels' : Levels} (h : s.KeepsLevels id levels)
    (h' : s.KeepsLevels id levels') : levels = levels' := by
  obtain ⟨m, hm, -, hstate⟩ := h
  obtain ⟨m', hm', -, hstate'⟩ := h'
  obtain rfl := Option.some.inj (hm.symm.trans hm')
  exact DriverState.selinux.inj (hstate.symm.trans hstate')

/-- The first member that labels through contexts is the one whose levels are reserved. -/
theorem levelKeeper?_eq {keeper : ManagerId} {before after : List ManagerId}
    (hnested : s.nested id = before ++ keeper :: after)
    (hbefore : ∀ n ∈ before, ∀ m, s.manager? n = some m → m.driver.name ≠ model)
    (hk : s.KeepsLevels keeper levels) : s.levelKeeper? id = some keeper := by
  obtain ⟨m, hm, hd, -⟩ := hk
  rw [levelKeeper?, hnested, List.find?_eq_some_iff_append]
  refine ⟨by simp [hm, hd, Driver.selinux, model], before, after, rfl, fun n hn => ?_⟩
  cases hmn : s.manager? n with
  | none => rfl
  | some mn => simpa using hbefore n hn mn hmn

/-- The engine with other levels for one of its managers. -/
def withLevels (s : Engine) (id : ManagerId) (levels : Levels) : Engine :=
  match s.manager? id with
  | some m => s.setManager id { m with state := .selinux levels }
  | none => s

theorem withLevels_eq {m : Manager} (hm : s.manager? id = some m) (levels : Levels) :
    s.withLevels id levels = s.setManager id { m with state := .selinux levels } := by
  rw [withLevels, hm]

theorem KeepsLevels.withLevels {levels' : Levels} (hk : s.KeepsLevels id levels) :
    (s.withLevels id levels').KeepsLevels id levels' := by
  obtain ⟨m, hm, hd, -⟩ := hk
  rw [withLevels_eq hm]
  exact ⟨_, manager?_setManager_self hm _, hd, rfl⟩

theorem withLevels_self (hk : s.KeepsLevels id levels) : s.withLevels id levels = s := by
  obtain ⟨⟨driver, virtDriver, policy, state⟩, hm, rfl, rfl⟩ := hk
  have hget : s.managers[id]? = some (some ⟨.selinux, virtDriver, policy, .selinux levels⟩) :=
    Option.join_eq_some_iff.mp hm
  obtain ⟨hlt, hget⟩ := List.getElem?_eq_some_iff.mp hget
  rw [withLevels_eq hm, setManager, ← hget, List.set_getElem_self]

theorem withLevels_withLevels (hk : s.KeepsLevels id levels) (levels' levels'' : Levels) :
    (s.withLevels id levels').withLevels id levels'' = s.withLevels id levels'' := by
  obtain ⟨m, hm, -, -⟩ := hk
  rw [withLevels_eq hm, withLevels_eq (manager?_setManager_self hm _), withLevels_eq hm]
  simp [setManager]

/-- A reservation leaves everything in the engine but the levels of the manager. -/
theorem reserveDomainLevel_eq (hk : s.KeepsLevels id levels) (d : Definition) :
    ∃ levels', (s.reserveDomainLevel id d).2 = s.withLevels id levels' ∧
      ∀ l, l ∈ levels' ↔ l ∈ levels ∨ Holds d l := by
  obtain ⟨m, hm, hd, hstate⟩ := hk
  obtain ⟨levels', hlevels, hmem⟩ :=
    reserveDomainLevel_levels (s := ⟨m.driver.name, m.state, s.host, d⟩) hstate
  refine ⟨levels', ?_, hmem⟩
  rw [withLevels_eq hm, reserveDomainLevel, withScene, manager_eq_ok_iff.mpr hm]
  simp only [hlevels]

/-- Whatever the manager is asked, it keeps levels, and those that the demand makes of them. -/
theorem moves_serve (hk : s.KeepsLevels id levels) (x : Demand) :
    ∃ levels' taken, (s.serve id x).KeepsLevels id levels' ∧ x.Moves levels levels' taken := by
  cases x with
  | operation host op d =>
    obtain ⟨⟨driver, virtDriver, policy, state⟩, hm, rfl, hstate⟩ := hk
    let scene : Scene := ⟨Driver.selinux.name, state, host, d⟩
    obtain ⟨levels', taken, hlevels, hmoves⟩ := moves_perform (s := scene) hstate op
    cases hperform : Driver.selinux.technology.perform op scene with
    | mk r out =>
      have hout : (Selinux.perform op scene).2 = out := congrArg Prod.snd hperform
      rw [hout] at hlevels
      have hworks : Driver.selinux ∈ Driver.workers := by simp [Driver.workers]
      have hm' : Engine.manager? { s with host } id = _ := hm
      obtain ⟨t, hedit, ht, -⟩ := edit_worker hm' hworks hperform
      refine ⟨levels', taken, ⟨⟨.selinux, virtDriver, policy, out.state⟩, ?_, rfl, hlevels⟩, hmoves⟩
      rw [serve, hedit, ht, Function.update_self]
  | reservation d =>
    obtain ⟨levels', hserve, hmem⟩ := reserveDomainLevel_eq hk d
    have hkept : (s.serve id (.reservation d)).KeepsLevels id levels' := by
      rw [serve, hserve]
      exact hk.withLevels
    refine ⟨levels', none, hkept, .untaken fun l => ?_⟩
    rw [hmem, and_iff_left Demand.not_frees_reservation, Demand.brings_reservation]

/-- A new dynamic label takes the next free pair, which is reserved then. -/
theorem holds_of_generate (hk : s.KeepsLevels id levels) {d : Definition} {st : Stage}
    (h : edit id .generate ⟨s, d⟩ = (.ok (), st)) {x : LabelEntry}
    (hx : st.definition.findEntry model = some x) (ht : x.type = .dynamic) :
    ∃ level, levels.reserveNext = .ok (level, levels.insert level) ∧
      Holds st.definition level ∧ st.engine.KeepsLevels id (levels.insert level) := by
  obtain ⟨⟨driver, virtDriver, policy, state⟩, hm, rfl, rfl⟩ := hk
  have hworks : Driver.selinux ∈ Driver.workers := by simp [Driver.workers]
  let scene : Scene := ⟨Driver.selinux.name, .selinux levels, s.host, d⟩
  cases hf : d.findEntry model with
  | none =>
    have hgenerate : Selinux.generate scene = .ok (scene.state, d) := by
      unfold Selinux.generate
      rw [show scene.findEntry model = none from hf]
    have hperform : Driver.selinux.technology.perform .generate scene = (.ok (), scene) := by
      change Selinux.perform .generate scene = _
      unfold Selinux.perform
      rw [hgenerate, Scene.after_ok]
    obtain ⟨t, hedit, -⟩ := edit_worker hm hworks hperform
    rw [h] at hedit
    obtain ⟨-, rfl⟩ := Prod.mk.inj hedit
    rw [show (Operation.generate.edits) = true from rfl, if_pos rfl, hf] at hx
    cases hx
  | some e =>
    rcases Driver.perform_generate_cases (s := scene) hworks hf with
      ⟨state, y, hfills, hperform⟩ | ⟨err, hperform⟩
    · obtain ⟨t, hedit, hstaff, -⟩ := edit_worker hm hworks hperform
      rw [h] at hedit
      obtain ⟨-, rfl⟩ := Prod.mk.inj hedit
      have hy : (d.fill Driver.selinux.name y).findEntry model = some y :=
        Definition.findEntry_fill hf hfills.bare
      obtain rfl := Option.some.inj (hy.symm.trans hx)
      obtain ⟨held, level, hstate, rfl, hnext, hheld⟩ := reserveNext_of_fills hfills ht
      obtain rfl := DriverState.selinux.inj hstate
      refine ⟨level, hnext, holds_iff_heldLevel.mpr (hheld _ hy),
        ⟨.selinux, virtDriver, policy, .selinux (levels.insert level)⟩, ?_, rfl, rfl⟩
      rw [hstaff, Function.update_self]
    · obtain ⟨t, hedit, -⟩ := edit_worker hm hworks hperform
      rw [h] at hedit
      cases hedit

/-- The first pair of all goes to the domain that asks for a label while it is free. -/
theorem edit_generate_of_free {virtDriver : String} {policy : Policy}
    (hm : s.manager? id = some ⟨.selinux, virtDriver, policy, .selinux levels⟩)
    (hfree : pairLevel 0 1 ∉ levels) {d : Definition} {e : LabelEntry} {base : Context}
    (hf : d.findEntry model = some e) (ht : e.type = .dynamic) (hl : e.label = none)
    (hbase : baseContext e = .ok base) :
    ∃ t, edit id .generate ⟨s, d⟩ = (.ok (), ⟨t, d.fill model
        (e.withLabels (some (base.withLevel (some (pairLevel 0 1))).text)
          (some (imageLabel (some (pairLevel 0 1)))))⟩) ∧
      t.manager? id =
        some ⟨.selinux, virtDriver, policy, .selinux (levels.insert (pairLevel 0 1))⟩ := by
  have hworks : Driver.selinux ∈ Driver.workers := by simp [Driver.workers]
  have hfills : Technology.selinux.Fills d.uuid (.selinux levels) e _ _ :=
    .selinuxDynamic ht hl hbase (Levels.reserveNext_of_free hfree)
  have hperform := Driver.perform_generate_of_fills
    (s := ⟨Driver.selinux.name, .selinux levels, s.host, d⟩) hworks hf hfills
  obtain ⟨t, hedit, hstaff, -⟩ := edit_worker hm hworks hperform
  exact ⟨t, hedit, by rw [hstaff, Function.update_self]⟩

/-- The level of a domain that is released is free again, whose it ever was. -/
theorem edit_release_of_held {virtDriver : String} {policy : Policy}
    (hm : s.manager? id = some ⟨.selinux, virtDriver, policy, .selinux levels⟩) {d : Definition}
    (hd : heldLevel d = .ok (some level)) :
    ∃ t, edit id .release ⟨s, d⟩ = (.ok (), ⟨t, d.emptied .selinux⟩) ∧
      t.manager? id = some ⟨.selinux, virtDriver, policy, .selinux (levels.erase level)⟩ := by
  have hworks : Driver.selinux ∈ Driver.workers := by simp [Driver.workers]
  have hperform := Driver.perform_release
    (s := ⟨Driver.selinux.name, .selinux levels, s.host, d⟩) hworks (.selinux levels) hd
  obtain ⟨t, hedit, hstaff, -⟩ := edit_worker hm hworks hperform
  refine ⟨t, hedit, ?_⟩
  rw [hstaff, Function.update_self, DriverState.freed, hd]

/-- What every demand of a run makes of the levels in keeping with `P`, the run does. -/
theorem keepsLevels_serveAll {P : Levels → Prop} {demands : List Demand}
    (hstep : ∀ x ∈ demands, ∀ levels levels' taken, x.Moves levels levels' taken →
      P levels → P levels')
    (hk : s.KeepsLevels id levels) (hp : P levels) :
    ∃ levels', (s.serveAll id demands).KeepsLevels id levels' ∧ P levels' := by
  induction demands generalizing s levels with
  | nil => exact ⟨levels, hk, hp⟩
  | cons x demands ih =>
    obtain ⟨mid, taken, hmid, hmoves⟩ := moves_serve hk x
    refine ih (fun y hy => hstep y (List.mem_cons_of_mem x hy)) hmid ?_
    exact hstep x (List.mem_cons_self ..) levels mid taken hmoves hp

/-- A level that was generated for a domain stays reserved until a definition is released that
carries it, of this domain or of another one: such a release frees it, and no other does. While it
is reserved no label that is generated takes it. -/
theorem level_kept_until_carrier_released {t : Engine} {d d' : Definition} {x : LabelEntry}
    (hk : s.KeepsLevels id levels) (h : edit id .generate ⟨s, d⟩ = (.ok (), ⟨t, d'⟩))
    (hx : d'.findEntry model = some x) (ht : x.type = .dynamic) :
    ∃ level, Holds d' level ∧ ∀ demands : List Demand, (∀ y ∈ demands, ¬y.Frees level) →
      ∃ reserved, (t.serveAll id demands).KeepsLevels id reserved ∧ level ∈ reserved ∧
        (∀ host e, ∃ left,
          ((t.serveAll id demands).serve id (.operation host .release e)).KeepsLevels id left ∧
            (level ∈ left ↔ ¬Holds e level)) ∧
        ∀ host f st, edit id .generate ⟨{ t.serveAll id demands with host }, f⟩ = (.ok (), st) →
          ∀ y, st.definition.findEntry model = some y → y.type = .dynamic →
            ∃ other, Holds st.definition other ∧ other ≠ level := by
  obtain ⟨level, -, hheld, hk'⟩ := holds_of_generate hk h hx ht
  refine ⟨level, hheld, fun demands hfrees => ?_⟩
  obtain ⟨reserved, hreserved, hmem⟩ :=
    keepsLevels_serveAll (P := (level ∈ ·))
      (fun y hy _ _ _ hmoves hmem => (hmoves.mem_iff level).mpr (.inl ⟨hmem, hfrees y hy⟩))
      hk' (Std.ExtHashSet.mem_insert.mpr (.inl BEq.rfl))
  refine ⟨reserved, hreserved, hmem, fun host e => ?_, fun host f st hf y hy hty => ?_⟩
  · obtain ⟨left, taken, hleft, hmoves⟩ := moves_serve hreserved (.operation host .release e)
    refine ⟨left, hleft, ?_⟩
    have htaken : taken = none := by
      by_contra hasked
      obtain ⟨_, _, h⟩ := hmoves.asked hasked
      cases h
    have hbrings : ¬(Demand.operation host .release e).Brings level := nofun
    rw [hmoves.mem_iff, Demand.frees_release, htaken]
    simp [hmem, hbrings]
  · obtain ⟨other, hnext, hother, -⟩ :=
      holds_of_generate (s := { t.serveAll id demands with host }) hreserved hf hy hty
    exact ⟨other, hother, fun heq => (Levels.reserveNext_eq_ok hnext).1 (heq ▸ hmem)⟩

/-- One of several guests, with its dynamic label. -/
def numberedGuest (number : Nat) (label : Option String) : Definition :=
  let digit : Fin 16 := ⟨number % 16, Nat.mod_lt number (by decide)⟩
  { Definition.guest [{ model := some "selinux", type := .dynamic, label }] with
    uuid := ⟨List.replicate 32 digit, List.length_replicate⟩ }

/-- A guest that has got its label elsewhere. -/
def foreignGuest : Definition := numberedGuest 1 (some "system_u:system_r:svirt_t:s0:c4,c5")

/-- The level of a guest outlasts the release of another guest that came with its own, and the
labelling of a third one. -/
theorem level_kept_numberedGuest : ∃ t d',
    edit 0 .generate ⟨contextHost, numberedGuest 0 none⟩ = (.ok (), ⟨t, d'⟩) ∧
    Holds d' "s0:c0,c1" ∧
    ∃ reserved, (t.serveAll 0 [.reservation foreignGuest, .operation {} .release foreignGuest,
        .operation {} .generate (numberedGuest 2 none)]).KeepsLevels 0 reserved ∧
      "s0:c0,c1" ∈ reserved := by
  have hm : contextHost.manager? 0 = some ⟨.selinux, "qemu", {}, .selinux ∅⟩ := rfl
  obtain ⟨t, hgenerate, -⟩ := edit_generate_of_free hm Std.ExtHashSet.not_mem_empty
    (d := numberedGuest 0 none) rfl rfl rfl rfl
  obtain ⟨level, hheld, hkept⟩ :=
    level_kept_until_carrier_released ⟨_, rfl, rfl, rfl⟩ hgenerate rfl rfl
  have hlevel : level = "s0:c0,c1" := hheld.unique (holds_iff_heldLevel.mpr rfl)
  subst hlevel
  have hother : heldLevel foreignGuest = .ok (some "s0:c4,c5") := rfl
  have hfrees : ∀ y ∈ [Demand.reservation foreignGuest, .operation {} .release foreignGuest,
      .operation {} .generate (numberedGuest 2 none)], ¬y.Frees "s0:c0,c1" := by
    rintro _ hy ⟨held⟩
    simp only [List.mem_cons, Demand.operation.injEq, reduceCtorEq, List.not_mem_nil, false_and,
      and_false, true_and, or_false, false_or] at hy
    rw [hy.2, holds_iff_heldLevel, hother] at held
    simp at held
  obtain ⟨reserved, hreserved, hmem, -⟩ := hkept _ hfrees
  exact ⟨t, _, hgenerate, hheld, reserved, hreserved, hmem⟩

/-- A copy of the definition of a labelled guest is another guest, but to release it frees the level
of the first one, and the next guest gets that level. -/
theorem released_copy_frees_level : ∃ t d' u e' v f',
    edit 0 .generate ⟨contextHost, numberedGuest 0 none⟩ = (.ok (), ⟨t, d'⟩) ∧
    edit 0 .release ⟨t, { d' with uuid := (numberedGuest 1 none).uuid }⟩ = (.ok (), ⟨u, e'⟩) ∧
    edit 0 .generate ⟨u, numberedGuest 2 none⟩ = (.ok (), ⟨v, f'⟩) ∧
    Holds d' "s0:c0,c1" ∧ Holds f' "s0:c0,c1" := by
  have hm : contextHost.manager? 0 = some ⟨.selinux, "qemu", {}, .selinux ∅⟩ := rfl
  obtain ⟨t, hgenerate, ht⟩ := edit_generate_of_free hm Std.ExtHashSet.not_mem_empty
    (d := numberedGuest 0 none) rfl rfl rfl rfl
  generalize hd' : Definition.fill _ _ _ = d' at hgenerate
  have hheld : heldLevel d' = .ok (some (pairLevel 0 1)) := by
    rw [← hd']
    rfl
  obtain ⟨u, hrelease, hu⟩ := edit_release_of_held ht
    (d := { d' with uuid := (numberedGuest 1 none).uuid }) hheld
  have hfree : pairLevel 0 1 ∉ ((∅ : Levels).insert (pairLevel 0 1)).erase (pairLevel 0 1) := by
    simp
  obtain ⟨v, hagain, -⟩ := edit_generate_of_free hu hfree
    (d := numberedGuest 2 none) rfl rfl rfl rfl
  exact ⟨t, d', u, _, v, _, hgenerate, hrelease, hagain, holds_iff_heldLevel.mpr hheld,
    holds_iff_heldLevel.mpr rfl⟩

end Engine

end Confinement

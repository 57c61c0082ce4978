import Confinement.Proofs.Definition.Framing
import Confinement.Proofs.Driver.TakingBack
import Confinement.Proofs.Generation.Repeated
import Confinement.Proofs.Manager.Leaves

/-!
# Stopping a domain

A stack releases the label of a domain by one turn of every member, and all of them succeed if the
level in the domain's context can be read. The turns empty first entries and leave everything else
of the domain. What the members keep is then as it was before the generation, except that profiles
have lost the rules of the domain; only where two members would have made up the same context does a
level stay behind.
-/

namespace Confinement

open Selinux (heldLevel)

/-! ### States without rules -/

/-- A state without the rules of any domain. -/
def DriverState.butRules : DriverState → DriverState
  | .apparmor _ => .apparmor []
  | state => state

namespace DriverState

/-- The reserved levels, if the state is of that kind. -/
def levels? : DriverState → Option Selinux.Levels
  | .selinux levels => some levels
  | _ => .none

variable {state state' : DriverState}

@[simp] theorem levels?_butRules (state : DriverState) :
    state.butRules.levels? = state.levels? := by
  cases state <;> rfl

theorem eq_dac_of_butRules {policy : OwnershipPolicy}
    (h : state'.butRules = (DriverState.dac policy).butRules) : state' = .dac policy := by
  cases state' <;> first | exact h | cases h

theorem eq_selinux_of_butRules {levels : Selinux.Levels}
    (h : state'.butRules = (DriverState.selinux levels).butRules) : state' = .selinux levels := by
  cases state' <;> first | exact h | cases h

/-- Unless there is a level to give back, nothing is freed but rules. -/
theorem butRules_freed {d : Definition}
    (h : ∀ levels, state = .selinux levels → heldLevel d = .ok .none) :
    (state.freed d).butRules = state.butRules := by
  cases state with
  | selinux levels => simp only [freed, h levels rfl]
  | _ => rfl

end DriverState

namespace Technology.Keeps

variable {t : Technology} {state state' : DriverState}

theorem freed (h : t.Keeps state) (d : Definition) : t.Keeps (state.freed d) := by
  cases h with
  | nothing => exact .nothing
  | selinux levels =>
    simp only [DriverState.freed]
    split <;> exact .selinux _
  | dac policy => exact .dac policy
  | apparmor rules => exact .apparmor _

theorem of_butRules (h : t.Keeps state) (hs : state'.butRules = state.butRules) :
    t.Keeps state' := by
  cases h with
  | nothing =>
    cases state' <;> first | exact .nothing | cases hs
  | selinux levels =>
    rw [DriverState.eq_selinux_of_butRules hs]
    exact .selinux levels
  | dac policy =>
    rw [DriverState.eq_dac_of_butRules hs]
    exact .dac policy
  | apparmor rules =>
    cases state' <;> first | exact .apparmor _ | cases hs

end Technology.Keeps

/-! ### Managers that can work -/

/-- The manager is of a built-in driver that does its own work, and was opened by it. -/
structure Manager.Works (m : Manager) : Prop where
  driver : m.driver ∈ Driver.workers
  state : m.driver.technology.Keeps m.state

/-- A manager that has just been opened can work. -/
theorem Manager.works_of_initial {m : Manager} (hw : m.driver ∈ Driver.workers)
    (hs : m.state = m.driver.initial) : m.Works := by
  refine ⟨hw, ?_⟩
  rw [hs]
  simp only [Driver.workers, List.mem_cons, List.not_mem_nil, or_false] at hw
  rcases hw with hd | hd | hd | hd <;> rw [hd]
  · exact .selinux ∅
  · exact .apparmor []
  · exact .dac {}
  · exact .nothing

/-- Only managers of contexts keep levels. -/
theorem Manager.Works.eq_selinux {m : Manager} (h : m.Works) {levels : Selinux.Levels}
    (hs : m.state = .selinux levels) : m.driver = .selinux := by
  refine Driver.eq_selinux_of_technology h.driver ?_
  have hkeeps := h.state
  rw [hs] at hkeeps
  generalize m.driver.technology = t at hkeeps
  cases hkeeps
  rfl

/-- The managers with the numbers can do their own work. -/
def Staff.Ready (M : Staff) (ns : List ManagerId) : Prop := ∀ n ∈ ns, ∃ m, M n = some m ∧ m.Works

/-- The manager without the rules of any domain. -/
def Manager.butRules (m : Manager) : Manager := { m with state := m.state.butRules }

/-- The managers with the numbers are the same in both, the rules of domains apart. -/
def Staff.SameButRules (M N : Staff) : Prop :=
  ∀ n, (N n).map Manager.butRules = (M n).map Manager.butRules

namespace Staff

/-- The levels that a manager of contexts has reserved. -/
def reserved (M : Staff) (n : ManagerId) : Option Selinux.Levels := (M n).bind (·.state.levels?)

variable {M N : Staff} {ns ids : List ManagerId} {n : ManagerId} {m : Manager}

theorem SameButRules.reserved_eq (h : M.SameButRules N) : N.reserved = M.reserved := by
  have hreserved : ∀ (M : Staff) (n : ManagerId),
      M.reserved n = ((M n).map Manager.butRules).bind (·.state.levels?) := by
    intro M n
    rw [Option.bind_map]
    exact congrArg _ (funext fun m => m.state.levels?_butRules.symm)
  funext n
  rw [hreserved, hreserved, h n]

theorem Ready.work (h : M.Ready ns) : M.Work ns := fun n hn =>
  have ⟨m, hm, hw⟩ := h n hn
  ⟨m, hm, hw.driver⟩

theorem Ready.works (h : M.Ready ns) (hn : n ∈ ns) (hm : M n = some m) : m.Works :=
  of_mem h hn hm

theorem Ready.update (h : M.Ready ids) (hm : M n = some m) {state : DriverState}
    (hk : m.Works → m.driver.technology.Keeps state) :
    Staff.Ready (Function.update M n (some { m with state })) ids :=
  forall_update h hm fun hw => ⟨hw.driver, hk hw⟩

end Staff

/-- What is kept stays of its kind if every turn leaves it so. -/
theorem Turns.ready {turn : Manager → Definition → DriverState → Definition → Prop}
    {ns ids : List ManagerId} {M M' : Staff} {d d' : Definition}
    (hturn : ∀ m d state d', turn m d state d' → m.driver.technology.Keeps m.state →
      m.driver.technology.Keeps state)
    (h : Turns turn ns M d M' d') (hs : M.Ready ids) : M'.Ready ids := by
  induction h with
  | nil => exact hs
  | cons found step rest ih =>
    exact ih (hs.update found fun hworks => hturn _ _ _ _ step hworks.state)

theorem Manager.Labels.keeps {m : Manager} {d d' : Definition} {state : DriverState}
    (h : m.Labels d state d') (hk : m.driver.technology.Keeps m.state) :
    m.driver.technology.Keeps state := by
  cases h with
  | passed missing lax optional others => exact hk
  | completed allowed needed filled => exact filled.keeps hk

/-! ### A turn in a release -/

/-- A turn of a manager in a release. -/
structure Manager.Frees (m : Manager) (d : Definition) (state : DriverState) (d' : Definition) :
    Prop where
  /-- What is kept for the domain is dropped. -/
  state : state = m.state.freed d
  definition : d' = d.emptied m.driver

namespace Selinux

/-- To empty an entry takes the level away, if it is that of the contexts, or leaves it. -/
theorem heldLevel_emptied_cases (d : Definition) (dr : Driver) :
    heldLevel (d.emptied dr) = .ok none ∨ heldLevel (d.emptied dr) = heldLevel d := by
  by_cases hname : model = dr.name
  · have hfind := Definition.findEntry_emptied d dr
    rw [← hname] at hfind
    cases hf : d.findEntry model with
    | none => exact .inl (heldLevel_of_missing (by rw [hfind, hf, Option.map_none]))
    | some e =>
      rw [hf, Option.map_some] at hfind
      by_cases hmakes : dr.technology.MakesOnce e
      · rw [Technology.emptied_of_makesOnce hmakes] at hfind
        exact .inl (heldLevel_of_unlabelled hfind rfl)
      · rw [Technology.emptied_of_not_makesOnce hmakes, ← hf] at hfind
        exact .inr (heldLevel_congr hfind)
  · exact .inr (heldLevel_congr (Definition.findEntry_emptied_of_ne hname))

end Selinux

namespace Manager.Frees

variable {m : Manager} {d d' : Definition} {state : DriverState}

theorem ownModel : Turns.OwnModel Frees := fun _ _ _ _ h _ hne => by
  rw [h.definition, Definition.findEntry_emptied_of_ne hne]

theorem framed (h : m.Frees d state d') : d.Framed d' := by
  rw [h.definition]
  exact .editEntry d m.driver.name m.driver.technology.model_emptied

theorem keeps (h : m.Frees d state d') (hk : m.driver.technology.Keeps m.state) :
    m.driver.technology.Keeps state := by
  rw [h.state]
  exact hk.freed d

theorem heldLevel_cases (h : m.Frees d state d') :
    heldLevel d' = .ok none ∨ heldLevel d' = heldLevel d := by
  rw [h.definition]
  exact Selinux.heldLevel_emptied_cases d m.driver

end Manager.Frees

/-! ### All turns of a release -/

namespace Turns

variable {ns ids : List ManagerId} {M M' : Staff} {d d' : Definition} {n : ManagerId} {m : Manager}

theorem ready_of_labels (h : Turns Manager.Labels ns M d M' d') (hs : M.Ready ids) : M'.Ready ids :=
  h.ready (fun _ _ _ _ hstep => hstep.keeps) hs

theorem ready_of_frees (h : Turns Manager.Frees ns M d M' d') (hs : M.Ready ids) : M'.Ready ids :=
  h.ready (fun _ _ _ _ hstep => hstep.keeps) hs

theorem framed (h : Turns Manager.Frees ns M d M' d') : d.Framed d' :=
  h.preserves (P := fun a => d.Framed a) (fun _ _ _ _ _ _ _ hstep ha => ha.trans hstep.framed)
    (.refl d)

/-- All of a first entry but its labels is left. -/
theorem bare_emptied (h : Turns Manager.Frees ns M d M' d') (model : String) :
    (d'.findEntry model).map LabelEntry.bare = (d.findEntry model).map LabelEntry.bare := by
  refine h.preserves (P := fun a => (a.findEntry model).map LabelEntry.bare =
    (d.findEntry model).map LabelEntry.bare) ?_ rfl
  intro n _ m _ a state b hstep ha
  rw [← ha, hstep.definition]
  by_cases hname : model = m.driver.name
  · rw [hname, Definition.findEntry_emptied, Option.map_map]
    exact congrArg (Option.map · _) (funext m.driver.technology.bare_emptied)
  · rw [Definition.findEntry_emptied_of_ne hname]

/-- After a release the first entry of a member's model is what the driver leaves of it. -/
theorem findEntry_emptied (hw : M.Work ns) (h : Turns Manager.Frees ns M d M' d') {dr : Driver}
    (hdr : dr ∈ Driver.workers) (hn : ∃ n ∈ ns, M.model? n = some dr.name) :
    d'.findEntry dr.name = (d.findEntry dr.name).map dr.technology.emptied := by
  induction h with
  | nil => simp at hn
  | @cons k ns M M' m state d mid d' found step rest ih =>
    have hwork := hw.tail.update found state
    have hmid : m.driver.name = dr.name →
        mid.findEntry dr.name = (d.findEntry dr.name).map dr.technology.emptied := by
      intro hname
      obtain rfl := Driver.eq_of_name (hw.driver (List.mem_cons_self ..) found) hdr hname
      rw [step.definition, Definition.findEntry_emptied]
    by_cases hlater : ∃ i ∈ ns, M.model? i = some dr.name
    · rw [ih hwork (by rwa [Staff.model?_update found])]
      by_cases hname : m.driver.name = dr.name
      · -- A second turn for the model finds the entry empty.
        rw [hmid hname, Option.map_map]
        exact congrArg (Option.map · _) (funext dr.technology.emptied_emptied)
      · rw [Manager.Frees.ownModel m d state mid step dr.name (Ne.symm hname)]
    · rw [rest.findEntry_of_foreign Manager.Frees.ownModel]
      · obtain ⟨i, hi, hmodel⟩ := hn
        rcases List.mem_cons.mp hi with rfl | hi
        · rw [Staff.model?_eq found] at hmodel
          exact hmid (Option.some.inj hmodel)
        · exact absurd ⟨i, hi, hmodel⟩ hlater
      · intro i hi hmodel
        rw [Staff.model?_update found] at hmodel
        exact hlater ⟨i, hi, hmodel⟩

/-- Unless a level is held a member keeps all but rules. -/
theorem butRules_of_unheld (h : Turns Manager.Frees ns M d M' d') (hm : M n = some m)
    (hd : ∀ levels, m.state = .selinux levels → heldLevel d = .ok none) :
    ∃ state, M' n = some { m with state } ∧ state.butRules = m.state.butRules := by
  induction h generalizing m with
  | nil => exact ⟨m.state, hm, rfl⟩
  | @cons k ns M M' mk state d mid d' found step rest ih =>
    have hmid : ∀ levels, m.state = .selinux levels → heldLevel mid = .ok none := by
      intro levels hstate
      rcases step.heldLevel_cases with hnone | hsame
      · exact hnone
      · rw [hsame, hd levels hstate]
    by_cases hk : n = k
    · subst hk
      obtain rfl := Option.some.inj (found.symm.trans hm)
      have hfreed : state.butRules = mk.state.butRules := by
        rw [step.state, DriverState.butRules_freed hd]
      obtain ⟨last, hlast, hrules⟩ := ih (m := { mk with state }) (Function.update_self ..)
        fun levels hstate => hmid levels
          (DriverState.eq_selinux_of_butRules (hfreed.symm.trans (congrArg _ hstate)))
      exact ⟨last, hlast, hrules.trans hfreed⟩
    · exact ih (by rw [Function.update_of_ne hk, hm]) hmid

/-! ### A generation and a release -/

/-- What the policy of every manager has let pass: entries that confine as it demands, and no entry
only where it demands none. -/
theorem policy (h : Turns Manager.Labels ns M d M' d') (hn : n ∈ ns) (hm : M n = some m) :
    (d'.findEntry m.driver.name = none → m.policy.defaultConfined = false ∧
      m.policy.requireConfined = false ∧ d'.entries ≠ []) ∧
    ∀ x, d'.findEntry m.driver.name = some x → m.policy.Allows x := by
  obtain ⟨done, later, rfl⟩ := List.append_of_mem hn
  obtain ⟨N, a, kept, state, b, -, -, hstep, hrest, -⟩ := h.split hm
  cases hstep with
  | passed missing lax optional others =>
    have hoptional : m.policy.requireConfined = false := optional
    exact ⟨fun _ => ⟨lax, hoptional, hrest.entries_ne_nil others⟩,
      fun x _ => by simp [Policy.Allows, hoptional]⟩
  | @completed _ x allowed needed filled =>
    have hfound := Manager.Labels.findEntry_completed _ a filled
    have hsettled : x.type ≠ .undecided := by
      rw [filled.type]
      exact m.policy.type_settle_ne _
    obtain ⟨y, hy, hbare⟩ := hrest.bare_kept hfound hsettled
    have hy : d'.findEntry m.driver.name = some y := hy
    refine ⟨fun hnone => ?_, fun z hz => ?_⟩
    · rw [hy] at hnone
      cases hnone
    · obtain rfl := Option.some.inj (hy.symm.trans hz)
      have htype := (LabelEntry.type_of_bare hbare).trans filled.type
      unfold Policy.Allows at allowed ⊢
      rwa [htype]

/-- A turn changes what is kept for the manager only if it fills in a dynamic context, and so do
all turns up to a point, seen from the end. -/
theorem manager_eq {later : List ManagerId} {N : Staff} {a : Definition}
    (h : Turns Manager.Labels ns M d N a) (hrest : Turns Manager.Labels later N a M' d')
    (hm : M n = some m) (hx : m.driver.technology = .selinux →
      ∀ x, d'.findEntry m.driver.name = some x → x.type ≠ .dynamic) : N n = some m := by
  induction h with
  | nil => exact hm
  | @cons k ns M N mk state d mid a found step rest ih =>
    refine ih hrest ?_
    by_cases hk : n = k
    · subst hk
      obtain rfl := Option.some.inj (found.symm.trans hm)
      have hstate : state = mk.state := by
        rcases step.findEntry_cases with ⟨-, -, hstate⟩ | ⟨x, hfound, hfills⟩
        · exact hstate
        · rcases hfills.state_cases with hstate | ⟨ht, htype, -⟩
          · exact hstate
          · have hsettled : x.type ≠ .undecided := by
              rw [htype]
              decide
            obtain ⟨y, hy, hbare⟩ := rest.bare_kept hfound hsettled
            obtain ⟨z, hz, hbare'⟩ :=
              hrest.bare_kept hy (LabelEntry.type_of_bare hbare ▸ hsettled)
            exact absurd (LabelEntry.type_of_bare (hbare'.trans hbare) |>.trans htype) (hx ht z hz)
      rw [Function.update_self, hstate]
    · rw [Function.update_of_ne hk, hm]

/-- The last turn for a model that makes up a label is the only one of its manager. -/
theorem not_mem_of_last {done later : List ManagerId} (hw : M.Work (done ++ n :: later))
    (h : Turns Manager.Labels (done ++ n :: later) M d M' d') (hm : M n = some m) {x : LabelEntry}
    (hx : d'.findEntry m.driver.name = some x) (hmakes : m.driver.technology.MakesOnce x)
    (hlater : ∀ k ∈ later, M.model? k ≠ some m.driver.name) : n ∉ done := by
  intro hn
  obtain ⟨N, a, kept, state, b, hfirst, -, hstep, hrest, hmodels⟩ := h.split hm
  have hb : b.findEntry m.driver.name = some x := by
    rw [← hx, hrest.findEntry_of_foreign Manager.Labels.ownModel (by rwa [hmodels])]
  cases ha : a.findEntry m.driver.name with
  | none =>
    -- The policy that has let a missing entry pass once lets it pass again.
    obtain ⟨hlax, -, hothers⟩ := (hfirst.policy hn hm).1 ha
    cases hstep with
    | passed missing lax optional others =>
      rw [ha] at hb
      cases hb
    | completed allowed needed filled =>
      rcases needed ha with hconfined | hnil
      · exact Bool.false_ne_true (hlax.symm.trans hconfined)
      · exact hothers hnil
  | some e =>
    -- An entry that has been filled in has a label, and is not filled in again.
    have hwork : M.Work done := fun k hk => hw k (List.mem_append_left _ hk)
    obtain ⟨hsettled, _, _, _, hfills⟩ := hfirst.filled hwork hn hm ha
    obtain ⟨y, hy, hbare⟩ := hstep.bare_kept ha hsettled
    obtain rfl := Option.some.inj (hy.symm.trans hb)
    have hmakes' : m.driver.technology.MakesOnce e :=
      ⟨hmakes.1, (LabelEntry.type_of_bare hbare).symm.trans hmakes.2⟩
    have hrefuses : Manager.Refuses { m with state := kept } a :=
      ⟨e, ha, hmakes', (hfills.made hmakes').2⟩
    exact hrefuses.not_labels _ _ hstep

/-- The last turn for a model that has an entry in the end has filled it in. -/
theorem last {done later : List ManagerId} (hw : M.Work (done ++ n :: later))
    (h : Turns Manager.Labels (done ++ n :: later) M d M' d') (hm : M n = some m) {x : LabelEntry}
    (hx : d'.findEntry m.driver.name = some x)
    (hlater : ∀ k ∈ later, M.model? k ≠ some m.driver.name) :
    ∃ e state, m.driver.technology.Fills d'.uuid m.state e state x ∧
      M' n = some { m with state } := by
  have hself := Staff.model?_eq hm
  obtain ⟨N, a, kept, state, b, hfirst, hN, hstep, hrest, hmodels⟩ := h.split hm
  have hturns : Turns Manager.Labels (n :: later) N a M' d' := .cons hN hstep hrest
  obtain rfl : kept = m.state := by
    have hsame : N n = some m := by
      by_cases hmakes : m.driver.technology.MakesOnce x
      · rw [hfirst.of_not_mem (h.not_mem_of_last hw hm hx hmakes hlater), hm]
      · refine hfirst.manager_eq hturns hm fun ht y hy htype => hmakes ?_
        obtain rfl := Option.some.inj (hx.symm.trans hy)
        exact ⟨.inl ht, htype⟩
    exact congrArg Manager.state (Option.some.inj (hN.symm.trans hsame))
  rw [hrest.findEntry_of_foreign Manager.Labels.ownModel (by rwa [hmodels])] at hx
  rcases hstep.findEntry_cases with ⟨-, hmissing, -⟩ | ⟨y, hy, hfills⟩
  · rw [hx] at hmissing
    cases hmissing
  · obtain rfl := Option.some.inj (hx.symm.trans hy)
    refine ⟨_, state, hturns.uuid ▸ hfills, ?_⟩
    rw [hrest.of_not_mem fun hn => hlater n hn hself, Function.update_self]

/-- After a generation that knows all models the level in the domain's context can be read. -/
theorem heldLevel_ok (hw : M.Work ns) (h : Turns Manager.Labels ns M d M' d')
    (hknown : M.Knows ns d) : ∃ held, heldLevel d' = .ok held := by
  cases hf : d'.findEntry Selinux.model with
  | none => exact ⟨none, Selinux.heldLevel_of_missing hf⟩
  | some x =>
    by_cases ht : x.type = .dynamic
    · have hmodel := LabelEntry.isFor_iff.mp (List.find?_some hf)
      obtain ⟨n, hn, hprovides⟩ := h.known hknown x (List.mem_of_find?_eq_some hf) _ hmodel
      obtain ⟨m, hm, hworks⟩ := hw n hn
      rw [Staff.model?_eq hm] at hprovides
      obtain hdriver : m.driver = .selinux :=
        Driver.eq_of_name hworks (by simp [Driver.workers]) (Option.some.inj hprovides)
      have hx : d'.findEntry m.driver.name = some x := by rwa [hdriver]
      obtain ⟨-, _, _, _, hfills⟩ := h.filled hw hn hm hx
      rw [hdriver] at hfills
      obtain ⟨_, level, -, -, -, hheld⟩ := Selinux.heldLevel_of_fills hfills ht hf
      exact ⟨some level, hheld⟩
    · exact ⟨none, Selinux.heldLevel_of_ne hf ht⟩

end Turns

namespace Staff

/-- If the first entry of a model is dynamic, only one of the numbers is of a manager of the model,
and only once. -/
def Alone (M : Staff) (ns : List ManagerId) (d : Definition) (model : String) : Prop :=
  ∀ x, d.findEntry model = some x → x.type = .dynamic →
    ns.Pairwise fun i j => ¬(M.model? i = some model ∧ M.model? j = some model)

variable {M : Staff} {ns done later : List ManagerId} {n : ManagerId} {d : Definition}
  {model : String}

theorem Alone.split (h : M.Alone (done ++ n :: later) d model) {x : LabelEntry}
    (hx : d.findEntry model = some x) (ht : x.type = .dynamic) (hn : M.model? n = some model) :
    (∀ k ∈ done, M.model? k ≠ some model) ∧ ∀ k ∈ later, M.model? k ≠ some model := by
  obtain ⟨-, hback, hacross⟩ := List.pairwise_append.mp (h x hx ht)
  exact ⟨fun k hk hmodel => hacross k hk n (List.mem_cons_self ..) ⟨hmodel, hn⟩,
    fun k hk hmodel => (List.pairwise_cons.mp hback).1 k hk ⟨hn, hmodel⟩⟩

theorem Alone.of_split (hdone : ∀ k ∈ done, M.model? k ≠ some model)
    (hlater : ∀ k ∈ later, M.model? k ≠ some model) : M.Alone (done ++ n :: later) d model := by
  refine fun _ _ _ => List.pairwise_append.mpr ⟨?_, List.pairwise_cons.mpr ⟨?_, ?_⟩, ?_⟩
  · exact List.pairwise_of_forall_mem_list fun i hi _ _ hboth => hdone i hi hboth.1
  · exact fun j hj hboth => hlater j hj hboth.2
  · exact List.pairwise_of_forall_mem_list fun i hi _ _ hboth => hlater i hi hboth.1
  · exact fun i hi _ _ hboth => hdone i hi hboth.1

theorem Alone.of_not_provided (h : ¬∃ n ∈ ns, M.model? n = some model) : M.Alone ns d model :=
  fun _ _ _ => List.pairwise_of_forall_mem_list fun i hi _ _ hboth => h ⟨i, hi, hboth.1⟩

end Staff

/-- The only manager that fills in a dynamic context gets the level back that it has reserved. -/
theorem Turns.given_back {done later : List ManagerId} {M M₁ M₂ : Staff} {a d b : Definition}
    {n : ManagerId} {m : Manager} {x : LabelEntry} (hw : M.Work (done ++ n :: later))
    (h : Turns Manager.Labels (done ++ n :: later) M a M₁ d)
    (h' : Turns Manager.Frees (done ++ n :: later) M₁ d M₂ b) (hm : M n = some m)
    (hdriver : m.driver = .selinux) (hx : d.findEntry m.driver.name = some x)
    (ht : x.type = .dynamic) (hdone : ∀ k ∈ done, M.model? k ≠ some m.driver.name)
    (hlater : ∀ k ∈ later, M.model? k ≠ some m.driver.name) : M₂ n = some m := by
  have hname : m.driver.name = Selinux.model := by
    rw [hdriver]
    rfl
  obtain ⟨e, state, hfills, hM₁⟩ := h.last hw hm hx hlater
  rw [hdriver] at hfills
  obtain ⟨levels, level, hstate, rfl, hfree, hheld⟩ :=
    Selinux.heldLevel_of_fills hfills ht (hname ▸ hx)
  obtain ⟨_, c, freed, _, _, hstep, -, hc, -, hM₂⟩ :=
    h'.solo Manager.Frees.ownModel hM₁ (by rwa [h.model?_eq]) (by rwa [h.model?_eq])
  have hheld' : heldLevel c = .ok (some level) := by
    rw [← hheld]
    exact Selinux.heldLevel_congr (hname ▸ hc)
  have hfreed : freed = m.state := by
    rw [hstep.state, hstate]
    simp only [DriverState.freed, hheld', Selinux.Levels.erase_insert hfree]
  rw [hM₂, hfreed]

/-- A release gives back all levels that the generation has taken, if no two managers would have
filled in the same dynamic context. -/
theorem Turns.sameButRules {ns : List ManagerId} {M M₁ M₂ : Staff} {a d b : Definition}
    (hs : M.Ready ns) (h : Turns Manager.Labels ns M a M₁ d)
    (h' : Turns Manager.Frees ns M₁ d M₂ b) (halone : M.Alone ns d Selinux.model) :
    M.SameButRules M₂ := by
  intro n
  by_cases hn : n ∈ ns
  · obtain ⟨m, hm, hworks⟩ := hs n hn
    rw [hm]
    by_cases hdynamic : m.driver = .selinux ∧
        ∃ x, d.findEntry Selinux.model = some x ∧ x.type = .dynamic
    · obtain ⟨hdriver, x, hx, ht⟩ := hdynamic
      have hname : Selinux.model = m.driver.name := by
        rw [hdriver]
        rfl
      rw [hname] at hx halone
      obtain ⟨done, later, rfl⟩ := List.append_of_mem hn
      obtain ⟨hdone, hlater⟩ := halone.split hx ht (Staff.model?_eq hm)
      rw [h.given_back hs.work h' hm hdriver hx ht hdone hlater]
    · have hx : m.driver = .selinux → ∀ x, d.findEntry Selinux.model = some x →
          x.type ≠ .dynamic := fun hdriver x hx ht => hdynamic ⟨hdriver, x, hx, ht⟩
      have hM₁ : M₁ n = some m := h.manager_eq .nil hm fun ht x => by
        have hdriver := Driver.eq_selinux_of_technology hworks.driver ht
        rw [hdriver]
        exact hx hdriver x
      obtain ⟨state, hM₂, hrules⟩ := h'.butRules_of_unheld hM₁ fun levels hstate =>
        Selinux.heldLevel_of_not_dynamic (hx (hworks.eq_selinux hstate))
      rw [hM₂, Option.map_some, Option.map_some]
      simp only [Manager.butRules, hrules]
  · rw [h'.of_not_mem hn, h.of_not_mem hn]

/-- If all levels are given back, no two managers would have filled in the same dynamic context: the
first of them empties the entry, and the level stays with the last one. -/
theorem Turns.alone_of_reserved {ns : List ManagerId} {M M₁ M₂ : Staff} {a d b : Definition}
    (hs : M.Ready ns) (h : Turns Manager.Labels ns M a M₁ d)
    (h' : Turns Manager.Frees ns M₁ d M₂ b) (hsame : M₂.reserved = M.reserved) :
    M.Alone ns d Selinux.model := by
  intro x hx ht
  by_cases hprovided : ∃ n ∈ ns, M.model? n = some Selinux.model
  · obtain ⟨done, n, later, rfl, hn, hlater⟩ := Staff.exists_last hprovided
    have hmem : n ∈ done ++ n :: later := List.mem_append_right done (List.mem_cons_self ..)
    obtain ⟨m, hm, hworks⟩ := hs n hmem
    have hname : m.driver.name = Selinux.model :=
      Option.some.inj ((Staff.model?_eq hm).symm.trans hn)
    have hdriver : m.driver = .selinux :=
      Driver.eq_of_name hworks.driver (by simp [Driver.workers]) hname
    have hmakes : m.driver.technology.MakesOnce x :=
      (Driver.makesOnce_iff hworks.driver).mpr ⟨.inl hdriver, ht⟩
    rw [← hname] at hx hlater
    have hfresh := h.not_mem_of_last hs.work hm hx hmakes hlater
    obtain ⟨e, state, hfills, hM₁⟩ := h.last hs.work hm hx hlater
    rw [hdriver] at hfills
    obtain ⟨levels, level, hstate, rfl, hfree, -⟩ :=
      Selinux.heldLevel_of_fills hfills ht (hname ▸ hx)
    have hdone : ∀ k ∈ done, M.model? k ≠ some Selinux.model := by
      intro k hk hmodel
      obtain ⟨N, c, hfirst, hrest⟩ := h'.append
      have hready₁ := h.ready_of_labels hs
      have hwork : M₁.Work done := fun i hi => hready₁.work i (List.mem_append_left _ hi)
      have hc := hfirst.findEntry_emptied hwork (hworks.driver)
        ⟨k, hk, by rw [h.model?_eq, hmodel, hname]⟩
      rw [hx, Option.map_some, Technology.emptied_of_makesOnce hmakes, hname] at hc
      have hN : N n = some { m with state := .selinux (levels.insert level) } := by
        rw [hfirst.of_not_mem hfresh, hM₁]
      obtain ⟨last, hM₂, hlast⟩ := hrest.butRules_of_unheld hN
        fun _ _ => Selinux.heldLevel_of_unlabelled hc rfl
      have hreserved := congrFun hsame n
      rw [Staff.reserved, Staff.reserved, hM₂, hm, Option.bind_some, Option.bind_some,
        DriverState.eq_selinux_of_butRules hlast, hstate] at hreserved
      have heq : levels.insert level = levels := Option.some.inj hreserved
      exact hfree (heq ▸ Std.ExtHashSet.mem_insert_self)
    exact Staff.Alone.of_split hdone (hname ▸ hlater) x (hname ▸ hx) ht
  · exact Staff.Alone.of_not_provided hprovided x hx ht

/-! ### A stack and its members -/

namespace Engine

variable {s : Engine} {st : Stage} {id : ManagerId} {m : Manager} {ns : List ManagerId}

/-- A stack of managers without members is a tree of leaves. -/
theorem tree_of_leaves (hm : s.manager? id = some m) (hmembers : m.members? = some ns)
    (hs : ∀ n ∈ ns, ∃ m, s.manager? n = some m ∧ m.members? = none) :
    s.tree id = .stack id (ns.map .leaf) := by
  have hlt := lt_length_of_manager? hm
  obtain ⟨depth, hdepth⟩ : ∃ depth, s.managers.length = depth + 1 :=
    Nat.exists_eq_add_one.mpr (Nat.zero_lt_of_lt hlt)
  rw [tree, hdepth, treeWithin, hm, Option.bind_some, hmembers]
  refine congrArg (Tree.stack id) (List.map_congr_left fun n hn => ?_)
  obtain ⟨mn, hmn, hnone⟩ := hs n hn
  have hne : n ≠ id := by
    rintro rfl
    obtain rfl := Option.some.inj (hm.symm.trans hmn)
    rw [hmembers] at hnone
    cases hnone
  have hltn := lt_length_of_manager? hmn
  -- The stack and a member are two managers, so the tree is cut below the member at the earliest.
  have hpos : 0 < depth := by
    rw [hdepth] at hlt hltn
    rcases Nat.eq_zero_or_pos depth with rfl | hpos
    · exact absurd ((Nat.lt_one_iff.mp hltn).trans (Nat.lt_one_iff.mp hlt).symm) hne
    · exact hpos
  obtain ⟨below, rfl⟩ := Nat.exists_eq_add_one.mpr hpos
  exact treeWithin_of_members?_none hmn hnone below

/-- Members that can work all have their turns in a release, and succeed. -/
theorem performAll_release (hs : Staff.Ready st.engine.manager? ns) {held : Option String}
    (hd : heldLevel st.definition = .ok held) :
    ∃ t d, Tree.performAll .release (ns.map .leaf) st = (.ok (), ⟨t, d⟩) ∧
      Turns Manager.Frees ns st.engine.manager? st.definition t.manager? d := by
  induction ns generalizing st held with
  | nil => exact ⟨st.engine, st.definition, Tree.performAll_nil .release st, .nil⟩
  | cons n ns ih =>
    obtain ⟨m, hm, hworks⟩ := hs n (List.mem_cons_self ..)
    have hperform := Driver.perform_release
      (s := ⟨m.driver.name, m.state, st.engine.host, st.definition⟩) hworks.driver hworks.state hd
    obtain ⟨t, hedit, ht, -⟩ := edit_worker hm hworks.driver hperform
    have hn := Manager.members?_of_ne (Driver.fillsOwnEntry_of_mem_workers hworks.driver).single
    have hleaf : (Tree.leaf n).perform .release st =
        (.ok (), ⟨t, st.definition.emptied m.driver⟩) := by
      rw [Tree.perform, ← edit_of_members?_none hm hn]
      exact hedit
    have hready : Staff.Ready t.manager? ns := by
      rw [ht]
      exact Staff.Ready.update (fun k hk => hs k (List.mem_cons_of_mem n hk)) hm
        fun hworks => hworks.state.freed st.definition
    have hstep : m.Frees st.definition (m.state.freed st.definition)
        (st.definition.emptied m.driver) := ⟨rfl, rfl⟩
    obtain ⟨held', hd'⟩ : ∃ held', heldLevel (st.definition.emptied m.driver) = .ok held' := by
      rcases hstep.heldLevel_cases with hnone | hsame
      · exact ⟨none, hnone⟩
      · exact ⟨held, hsame.trans hd⟩
    obtain ⟨u, d, hall, hturns⟩ := @ih ⟨t, st.definition.emptied m.driver⟩ hready held' hd'
    refine ⟨u, d, ?_, .cons hm hstep (ht ▸ hturns)⟩
    simp only [List.map_cons, Tree.performAll, hleaf, hall]
    rfl

/-- A stack of managers without members releases a label by having every member release it. -/
theorem edit_release_of_leaves (hm : st.engine.manager? id = some m) (hdriver : m.driver = .stack)
    (hmembers : m.state = .stack ns)
    (hs : ∀ n ∈ ns, ∃ m, st.engine.manager? n = some m ∧ m.members? = none) :
    edit id .release st =
      Tree.performAll .release (ns.map .leaf) (st.record id .stack .release) := by
  have htree := tree_of_leaves hm (Manager.members?_of_stack hdriver hmembers) hs
  rw [edit, htree, Tree.perform, visit_stack hm hdriver]
  rfl

/-- A stack whose members can work releases the label of a domain whose level can be read. -/
theorem edit_release (hm : st.engine.manager? id = some m) (hdriver : m.driver = .stack)
    (hmembers : m.state = .stack ns) (hs : Staff.Ready st.engine.manager? ns)
    {held : Option String} (hd : heldLevel st.definition = .ok held) :
    ∃ t d, edit id .release st = (.ok (), ⟨t, d⟩) ∧
      Turns Manager.Frees ns st.engine.manager? st.definition t.manager? d := by
  have hready : Staff.Ready (st.record id .stack .release).engine.manager? ns := hs
  obtain ⟨t, d, hall, hturns⟩ := performAll_release hready hd
  refine ⟨t, d, ?_, hturns⟩
  rw [edit_release_of_leaves hm hdriver hmembers fun n hn => ?_, hall]
  obtain ⟨mn, hmn, hworks⟩ := hs n hn
  exact ⟨mn, hmn, Manager.members?_of_ne (Driver.fillsOwnEntry_of_mem_workers hworks.driver).single⟩

end Engine

end Confinement

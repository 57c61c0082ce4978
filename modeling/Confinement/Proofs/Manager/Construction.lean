import Confinement.Proofs.Definition.Entries
import Confinement.Proofs.Manager.Release

/-!
# Building trees of managers

Managers are opened, put into stacks and shared between them. Only the addition of a member can
close a cycle, namely if the member already leads to the stack. A stack is kept from becoming a
member of itself, so what is let through are cycles of two managers and more. Without such an
addition every request to every manager comes to an end.
-/

namespace Confinement

open Relation (TransGen ReflTransGen)

/-! ### Runs -/

namespace Run

variable {α β : Type}

theorem eval_bind (r : Run α) (f : α → Run β) (s : Engine) :
    (r >>= f).eval s = match r.eval s with
      | (.ok a, t) => (f a).eval t
      | (.error e, t) => (.error e, t) := by
  unfold eval
  rw [ExceptT.run_bind, StateT.run_bind]
  cases h : r.run.run s with
  | mk x t => cases x <;> rfl

theorem eval_guarding (handle : ManagerId) (r : Run α) (s : Engine) :
    (Run.guarding handle r).eval s = match r.eval s with
      | (.ok a, t) => (.ok a, t)
      | (.error e, t) => (.error e, t.drop handle) := by
  unfold eval guarding
  rw [ExceptT.run_tryCatch, StateT.run_bind]
  cases h : r.run.run s with
  | mk x t => cases x <;> rfl

theorem eval_throw (e : Error) (s : Engine) : (throw e : Run α).eval s = (.error e, s) := rfl

theorem eval_get (s : Engine) : (get : Run Engine).eval s = (.ok s, s) := rfl

theorem eval_set (s t : Engine) : (set t : Run Unit).eval s = (.ok (), t) := rfl

theorem eval_lift (r : Except Error α) (s : Engine) : (liftM r : Run α).eval s = (r, s) := by
  cases r <;> rfl

end Run

namespace Engine

variable {s t : Engine} {id stack member : ManagerId} {m : Manager} {ns : List ManagerId}

/-! ### What the calls come to -/

/-- The engine once a new manager is open and its driver has been asked. -/
def withManager (s : Engine) (m : Manager) : Engine :=
  { s with
    managers := s.managers ++ [some m]
    held := s.managers.length :: s.held
    trace := ⟨m.driver.name, m.driver.builtIn, some s.managers.length, .opening⟩ :: s.trace }

/-- The engine once `member` is the last member of a stack that had the members `ns`. -/
def withMember (s : Engine) (stack : ManagerId) (m : Manager) (ns : List ManagerId)
    (member : ManagerId) : Engine :=
  { s.setManager stack { m with state := .stack (ns ++ [member]) } with
    held := s.held.erase member }

theorem eval_openManager (driver : Driver) (virtDriver : String) (policy : Policy) (s : Engine) :
    (openManager driver virtDriver policy).eval s =
      match driver.hooks.opening s.trace with
      | some (.error e) => (.error (.openFailed driver.name e),
          (s.withManager ⟨driver, virtDriver, policy, driver.initial⟩).drop s.managers.length)
      | _ => (.ok s.managers.length,
          s.withManager ⟨driver, virtDriver, policy, driver.initial⟩) := by
  unfold openManager
  simp only [Run.eval_bind, Run.eval_get, Run.eval_set]
  rcases driver.hooks.opening s.trace with _ | _ | _ <;> rfl

/-- A member is refused and its handle dropped, or it becomes the last member of an open stack. -/
theorem addMember_cases (s : Engine) (stack member : ManagerId) :
    (∃ e, (addMember stack member).eval s = (.error e, s.drop member)) ∨
      ∃ m ns, stack ≠ member ∧ s.manager? stack = some m ∧ m.state = .stack ns ∧
        (addMember stack member).eval s = (.ok (), s.withMember stack m ns member) := by
  unfold addMember
  rw [Run.eval_guarding]
  by_cases hne : stack = member
  · simp only [hne, if_true, Run.eval_bind, Run.eval_throw]
    exact .inl ⟨_, rfl⟩
  · simp only [hne, if_false, Run.eval_bind, Run.eval_get, Run.eval_lift]
    cases hm : s.manager stack with
    | error e => exact .inl ⟨e, rfl⟩
    | ok m =>
      dsimp only
      cases hstate : m.state with
      | stack ns => exact .inr ⟨m, ns, hne, manager_eq_ok_iff.mp hm, hstate, rfl⟩
      | _ => exact .inl ⟨_, rfl⟩

/-- A stack takes every other manager as a member. -/
theorem eval_addMember (hm : s.manager? stack = some m) (hstate : m.state = .stack ns)
    (hne : stack ≠ member) :
    (addMember stack member).eval s = (.ok (), s.withMember stack m ns member) := by
  unfold addMember
  rw [Run.eval_guarding]
  simp only [hne, if_false, Run.eval_bind, Run.eval_get, Run.eval_lift,
    manager_eq_ok_iff.mpr hm, hstate, Run.eval_set]
  rfl

/-! ### Who leads to whom afterwards -/

theorem manager?_withManager_self (s : Engine) (m : Manager) :
    (s.withManager m).manager? s.managers.length = some m := by
  simp [manager?, withManager]

theorem manager?_withManager_of_ne {n : ManagerId} (h : n ≠ s.managers.length) (m : Manager) :
    (s.withManager m).manager? n = s.manager? n := by
  unfold manager? withManager
  rcases Nat.lt_or_gt_of_ne h with hlt | hgt
  · rw [List.getElem?_append_left hlt]
  · rw [List.getElem?_eq_none (by simp; omega), List.getElem?_eq_none (by omega)]

theorem manager?_withMember_self (hm : s.manager? stack = some m) :
    (s.withMember stack m ns member).manager? stack =
      some { m with state := .stack (ns ++ [member]) } := manager?_setManager_self hm _

theorem manager?_withMember_of_ne (h : id ≠ stack) :
    (s.withMember stack m ns member).manager? id = s.manager? id := manager?_setManager_of_ne s h _

theorem nests_withManager_iff {a b : ManagerId} :
    (s.withManager m).Nests a b ↔ s.Nests a b ∨ a = s.managers.length ∧ b ∈ m.state.members := by
  unfold Nests
  by_cases ha : a = s.managers.length
  · subst ha
    have hnone : s.manager? s.managers.length = none := by simp [manager?]
    simp [manager?_withManager_self, hnone]
  · simp [manager?_withManager_of_ne ha, ha]

theorem nests_withMember_iff (hm : s.manager? stack = some m) (hstate : m.state = .stack ns)
    {a b : ManagerId} :
    (s.withMember stack m ns member).Nests a b ↔ s.Nests a b ∨ a = stack ∧ b = member := by
  unfold Nests
  by_cases ha : a = stack
  · subst ha
    simp [manager?_withMember_self hm, hm, hstate, DriverState.members]
  · simp [manager?_withMember_of_ne ha, ha]

/-! ### What each call keeps -/

/-- The managers are still sound, and no cycle has come or gone. -/
structure Steady (s t : Engine) : Prop where
  sound : t.Sound
  acyclic_iff : t.Acyclic ↔ s.Acyclic

theorem Steady.trans {u : Engine} (h : s.Steady t) (h' : t.Steady u) : s.Steady u :=
  ⟨h'.sound, h'.acyclic_iff.trans h.acyclic_iff⟩

/-- A call that neither makes nor breaks a cycle closes none. -/
theorem Steady.closes_none {closes : Prop} (h : s.Steady t) (hno : ¬closes) :
    t.Sound ∧ (t.Acyclic ↔ s.Acyclic ∧ ¬closes) :=
  ⟨h.sound, h.acyclic_iff.trans (and_iff_left hno).symm⟩

theorem steady_hold (hs : s.Sound) (hid : s.IsOpen id) : s.Steady (s.hold id) := by
  refine ⟨⟨fun n hn => ?_, hs.members⟩, Iff.rfl⟩
  rcases List.mem_cons.mp hn with rfl | hn
  · exact hid
  · exact hs.held n hn

theorem steady_drop (hs : s.Sound) (id : ManagerId) : s.Steady (s.drop id) := by
  have hunheld : (s.unhold id).Sound :=
    ⟨fun n hn => hs.held n (List.mem_of_mem_erase hn), hs.members⟩
  have hiff : (s.unhold id).Acyclic ↔ s.Acyclic := Iff.rfl
  exact ⟨(released_drop id s).sound hunheld, (released_drop id s).acyclic_iff.trans hiff⟩

theorem IsOpen.withManager (hid : s.IsOpen id) (m : Manager) : (s.withManager m).IsOpen id := by
  obtain ⟨m', hm'⟩ := hid
  have hne : id ≠ s.managers.length := Nat.ne_of_lt (lt_length_of_manager? hm')
  exact ⟨m', (manager?_withManager_of_ne hne m).trans hm'⟩

/-- Nothing leads to a manager that is only just open. -/
theorem not_nests_length (hs : s.Sound) (a : ManagerId) : ¬s.Nests a s.managers.length := by
  intro ha
  obtain ⟨m, hm⟩ := hs.members a _ ha
  exact Nat.lt_irrefl _ (lt_length_of_manager? hm)

theorem steady_withManager (hs : s.Sound) (hmem : ∀ n ∈ m.state.members, s.IsOpen n) :
    s.Steady (s.withManager m) := by
  have hentered : ∀ a b, (s.withManager m).Nests a b → s.IsOpen b := by
    intro a b hab
    rcases nests_withManager_iff.mp hab with hold | ⟨-, hb⟩
    · exact hs.members a b hold
    · exact hmem b hb
  refine ⟨⟨fun n hn => ?_, fun a b hab => (hentered a b hab).withManager m⟩, ?_, ?_⟩
  · rcases List.mem_cons.mp hn with rfl | hn
    · exact ⟨m, manager?_withManager_self s m⟩
    · exact (hs.held n hn).withManager m
  · intro ha n hn
    exact ha n (TransGen.mono (fun a b hab => nests_withManager_iff.mpr (.inl hab)) n n hn)
  · intro ha n hn
    refine ha n (transGen_self_of_entered (fun a b c hab hbc => ?_) hn)
    rcases nests_withManager_iff.mp hbc with hold | ⟨rfl, -⟩
    · exact hold
    · obtain ⟨m', hm'⟩ := hentered a _ hab
      exact absurd (lt_length_of_manager? hm') (Nat.lt_irrefl _)

theorem sound_withMember (hs : s.Sound) (hm : s.manager? stack = some m)
    (hstate : m.state = .stack ns) (hmember : s.IsOpen member) :
    (s.withMember stack m ns member).Sound := by
  have hopen : ∀ n, s.IsOpen n → (s.withMember stack m ns member).IsOpen n := by
    rintro n ⟨m', hm'⟩
    by_cases hn : n = stack
    · subst hn
      exact ⟨_, manager?_withMember_self hm⟩
    · exact ⟨m', (manager?_withMember_of_ne hn).trans hm'⟩
  refine ⟨fun n hn => hopen n (hs.held n (List.mem_of_mem_erase hn)), fun a b hab => hopen b ?_⟩
  rcases (nests_withMember_iff hm hstate).mp hab with hold | ⟨-, rfl⟩
  · exact hs.members a b hold
  · exact hmember

/-- A new member closes a cycle exactly if it leads to the stack. -/
theorem acyclic_withMember_iff (hm : s.manager? stack = some m) (hstate : m.state = .stack ns)
    (hne : stack ≠ member) :
    (s.withMember stack m ns member).Acyclic ↔ s.Acyclic ∧ ¬TransGen s.Nests member stack := by
  have hold : s.Nests ≤ (s.withMember stack m ns member).Nests := fun a b hab =>
    (nests_withMember_iff hm hstate).mpr (.inl hab)
  have hnew : (s.withMember stack m ns member).Nests stack member :=
    (nests_withMember_iff hm hstate).mpr (.inr ⟨rfl, rfl⟩)
  constructor
  · intro ha
    exact ⟨fun n hn => ha n (TransGen.mono hold n n hn),
      fun hback => ha stack (.head hnew (TransGen.mono hold member stack hback))⟩
  · rintro ⟨ha, hback⟩ n hn
    rcases transGen_insert (fun a b hab => (nests_withMember_iff hm hstate).mp hab) hn with
      hcycle | ⟨hto, hfrom⟩
    · exact ha n hcycle
    · rcases Relation.reflTransGen_iff_eq_or_transGen.mp (hfrom.trans hto) with heq | hpath
      · exact hne heq
      · exact hback hpath

theorem steady_openManager (hs : s.Sound) {driver : Driver}
    (hmem : ∀ n ∈ driver.initial.members, s.IsOpen n) (virtDriver : String) (policy : Policy) :
    s.Steady ((openManager driver virtDriver policy).eval s).2 := by
  have hopened := steady_withManager (m := ⟨driver, virtDriver, policy, driver.initial⟩) hs hmem
  rw [eval_openManager]
  split
  · exact hopened.trans (steady_drop hopened.sound _)
  · exact hopened

/-- The manager that a new stack over `m` is at first. -/
def emptyStack (m : Manager) : Manager := ⟨.stack, m.virtDriver, m.policy, .stack []⟩

/-- A stack over an open manager always opens. -/
theorem eval_openStack (hm : s.manager? id = some m) :
    (openStack id).eval s = (.ok s.managers.length,
      (s.withManager (emptyStack m)).withMember s.managers.length (emptyStack m) [] id) := by
  have hne : s.managers.length ≠ id := Nat.ne_of_gt (lt_length_of_manager? hm)
  have hopened : (openManager .stack m.virtDriver m.policy).eval s =
      (.ok s.managers.length, s.withManager (emptyStack m)) := eval_openManager ..
  have hadded := eval_addMember (manager?_withManager_self s (emptyStack m)) rfl hne
  unfold openStack
  simp only [Run.eval_bind, Run.eval_guarding, Run.eval_get, Run.eval_lift,
    manager_eq_ok_iff.mpr hm, hopened, hadded]
  rfl

theorem steady_openStack (hs : s.Sound) (hid : s.IsOpen id) :
    s.Steady ((openStack id).eval s).2 := by
  obtain ⟨m, hm⟩ := hid
  have hopened : s.Steady (s.withManager (emptyStack m)) :=
    steady_withManager hs fun n hn => absurd hn List.not_mem_nil
  have hself := manager?_withManager_self s (emptyStack m)
  have hne : s.managers.length ≠ id := Nat.ne_of_gt (lt_length_of_manager? hm)
  have hback : ¬TransGen (s.withManager (emptyStack m)).Nests id s.managers.length := by
    intro hback
    obtain ⟨a, -, ha⟩ := TransGen.tail'_iff.mp hback
    rcases nests_withManager_iff.mp ha with hold | ⟨-, hmem⟩
    · exact not_nests_length hs a hold
    · exact absurd hmem List.not_mem_nil
  rw [eval_openStack hm]
  refine hopened.trans ⟨?_, ?_⟩
  · exact sound_withMember hopened.sound hself rfl (IsOpen.withManager ⟨m, hm⟩ _)
  · rw [acyclic_withMember_iff hself rfl hne]
    exact and_iff_left hback

end Engine

/-! ### One call after the other -/

/-- A call that builds managers or counts their handles. -/
inductive Construction
  | newManager (driver : Driver) (virtDriver : String) (policy : Policy)
  | newStack (primary : ManagerId)
  | newMember (stack member : ManagerId)
  | hold (id : ManagerId)
  | drop (id : ManagerId)

namespace Construction

def perform : Construction → Engine → Engine
  | newManager driver virtDriver policy, s => ((openManager driver virtDriver policy).eval s).2
  | newStack primary, s => ((openStack primary).eval s).2
  | newMember stack member, s => ((addMember stack member).eval s).2
  | hold id, s => s.hold id
  | drop id, s => s.drop id

/-- The caller has the handles that the call uses up, and can get those that it copies. -/
def Permitted (s : Engine) : Construction → Prop
  | newManager driver _ _ => ∀ n ∈ driver.initial.members, s.IsOpen n
  | newStack primary => primary ∈ s.held
  | newMember _ member => member ∈ s.held
  | hold id => s.IsOpen id
  | drop id => id ∈ s.held

/-- The call adds a member that leads to its stack already, and is not refused. -/
def ClosesCycle (s : Engine) : Construction → Prop
  | newMember stack member =>
    ((addMember stack member).eval s).1 = .ok () ∧ TransGen s.Nests member stack
  | _ => False

/-- The engine after all of the calls. -/
def performAll : List Construction → Engine → Engine
  | [], s => s
  | c :: cs, s => performAll cs (c.perform s)

/-- Every call has the property at the engine that it meets. -/
def Along (P : Engine → Construction → Prop) : List Construction → Engine → Prop
  | [], _ => True
  | c :: cs, s => P s c ∧ Along P cs (c.perform s)

open Engine

variable {s : Engine} {c : Construction}

/-- One call keeps the managers sound, and makes a cycle only by closing one. -/
theorem sound_and_acyclic_perform_iff (hs : s.Sound) (hc : c.Permitted s) :
    (c.perform s).Sound ∧ ((c.perform s).Acyclic ↔ s.Acyclic ∧ ¬c.ClosesCycle s) := by
  cases c with
  | newManager driver virtDriver policy =>
    exact (steady_openManager hs hc virtDriver policy).closes_none id
  | newStack primary => exact (steady_openStack hs (hs.held primary hc)).closes_none id
  | newMember stack member =>
    simp only [perform, ClosesCycle]
    rcases addMember_cases s stack member with ⟨e, hout⟩ | ⟨m, ns, hne, hm, hstate, hout⟩
    · rw [hout]
      exact (steady_drop hs member).closes_none fun h => by cases h.1
    · rw [hout, acyclic_withMember_iff hm hstate hne]
      exact ⟨sound_withMember hs hm hstate (hs.held member hc), by simp⟩
  | hold id => exact (steady_hold hs hc).closes_none False.elim
  | drop id => exact (steady_drop hs id).closes_none False.elim

/-- A run keeps the managers sound, and makes a cycle only with a call that closes one. -/
theorem sound_and_acyclic_performAll_iff (cs : List Construction) (hs : s.Sound)
    (hcs : Along (fun s c => c.Permitted s) cs s) :
    (performAll cs s).Sound ∧ ((performAll cs s).Acyclic ↔
      s.Acyclic ∧ Along (fun s c => ¬c.ClosesCycle s) cs s) := by
  induction cs generalizing s with
  | nil => exact ⟨hs, (and_iff_left trivial).symm⟩
  | cons c cs ih =>
    obtain ⟨hc, hrest⟩ := hcs
    obtain ⟨hsound, hiff⟩ := sound_and_acyclic_perform_iff hs hc
    obtain ⟨hsound', hiff'⟩ := ih hsound hrest
    refine ⟨hsound', ?_⟩
    rw [performAll, hiff', hiff, and_assoc]
    rfl

/-- Managers lead back to themselves after a run exactly if one of its calls has closed a cycle. If
none has, every request to an open manager comes to an end. An addition that is refused changes no
manager that a handle is left for. -/
theorem acyclic_performAll_iff (hs : s.Sound) (ha : s.Acyclic) (cs : List Construction)
    (hcs : Along (fun s c => c.Permitted s) cs s) :
    ((performAll cs s).Acyclic ↔ Along (fun s c => ¬c.ClosesCycle s) cs s) ∧
      ((performAll cs s).Acyclic →
        ∀ id, (performAll cs s).IsOpen id → ((performAll cs s).tree id).Ends) ∧
      ∀ stack member e t, (addMember stack member).eval (performAll cs s) = (.error e, t) →
        ∀ n ∈ t.held, t.manager? n = (performAll cs s).manager? n := by
  obtain ⟨hsound, hiff⟩ := sound_and_acyclic_performAll_iff cs hs hcs
  refine ⟨hiff.trans (and_iff_right ha), fun hacyclic id hid => tree_ends hsound hacyclic hid, ?_⟩
  intro stack member e t hrefused n hn
  rcases addMember_cases (performAll cs s) stack member with ⟨e', hout⟩ | ⟨_, _, _, _, _, hout⟩
  · obtain ⟨-, rfl⟩ := Prod.mk.inj (hout.symm.trans hrefused)
    exact manager?_drop hn
  · cases hout.symm.trans hrefused

/-- Two stacks share a member, and one of them becomes a member of the other. -/
def sharing : List Construction :=
  [.newManager .none "qemu" {}, .hold 0, .newStack 0, .newStack 0, .newMember 1 2]

/-- The shared member is met on two ways, and still every request comes to an end. -/
theorem ends_sharing :
    (performAll sharing {}).Acyclic ∧ ((performAll sharing {}).tree 1).Ends := by
  have hempty : ∀ a b, ¬({} : Engine).Nests a b := by
    rintro a b ⟨m, hm, -⟩
    cases hm
  have hsound : ({} : Engine).Sound := ⟨nofun, fun a b hab => absurd hab (hempty a b)⟩
  have hacyclic : ({} : Engine).Acyclic := by
    intro n hn
    obtain ⟨b, hb, -⟩ := TransGen.head'_iff.mp hn
    exact hempty n b hb
  have hpermitted : Along (fun s c => c.Permitted s) sharing {} := by
    refine ⟨nofun, ⟨_, rfl⟩, ?_, ?_, ?_, trivial⟩
    · exact (by decide : 0 ∈ [0, 0])
    · exact (by decide : 0 ∈ [1, 0])
    · exact (by decide : 2 ∈ [2, 1])
  -- the second stack leads to the shared member, and that one to nothing
  have hapart : ¬TransGen (performAll (sharing.take 4) {}).Nests 2 1 := by
    intro hback
    obtain ⟨b, ⟨m, hm, hb⟩, hrest⟩ := TransGen.head'_iff.mp hback
    obtain rfl := Option.some.inj hm
    obtain rfl : b = 0 := List.mem_singleton.mp hb
    rcases ReflTransGen.cases_head hrest with heq | ⟨c, ⟨m, hm, hc⟩, -⟩
    · cases heq
    · obtain rfl := Option.some.inj hm
      cases hc
  have hcloses : Along (fun s c => ¬c.ClosesCycle s) sharing {} :=
    ⟨id, id, id, id, fun h => hapart h.2, trivial⟩
  obtain ⟨hiff, hends, -⟩ := acyclic_performAll_iff hsound hacyclic sharing hpermitted
  exact ⟨hiff.mpr hcloses, hends (hiff.mpr hcloses) 1 ⟨_, rfl⟩⟩

/-- Two stacks become members of each other. -/
def circle : List Construction :=
  [.newManager .none "qemu" {}, .newStack 0, .hold 1, .newStack 1, .hold 2, .newMember 1 2]

/-- Every call of the circle is permitted and the last one is not refused. The first stack then
leads back to itself, and no request to it comes to an end. -/
theorem circle_is_accepted :
    Along (fun s c => c.Permitted s) circle {} ∧
      ((addMember 1 2).eval (performAll (circle.take 5) {})).1 = .ok () ∧
      TransGen (performAll circle {}).Nests 1 1 ∧
      ((performAll circle {}).perform 1 .setSocket (.guest [])).1 =
        .error (.internal .endlessNesting) := by
  have hforth : (performAll circle {}).Nests 1 2 := ⟨_, rfl, (by decide : 2 ∈ [0, 2])⟩
  have hback : (performAll circle {}).Nests 2 1 := ⟨_, rfl, (by decide : 1 ∈ [1])⟩
  refine ⟨⟨nofun, ?_, ⟨_, rfl⟩, ?_, ⟨_, rfl⟩, ?_, trivial⟩, rfl, .tail (.single hforth) hback, rfl⟩
  · exact (by decide : 0 ∈ [0])
  · exact (by decide : 1 ∈ [1, 1])
  · exact (by decide : 2 ∈ [2, 2, 1])

end Construction

end Confinement

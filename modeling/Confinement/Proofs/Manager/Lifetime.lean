import Confinement.Proofs.Manager.Opening
import Confinement.Proofs.Manager.Settling

/-!
# From opening to closing

A driver is asked once to open each of its managers, also if it refuses. It is asked to close the
manager once, when neither a caller nor an open manager refers to it any more, and not before. So it
is with managers that did not open, with members that were refused, and with those that outlive a
stack or are shared between several.

Who refers to a manager follows from the calls alone. The caller holds the handles that it was given
and that no call has used up, and a stack refers to the members that it started with and to those
that it was given.
-/

namespace Confinement

/-! ### Calls that open or close -/

/-- What is noted when a driver is asked for something on behalf of a manager. -/
def Driver.call (d : Driver) (id : ManagerId) (request : Request) : Call :=
  ⟨d.name, d.builtIn, some id, request⟩

/-- The call opens or closes the manager. -/
def Call.Bounds (c : Call) (id : ManagerId) : Prop :=
  c.manager = some id ∧ (c.request = .opening ∨ c.request = .closing)

instance (c : Call) (id : ManagerId) : Decidable (c.Bounds id) :=
  inferInstanceAs (Decidable (_ ∧ _))

/-- The calls that open or close a manager, the earliest first. -/
def boundsOf (trace : List Call) (id : ManagerId) : List Call :=
  (trace.filter fun c => c.Bounds id).reverse

section

variable {c : Call} {id : ManagerId} {trace : List Call}

theorem boundsOf_cons (h : c.Bounds id) : boundsOf (c :: trace) id = boundsOf trace id ++ [c] := by
  simp [boundsOf, h]

theorem boundsOf_cons_of_not (h : ¬c.Bounds id) : boundsOf (c :: trace) id = boundsOf trace id := by
  simp [boundsOf, h]

/-- A call for another manager bounds no life but that manager's. -/
theorem not_bounds_call {d : Driver} {n : ManagerId} {request : Request} (h : n ≠ id) :
    ¬(d.call n request).Bounds id :=
  fun hb => h (Option.some.inj hb.1)

theorem boundsOf_append {calls : List Call} (h : ∀ c ∈ calls, c.manager = none) :
    boundsOf (calls ++ trace) id = boundsOf trace id := by
  induction calls with
  | nil => rfl
  | cons c calls ih =>
    obtain ⟨hc, hrest⟩ := List.forall_mem_cons.mp h
    have hnot : ¬c.Bounds id := fun hb => by cases hc.symm.trans hb.1
    rw [List.cons_append, boundsOf_cons_of_not hnot, ih hrest]

end

/-! ### The drivers of managers -/

namespace Engine

variable {drivers : List Driver} {s t : Engine} {id stack member : ManagerId} {m : Manager}
  {ns : List ManagerId}

/-- A number is not in use yet, or it stands for a manager of the driver with the same number. That
driver has been asked to open the manager, and to close it if it is not open. -/
inductive Life (drivers : List Driver) (s : Engine) (id : ManagerId) : Prop
  | unused (driver : drivers[id]? = none) (manager : s.manager? id = none)
      (calls : boundsOf s.trace id = [])
  | opened {m : Manager} (driver : drivers[id]? = some m.driver) (manager : s.manager? id = some m)
      (calls : boundsOf s.trace id = [m.driver.call id .opening])
  | closed {d : Driver} (driver : drivers[id]? = some d) (manager : s.manager? id = none)
      (calls : boundsOf s.trace id = [d.call id .opening, d.call id .closing])

/-- What happens to other managers changes nothing. -/
theorem Life.congr {drivers' : List Driver} (h : Life drivers s id)
    (hdriver : drivers'[id]? = drivers[id]?)
    (hmanager : (t.manager? id).map (·.driver) = (s.manager? id).map (·.driver))
    (hcalls : boundsOf t.trace id = boundsOf s.trace id) : Life drivers' t id := by
  cases h with
  | unused hd hm hb =>
    rw [hm] at hmanager
    exact .unused (hdriver.trans hd) (Option.map_eq_none_iff.mp hmanager) (hcalls.trans hb)
  | opened hd hm hb =>
    rw [hm] at hmanager
    obtain ⟨m', hm', heq⟩ := Option.map_eq_some_iff.mp hmanager
    dsimp only at heq
    rw [← heq] at hd hb
    exact .opened (hdriver.trans hd) hm' (hcalls.trans hb)
  | closed hd hm hb =>
    rw [hm] at hmanager
    exact .closed (hdriver.trans hd) (Option.map_eq_none_iff.mp hmanager) (hcalls.trans hb)

/-- The managers so far are of these drivers. -/
structure Logged (drivers : List Driver) (s : Engine) : Prop where
  length_eq : s.managers.length = drivers.length
  life : ∀ id, Life drivers s id

namespace Logged

/-- Managers keep their drivers, and no call opens or closes one. -/
theorem congr (h : s.Logged drivers) (hlength : t.managers.length = s.managers.length)
    (hmanager : ∀ n, (t.manager? n).map (·.driver) = (s.manager? n).map (·.driver))
    (hcalls : ∀ n, boundsOf t.trace n = boundsOf s.trace n) : t.Logged drivers :=
  ⟨hlength.trans h.length_eq, fun n => (h.life n).congr rfl (hmanager n) (hcalls n)⟩

theorem close (h : s.Logged drivers) (hm : s.manager? id = some m) :
    (s.close id m).Logged drivers := by
  refine ⟨(List.length_set ..).trans h.length_eq, fun n => ?_⟩
  by_cases hn : n = id
  · subst hn
    cases h.life n with
    | opened hd hm' hb =>
      obtain rfl := Option.some.inj (hm.symm.trans hm')
      refine .closed hd (manager?_close_self s n m) ?_
      have hcalls : boundsOf (s.close n m).trace n =
          boundsOf s.trace n ++ [m.driver.call n .closing] := boundsOf_cons ⟨rfl, .inr rfl⟩
      rw [hcalls, hb]
      rfl
    | unused _ hm' | closed _ hm' => cases hm.symm.trans hm'
  · refine (h.life n).congr rfl ?_ ?_
    · rw [manager?_close_of_ne hn]
    · exact boundsOf_cons_of_not (not_bounds_call (Ne.symm hn))

theorem settle (h : s.Logged drivers) (fuel : Nat) (ids : List ManagerId) :
    (s.settle fuel ids).Logged drivers := by
  fun_induction Engine.settle fuel ids s with
  | case1 => exact h
  | case2 => exact h
  | case3 fuel id rest s hm ih => exact ih h
  | case4 fuel id rest s m hm href ih => exact ih h
  | case5 fuel id rest s m hm href closed ih => exact ih (h.close hm)

theorem drop (h : s.Logged drivers) (id : ManagerId) : (s.drop id).Logged drivers :=
  settle (s := s.unhold id) ⟨h.length_eq, fun n => (h.life n).congr rfl rfl rfl⟩ ..

/-- A new manager is of the next driver. -/
theorem withManager (h : s.Logged drivers) (m : Manager) :
    (s.withManager m).Logged (drivers ++ [m.driver]) := by
  have hnew : s.managers.length = drivers.length := h.length_eq
  refine ⟨by simp [Engine.withManager, hnew], fun n => ?_⟩
  by_cases hn : n = s.managers.length
  · subst hn
    cases h.life s.managers.length with
    | unused _ _ hb =>
      refine .opened (by simp [hnew]) (manager?_withManager_self s m) ?_
      have hcalls : boundsOf (s.withManager m).trace s.managers.length =
          boundsOf s.trace s.managers.length ++ [m.driver.call s.managers.length .opening] :=
        boundsOf_cons ⟨rfl, .inl rfl⟩
      rw [hcalls, hb]
      rfl
    | opened hd | closed hd =>
      rw [hnew, List.getElem?_eq_none (Nat.le_refl _)] at hd
      cases hd
  · refine (h.life n).congr ?_ ?_ ?_
    · rcases Nat.lt_or_gt_of_ne (hnew ▸ hn) with hlt | hgt
      · exact List.getElem?_append_left hlt
      · rw [List.getElem?_eq_none (by simp; omega), List.getElem?_eq_none (Nat.le_of_lt hgt)]
    · rw [manager?_withManager_of_ne hn]
    · exact boundsOf_cons_of_not (not_bounds_call (Ne.symm hn))

end Logged

/-! ### What every call keeps -/

/-- What calls have come to so far. -/
structure Account where
  /-- The drivers of the managers that were made, also of those that did not open. -/
  drivers : List Driver := []
  /-- The handles that the caller got. -/
  given : List ManagerId := []
  /-- The handles that calls have used up. -/
  taken : List ManagerId := []
  /-- The members that stacks got, in order, each behind its stack. -/
  joined : List (ManagerId × ManagerId) := []

/-- The members that a manager has been given. -/
def Account.membersOf (a : Account) (id : ManagerId) : List ManagerId :=
  (a.joined.filter fun p => p.1 = id).map Prod.snd

/-- Every open manager is referred to, every reference is to an open manager, and the driver of each
manager so far has been asked for what is due. The caller's handles and the members of open managers
are those in the account. -/
structure Paired (a : Account) (s : Engine) : Prop where
  sound : s.Sound
  kept : s.KeptFor []
  logged : s.Logged a.drivers
  held : ∀ id, s.held.count id + a.taken.count id = a.given.count id
  members : ∀ id m, s.manager? id = some m →
    m.state.members = m.driver.initial.members ++ a.membersOf id
  older : ∀ p ∈ a.joined, p.1 < a.drivers.length

namespace Paired

variable {a : Account}

theorem isOpen_iff (h : s.Paired a) (id : ManagerId) : s.IsOpen id ↔ s.Referred id := by
  constructor
  · intro hopen
    exact (h.kept id hopen).resolve_right List.not_mem_nil
  · rintro (hheld | ⟨a, ha⟩)
    · exact h.sound.held id hheld
    · exact h.sound.members a id ha

/-- No manager that is still to come has been given members. -/
theorem membersOf_eq_nil (h : s.Paired a) (hid : a.drivers.length ≤ id) : a.membersOf id = [] := by
  have hnone : a.joined.filter (fun p => p.1 = id) = [] := by
    refine List.filter_eq_nil_iff.mpr fun p hp => ?_
    rw [decide_eq_true_eq]
    exact Nat.ne_of_lt (Nat.lt_of_lt_of_le (h.older p hp) hid)
  rw [Account.membersOf, hnone, List.map_nil]

theorem fresh (host : Host) : Paired {} { host } where
  sound := ⟨nofun, fun _ _ ⟨_, hm, _⟩ => nomatch hm⟩
  kept := fun _ ⟨_, hm⟩ => nomatch hm
  logged := ⟨rfl, fun _ => .unused rfl rfl rfl⟩
  held _ := rfl
  members _ _ hm := nomatch hm
  older := nofun

theorem hold (h : s.Paired a) (hid : s.IsOpen id) :
    (s.hold id).Paired { a with given := id :: a.given } where
  sound := (steady_hold h.sound hid).sound
  kept n hn := (h.kept n hn).imp_left (Or.imp_left (List.mem_cons_of_mem id))
  logged := h.logged.congr rfl (fun _ => rfl) fun _ => rfl
  held n := by
    have hbefore := h.held n
    simp only [Engine.hold, List.count_cons]
    omega
  members := h.members
  older := h.older

/-- A handle that is not held any more has been used up. -/
theorem count_erase (h : s.Paired a) (hid : id ∈ s.held) (n : ManagerId) :
    (s.held.erase id).count n + (id :: a.taken).count n = a.given.count n := by
  have hbefore := h.held n
  by_cases hn : n = id
  · have hpos : 0 < s.held.count id := List.count_pos_iff.mpr hid
    subst hn
    rw [List.count_erase_self, List.count_cons_self]
    omega
  · rw [List.count_erase_of_ne hn, List.count_cons_of_ne (Ne.symm hn)]
    exact hbefore

theorem drop (h : s.Paired a) (hid : id ∈ s.held) :
    (s.drop id).Paired { a with taken := id :: a.taken } where
  sound := (steady_drop h.sound id).sound
  kept := h.kept.drop id
  logged := h.logged.drop id
  held n := by
    rw [held_drop]
    exact h.count_erase hid n
  members n m hm := h.members n m ((released_drop id s).closed n m hm)
  older := h.older

theorem withManager (h : s.Paired a) (hmem : ∀ n ∈ m.state.members, s.IsOpen n)
    (hinitial : m.state.members = m.driver.initial.members) :
    (s.withManager m).Paired { a with
      drivers := a.drivers ++ [m.driver]
      given := s.managers.length :: a.given } where
  sound := (steady_withManager h.sound hmem).sound
  kept n hn := by
    by_cases hnew : n = s.managers.length
    · exact .inl (.inl (hnew ▸ List.mem_cons_self ..))
    · rw [IsOpen, manager?_withManager_of_ne hnew] at hn
      rcases (h.isOpen_iff n).mp hn with hheld | ⟨a, ha⟩
      · exact .inl (.inl (List.mem_cons_of_mem _ hheld))
      · exact .inl (.inr ⟨a, nests_withManager_iff.mpr (.inl ha)⟩)
  logged := h.logged.withManager m
  held n := by
    have hbefore := h.held n
    simp only [Engine.withManager, List.count_cons]
    omega
  members n m' hm' := by
    by_cases hnew : n = s.managers.length
    · subst hnew
      obtain rfl := Option.some.inj ((manager?_withManager_self s m).symm.trans hm')
      have hnone : a.membersOf s.managers.length = [] :=
        h.membersOf_eq_nil (Nat.le_of_eq h.logged.length_eq.symm)
      change m.state.members = m.driver.initial.members ++ a.membersOf s.managers.length
      rw [hnone, List.append_nil, hinitial]
    · rw [manager?_withManager_of_ne hnew] at hm'
      exact h.members n m' hm'
  older p hp := by
    rw [List.length_append]
    exact Nat.lt_add_right _ (h.older p hp)

theorem withMember (h : s.Paired a) (hm : s.manager? stack = some m)
    (hstate : m.state = .stack ns) (hmember : member ∈ s.held) :
    (s.withMember stack m ns member).Paired { a with
      taken := member :: a.taken
      joined := a.joined ++ [(stack, member)] } where
  sound := sound_withMember h.sound hm hstate (h.sound.held member hmember)
  kept n hn := by
    have hopen : s.IsOpen n := by
      by_cases hid : n = stack
      · exact hid ▸ ⟨m, hm⟩
      · rwa [IsOpen, manager?_withMember_of_ne hid] at hn
    refine .inl ?_
    rcases (h.isOpen_iff n).mp hopen with hheld | ⟨a, ha⟩
    · by_cases heq : n = member
      · exact .inr ⟨stack, (nests_withMember_iff hm hstate).mpr (.inr ⟨rfl, heq⟩)⟩
      · exact .inl ((List.mem_erase_of_ne heq).mpr hheld)
    · exact .inr ⟨a, (nests_withMember_iff hm hstate).mpr (.inl ha)⟩
  logged := by
    refine h.logged.congr (List.length_set ..) (fun n => ?_) fun _ => rfl
    by_cases hid : n = stack
    · rw [hid, manager?_withMember_self hm, hm]
      rfl
    · rw [manager?_withMember_of_ne hid]
  held n := h.count_erase hmember n
  members n m' hm' := by
    by_cases hid : n = stack
    · subst hid
      obtain rfl := Option.some.inj ((manager?_withMember_self hm).symm.trans hm')
      have hbefore := h.members n m hm
      rw [hstate] at hbefore
      simp only [DriverState.members] at hbefore ⊢
      rw [hbefore]
      simp [Account.membersOf]
    · rw [manager?_withMember_of_ne hid] at hm'
      rw [h.members n m' hm']
      simp [Account.membersOf, Ne.symm hid]
  older p hp := by
    rcases List.mem_append.mp hp with hp | hp
    · exact h.older p hp
    · obtain rfl := List.mem_singleton.mp hp
      exact h.logged.length_eq ▸ lt_length_of_manager? hm

theorem withCalls (h : s.Paired a) {calls : List Call} (hcalls : ∀ c ∈ calls, c.manager = none) :
    (s.withCalls calls).Paired a where
  sound := ⟨h.sound.held, h.sound.members⟩
  kept := h.kept
  logged := h.logged.congr rfl (fun _ => rfl) fun _ => boundsOf_append hcalls
  held := h.held
  members := h.members
  older := h.older

end Paired

end Engine

/-! ### One call after the other -/

/-- A call that makes managers or counts their handles, of whatever kind the managers are. -/
inductive Handling
  | construction (c : Construction)
  | newNamed (r : Registry) (name : Option String) (virtDriver : String) (policy : Policy)
  | newDac (virtDriver : String) (owner : Ownership) (policy : Policy) (dynamic : Bool)

namespace Handling

open Engine

def perform : Handling → Engine → Engine
  | construction c, s => c.perform s
  | newNamed r name virtDriver policy, s => ((openNamed r name virtDriver policy).eval s).2
  | newDac virtDriver owner policy dynamic, s =>
    ((openDac virtDriver owner policy dynamic).eval s).2

/-- The caller has the handles that the call uses up, and can get those that it copies. What a
driver starts a manager with is open. -/
def Permitted (s : Engine) : Handling → Prop
  | construction c => c.Permitted s
  | newNamed r name virtDriver _ =>
    ∀ d, r.find? s.host name virtDriver = some d → ∀ n ∈ d.initial.members, s.IsOpen n
  | newDac .. => True

/-- The handle that a call returns, if it succeeds. -/
def returned (r : Run ManagerId) (s : Engine) : List ManagerId := (r.eval s).1.toOption.toList

/-- The account after a call. A member that is refused is used up all the same. -/
def enter (s : Engine) (a : Account) : Handling → Account
  | construction (.newManager driver virtDriver policy) =>
    { a with
      drivers := a.drivers ++ [driver]
      given := returned (openManager driver virtDriver policy) s ++ a.given }
  | construction (.newStack primary) =>
    let stack := returned (openStack primary) s
    { drivers := a.drivers ++ [.stack]
      given := stack ++ a.given
      taken := primary :: a.taken
      joined := a.joined ++ stack.map (·, primary) }
  | construction (.newMember stack member) =>
    { a with
      taken := member :: a.taken
      joined := if ((addMember stack member).eval s).1.isOk then a.joined ++ [(stack, member)]
        else a.joined }
  | construction (.hold id) => { a with given := id :: a.given }
  | construction (.drop id) => { a with taken := id :: a.taken }
  | newNamed r name virtDriver policy =>
    let made := (r.find? s.host name virtDriver).toList.filter fun d => (d.adapt policy).isOk
    { a with
      drivers := a.drivers ++ made
      given := returned (openNamed r name virtDriver policy) s ++ a.given }
  | newDac virtDriver owner policy dynamic =>
    { a with
      drivers := a.drivers ++ [.dac]
      given := returned (openDac virtDriver owner policy dynamic) s ++ a.given }

def performAll : List Handling → Engine → Engine
  | [], s => s
  | c :: cs, s => performAll cs (c.perform s)

/-- The account after all calls. -/
def enterAll : List Handling → Engine → Account → Account
  | [], _, a => a
  | c :: cs, s, a => enterAll cs (c.perform s) (c.enter s a)

/-- Every call is permitted when it is its turn. -/
def AllPermitted : List Handling → Engine → Prop
  | [], _ => True
  | c :: cs, s => c.Permitted s ∧ AllPermitted cs (c.perform s)

section Calls

variable {s : Engine} {a : Account}

theorem paired_newManager (h : s.Paired a) {driver : Driver}
    (hmem : ∀ n ∈ driver.initial.members, s.IsOpen n) (virtDriver : String) (policy : Policy) :
    ((openManager driver virtDriver policy).eval s).2.Paired { a with
      drivers := a.drivers ++ [driver]
      given := returned (openManager driver virtDriver policy) s ++ a.given } := by
  have hopened := h.withManager (m := ⟨driver, virtDriver, policy, driver.initial⟩) hmem rfl
  rw [returned, eval_openManager]
  split
  · -- The handle of a manager that does not open is used up at once.
    have hdropped := hopened.drop (List.mem_cons_self ..)
    refine { hdropped with held := fun n => ?_ }
    have hcount := hdropped.held n
    simp only [List.count_cons] at hcount
    simp only [Except.toOption, Option.toList_none, List.nil_append]
    omega
  · exact hopened

theorem paired_newStack (h : s.Paired a) {primary : ManagerId} (hid : primary ∈ s.held) :
    ((openStack primary).eval s).2.Paired
      ((construction (.newStack primary)).enter s a) := by
  obtain ⟨m, hm⟩ := h.sound.held primary hid
  have hopened := h.withManager (m := emptyStack m) (fun n hn => absurd hn List.not_mem_nil) rfl
  rw [enter, returned, eval_openStack hm]
  exact hopened.withMember (manager?_withManager_self s (emptyStack m)) rfl
    (List.mem_cons_of_mem _ hid)

theorem paired_newMember (h : s.Paired a) {member : ManagerId} (hmember : member ∈ s.held)
    (stack : ManagerId) :
    ((addMember stack member).eval s).2.Paired
      ((construction (.newMember stack member)).enter s a) := by
  rw [enter]
  rcases addMember_cases s stack member with ⟨e, hout⟩ | ⟨m, ns, -, hm, hstate, hout⟩
  · rw [hout]
    exact h.drop hmember
  · rw [hout]
    exact h.withMember hm hstate hmember

theorem paired_newDac (h : s.Paired a) (virtDriver : String) (owner : Ownership) (policy : Policy)
    (dynamic : Bool) :
    ((openDac virtDriver owner policy dynamic).eval s).2.Paired
      ((newDac virtDriver owner policy dynamic).enter s a) := by
  rw [enter, returned, eval_openDac]
  exact h.withManager (m := ⟨.dac, virtDriver, policy, .dac ⟨owner, dynamic⟩⟩)
    (fun n hn => absurd hn List.not_mem_nil) rfl

/-- A manager is made of what a search finds, unless it is refused for the policy. -/
theorem paired_newNamed (h : s.Paired a) {r : Registry} {name : Option String}
    {virtDriver : String}
    (hmem : ∀ d, r.find? s.host name virtDriver = some d → ∀ n ∈ d.initial.members, s.IsOpen n)
    (policy : Policy) :
    ((openNamed r name virtDriver policy).eval s).2.Paired
      ((newNamed r name virtDriver policy).enter s a) := by
  have hasked := h.withCalls (r.manager_of_mem_probes s.host name virtDriver)
  rw [enter, returned, eval_openNamed]
  cases hd : r.find? s.host name virtDriver with
  | none =>
    simp only [Option.toList_none, List.filter_nil, List.append_nil]
    exact hasked
  | some d =>
    simp only [Option.toList_some]
    cases hpolicy : d.adapt policy with
    | error e =>
      have hnone : [d].filter (fun d => (d.adapt policy).isOk) = [] := by
        simp [hpolicy, Except.isOk, Except.toBool]
      simp only [hnone, List.append_nil]
      exact hasked
    | ok policy' =>
      have hone : [d].filter (fun d => (d.adapt policy).isOk) = [d] := by
        simp [hpolicy, Except.isOk, Except.toBool]
      simp only [hone]
      exact paired_newManager hasked (hmem d hd) virtDriver policy'

theorem paired_perform {c : Handling} (h : s.Paired a) (hc : c.Permitted s) :
    (c.perform s).Paired (c.enter s a) := by
  cases c with
  | construction c =>
    cases c with
    | newManager driver virtDriver policy => exact paired_newManager h hc virtDriver policy
    | newStack primary => exact paired_newStack h hc
    | newMember stack member => exact paired_newMember h hc stack
    | hold id => exact h.hold hc
    | drop id => exact h.drop hc
  | newNamed r name virtDriver policy => exact paired_newNamed h hc policy
  | newDac virtDriver owner policy dynamic => exact paired_newDac h virtDriver owner policy dynamic

theorem paired_performAll (cs : List Handling) (h : s.Paired a) (hcs : AllPermitted cs s) :
    (performAll cs s).Paired (enterAll cs s a) := by
  induction cs generalizing s a with
  | nil => exact h
  | cons c cs ih =>
    obtain ⟨hc, hrest⟩ := hcs
    exact ih (paired_perform h hc) hrest

end Calls

/-- Whatever is done to managers, the driver of each manager so far has been asked once to open it.
It has been asked once to close it if nothing refers to the manager, and not at all otherwise. The
handles that the caller has are those that it was given, without those that calls have used up, and
an open manager has the members that its driver starts with, and then those that it was given. -/
theorem opened_and_closed_once (host : Host) (cs : List Handling)
    (hcs : AllPermitted cs { host }) :
    let s := performAll cs { host }
    let a := enterAll cs { host } {}
    s.managers.length = a.drivers.length ∧
      (∀ id d, a.drivers[id]? = some d →
        (s.IsOpen id ↔ s.Referred id) ∧
        (s.Referred id → boundsOf s.trace id = [d.call id .opening]) ∧
        (¬s.Referred id → boundsOf s.trace id = [d.call id .opening, d.call id .closing])) ∧
      (∀ id, s.managers.length ≤ id → boundsOf s.trace id = []) ∧
      (∀ id, s.held.count id + a.taken.count id = a.given.count id) ∧
      ∀ id m, s.manager? id = some m →
        m.state.members = m.driver.initial.members ++ a.membersOf id := by
  intro s a
  have h : s.Paired a := paired_performAll cs (Paired.fresh host) hcs
  refine ⟨h.logged.length_eq, fun id d hd => ⟨h.isOpen_iff id, ?_, ?_⟩, fun id hid => ?_, h.held,
    h.members⟩
  · intro href
    obtain ⟨m, hm⟩ := (h.isOpen_iff id).mpr href
    cases h.logged.life id with
    | opened hd' _ hcalls =>
      obtain rfl := Option.some.inj (hd.symm.trans hd')
      exact hcalls
    | unused _ hm' | closed _ hm' => cases hm.symm.trans hm'
  · intro href
    cases h.logged.life id with
    | unused hd' => cases hd.symm.trans hd'
    | opened _ hm => exact absurd ((h.isOpen_iff id).mp ⟨_, hm⟩) href
    | closed hd' _ hcalls =>
      obtain rfl := Option.some.inj (hd.symm.trans hd')
      exact hcalls
  · have hnone : a.drivers[id]? = none := List.getElem?_eq_none (h.logged.length_eq ▸ hid)
    cases h.logged.life id with
    | unused _ _ hcalls => exact hcalls
    | opened hd | closed hd => cases hnone.symm.trans hd

/-- A driver that refuses to open. -/
def closedDriver : Driver where
  name := "closed"
  technology := .bare
  initial := .none
  available _ := true
  hooks := { opening := fun _ => some (.error (.notSupported "closed" "open")) }

/-- A manager does not open. A stack over another one gets a manager of owners as a member, twice,
which the caller keeps a handle to. The stack is refused as a member of that manager, and at last it
is dropped. -/
def outlived : List Handling :=
  [.construction (.newManager closedDriver "qemu" {}), .newNamed .standard none "qemu" {},
    .construction (.newStack 1), .newDac "qemu" ⟨107, 107⟩ {} true, .construction (.hold 3),
    .construction (.newMember 2 3), .construction (.hold 3), .construction (.newMember 2 3),
    .construction (.hold 2), .construction (.newMember 3 2), .construction (.drop 2)]

/-- The manager that did not open is closed, and so are the stack and the manager below it that no
handle is left to. The member with a handle stays open. -/
theorem bounds_outlived :
    boundsOf (performAll outlived {}).trace 0 =
        [closedDriver.call 0 .opening, closedDriver.call 0 .closing] ∧
      boundsOf (performAll outlived {}).trace 1 =
        [Driver.none.call 1 .opening, Driver.none.call 1 .closing] ∧
      boundsOf (performAll outlived {}).trace 2 =
        [Driver.stack.call 2 .opening, Driver.stack.call 2 .closing] ∧
      boundsOf (performAll outlived {}).trace 3 = [Driver.dac.call 3 .opening] ∧
      (performAll outlived {}).held.count 2 = 0 ∧ (performAll outlived {}).held.count 3 = 1 := by
  have hpermitted : AllPermitted outlived {} := by
    refine ⟨nofun, ?_, ?_, trivial, ⟨_, rfl⟩, ?_, ⟨_, rfl⟩, ?_, ⟨_, rfl⟩, ?_, ?_, trivial⟩
    · intro d hd n hn
      obtain rfl : Driver.none = d := Option.some.inj hd
      cases hn
    · exact (by decide : 1 ∈ [1])
    · exact (by decide : 3 ∈ [3, 3, 2])
    · exact (by decide : 3 ∈ [3, 3, 2])
    · exact (by decide : 2 ∈ [2, 3, 2])
    · exact (by decide : 2 ∈ [3, 2])
  obtain ⟨-, hlives, -, hheld, -⟩ := opened_and_closed_once {} outlived hpermitted
  obtain ⟨-, -, hfirst⟩ := hlives 0 closedDriver rfl
  obtain ⟨-, -, hbelow⟩ := hlives 1 .none rfl
  obtain ⟨-, -, hstack⟩ := hlives 2 .stack rfl
  obtain ⟨-, hmember, -⟩ := hlives 3 .dac rfl
  -- The second manager was returned once and its handle copied once, and both are used up. The
  -- last one was returned once and copied twice, and a handle is left.
  have hcounts : (enterAll outlived {} {}).given = [2, 3, 3, 3, 2, 1] ∧
      (enterAll outlived {} {}).taken = [2, 2, 3, 3, 1] := ⟨rfl, rfl⟩
  have hnone : (performAll outlived {}).held.count 2 + 2 = 2 := by
    simpa [hcounts] using hheld 2
  have hone : (performAll outlived {}).held.count 3 + 2 = 3 := by
    simpa [hcounts] using hheld 3
  refine ⟨hfirst (not_referred rfl), hbelow (not_referred rfl), hstack (not_referred rfl),
    hmember (.inl (List.count_pos_iff.mp ?_)), ?_, ?_⟩
  all_goals omega

end Handling

end Confinement

import Confinement.Proofs.Manager.Opening

/-!
# The manager of a host

What stands in the way of the manager of a host is looked for in a fixed order: a driver that is
listed again, the driver that confines nothing next to others, and then, driver by driver, one that
is not found, that cannot confine, or that does not open. The first of these faults is the failure.
Where there is none, the host gets a stack of its drivers, with a manager of ownership as the last
member, and one policy for all of them.
-/

namespace Confinement

variable {d : Driver} {name : Option String} {virtDriver : String}

/-! ### What stands in the way -/

/-- A driver that is to open: under which name it was asked for, and the calls so far. -/
structure Turn where
  name : Option String
  calls : List Call

/-- The turns of drivers that are asked for one after the other. Their managers are numbered from
`id` on. -/
def Registry.turns (r : Registry) (host : Host) (virtDriver : String) :
    ManagerId → List Call → List (Option String) → List Turn
  | _, _, [] => []
  | id, calls, name :: names =>
    let calls := r.probes host name virtDriver ++ calls
    ⟨name, calls⟩ ::
      r.turns host virtDriver (id + 1) (r.opening host name virtDriver id ++ calls) names

/-- The failure of opening a driver after some calls. -/
def Driver.refusal? (d : Driver) (calls : List Call) : Option Error :=
  match d.hooks.opening calls with
  | some (.error e) => some (.openFailed d.name e)
  | _ => .none

/-- The driver does not refuse to open after some calls. -/
def Driver.Opens (d : Driver) (calls : List Call) : Prop :=
  ∀ e, d.hooks.opening calls ≠ some (.error e)

/-- The names in a list that stand further ahead as well. -/
def repeated (names : List String) : List String :=
  (names.zipIdx.filter fun (name, k) => name ∈ names.take k).map Prod.fst

namespace Settings

/-- What drivers are asked for by: the listed names, or none at all. -/
def requested (s : Settings) : List (Option String) :=
  if s.drivers = [] then [none] else s.drivers.map some

/-- The turns of the drivers of a host. A stack is opened between the first one and the others. -/
def turns (s : Settings) (r : Registry) (start : Engine) : List Turn :=
  let id := start.managers.length
  let name := s.drivers.head?
  let calls := r.probes start.host name s.virtDriver ++ start.trace
  let stackOpens : Call := ⟨Driver.stack.name, Driver.stack.builtIn, some (id + 1), .opening⟩
  ⟨name, calls⟩ :: r.turns start.host s.virtDriver (id + 2)
    (stackOpens :: (r.opening start.host name s.virtDriver id ++ calls)) (s.drivers.tail.map some)

/-- What is wrong with the list of drivers. -/
def listFaults (s : Settings) : List Error :=
  (repeated s.drivers).map (fun name => .config (.listedTwice name)) ++
    if 1 < s.drivers.length ∧ Driver.noneName ∈ s.drivers then [.config .noneWithOthers] else []

/-- What is wrong with the driver whose turn it is. -/
def faultsAt (s : Settings) (r : Registry) (host : Host) (turn : Turn) : List Error :=
  match r.find? host turn.name s.virtDriver with
  | none => [notFound turn.name]
  | some d =>
    (if d.name = Driver.noneName ∧ s.requireConfined = true then
      [.configUnsupported .noneCannotConfine] else []) ++ (d.refusal? turn.calls).toList

/-- All that stands in the way of the manager of a host, in the order in which it is looked for. -/
def faults (s : Settings) (r : Registry) (start : Engine) : List Error :=
  s.listFaults ++ (s.turns r start).flatMap (s.faultsAt r start.host)

/-- The policy of a host with a driver in charge: without confinement none is the default. -/
def policyUnder (s : Settings) (primary : Driver) : Policy :=
  if primary.name = Driver.noneName then { s.policy with defaultConfined := false } else s.policy

/-- A new manager of a driver. -/
def managerOf (s : Settings) (policy : Policy) (d : Driver) : Manager :=
  ⟨d, s.virtDriver, policy, d.initial⟩

theorem policy_managerOf (s : Settings) (policy : Policy) (d : Driver) :
    (s.managerOf policy d).policy = policy := rfl

/-- The manager of ownership. -/
def dacManager (s : Settings) (policy : Policy) : Manager :=
  ⟨.dac, s.virtDriver, policy, .dac ⟨s.owner, s.dynamicOwnership⟩⟩

end Settings

/-! ### The list of drivers -/

theorem head?_repeated_append (before rest seen : List String)
    (hseen : ∀ n, n ∈ seen ↔ n ∈ before) :
    (((rest.zipIdx before.length).filter
        fun (name, k) => name ∈ (before ++ rest).take k).map Prod.fst).head? =
      Settings.firstRepeated seen rest := by
  induction rest generalizing before seen with
  | nil => rfl
  | cons n rest ih =>
    rw [List.zipIdx_cons, List.filter_cons, Settings.firstRepeated]
    by_cases hn : n ∈ before
    · simp [hn, (hseen n).mpr hn]
    · have hmore : ∀ n', n' ∈ n :: seen ↔ n' ∈ before ++ [n] := by
        intro n'
        rw [List.mem_cons, List.mem_append, List.mem_singleton, hseen, or_comm]
      have hnext := ih (before ++ [n]) (n :: seen) hmore
      simp only [List.length_append, List.length_singleton, List.append_assoc,
        List.singleton_append] at hnext
      simp only [List.take_left', hn, decide_false, Bool.false_eq_true, if_false, hnext,
        mt (hseen n).mp hn]

theorem head?_repeated (names : List String) :
    (repeated names).head? = Settings.firstRepeated [] names :=
  head?_repeated_append [] names [] fun _ => Iff.rfl

theorem repeated_eq_nil_iff (names : List String) : repeated names = [] ↔ names.Nodup := by
  rw [← List.head?_eq_none_iff, head?_repeated, Settings.firstRepeated_eq_none_iff]
  simp

theorem Settings.listFaults_eq_nil_iff (s : Settings) : s.listFaults = [] ↔
    s.drivers.Nodup ∧ ¬(1 < s.drivers.length ∧ Driver.noneName ∈ s.drivers) := by
  unfold listFaults
  rw [List.append_eq_nil_iff, List.map_eq_nil_iff, repeated_eq_nil_iff]
  simp

theorem Settings.requested_eq (s : Settings) :
    s.requested = s.drivers.head? :: s.drivers.tail.map some := by
  unfold requested
  cases s.drivers <;> rfl

theorem Settings.none_not_mem_tail {s : Settings} (h : s.listFaults = []) :
    Driver.noneName ∉ s.drivers.tail := by
  obtain ⟨-, halone⟩ := s.listFaults_eq_nil_iff.mp h
  intro hmem
  refine halone ⟨?_, List.mem_of_mem_tail hmem⟩
  have hlength := List.length_pos_of_mem hmem
  rw [List.length_tail] at hlength
  omega

/-- A driver in charge of others confines. -/
theorem Settings.policyUnder_eq {s : Settings} {r : Registry} {host : Host}
    (h : s.listFaults = []) (hd : r.find? host s.drivers.head? virtDriver = some d)
    (htail : s.drivers.tail ≠ []) : s.policyUnder d = s.policy := by
  obtain ⟨-, halone⟩ := s.listFaults_eq_nil_iff.mp h
  cases hs : s.drivers with
  | nil => exact absurd (congrArg List.tail hs) htail
  | cons name names =>
    rw [hs] at hd htail halone
    have hname : d.name = name := (Registry.find?_eq_some_iff.mp hd).1.1 name rfl
    refine if_neg fun hunfit => halone ⟨?_, ?_⟩
    · exact Nat.succ_lt_succ (List.length_pos_iff.mpr htail)
    · rw [← hunfit, hname]
      exact List.mem_cons_self ..

/-- The managers of further drivers have the policy of the first one. -/
theorem Settings.map_managerOf_eq {s : Settings} {r : Registry} {host : Host}
    {rest : List Driver} (h : s.listFaults = [])
    (hd : r.find? host s.drivers.head? virtDriver = some d)
    (hrest : List.Forall₂ (fun name d => r.find? host name virtDriver = some d)
      (s.drivers.tail.map some) rest) :
    rest.map (s.managerOf s.policy) = rest.map (s.managerOf (s.policyUnder d)) := by
  cases rest with
  | nil => rfl
  | cons d' rest =>
    have htail : s.drivers.tail ≠ [] := by
      intro hnil
      rw [hnil] at hrest
      cases hrest
    rw [policyUnder_eq h hd htail]

/-- The check of the list finds what is wrong with it first. -/
theorem Settings.check_cases (s : Settings) :
    (∃ e es, s.listFaults = e :: es ∧ s.check = .error e) ∨
      s.listFaults = [] ∧ s.check = .ok () := by
  unfold listFaults check
  rw [← head?_repeated]
  cases hnames : repeated s.drivers with
  | cons name names => exact .inl ⟨_, _, rfl, rfl⟩
  | nil =>
    by_cases hnone : 1 < s.drivers.length ∧ Driver.noneName ∈ s.drivers
    · refine .inl ⟨.config .noneWithOthers, [], ?_, ?_⟩
      · rw [List.map_nil, List.nil_append, if_pos hnone]
      · rw [List.head?_nil]
        exact if_pos hnone
    · refine .inr ⟨?_, ?_⟩
      · rw [List.map_nil, List.nil_append, if_neg hnone]
      · rw [List.head?_nil]
        exact if_neg hnone

/-! ### The turns of the drivers -/

theorem Registry.map_name_turns (r : Registry) (host : Host) (virtDriver : String)
    (id : ManagerId) (calls : List Call) (names : List (Option String)) :
    (r.turns host virtDriver id calls names).map (·.name) = names := by
  induction names generalizing id calls with
  | nil => rfl
  | cons name names ih => rw [turns, List.map_cons, ih]

theorem Settings.map_name_turns (s : Settings) (r : Registry) (start : Engine) :
    (s.turns r start).map (·.name) = s.requested := by
  rw [requested_eq, turns, List.map_cons, Registry.map_name_turns]

theorem Driver.refusal?_eq_none_iff {calls : List Call} :
    d.refusal? calls = .none ↔ d.Opens calls := by
  unfold refusal? Opens
  rcases d.hooks.opening calls with _ | _ | _ <;> simp

theorem Settings.faultsAt_eq_nil_iff (s : Settings) (r : Registry) (host : Host) (turn : Turn) :
    s.faultsAt r host turn = [] ↔ ∃ d, r.Resolves host turn.name s.virtDriver d ∧
      ¬(d.name = Driver.noneName ∧ s.requireConfined = true) ∧ d.Opens turn.calls := by
  simp only [← Registry.find?_eq_some_iff, ← Driver.refusal?_eq_none_iff]
  unfold faultsAt
  cases r.find? host turn.name s.virtDriver <;> simp

/-- Nothing stands in the way of the manager of a host: its drivers are listed as they should be,
each of them is found and opens, and the first one confines if that is required. -/
theorem Settings.faults_eq_nil_iff (s : Settings) (r : Registry) (start : Engine) :
    s.faults r start = [] ↔
      s.drivers.Nodup ∧ ¬(1 < s.drivers.length ∧ Driver.noneName ∈ s.drivers) ∧
      (∀ name ∈ s.requested, ∃ d, r.Resolves start.host name s.virtDriver d) ∧
      (∀ turn ∈ s.turns r start, ∀ d, r.Resolves start.host turn.name s.virtDriver d →
        d.Opens turn.calls) ∧
      ∀ d, r.Resolves start.host s.drivers.head? s.virtDriver d →
        ¬(d.name = Driver.noneName ∧ s.requireConfined = true) := by
  unfold faults
  simp only [List.append_eq_nil_iff, List.flatMap_eq_nil_iff, faultsAt_eq_nil_iff]
  constructor
  · rintro ⟨hlist, hturns⟩
    obtain ⟨hnodup, halone⟩ := s.listFaults_eq_nil_iff.mp hlist
    refine ⟨hnodup, halone, fun name hname => ?_, fun turn hturn d hd => ?_, fun d hd => ?_⟩
    · rw [← s.map_name_turns r start] at hname
      obtain ⟨turn, hturn, rfl⟩ := List.mem_map.mp hname
      obtain ⟨d, hd, -, -⟩ := hturns turn hturn
      exact ⟨d, hd⟩
    · obtain ⟨d', hd', -, hopens⟩ := hturns turn hturn
      obtain rfl := hd.unique hd'
      exact hopens
    · obtain ⟨d', hd', hfit, -⟩ := hturns _ (List.mem_cons_self ..)
      obtain rfl := hd.unique hd'
      exact hfit
  · rintro ⟨hnodup, halone, hfound, hopens, hfit⟩
    have hlist := s.listFaults_eq_nil_iff.mpr ⟨hnodup, halone⟩
    refine ⟨hlist, fun turn hturn => ?_⟩
    have hname : turn.name ∈ s.requested := s.map_name_turns r start ▸ List.mem_map_of_mem hturn
    obtain ⟨d, hd⟩ := hfound turn.name hname
    refine ⟨d, hd, ?_, hopens turn hturn d hd⟩
    rw [requested_eq] at hname
    rcases List.mem_cons.mp hname with hhead | htail
    · exact hfit d (hhead ▸ hd)
    · obtain ⟨n, hn, heq⟩ := List.mem_map.mp htail
      have hdn : d.name = n := hd.1.1 n heq.symm
      exact fun hunfit => none_not_mem_tail hlist (hunfit.1 ▸ hdn ▸ hn)

namespace Engine

variable {s : Settings} {r : Registry} {t u v : Engine} {stack : ManagerId} {m : Manager}
  {ns ids ids' : List ManagerId} {added added' : List Manager}

/-! ### One driver -/

/-- A driver is refused if it cannot confine, or works under the policy of a host that it is in
charge of. -/
theorem adapt_policy (s : Settings) (d : Driver) :
    d.adapt s.policy = if d.name = Driver.noneName ∧ s.requireConfined = true then
        .error (.configUnsupported .noneCannotConfine)
      else .ok (s.policyUnder d) := by
  unfold Driver.adapt Settings.policyUnder Settings.policy
  by_cases hnone : d.name = Driver.noneName
  · by_cases hreq : s.requireConfined = true <;> simp [hnone, hreq]
  · simp [hnone]

/-- A driver whose turn has come fails for what is wrong with it first, or a manager of it opens. -/
theorem openNamed_cases (s : Settings) (r : Registry) (name : Option String) (t : Engine) :
    (∃ e es u, s.faultsAt r t.host ⟨name, r.probes t.host name s.virtDriver ++ t.trace⟩ = e :: es ∧
      (openNamed r name s.virtDriver s.policy).eval t = (.error e, u)) ∨
    ∃ d, s.faultsAt r t.host ⟨name, r.probes t.host name s.virtDriver ++ t.trace⟩ = [] ∧
      r.find? t.host name s.virtDriver = some d ∧
      (openNamed r name s.virtDriver s.policy).eval t = (.ok t.managers.length,
        (t.withCalls (r.probes t.host name s.virtDriver)).withManager
          (s.managerOf (s.policyUnder d) d)) := by
  rw [eval_openNamed, Settings.faultsAt]
  cases hd : r.find? t.host name s.virtDriver with
  | none => exact .inl ⟨_, _, _, rfl, rfl⟩
  | some d =>
    simp only [adapt_policy]
    by_cases hunfit : d.name = Driver.noneName ∧ s.requireConfined = true
    · simp only [if_pos hunfit]
      exact .inl ⟨_, _, _, rfl, rfl⟩
    · simp only [if_neg hunfit, eval_openManager, List.nil_append, Driver.refusal?,
        trace_withCalls, managers_withCalls]
      rcases d.hooks.opening (r.probes t.host name s.virtDriver ++ t.trace) with _ | e | _
      · exact .inr ⟨d, rfl, rfl, rfl⟩
      · exact .inl ⟨_, _, _, rfl, rfl⟩
      · exact .inr ⟨d, rfl, rfl, rfl⟩

/-! ### Further members -/

/-- `u` is left of `t` once the new managers `added`, with the numbers `ids`, have become the last
members of a stack. -/
structure Grows (stack : ManagerId) (ids : List ManagerId) (added : List Manager)
    (t u : Engine) : Prop where
  members : ∀ m ns, t.manager? stack = some m → m.state = .stack ns →
    u.manager? stack = some { m with state := .stack (ns ++ ids) }
  added : ids.map u.manager? = added.map some
  fresh : ∀ n ∈ ids, t.managers.length ≤ n
  kept : ∀ n, n ≠ stack → n < t.managers.length → u.manager? n = t.manager? n
  length_le : t.managers.length ≤ u.managers.length
  host : u.host = t.host

theorem Grows.refl (stack : ManagerId) (t : Engine) : Grows stack [] [] t t where
  members m ns hm hstate := by rw [List.append_nil, ← hstate, hm]
  added := rfl
  fresh := nofun
  kept _ _ _ := rfl
  length_le := Nat.le_refl _
  host := rfl

theorem Grows.trans (hlt : stack < t.managers.length) (h : Grows stack ids added t u)
    (h' : Grows stack ids' added' u v) : Grows stack (ids ++ ids') (added ++ added') t v where
  members m ns hm hstate := by
    rw [h'.members _ _ (h.members m ns hm hstate) rfl, List.append_assoc]
  added := by
    rw [List.map_append, List.map_append, h'.added, ← h.added]
    congr 1
    -- The managers that joined first are older than those that join later.
    refine List.map_congr_left fun n hn => h'.kept n ?_ ?_
    · exact Nat.ne_of_gt (Nat.lt_of_lt_of_le hlt (h.fresh n hn))
    · have hmem : u.manager? n ∈ added.map some := h.added ▸ List.mem_map_of_mem hn
      obtain ⟨m, -, hm⟩ := List.mem_map.mp hmem
      exact lt_length_of_manager? hm.symm
  fresh n hn := by
    rcases List.mem_append.mp hn with hn | hn
    · exact h.fresh n hn
    · exact Nat.le_trans h.length_le (h'.fresh n hn)
  kept n hne hn := by
    rw [h'.kept n hne (Nat.lt_of_lt_of_le hn h.length_le), h.kept n hne hn]
  length_le := Nat.le_trans h.length_le h'.length_le
  host := h'.host.trans h.host

/-- A manager that opens after some calls becomes a member of a stack. -/
theorem join (hm : t.manager? stack = some m) (hstate : m.state = .stack ns) (calls : List Call)
    (m' : Manager) :
    ∃ u, (addMember stack t.managers.length).eval ((t.withCalls calls).withManager m') =
        (.ok (), u) ∧
      Grows stack [t.managers.length] [m'] t u ∧
      u.managers.length = t.managers.length + 1 ∧
      u.trace = ⟨m'.driver.name, m'.driver.builtIn, some t.managers.length, .opening⟩ ::
        (calls ++ t.trace) := by
  have hne : stack ≠ t.managers.length := Nat.ne_of_lt (lt_length_of_manager? hm)
  have hopened : ∀ n, n ≠ t.managers.length →
      ((t.withCalls calls).withManager m').manager? n = t.manager? n :=
    fun n hn => manager?_withManager_of_ne (s := t.withCalls calls) hn m'
  have hm' := (hopened stack hne).trans hm
  refine ⟨_, eval_addMember hm' hstate hne, ⟨?_, ?_, ?_, ?_, ?_, rfl⟩, ?_, rfl⟩
  · intro m₀ ns₀ hm₀ hstate₀
    obtain rfl := Option.some.inj (hm.symm.trans hm₀)
    obtain rfl := DriverState.stack.inj (hstate.symm.trans hstate₀)
    exact manager?_withMember_self hm'
  · rw [List.map_singleton, List.map_singleton, manager?_withMember_of_ne hne.symm]
    exact congrArg (· :: []) (manager?_withManager_self (t.withCalls calls) m')
  · intro n hn
    exact Nat.le_of_eq (List.mem_singleton.mp hn).symm
  · intro n hn hlt
    rw [manager?_withMember_of_ne hn, hopened n (Nat.ne_of_lt hlt)]
  · simp [withMember, withManager, setManager]
  · simp [withMember, withManager, setManager]

/-- The failure of opening further drivers is what is wrong with one of them first. If nothing is,
each of them has a manager that is a member. -/
theorem addNamed_cases (s : Settings) (r : Registry) {names : List String}
    (hnone : Driver.noneName ∉ names) (hm : t.manager? stack = some m)
    (hstate : m.state = .stack ns) :
    let turns := r.turns t.host s.virtDriver t.managers.length t.trace (names.map some)
    (∃ e es u, turns.flatMap (s.faultsAt r t.host) = e :: es ∧
      (addNamed r stack s.virtDriver s.policy names).eval t = (.error e, u)) ∨
    ∃ drivers ids u, turns.flatMap (s.faultsAt r t.host) = [] ∧
      List.Forall₂ (fun name d => r.find? t.host name s.virtDriver = some d) (names.map some)
        drivers ∧
      (addNamed r stack s.virtDriver s.policy names).eval t = (.ok (), u) ∧
      Grows stack ids (drivers.map (s.managerOf s.policy)) t u := by
  induction names generalizing t m ns with
  | nil => exact .inr ⟨[], [], t, rfl, .nil, rfl, .refl stack t⟩
  | cons name names ih =>
    obtain ⟨hname, hnames⟩ := not_or.mp (mt List.mem_cons.mpr hnone)
    simp only [List.map_cons, Registry.turns, List.flatMap_cons, addNamed, Run.eval_bind]
    rcases openNamed_cases s r (some name) t with ⟨e, es, u, hfaults, hout⟩ | ⟨d, hfaults, hd, hout⟩
    · rw [hfaults, hout]
      exact .inl ⟨e, _, u, rfl, rfl⟩
    · have hpolicy : s.policyUnder d = s.policy := by
        have hfound : d.name = name := (Registry.find?_eq_some_iff.mp hd).1.1 name rfl
        exact if_neg fun hunfit => hname (hunfit.symm.trans hfound)
      obtain ⟨u, hadded, hgrows, hlength, htrace⟩ :=
        join hm hstate (r.probes t.host (some name) s.virtDriver) (s.managerOf s.policy d)
      -- The next driver meets a stack with one more member, and one more call.
      have hrest := ih hnames (hgrows.members m ns hm hstate) rfl
      rw [hlength, htrace, hgrows.host] at hrest
      rw [hpolicy] at hout
      simp only [hfaults, hout, hadded, Registry.opening_eq hd, List.nil_append]
      rcases hrest with ⟨e, es, v, hfaults', hout'⟩ |
        ⟨drivers, ids, v, hfaults', hfound, hout', hmore⟩
      · exact .inl ⟨e, es, v, hfaults', hout'⟩
      · refine .inr ⟨d :: drivers, t.managers.length :: ids, v, hfaults', ?_, hout', ?_⟩
        · exact .cons hd hfound
        · exact hgrows.trans (lt_length_of_manager? hm) hmore

/-! ### The manager of the host -/

/-- A stack over a manager that is only just open. -/
theorem openStack_withManager (m : Manager) (t : Engine) :
    ∃ u, (openStack t.managers.length).eval (t.withManager m) = (.ok (t.managers.length + 1), u) ∧
      u.manager? t.managers.length = some m ∧
      u.manager? (t.managers.length + 1) =
        some ⟨.stack, m.virtDriver, m.policy, .stack [t.managers.length]⟩ ∧
      u.managers.length = t.managers.length + 2 ∧ u.host = t.host ∧
      u.trace = ⟨Driver.stack.name, Driver.stack.builtIn, some (t.managers.length + 1), .opening⟩ ::
        (t.withManager m).trace := by
  have hlength : (t.withManager m).managers.length = t.managers.length + 1 := by
    simp [withManager]
  have hm := manager?_withManager_self t m
  have hstack := manager?_withManager_self (t.withManager m) (emptyStack m)
  have hout := eval_openStack hm
  rw [hlength] at hstack hout
  have hne : t.managers.length ≠ t.managers.length + 1 := Nat.ne_of_lt (Nat.lt_succ_self _)
  refine ⟨_, hout, ?_, manager?_withMember_self hstack, ?_, rfl, ?_⟩
  · rw [manager?_withMember_of_ne hne, manager?_withManager_of_ne (hlength ▸ hne), hm]
  · simp [withMember, setManager, withManager]
  · rw [← hlength]
    rfl

theorem assemble_cases (s : Settings) (r : Registry) (start : Engine) :
    (∃ e es t, s.faults r start = e :: es ∧ (s.assemble r).eval start = (.error e, t)) ∨
    ∃ primary rest stack members t, s.faults r start = [] ∧
      List.Forall₂ (fun name d => r.find? start.host name s.virtDriver = some d) s.requested
        (primary :: rest) ∧
      (s.assemble r).eval start = (.ok stack, t) ∧
      t.manager? stack = some ⟨.stack, s.virtDriver, s.policyUnder primary, .stack members⟩ ∧
      members.map t.manager? = ((primary :: rest).map (s.managerOf (s.policyUnder primary)) ++
        [s.dacManager (s.policyUnder primary)]).map some := by
  unfold Settings.assemble Settings.faults
  simp only [Run.eval_bind, Run.eval_lift]
  rcases s.check_cases with ⟨e, es, hfaults, hcheck⟩ | ⟨hfaults₀, hcheck⟩
  · rw [hfaults, hcheck]
    exact .inl ⟨e, _, start, rfl, rfl⟩
  · rw [hfaults₀, hcheck]
    simp only [List.nil_append, Settings.turns, List.flatMap_cons]
    rcases openNamed_cases s r s.drivers.head? start with
      ⟨e, es, t, hfaults, hout⟩ | ⟨primary, hfaults, hprimary, hout⟩
    · rw [hfaults, hout]
      exact .inl ⟨e, _, t, rfl, rfl⟩
    · obtain ⟨t, hstack, hkept, hm, hlength, hhost, htrace⟩ := openStack_withManager
        (s.managerOf (s.policyUnder primary) primary)
        (start.withCalls (r.probes start.host s.drivers.head? s.virtDriver))
      rw [managers_withCalls] at hstack hkept hm hlength htrace
      rw [host_withCalls] at hhost
      have hrest := addNamed_cases s r (Settings.none_not_mem_tail hfaults₀) hm rfl
      rw [hlength, htrace, hhost] at hrest
      simp only [hfaults, hout, hstack, Registry.opening_eq hprimary, List.nil_append,
        Run.eval_guarding, Run.eval_bind]
      rcases hrest with ⟨e, es, u, hfaults', hout'⟩ |
        ⟨rest, ids, u, hfaults', hfound, hout', hgrows⟩
      · rw [hout']
        exact .inl ⟨e, es, _, hfaults', rfl⟩
      · have howned := hgrows.members _ _ hm rfl
        obtain ⟨v, hadded, hjoined, -, -⟩ :=
          join howned rfl [] (s.dacManager (s.policyUnder primary))
        have hadded : (addMember (start.managers.length + 1) u.managers.length).eval
            (u.withManager ⟨.dac, s.virtDriver, s.policyUnder primary,
              .dac ⟨s.owner, s.dynamicOwnership⟩⟩) = (.ok (), v) := hadded
        -- The listed drivers have joined the stack, and then the manager of ownership.
        have hall := hgrows.trans (lt_length_of_manager? hm) hjoined
        have hfirst : v.manager? start.managers.length = t.manager? start.managers.length :=
          hall.kept _ (Nat.ne_of_lt (Nat.lt_succ_self _)) (lt_length_of_manager? hkept)
        have hpolicy := Settings.map_managerOf_eq hfaults₀ hprimary hfound
        refine .inr ⟨primary, rest, _, _, v, hfaults', ?_, ?_, hall.members _ _ hm rfl, ?_⟩
        · rw [Settings.requested_eq]
          exact .cons hprimary hfound
        · simp only [hout', Run.eval_get, Run.eval_lift, manager_eq_ok_iff.mpr howned,
            Settings.policy_managerOf, eval_openDac, hadded]
          rfl
        · rw [List.map_append, hall.added, hpolicy, List.map_singleton, hfirst, hkept]
          simp

/-- The first fault that is met is the failure of assembling the manager of a host. If there is
none, the manager is a stack of the drivers that were asked for, in order, with a manager of
ownership as the last member. They are all under the policy of the host, but if the driver in charge
confines nothing, no domain is confined by default. -/
theorem assemble_fails_with_first_fault (s : Settings) (r : Registry) (start : Engine) :
    ((∃ stack t, (s.assemble r).eval start = (.ok stack, t)) ↔
      s.drivers.Nodup ∧ ¬(1 < s.drivers.length ∧ Driver.noneName ∈ s.drivers) ∧
      (∀ name ∈ s.requested, ∃ d, r.Resolves start.host name s.virtDriver d) ∧
      (∀ turn ∈ s.turns r start, ∀ d, r.Resolves start.host turn.name s.virtDriver d →
        d.Opens turn.calls) ∧
      ∀ d, r.Resolves start.host s.drivers.head? s.virtDriver d →
        ¬(d.name = Driver.noneName ∧ s.requireConfined = true)) ∧
    (∀ stack t, (s.assemble r).eval start = (.ok stack, t) → ∃ primary rest,
      List.Forall₂ (fun name d => r.Resolves start.host name s.virtDriver d) s.requested
        (primary :: rest) ∧
      t.manager? stack =
        some ⟨.stack, s.virtDriver, s.policyUnder primary, .stack (t.nested stack)⟩ ∧
      (t.nested stack).map t.manager? =
        ((primary :: rest).map (s.managerOf (s.policyUnder primary)) ++
          [s.dacManager (s.policyUnder primary)]).map some) ∧
    ∀ e, (∃ t, (s.assemble r).eval start = (.error e, t)) ↔ (s.faults r start).head? = some e := by
  rw [← s.faults_eq_nil_iff r start]
  simp only [← Registry.find?_eq_some_iff]
  rcases assemble_cases s r start with ⟨e, es, t, hfaults, hout⟩ |
    ⟨primary, rest, stack, members, t, hfaults, hfound, hout, hstack, hmembers⟩
  · rw [hfaults, hout]
    refine ⟨⟨nofun, nofun⟩, nofun, fun e' => ⟨?_, ?_⟩⟩
    · rintro ⟨_, heq⟩
      exact congrArg some (Except.error.inj (Prod.mk.inj heq).1)
    · intro heq
      obtain rfl := Option.some.inj heq
      exact ⟨t, rfl⟩
  · rw [hfaults, hout]
    refine ⟨⟨fun _ => rfl, fun _ => ⟨stack, t, rfl⟩⟩, ?_, fun e => ⟨nofun, nofun⟩⟩
    intro stack' t' heq
    obtain ⟨hstack', rfl⟩ := Prod.mk.inj heq
    obtain rfl := Except.ok.inj hstack'
    have hnested : t.nested stack = members := by rw [nested, hstack]
    rw [hnested]
    exact ⟨primary, rest, hfound, hstack, hmembers⟩

/-- A driver that any host can use. -/
def plainDriver (name : String) : Driver :=
  ⟨name, .bare, .none, fun _ => true, fun _ => false, {}, false⟩

/-- A driver that opens as long as no other driver is open. -/
def lonelyDriver (name : String) : Driver where
  name := name
  technology := .bare
  initial := .none
  available _ := true
  hooks := { opening := fun calls =>
    if calls.any (·.request = .opening) then some (.error (.notSupported name "open")) else none }

/-- Two drivers are listed. -/
def twoDrivers : Settings := { drivers := ["first", "second"], user := 107, group := 36 }

/-- The drivers are members in the order in which they are listed, not in that of the registry. A
driver that does not open next to others is the failure. -/
theorem assembled_twoDrivers :
    (∃ stack t, (twoDrivers.assemble [plainDriver "second", plainDriver "first"]).eval {} =
        (.ok stack, t) ∧
      (t.nested stack).map t.manager? =
        [some ⟨plainDriver "first", "qemu", ⟨false, true, false⟩, .none⟩,
          some ⟨plainDriver "second", "qemu", ⟨false, true, false⟩, .none⟩,
          some ⟨.dac, "qemu", ⟨false, true, false⟩, .dac ⟨⟨107, 36⟩, true⟩⟩]) ∧
    ∃ t, (twoDrivers.assemble [lonelyDriver "second", plainDriver "first"]).eval {} =
      (.error (.openFailed "second" (.notSupported "second" "open")), t) := by
  obtain ⟨-, hmade, -⟩ :=
    assemble_fails_with_first_fault twoDrivers [plainDriver "second", plainDriver "first"] {}
  obtain ⟨-, -, hfails⟩ :=
    assemble_fails_with_first_fault twoDrivers [lonelyDriver "second", plainDriver "first"] {}
  have hfirst : Registry.Resolves [plainDriver "second", plainDriver "first"] {} (some "first")
      "qemu" (plainDriver "first") := Registry.find?_eq_some_iff.mp rfl
  have hsecond : Registry.Resolves [plainDriver "second", plainDriver "first"] {} (some "second")
      "qemu" (plainDriver "second") := Registry.find?_eq_some_iff.mp rfl
  refine ⟨⟨1, _, rfl, ?_⟩, (hfails _).mpr rfl⟩
  obtain ⟨primary, rest, hfound, -, hmembers⟩ := hmade 1 _ rfl
  obtain _ | ⟨hprimary, _ | ⟨hnext, _ | _⟩⟩ := hfound
  obtain rfl := hprimary.unique hfirst
  obtain rfl := hnext.unique hsecond
  exact hmembers

end Engine

end Confinement

import Confinement.Manager.Resources
import Confinement.Proofs.Manager.Cycles
import Confinement.Proofs.Manager.FanOut
import Confinement.Proofs.Manager.Lifetime

/-!
# All resources of a domain

To restore the resources of a domain the driver of the manager is called once for every disk that is
not exempt and then for every device, whatever fails. To label them it is called for the same disks
and devices, and for the saved state, up to the first call that fails. A call may lead to further
calls, to the members of a stack, but to none to the stack itself.
-/

namespace Confinement

/-! ### Calls that a request leads to -/

/-- A request to the top of the tree meets the manager. -/
inductive Tree.Meets (n : ManagerId) : Tree → Prop
  | leaf : Meets n (.leaf n)
  | stack (members : List Tree) : Meets n (.stack n members)
  | member {id : ManagerId} {members : List Tree} {t : Tree} (mem : t ∈ members)
      (met : t.Meets n) : Meets n (.stack id members)

namespace Stage

variable {P Q : Call → Prop} {st st' st'' : Stage} {op : Operation} {id : ManagerId} {m : Manager}
  {below : Option (Stage → Except Error Unit × Stage)}

/-- Between two stages there were calls, all of them as `P` says. -/
def Adds (P : Call → Prop) (st st' : Stage) : Prop :=
  ∃ calls, st'.engine.trace = calls ++ st.engine.trace ∧ ∀ c ∈ calls, P c

theorem Adds.refl (P : Call → Prop) (st : Stage) : st.Adds P st := ⟨[], rfl, by simp⟩

theorem Adds.trans (h : st.Adds P st') (h' : st'.Adds P st'') : st.Adds P st'' := by
  obtain ⟨calls, ht, hP⟩ := h
  obtain ⟨calls', ht', hP'⟩ := h'
  refine ⟨calls' ++ calls, by rw [ht', ht, List.append_assoc], fun c hc => ?_⟩
  exact (List.mem_append.mp hc).elim (hP' c) (hP c)

theorem Adds.mono (h : st.Adds P st') (hPQ : ∀ c, P c → Q c) : st.Adds Q st' := by
  obtain ⟨calls, ht, hP⟩ := h
  exact ⟨calls, ht, fun c hc => hPQ c (hP c hc)⟩

/-- A manager that is there has its driver called, and the other calls come after this one. -/
theorem adds_visit_record (hm : st.engine.manager? id = some m) (hop : op ≠ .verify)
    (hb : ∀ f, below = some f → ∀ st' : Stage, st'.Adds P (f st').2) :
    (st.record id m.driver op).Adds P (st.visit op id below).2 := by
  have hc : st.concerns op m = true := by simp [concerns, hop]
  rw [visit, Engine.manager_eq_ok_iff.mpr hm]
  simp only [hc, Bool.true_eq_false, if_false]
  split
  · exact ⟨[], by rw [engine_redefine, List.nil_append], by simp⟩
  · cases below with
    | some f => exact hb f rfl _
    | none => exact ⟨[], by rw [trace_leave, List.nil_append], by simp⟩

theorem adds_visit (hop : op ≠ .verify) (hown : ∀ c : Call, c.manager = some id → P c)
    (hb : ∀ f, below = some f → ∀ st' : Stage, st'.Adds P (f st').2) (st : Stage) :
    st.Adds P (st.visit op id below).2 := by
  cases hm : st.engine.manager? id with
  | none =>
    rw [visit, Engine.manager, hm]
    exact .refl P st
  | some m =>
    have hnoted : st.Adds P (st.record id m.driver op) :=
      ⟨[m.driver.call id (.operation op)], rfl, by simpa using hown _ rfl⟩
    exact hnoted.trans (adds_visit_record hm hop hb)

end Stage

namespace Tree

variable {op : Operation}

/-- Only managers are called that the request meets. -/
theorem adds_perform (hop : op ≠ .verify) (t : Tree) (st : Stage) :
    st.Adds (fun c => ∃ n, t.Meets n ∧ c.manager = some n) (t.perform op st).2 := by
  induction t using inductionOn generalizing st with
  | leaf id =>
    rw [perform]
    exact Stage.adds_visit hop (fun c hc => ⟨id, .leaf, hc⟩) (fun f hf => by cases hf) st
  | stack id members ih =>
    rw [perform]
    refine Stage.adds_visit hop (fun c hc => ⟨id, .stack members, hc⟩) ?_ st
    rintro f ⟨rfl⟩ st'
    refine performAll_induction (.refl _) (fun h h' => h.trans h') (fun t ht st => ?_) st'
    refine (ih t ht st).mono ?_
    rintro c ⟨n, hn, hc⟩
    exact ⟨n, .member ht hn, hc⟩
  | endless id =>
    rw [perform]
    exact .refl _ st

end Tree

namespace Engine

variable {s t u : Engine} {id n : ManagerId} {m : Manager} {d : Definition} {op : Operation}
  {ops : List Operation}

/-- A tree that ends is a leaf, or is made of the trees of members. -/
theorem tree_cases_of_ends (h : (s.tree id).Ends) :
    s.tree id = .leaf id ∨ ∃ ns : List ManagerId,
      s.tree id = .stack id (ns.map s.tree) ∧ ∀ n ∈ ns, (s.tree n).Ends := by
  cases hb : (s.manager? id).bind (·.members?) with
  | none =>
    unfold tree at h ⊢
    cases hd : s.managers.length with
    | zero =>
      rw [hd] at h
      cases h
    | succ depth => exact .inl (by rw [treeWithin, hb])
  | some ns =>
    obtain ⟨m, hm, hmem⟩ := Option.bind_eq_some_iff.mp hb
    exact .inr ⟨ns, tree_of_ends h hm hmem⟩

/-- The tree of a manager that a request meets is no larger than the tree that the request starts
from, if that one ends. -/
theorem sizeOf_tree_le {t : Tree} (h : t.Ends) (ht : s.tree id = t) (hn : t.Meets n) :
    sizeOf (s.tree n) ≤ sizeOf t := by
  induction h generalizing id with
  | leaf k =>
    have hends : (s.tree id).Ends := by rw [ht]; exact .leaf k
    obtain hleaf | ⟨ns, hstack, -⟩ := tree_cases_of_ends hends
    · obtain rfl := Tree.leaf.inj (ht.symm.trans hleaf)
      cases hn
      exact Nat.le_of_eq (congrArg sizeOf ht)
    · cases ht.symm.trans hstack
  | stack k below ih =>
    have hends : (s.tree id).Ends := by rw [ht]; exact .stack k below
    obtain hleaf | ⟨ns, hstack, -⟩ := tree_cases_of_ends hends
    · cases ht.symm.trans hleaf
    · obtain ⟨rfl, rfl⟩ := Tree.stack.inj (ht.symm.trans hstack)
      cases hn with
      | stack => exact Nat.le_of_eq (congrArg sizeOf ht)
      | member mem met =>
        obtain ⟨j, -, rfl⟩ := List.mem_map.mp mem
        have hle := ih _ mem rfl met
        have hlt := List.sizeOf_lt_of_mem mem
        simp only [Tree.stack.sizeOf_spec]
        omega

/-- A manager whose tree ends is not met below itself. -/
theorem ne_of_meets_member {members : List Tree} {t : Tree} (h : (s.tree id).Ends)
    (ht : s.tree id = .stack id members) (hmem : t ∈ members) (hn : t.Meets n) : n ≠ id := by
  rintro rfl
  obtain hleaf | ⟨ns, hstack, hends⟩ := tree_cases_of_ends h
  · cases ht.symm.trans hleaf
  · obtain ⟨-, rfl⟩ := Tree.stack.inj (ht.symm.trans hstack)
    obtain ⟨k, hk, rfl⟩ := List.mem_map.mp hmem
    have hle := sizeOf_tree_le (hends k hk) rfl hn
    have hlt := List.sizeOf_lt_of_mem hmem
    rw [ht, Tree.stack.sizeOf_spec] at hle
    omega

/-! ### One operation after the other -/

/-- One operation that a manager was asked for, its result, and the calls that the call to the
manager's driver led to, the latest first. -/
structure Attempt where
  op : Operation
  result : Except Error Unit
  onward : List Call

/-- The operations are attempted one after the other, each on what the one before it has left. For
each of them the driver is called, and this leads to further calls, but to none to the manager
itself unless the manager is below itself. -/
inductive Attempts (id : ManagerId) (dr : Driver) (d : Definition) :
    Engine → List Attempt → Engine → Prop
  | nil (s : Engine) : Attempts id dr d s [] s
  | cons {s t u : Engine} {a : Attempt} {rest : List Attempt}
      (performed : s.perform id a.op d = (a.result, t))
      (calls : t.trace = a.onward ++ dr.call id (.operation a.op) :: s.trace)
      (others : (s.tree id).Ends → ∀ c ∈ a.onward, c.manager ≠ some id)
      (later : Attempts id dr d t rest u) : Attempts id dr d s (a :: rest) u

theorem tree_of_members?_some {ns : List ManagerId} (hm : s.manager? id = some m)
    (hmem : m.members? = some ns) : ∃ members, s.tree id = .stack id members := by
  have hlt := lt_length_of_manager? hm
  unfold tree
  cases hd : s.managers.length with
  | zero => exact absurd (hd ▸ hlt) (Nat.not_lt_zero id)
  | succ depth =>
    rw [treeWithin, hm, Option.bind_some, hmem]
    exact ⟨_, rfl⟩

/-- To ask a manager is to call its driver, and then others. -/
theorem calls_perform (hm : s.manager? id = some m) (hop : op ≠ .verify) (d : Definition) :
    ∃ onward, (s.perform id op d).2.trace =
        onward ++ m.driver.call id (.operation op) :: s.trace ∧
      ((s.tree id).Ends → ∀ c ∈ onward, c.manager ≠ some id) := by
  have hst : (Stage.mk s d).engine.manager? id = some m := hm
  have hperform : (s.perform id op d).2 = ((s.tree id).perform op ⟨s, d⟩).2.engine := rfl
  rw [hperform]
  cases hmem : m.members? with
  | none =>
    rw [tree_of_members?_none hm hmem, Tree.perform]
    have hno : ∀ f : Stage → Except Error Unit × Stage, none = some f →
        ∀ st : Stage, st.Adds (fun _ => False) (f st).2 := by simp
    obtain ⟨onward, ht, hnone⟩ := Stage.adds_visit_record hst hop hno
    exact ⟨onward, ht, fun _ c hc => (hnone c hc).elim⟩
  | some ns =>
    obtain ⟨members, htree⟩ := tree_of_members?_some hm hmem
    have hbelow : ∀ f, some (Tree.performAll op members) = some f → ∀ st : Stage,
        st.Adds (fun c => ∃ t ∈ members, ∃ n, t.Meets n ∧ c.manager = some n) (f st).2 := by
      rintro f ⟨rfl⟩
      refine Tree.performAll_induction (.refl _) (fun h h' => h.trans h') fun t ht st => ?_
      refine (t.adds_perform hop st).mono ?_
      rintro c ⟨n, hn, hc⟩
      exact ⟨t, ht, n, hn, hc⟩
    obtain ⟨onward, ht, hmet⟩ := Stage.adds_visit_record hst hop hbelow
    rw [htree, Tree.perform]
    refine ⟨onward, ht, fun hends c hc hself => ?_⟩
    obtain ⟨t, hmember, n, hn, hc⟩ := hmet c hc
    rw [← htree] at hends
    exact ne_of_meets_member hends htree hmember hn (Option.some.inj (hc.symm.trans hself))

theorem Attempts.step {dr : Driver} (hm : ∃ m, s.manager? id = some m ∧ m.driver = dr)
    (hop : op ≠ .verify) (d : Definition) {r : Except Error Unit} (h : s.perform id op d = (r, t)) :
    ∃ a : Attempt, a.op = op ∧ a.result = r ∧
      (∃ m, t.manager? id = some m ∧ m.driver = dr) ∧
      ∀ rest u, Attempts id dr d t rest u → Attempts id dr d s (a :: rest) u := by
  obtain ⟨m, hm, rfl⟩ := hm
  obtain ⟨onward, htrace, hothers⟩ := calls_perform hm hop d
  obtain ⟨m', hm', hrole⟩ := (sameRoles_perform id op d s).manager hm
  rw [h] at htrace hm'
  exact ⟨⟨op, r, onward⟩, rfl, rfl, ⟨m', hm', Manager.driver_of_role hrole⟩,
    fun rest u hrest => .cons h htrace hothers hrest⟩

/-- All operations are attempted, whatever fails, and the first failure is reported. -/
theorem attempts_performEvery {dr : Driver} (hm : ∃ m, s.manager? id = some m ∧ m.driver = dr)
    (hops : ∀ op ∈ ops, op ≠ .verify) (d : Definition) :
    ∃ as u, s.performEvery id d ops = (firstFailureOf (as.map (·.result)), u) ∧
      Attempts id dr d s as u ∧ as.map (·.op) = ops := by
  induction ops generalizing s with
  | nil => exact ⟨[], s, rfl, .nil s, rfl⟩
  | cons op ops ih =>
    obtain ⟨hop, hothers⟩ := List.forall_mem_cons.mp hops
    rcases hperform : s.perform id op d with ⟨r, t⟩
    obtain ⟨a, rfl, rfl, hm', hstep⟩ := Attempts.step hm hop d hperform
    obtain ⟨as, u, hrest, hattempts, hmap⟩ := ih hm' hothers
    refine ⟨a :: as, u, ?_, hstep as u hattempts, by rw [List.map_cons, hmap]⟩
    rw [performEvery, hperform]
    simp only [hrest]
    rfl

/-- Operations are attempted until one fails, which is the last one then. -/
theorem attempts_performWhile {dr : Driver} (hm : ∃ m, s.manager? id = some m ∧ m.driver = dr)
    (hops : ∀ op ∈ ops, op ≠ .verify) (d : Definition) :
    ∃ as rest u, s.performWhile id d ops = (firstFailureOf (as.map (·.result)), u) ∧
      Attempts id dr d s as u ∧ as.map (·.op) ++ rest = ops ∧
      (∀ a ∈ as.dropLast, a.result = .ok ()) ∧
      (rest = [] ∨ ∃ e, firstFailureOf (as.map (·.result)) = .error e) := by
  induction ops generalizing s with
  | nil => exact ⟨[], [], s, rfl, .nil s, rfl, by simp, .inl rfl⟩
  | cons op ops ih =>
    obtain ⟨hop, hothers⟩ := List.forall_mem_cons.mp hops
    rcases hperform : s.perform id op d with ⟨r, t⟩
    obtain ⟨a, rfl, rfl, hm', hstep⟩ := Attempts.step hm hop d hperform
    rw [performWhile, hperform]
    cases hr : a.result with
    | error e =>
      have hresult : firstFailureOf ([a].map (·.result)) = .error e := by
        rw [List.map_singleton, firstFailureOf_cons, hr, firstFailure_error]
      refine ⟨[a], ops, t, ?_, hstep [] t (.nil t), rfl, by simp, .inr ⟨e, hresult⟩⟩
      rw [hresult]
    | ok =>
      obtain ⟨as, rest, u, hrest, hattempts, hmap, hok, hstop⟩ := ih hm' hothers
      have hresult : firstFailureOf ((a :: as).map (·.result)) =
          firstFailureOf (as.map (·.result)) := by
        rw [List.map_cons, firstFailureOf_cons, hr, firstFailure_ok]
      have hfirst : ∀ b ∈ (a :: as).dropLast, b.result = .ok () := by
        cases as with
        | nil => simp
        | cons b bs => exact List.forall_mem_cons.mpr ⟨hr, hok⟩
      refine ⟨a :: as, rest, u, ?_, hstep as u hattempts, ?_, hfirst, by rwa [hresult]⟩
      · simp only [hrest, hresult]
      · rw [List.map_cons, List.cons_append, hmap]

/-- The calls to the driver of one manager, the first one first. -/
def callsOf (s : Engine) (id : ManagerId) : List Call :=
  (s.trace.filter (·.manager == some id)).reverse

/-- A manager that is not below itself has its driver called for the attempts and for nothing
else. -/
theorem Attempts.callsOf {dr : Driver} {as : List Attempt} (h : Attempts id dr d s as u)
    (hends : (s.tree id).Ends) :
    u.callsOf id = s.callsOf id ++ as.map fun a => dr.call id (.operation a.op) := by
  induction h with
  | nil s => simp
  | @cons s t u a rest performed calls others later ih =>
    have hroles : s.SameRoles t := by
      have hsame := sameRoles_perform id a.op d s
      rwa [performed] at hsame
    have hnone : a.onward.filter (·.manager == some id) = [] := by
      rw [List.filter_eq_nil_iff]
      intro c hc
      simpa using others hends c hc
    have hfirst : t.callsOf id = s.callsOf id ++ [dr.call id (.operation a.op)] := by
      rw [Engine.callsOf, calls, List.filter_append, hnone]
      simp [Engine.callsOf, Driver.call]
    rw [ih (by rwa [hroles.tree id]), hfirst, List.map_cons, List.append_assoc]
    rfl

/-- To restore all resources is to attempt it for every disk that is not exempt, in order, and then
for every device, in order. To label them is to attempt it for the same disks and devices and for
the saved state, but no further than to the first failure. The first failure is what is reported.
The driver of the manager is called for these attempts alone. -/
theorem resources_attempted_in_order (hm : s.manager? id = some m) (d : Definition)
    (saved : Option Path) :
    (∃ as u, s.restoreAll id d = (firstFailureOf (as.map (·.result)), u) ∧
      Attempts id m.driver d s as u ∧
      as.map (·.op) = (d.disks.filter fun disk => !disk.noRelabel).map .restoreImage ++
        d.devices.map (.restoreDevice · none)) ∧
    (∃ as rest u, s.setAll id d saved = (firstFailureOf (as.map (·.result)), u) ∧
      Attempts id m.driver d s as u ∧
      as.map (·.op) ++ rest = (d.disks.filter fun disk => !disk.noRelabel).map .setImage ++
        d.devices.map (.setDevice · none) ++ saved.toList.map .setSavedState ∧
      (∀ a ∈ as.dropLast, a.result = .ok ()) ∧
      (rest = [] ∨ ∃ e, firstFailureOf (as.map (·.result)) = .error e)) ∧
    ((s.tree id).Ends → ∀ as u, Attempts id m.driver d s as u →
      u.callsOf id = s.callsOf id ++ as.map fun a => m.driver.call id (.operation a.op)) := by
  have hdriver : ∃ m', s.manager? id = some m' ∧ m'.driver = m.driver := ⟨m, hm, rfl⟩
  refine ⟨attempts_performEvery hdriver ?_ d, attempts_performWhile hdriver ?_ d,
    fun hends as u h => h.callsOf hends⟩
  · simp only [Definition.restoringOperations, List.mem_append, List.mem_map]
    rintro op (⟨disk, -, rfl⟩ | ⟨device, -, rfl⟩) <;> simp
  · simp only [Definition.settingOperations, List.mem_append, List.mem_map]
    rintro op ((⟨disk, -, rfl⟩ | ⟨device, -, rfl⟩) | ⟨path, -, rfl⟩) <;> simp

/-- A driver that fails at read-only disks. -/
def sealedDriver : Driver where
  name := "sealed"
  technology := .none
  initial := .none
  available _ := true
  hooks := {
    perform := fun _ op d =>
      match op with
      | .setImage ⟨path, _, true, _⟩ => some (.error (.permissionDenied path.text), d)
      | .restoreImage ⟨path, _, true, _⟩ => some (.error (.permissionDenied path.text), d)
      | _ => none }

def sealedHost : Engine where
  managers := [some ⟨sealedDriver, "qemu", {}, .none⟩]
  held := [0]

/-- A guest with a read-only disk between others, one of them exempt, and a device. -/
def sealedGuest : Definition := { Definition.guest [] with
  disks := [⟨⟨"/disk.img"⟩, none, false, false⟩, ⟨⟨"/spare.img"⟩, none, false, true⟩,
    ⟨⟨"/base.img"⟩, none, true, false⟩]
  devices := [⟨⟨"/dev/kvm"⟩⟩] }

/-- Both fail at the read-only disk. After that the device is restored, but it is not labelled. -/
theorem attempted_sealedGuest :
    (sealedHost.restoreAll 0 sealedGuest).1 = .error (.permissionDenied "/base.img") ∧
    (sealedHost.restoreAll 0 sealedGuest).2.callsOf 0 = [
      sealedDriver.call 0 (.operation (.restoreImage ⟨⟨"/disk.img"⟩, none, false, false⟩)),
      sealedDriver.call 0 (.operation (.restoreImage ⟨⟨"/base.img"⟩, none, true, false⟩)),
      sealedDriver.call 0 (.operation (.restoreDevice ⟨⟨"/dev/kvm"⟩⟩ none))] ∧
    (sealedHost.setAll 0 sealedGuest none).1 = .error (.permissionDenied "/base.img") ∧
    (sealedHost.setAll 0 sealedGuest none).2.callsOf 0 = [
      sealedDriver.call 0 (.operation (.setImage ⟨⟨"/disk.img"⟩, none, false, false⟩)),
      sealedDriver.call 0 (.operation (.setImage ⟨⟨"/base.img"⟩, none, true, false⟩))] := by
  have hends : (sealedHost.tree 0).Ends := .leaf 0
  have hm : sealedHost.manager? 0 = some ⟨sealedDriver, "qemu", {}, .none⟩ := rfl
  obtain ⟨⟨as, u, hrestore, hattempts, hops⟩, -, hcalls⟩ :=
    resources_attempted_in_order hm sealedGuest none
  refine ⟨rfl, ?_, rfl, rfl⟩
  have hmap : (as.map fun a => sealedDriver.call 0 (.operation a.op)) =
      (as.map (·.op)).map fun op => sealedDriver.call 0 (.operation op) := by simp
  rw [hrestore, hcalls hends as u hattempts, hmap, hops]
  rfl

end Engine

end Confinement

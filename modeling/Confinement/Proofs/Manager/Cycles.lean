import Mathlib.Data.List.Perm.Subperm
import Mathlib.Logic.Relation
import Confinement.Proofs.Manager.Requests

/-!
# Cycles of managers

A request goes down from a manager to its members, to their members and so on. If no manager leads
back to itself, that comes to an end: there are no more managers on the way than there are at all.
The tree below a manager is then its members' trees and no depth shows in it.
-/

namespace Confinement

open Relation (TransGen ReflTransGen)

/-! ### Cycles of a relation -/

section Relations

variable {α : Type} {r r' : α → α → Prop}

/-- A cycle runs only through what something leads to. -/
theorem transGen_self_of_entered (h : ∀ a b c, r a b → r b c → r' b c) {x : α}
    (hx : TransGen r x x) : TransGen r' x x := by
  have hpath : ∀ {b y}, TransGen r b y → (∃ a, r a b) → TransGen r' b y := by
    intro b y hby
    induction hby using TransGen.head_induction_on with
    | single hlast =>
      rintro ⟨a, ha⟩
      exact .single (h a _ _ ha hlast)
    | @head b c hfirst hrest ih =>
      rintro ⟨a, ha⟩
      exact .head (h a b c ha hfirst) (ih ⟨b, hfirst⟩)
  obtain ⟨a, -, ha⟩ := TransGen.tail'_iff.mp hx
  exact hpath hx ⟨a, ha⟩

/-- A path over one new edge goes to its start and on from its end. -/
theorem transGen_insert {a b : α} (h : ∀ x y, r' x y → r x y ∨ x = a ∧ y = b) {x y : α}
    (hxy : TransGen r' x y) : TransGen r x y ∨ ReflTransGen r x a ∧ ReflTransGen r b y := by
  induction hxy with
  | single hedge =>
    rcases h _ _ hedge with hold | ⟨rfl, rfl⟩
    · exact .inl (.single hold)
    · exact .inr ⟨.refl, .refl⟩
  | tail _ hedge ih =>
    rcases h _ _ hedge with hold | ⟨rfl, rfl⟩
    · rcases ih with hpath | ⟨hto, hfrom⟩
      · exact .inl (hpath.tail hold)
      · exact .inr ⟨hto, hfrom.tail hold⟩
    · rcases ih with hpath | ⟨hto, -⟩
      · exact .inr ⟨hpath.to_reflTransGen, .refl⟩
      · exact .inr ⟨hto, .refl⟩

end Relations

/-! ### Who leads to whom -/

namespace Engine

def IsOpen (s : Engine) (id : ManagerId) : Prop := ∃ m, s.manager? id = some m

def Nests (s : Engine) (a b : ManagerId) : Prop :=
  ∃ m, s.manager? a = some m ∧ b ∈ m.state.members

/-- No manager is reached from itself by going on to members. -/
def Acyclic (s : Engine) : Prop := ∀ id, ¬TransGen s.Nests id id

/-- Handles and members are open managers. -/
structure Sound (s : Engine) : Prop where
  held : ∀ id ∈ s.held, s.IsOpen id
  members : ∀ a b, s.Nests a b → s.IsOpen b

end Engine

/-! ### Trees that end -/

/-- The tree has an end on every way down. -/
inductive Tree.Ends : Tree → Prop
  | leaf (id : ManagerId) : Ends (.leaf id)
  | stack (id : ManagerId) {members : List Tree} (below : ∀ t ∈ members, t.Ends) :
      Ends (.stack id members)

namespace Engine

variable {s : Engine} {id : ManagerId} {m : Manager}

/-- A tree that ends is the same tree at any greater depth. -/
theorem treeWithin_succ_of_ends {depth : Nat} {n : ManagerId} (h : (s.treeWithin depth n).Ends) :
    s.treeWithin (depth + 1) n = s.treeWithin depth n := by
  induction depth generalizing n with
  | zero => cases h
  | succ depth ih =>
    rw [treeWithin] at h ⊢
    rw [treeWithin]
    cases hm : (s.manager? n).bind (·.members?) with
    | none => rfl
    | some members =>
      rw [hm] at h
      have hmembers : members.map (s.treeWithin (depth + 1)) =
          members.map (s.treeWithin depth) := by
        refine List.map_congr_left fun k hk => ?_
        cases h with
        | stack _ below => exact ih (below _ (List.mem_map_of_mem hk))
      simp only [hmembers]

/-- A tree that ends is made of the trees of the members, which end too. -/
theorem tree_of_ends {ns : List ManagerId} (h : (s.tree id).Ends) (hm : s.manager? id = some m)
    (hmem : m.members? = some ns) :
    s.tree id = .stack id (ns.map s.tree) ∧ ∀ n ∈ ns, (s.tree n).Ends := by
  have hlt := lt_length_of_manager? hm
  unfold tree at h ⊢
  cases hd : s.managers.length with
  | zero => exact absurd (hd ▸ hlt) (Nat.not_lt_zero id)
  | succ depth =>
    rw [hd, treeWithin, hm, Option.bind_some, hmem] at h
    cases h with
    | stack _ below =>
      have hsame : ∀ n ∈ ns, s.treeWithin (depth + 1) n = s.treeWithin depth n := fun n hn =>
        treeWithin_succ_of_ends (below _ (List.mem_map_of_mem hn))
      refine ⟨?_, fun n hn => ?_⟩
      · rw [treeWithin, hm, Option.bind_some, hmem]
        exact congrArg (Tree.stack id) (List.map_congr_left fun n hn => (hsame n hn).symm)
      · rw [hsame n hn]
        exact below _ (List.mem_map_of_mem hn)

theorem nests_of_members? {ns : List ManagerId} {n : ManagerId} (hm : s.manager? id = some m)
    (hmem : m.members? = some ns) (hn : n ∈ ns) : s.Nests id n := by
  refine ⟨m, hm, ?_⟩
  rw [Manager.state_of_members? hmem]
  exact hn

/-- There are no more managers than there are numbers for them. -/
theorem length_le_of_nodup {ids : List ManagerId} (h : ids.Nodup)
    (hopen : ∀ n ∈ ids, s.IsOpen n) : ids.length ≤ s.managers.length := by
  have hsub : ids ⊆ List.range s.managers.length := by
    intro n hn
    obtain ⟨m, hm⟩ := hopen n hn
    exact List.mem_range.mpr (lt_length_of_manager? hm)
  simpa using (List.subperm_of_subset h hsub).length_le

/-- On the way down no manager is met twice, so the depth suffices for those not met yet. -/
theorem treeWithin_ends (hs : s.Sound) (ha : s.Acyclic) (depth : Nat) {path : List ManagerId}
    (hlen : path.length + depth = s.managers.length) (hnodup : path.Nodup)
    (hpath : ∀ p ∈ path, s.IsOpen p ∧ TransGen s.Nests p id) (hid : s.IsOpen id) :
    (s.treeWithin depth id).Ends := by
  induction depth generalizing id path with
  | zero =>
    have hnew : id ∉ path := fun hmem => ha id (hpath id hmem).2
    have hle := length_le_of_nodup (List.nodup_cons.mpr ⟨hnew, hnodup⟩)
      (List.forall_mem_cons.mpr ⟨hid, fun p hp => (hpath p hp).1⟩)
    rw [List.length_cons] at hle
    omega
  | succ depth ih =>
    obtain ⟨m, hm⟩ := hid
    rw [treeWithin, hm, Option.bind_some]
    cases hmem : m.members? with
    | none => exact .leaf id
    | some ns =>
      refine .stack id fun t ht => ?_
      obtain ⟨n, hn, rfl⟩ := List.mem_map.mp ht
      have hedge := nests_of_members? hm hmem hn
      have hnew : id ∉ path := fun hmem => ha id (hpath id hmem).2
      have hlonger : (id :: path).length + depth = s.managers.length := by
        rw [List.length_cons]
        omega
      refine ih hlonger (List.nodup_cons.mpr ⟨hnew, hnodup⟩) ?_ (hs.members id n hedge)
      refine List.forall_mem_cons.mpr ⟨⟨⟨m, hm⟩, .single hedge⟩, fun p hp => ?_⟩
      exact ⟨(hpath p hp).1, (hpath p hp).2.tail hedge⟩

/-- Without cycles every request comes to an end. -/
theorem tree_ends (hs : s.Sound) (ha : s.Acyclic) (hid : s.IsOpen id) : (s.tree id).Ends := by
  have hnone : ∀ p ∈ ([] : List ManagerId), s.IsOpen p ∧ TransGen s.Nests p id := by simp
  exact treeWithin_ends hs ha s.managers.length (by simp) List.nodup_nil hnone hid

end Engine

end Confinement

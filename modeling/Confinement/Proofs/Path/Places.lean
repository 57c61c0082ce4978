import Mathlib.Data.List.Infix
import Confinement.Host.FileTree
import Confinement.Proofs.Path.Components

/-!
# Where components lead

Components lead from a directory into it and out of it. They climb if some beginning of them has
more steps to the parent than names. If they do not climb they lead from every directory to the same
place below it. If they do they leave every directory but the root, which is its own parent.
-/

namespace Confinement

namespace Path

namespace Component

/-- Where a component leads from a location. There is nothing above the root. -/
def enter (here : Location) : Component → Location
  | root => []
  | .here => here
  | parent => here.dropLast
  | name s => here ++ [s]

def isName : Component → Bool
  | name _ => true
  | _ => false

end Component

/-- Where components lead from a location, one after the other. -/
def follow (here : Location) (cs : List Component) : Location := cs.foldl Component.enter here

def names (cs : List Component) : Nat := cs.countP Component.isName

def parents (cs : List Component) : Nat := cs.count .parent

/-- There are more steps to the parent than names. -/
def Ascends (cs : List Component) : Prop := names cs < parents cs

/-- Some beginning ascends, whatever follows on it. -/
def Climbs (cs : List Component) : Prop := ∃ begun, begun <+: cs ∧ Ascends begun

/-- On the way from `top` along the components no location is outside of `top`. -/
def StaysUnder (top : Location) (cs : List Component) : Prop :=
  ∀ begun, begun <+: cs → top <+: follow top begun

instance : DecidablePred Ascends := fun cs => inferInstanceAs (Decidable (names cs < parents cs))

instance : DecidablePred Climbs := fun cs =>
  decidable_of_iff (∃ begun ∈ cs.inits, Ascends begun) (by simp only [List.mem_inits, Climbs])

instance (top : Location) : DecidablePred (StaysUnder top) := fun cs =>
  decidable_of_iff (∀ begun ∈ cs.inits, top <+: follow top begun)
    (by simp only [List.mem_inits, StaysUnder])

variable {cs : List Component} {c : Component} {top : Location}

@[simp] theorem follow_nil (here : Location) : follow here [] = here := rfl

@[simp] theorem follow_concat (here : Location) (cs : List Component) (c : Component) :
    follow here (cs ++ [c]) = c.enter (follow here cs) := by
  simp [follow]

theorem follow_append (here : Location) (cs ds : List Component) :
    follow here (cs ++ ds) = follow (follow here cs) ds := by
  simp [follow]

@[simp] theorem names_concat (cs : List Component) (c : Component) :
    names (cs ++ [c]) = names cs + if c.isName then 1 else 0 := by
  simp [names, List.countP_singleton]

@[simp] theorem parents_concat (cs : List Component) (c : Component) :
    parents (cs ++ [c]) = parents cs + if c = .parent then 1 else 0 := by
  simp [parents, List.count_singleton]

/-- A path means the location that its components lead to. -/
theorem direct_eq_follow (here : Location) (p : Path) :
    Location.direct here p = follow here p.components := by
  have hlead : follow here p.lead = if p.isAbsolute then [] else here := by
    unfold lead
    split
    · rfl
    · split <;> rfl
  rw [components_eq, follow_append, hlead, follow, steps, List.foldl_filterMap, Location.direct]
  congr 1
  funext l s
  by_cases hidle : isIdle s = true
  · simp [hidle, ofSegment?_of_isIdle hidle]
  · have hsegment := hidle
    simp only [isIdle, Bool.or_eq_true, decide_eq_true_eq, not_or] at hsegment
    by_cases hparent : s = ".."
    · subst hparent
      simp [isIdle, Component.ofSegment?, Component.enter]
    · simp [hidle, hparent, hsegment, Component.ofSegment?, Component.enter]

/-! ### Components that climb -/

theorem not_climbs_nil : ¬Climbs [] := by decide

theorem Climbs.of_prefix {ds : List Component} (h : Climbs cs) (hcs : cs <+: ds) : Climbs ds := by
  obtain ⟨begun, hbegun, hup⟩ := h
  exact ⟨begun, hbegun.trans hcs, hup⟩

theorem climbs_concat_iff : Climbs (cs ++ [c]) ↔ Climbs cs ∨ Ascends (cs ++ [c]) := by
  constructor
  · rintro ⟨begun, hbegun, hup⟩
    rcases List.prefix_concat_iff.mp hbegun with rfl | hbegun
    · exact .inr hup
    · exact .inl ⟨begun, hbegun, hup⟩
  · rintro (hclimbs | hup)
    · exact hclimbs.of_prefix (List.prefix_append cs [c])
    · exact ⟨cs ++ [c], List.prefix_rfl, hup⟩

theorem root_not_mem_of_concat (hroot : .root ∉ cs ++ [c]) : .root ∉ cs := fun hmem =>
  hroot (List.mem_append_left [c] hmem)

/-- Without climbing, the location is as deep below the start as there are more names than steps to
the parent. -/
theorem length_follow_of_not_climbs (hroot : .root ∉ cs) (h : ¬Climbs cs) :
    (follow [] cs).length + parents cs = names cs := by
  induction cs using List.reverseRecOn with
  | nil => rfl
  | append_singleton cs c ih =>
    obtain ⟨hbefore, hlast⟩ := not_or.mp fun hor => h (climbs_concat_iff.mpr hor)
    have hdepth := ih (root_not_mem_of_concat hroot) hbefore
    rw [Ascends, names_concat, parents_concat] at hlast
    rw [follow_concat, names_concat, parents_concat]
    cases c with
    | root => simp at hroot
    | here => simpa [Component.enter, Component.isName] using hdepth
    | parent =>
      simp only [Component.enter, Component.isName, List.length_dropLast] at hlast ⊢
      simp only [Bool.false_eq_true, if_false, if_true] at hlast ⊢
      omega
    | name s =>
      simp only [Component.enter, Component.isName, List.length_append, List.length_singleton,
        reduceCtorEq, if_true, if_false]
      omega

/-- Without climbing, the way leads to the same place below every directory. -/
theorem follow_of_not_climbs (hroot : .root ∉ cs) (h : ¬Climbs cs) (top : Location) :
    follow top cs = top ++ follow [] cs := by
  induction cs using List.reverseRecOn with
  | nil => simp
  | append_singleton cs c ih =>
    obtain ⟨hbefore, hlast⟩ := not_or.mp fun hor => h (climbs_concat_iff.mpr hor)
    have hcs := root_not_mem_of_concat hroot
    rw [follow_concat, follow_concat, ih hcs hbefore]
    cases c with
    | root => simp at hroot
    | here => rfl
    | name s => exact List.append_assoc ..
    | parent =>
      have hinside : follow [] cs ≠ [] := by
        intro hnil
        have hdepth := length_follow_of_not_climbs hcs hbefore
        rw [hnil, List.length_nil] at hdepth
        apply hlast
        simp [Ascends, Component.isName]
        omega
      exact List.dropLast_append_of_ne_nil hinside

/-- The first component that climbs is a step to the parent, and it is made at the start. -/
theorem eq_parent_of_climbs (hroot : .root ∉ cs ++ [c]) (h : Climbs (cs ++ [c]))
    (hbefore : ¬Climbs cs) : c = .parent ∧ follow [] cs = [] := by
  have hlast := (climbs_concat_iff.mp h).resolve_left hbefore
  have hdepth := length_follow_of_not_climbs (root_not_mem_of_concat hroot) hbefore
  rw [Ascends, names_concat, parents_concat] at hlast
  by_cases hc : c = .parent
  · rw [if_pos hc] at hlast
    exact ⟨hc, List.length_eq_zero_iff.mp (by omega)⟩
  · rw [if_neg hc] at hlast
    omega

/-- Who climbs leaves every directory but the root. -/
theorem not_staysUnder_of_climbs (hroot : .root ∉ cs) (h : Climbs cs) (htop : top ≠ []) :
    ¬StaysUnder top cs := by
  induction cs using List.reverseRecOn with
  | nil => exact absurd h not_climbs_nil
  | append_singleton cs c ih =>
    intro hstays
    have hcs := root_not_mem_of_concat hroot
    by_cases hbefore : Climbs cs
    · exact ih hcs hbefore fun begun hbegun =>
        hstays begun (hbegun.trans (List.prefix_append cs [c]))
    · obtain ⟨rfl, hstart⟩ := eq_parent_of_climbs hroot h hbefore
      have hout := (hstays _ List.prefix_rfl).length_le
      rw [follow_concat, follow_of_not_climbs hcs hbefore, hstart, List.append_nil,
        Component.enter, List.length_dropLast] at hout
      have hpositive := List.length_pos_of_ne_nil htop
      omega

/-- A way that climbs ends less deep than `top` and what it comes to below the root together: the
step that leaves `top` leads nowhere from the root. -/
theorem length_follow_of_climbs (hroot : .root ∉ cs) (h : Climbs cs) (htop : top ≠ []) :
    (follow top cs).length < top.length + (follow [] cs).length := by
  have hpositive : 0 < top.length := List.length_pos_of_ne_nil htop
  induction cs using List.reverseRecOn with
  | nil => exact absurd h not_climbs_nil
  | append_singleton cs c ih =>
    rw [follow_concat, follow_concat]
    have hcs := root_not_mem_of_concat hroot
    by_cases hbefore : Climbs cs
    · have hless := ih hcs hbefore
      cases c with
      | root => simp at hroot
      | here => exact hless
      | parent =>
        rw [Component.enter, Component.enter, List.length_dropLast, List.length_dropLast]
        omega
      | name s =>
        rw [Component.enter, Component.enter, List.length_append, List.length_append]
        omega
    · obtain ⟨rfl, hstart⟩ := eq_parent_of_climbs hroot h hbefore
      rw [follow_of_not_climbs hcs hbefore, hstart, List.append_nil, Component.enter,
        Component.enter, List.length_dropLast]
      omega

theorem staysUnder_iff (hroot : .root ∉ cs) : StaysUnder top cs ↔ top = [] ∨ ¬Climbs cs := by
  constructor
  · intro hstays
    by_contra hneither
    obtain ⟨htop, hclimbs⟩ := not_or.mp hneither
    exact not_staysUnder_of_climbs hroot (not_not.mp hclimbs) htop hstays
  · rintro (rfl | hclimbs) begun hbegun
    · exact List.nil_prefix
    · have hstill : ¬Climbs begun := fun hc => hclimbs (hc.of_prefix hbegun)
      rw [follow_of_not_climbs (fun hmem => hroot (hbegun.subset hmem)) hstill]
      exact List.prefix_append top _

/-- The way leads to the same place below `top` as below the root if it does not climb, or if `top`
is the root. -/
theorem follow_eq_append_iff (hroot : .root ∉ cs) :
    follow top cs = top ++ follow [] cs ↔ top = [] ∨ ¬Climbs cs := by
  constructor
  · intro hsame
    by_contra hneither
    obtain ⟨htop, hclimbs⟩ := not_or.mp hneither
    have hless := length_follow_of_climbs hroot (not_not.mp hclimbs) htop
    rw [hsame, List.length_append] at hless
    exact lt_irrefl _ hless
  · rintro (rfl | hclimbs)
    · rfl
    · exact follow_of_not_climbs hroot hclimbs top

end Path

end Confinement

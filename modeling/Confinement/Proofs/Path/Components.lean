import Mathlib.Data.List.DropRight
import Confinement.Path
import Confinement.Proofs.Text.Split

/-!
# The components of paths that are put together

The components of a path are those of its pieces between slashes, behind the root or a leading dot.
A path that is seen from another one has the components of both, and a path without its root has all
components but the root.
-/

namespace Confinement.Path

variable {p q : Path}

/-- The components that the pieces between slashes make. -/
def steps (p : Path) : List Component := p.segments.filterMap Component.ofSegment?

/-- What comes before them: the root, or the dot at the front of a relative path. -/
def lead (p : Path) : List Component :=
  if p.isAbsolute then [.root]
  else if p.segments.head? = some "." then [.here] else []

theorem segments_ne_nil (p : Path) : p.segments ≠ [] := by
  simp [segments, Text.split_ne_nil]

theorem head?_segments_of_isAbsolute (h : p.isAbsolute = true) : p.segments.head? = some "" := by
  obtain ⟨rest, hrest⟩ := List.head?_eq_some_iff.mp (beq_iff_eq.mp h)
  simp [segments, hrest, Text.split]

theorem components_eq (p : Path) : p.components = p.lead ++ p.steps := by
  unfold components lead steps
  cases hs : p.segments with
  | nil => exact absurd hs p.segments_ne_nil
  | cons first rest =>
    by_cases habs : p.isAbsolute = true
    · have hfirst := head?_segments_of_isAbsolute habs
      rw [hs, List.head?_cons, Option.some.injEq] at hfirst
      have hnone : Component.ofSegment? first = none := by rw [hfirst]; rfl
      simp [habs, hnone]
    · by_cases hdot : first = "."
      · subst hdot
        have hnone : Component.ofSegment? "." = none := rfl
        simp [habs, hnone]
      · cases hc : Component.ofSegment? first <;> simp [habs, hdot, hc]

/-! ### Paths with a slash inside -/

theorem segments_slash_append (s t : String) :
    (Path.mk (s ++ "/" ++ t)).segments = (Path.mk s).segments ++ (Path.mk t).segments := by
  simp [segments, Text.split_append]

theorem steps_slash_append (s t : String) :
    (Path.mk (s ++ "/" ++ t)).steps = (Path.mk s).steps ++ (Path.mk t).steps := by
  rw [steps, segments_slash_append, List.filterMap_append]
  rfl

theorem steps_empty : (Path.mk "").steps = [] := rfl

/-- The first segment ends at the first slash. -/
theorem head?_segments_slash_append (s t : String) :
    (Path.mk (s ++ "/" ++ t)).segments.head? = (Path.mk s).segments.head? := by
  rw [segments_slash_append]
  cases hs : (Path.mk s).segments with
  | nil => exact absurd hs (segments_ne_nil _)
  | cons first rest => rfl

theorem head?_segments_slash (s : String) :
    (Path.mk (s ++ "/")).segments.head? = (Path.mk s).segments.head? := by
  have hfirst := head?_segments_slash_append s ""
  rwa [String.append_empty] at hfirst

/-- What follows on a slash is not at the front. -/
theorem lead_slash_append (s t : String) :
    (Path.mk (s ++ "/" ++ t)).lead = (Path.mk (s ++ "/")).lead := by
  have habs : (Path.mk (s ++ "/" ++ t)).isAbsolute = (Path.mk (s ++ "/")).isAbsolute := by
    cases hs : s.toList <;> simp [isAbsolute, hs]
  rw [lead, lead, habs, head?_segments_slash_append, head?_segments_slash]

/-- A slash at the end makes no component. -/
theorem steps_slash (s : String) : (Path.mk (s ++ "/")).steps = (Path.mk s).steps := by
  have hsteps := steps_slash_append s ""
  rwa [String.append_empty, steps_empty, List.append_nil] at hsteps

theorem components_slash_append (s t : String) :
    (Path.mk (s ++ "/" ++ t)).components =
      (Path.mk (s ++ "/")).components ++ (Path.mk t).steps := by
  rw [components_eq, components_eq, lead_slash_append, steps_slash_append, steps_slash,
    List.append_assoc]

theorem components_slash {s : String} (hs : s ≠ "") :
    (Path.mk (s ++ "/")).components = (Path.mk s).components := by
  have habs : (Path.mk (s ++ "/")).isAbsolute = (Path.mk s).isAbsolute := by
    cases hl : s.toList with
    | nil => exact absurd (String.toList_eq_nil_iff.mp hl) hs
    | cons c rest => simp [isAbsolute, hl]
  have hlead : (Path.mk (s ++ "/")).lead = (Path.mk s).lead := by
    rw [lead, lead, habs, head?_segments_slash]
  rw [components_eq, components_eq, hlead, steps_slash]

theorem isAbsolute_of_lead (h : q.lead = []) : q.isAbsolute = false := by
  cases habs : q.isAbsolute with
  | false => rfl
  | true => simp [lead, habs] at h

theorem components_of_lead (h : q.lead = []) : q.components = q.steps := by
  rw [components_eq, h, List.nil_append]

/-- A path that is neither absolute nor begins with a dot is seen from any path below it. -/
theorem components_join (p : Path) (hq : q.lead = []) :
    (p.join q).components = p.components ++ q.components := by
  have hrelative := isAbsolute_of_lead hq
  obtain ⟨s⟩ := p
  obtain ⟨t⟩ := q
  rw [components_of_lead hq]
  unfold join
  simp only [hrelative, Bool.false_eq_true, if_false]
  by_cases hs : s = ""
  · subst hs
    rw [if_pos (.inl rfl), String.empty_append, components_of_lead hq]
    rfl
  · by_cases hend : s.toList.getLast? = some '/'
    · obtain ⟨front, hfront⟩ := List.getLast?_eq_some_iff.mp hend
      obtain rfl : s = String.ofList front ++ "/" := by
        rw [← String.toList_inj, hfront]
        simp
      rw [if_pos (.inr hend), components_slash_append]
    · rw [if_neg (not_or.mpr ⟨hs, hend⟩), components_slash_append, components_slash hs]

/-! ### Paths made of segments -/

/-- A text between two slashes that makes a name. -/
structure IsFileName (s : String) : Prop where
  no_slash : '/' ∉ s.toList
  ne_empty : s ≠ ""
  ne_here : s ≠ "."
  ne_parent : s ≠ ".."

theorem IsFileName.ofSegment? {s : String} (h : IsFileName s) :
    Component.ofSegment? s = some (.name s) := by
  simp [Component.ofSegment?, h.ne_empty, h.ne_here, h.ne_parent]

theorem not_mem_of_mem_segments {s : String} (h : s ∈ p.segments) : '/' ∉ s.toList := by
  obtain ⟨piece, hpiece, rfl⟩ := List.mem_map.mp h
  rw [String.toList_ofList]
  exact Text.not_mem_of_mem_split hpiece

theorem segments_ofSegments {l : List String} (hne : l ≠ []) (h : ∀ s ∈ l, '/' ∉ s.toList) :
    (ofSegments l).segments = l := by
  have hpieces : ∀ piece ∈ l.map String.toList, '/' ∉ piece := by
    intro piece hpiece
    obtain ⟨s, hs, rfl⟩ := List.mem_map.mp hpiece
    exact h s hs
  have hsplit := Text.split_intercalate (List.map_eq_nil_iff.not.mpr hne) hpieces
  have htext : (ofSegments l).text.toList = ['/'].intercalate (l.map String.toList) :=
    String.toList_intercalate
  rw [segments, htext, hsplit]
  simp [Function.comp_def]

theorem steps_ofSegments {l : List String} (h : ∀ s ∈ l, '/' ∉ s.toList) :
    (ofSegments l).steps = l.filterMap Component.ofSegment? := by
  cases l with
  | nil => rfl
  | cons first rest => rw [steps, segments_ofSegments (List.cons_ne_nil first rest) h]

theorem lead_ofSegments {l : List String} (h : ∀ s ∈ l, '/' ∉ s.toList)
    (hfirst : ∀ s, l.head? = some s → isIdle s = false) : (ofSegments l).lead = [] := by
  cases l with
  | nil => rfl
  | cons first rest =>
    have hidle := hfirst first rfl
    simp only [isIdle, Bool.or_eq_false_iff, decide_eq_false_iff_not] at hidle
    have hsegments := segments_ofSegments (List.cons_ne_nil first rest) h
    have habs : (ofSegments (first :: rest)).isAbsolute = false := by
      rw [Bool.eq_false_iff]
      intro habs
      have hhead := head?_segments_of_isAbsolute habs
      rw [hsegments, List.head?_cons, Option.some.injEq] at hhead
      exact hidle.1 hhead
    simp [lead, habs, hsegments, hidle.2]

/-- The file of a name in a directory has the components of the directory and then that name. -/
theorem components_join_fileName {s : String} (h : IsFileName s) (p : Path) :
    (p.join ⟨s⟩).components = p.components ++ [.name s] := by
  have hslash : ∀ t ∈ [s], '/' ∉ t.toList := by
    intro t ht
    rw [List.mem_singleton.mp ht]
    exact h.no_slash
  have hsegment : Path.mk s = ofSegments [s] := by simp [ofSegments]
  have hlead : (Path.mk s).lead = [] := by
    rw [hsegment]
    refine lead_ofSegments hslash fun t ht => ?_
    obtain rfl := Option.some.inj ht
    simp [isIdle, h.ne_empty, h.ne_here]
  have hsteps : (Path.mk s).steps = [.name s] := by
    rw [hsegment, steps_ofSegments hslash, List.filterMap_cons_some h.ofSegment?]
    rfl
  rw [components_join p hlead, components_of_lead hlead, hsteps]

/-! ### Paths without their root -/

theorem ofSegment?_of_isIdle {s : String} (h : isIdle s = true) :
    Component.ofSegment? s = none := by
  simp only [isIdle, Bool.or_eq_true, decide_eq_true_eq] at h
  rcases h with rfl | rfl <;> rfl

theorem filterMap_dropWhile_isIdle (l : List String) :
    (l.dropWhile isIdle).filterMap Component.ofSegment? = l.filterMap Component.ofSegment? := by
  induction l with
  | nil => rfl
  | cons s rest ih =>
    by_cases hs : isIdle s = true
    · rw [List.dropWhile_cons_of_pos hs, ih, List.filterMap_cons_none (ofSegment?_of_isIdle hs)]
    · rw [List.dropWhile_cons_of_neg hs]

/-- The segments of a path from the first to the last that makes a component. -/
def kept (p : Path) : List String := (p.segments.dropWhile isIdle).rdropWhile isIdle

theorem fromRoot_eq (p : Path) : p.fromRoot = ofSegments p.kept := rfl

theorem kept_prefix (p : Path) : p.kept <+: p.segments.dropWhile isIdle :=
  List.rdropWhile_prefix isIdle _

theorem not_mem_of_mem_kept {s : String} (h : s ∈ p.kept) : '/' ∉ s.toList :=
  not_mem_of_mem_segments ((List.dropWhile_sublist isIdle).subset (p.kept_prefix.subset h))

theorem isIdle_of_head?_kept {s : String} (h : p.kept.head? = some s) : isIdle s = false := by
  obtain ⟨rest, hrest⟩ := List.head?_eq_some_iff.mp h
  obtain ⟨behind, hbehind⟩ := p.kept_prefix
  have hfirst := List.head?_dropWhile_not isIdle p.segments
  rw [← hbehind, hrest] at hfirst
  exact hfirst

theorem filterMap_kept (p : Path) : p.kept.filterMap Component.ofSegment? = p.steps := by
  rw [kept, List.rdropWhile, List.filterMap_reverse, filterMap_dropWhile_isIdle,
    ← List.filterMap_reverse, List.reverse_reverse, filterMap_dropWhile_isIdle]
  rfl

/-- Without its root a path is relative and does not begin with a dot. -/
theorem lead_fromRoot (p : Path) : p.fromRoot.lead = [] :=
  lead_ofSegments (fun _ => not_mem_of_mem_kept) fun _ => isIdle_of_head?_kept

theorem components_fromRoot (p : Path) : p.fromRoot.components = p.steps := by
  rw [components_of_lead p.lead_fromRoot, fromRoot_eq,
    steps_ofSegments fun _ => not_mem_of_mem_kept, filterMap_kept]

theorem root_not_mem_steps (p : Path) : .root ∉ p.steps := by
  intro h
  obtain ⟨s, -, hs⟩ := List.mem_filterMap.mp h
  unfold Component.ofSegment? at hs
  split_ifs at hs
  · cases hs
  · cases hs

theorem components_of_isAbsolute (h : p.isAbsolute = true) : p.components = .root :: p.steps := by
  rw [components_eq, lead, if_pos h]
  rfl

end Confinement.Path

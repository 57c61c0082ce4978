import Confinement.Selinux.Labels

/-!
# Outcomes of labelling by context

All that completing a domain's entry can come to when it succeeds, one case for each type of entry,
and all that releasing its label can come to. What sets the contexts of processes, sockets and
resources works on the host alone, and does nothing about a domain that is not confined.
-/

namespace Confinement.Selinux

/-- The level that is reserved next is a free one. -/
theorem Levels.reserveNext_eq_ok {levels levels' : Levels} {level : String}
    (h : levels.reserveNext = .ok (level, levels')) :
    level ∉ levels ∧ levels' = levels.insert level := by
  unfold reserveNext at h
  cases hfree : levels.firstFree with
  | none =>
    rw [hfree] at h
    cases h
  | some l =>
    rw [hfree] at h
    obtain ⟨rfl, rfl⟩ := Prod.mk.inj (Except.ok.inj h)
    exact ⟨not_mem_of_firstFree hfree, rfl⟩

/-- Completing the entry of the model has succeeded with this state and definition. -/
inductive Completed (s : Scene) : DriverState → Definition → Prop
  | missing (found : s.findEntry model = none) : Completed s s.state s.definition
  | unconfined {e : LabelEntry} (found : s.findEntry model = some e) (type : e.type = .unconfined) :
      Completed s s.state s.definition
  /-- The image label of a static entry follows its label, if it has none. -/
  | static {e : LabelEntry} {label : String} {c : Context} (found : s.findEntry model = some e)
      (type : e.type = .static) (labelled : e.label = some label)
      (parsed : Context.parse label = .ok c) :
      Completed s s.state (s.definition.editEntry model fun e =>
        { e with imageLabel := e.imageLabel.or (some (imageLabel c.level)) })
  /-- A dynamic entry without a label takes a level. -/
  | dynamic {e : LabelEntry} {base : Context} {levels : Levels} {level : String}
      (found : s.findEntry model = some e) (type : e.type = .dynamic) (unlabelled : e.label = none)
      (based : baseContext e = .ok base) (kept : s.levels = .ok levels) (free : level ∉ levels) :
      Completed s (.selinux (levels.insert level)) (s.definition.editEntry model fun e =>
        { e with
          label := some (base.withLevel (some level)).text
          imageLabel := some (imageLabel (some level)) })

theorem completed_of_generate {s : Scene} {state : DriverState} {d : Definition}
    (h : generate s = .ok (state, d)) : Completed s state d := by
  unfold generate at h
  cases hf : s.findEntry model with
  | none =>
    rw [hf] at h
    cases h
    exact .missing hf
  | some e =>
    rw [hf] at h
    dsimp only at h
    cases ht : e.type with
    | undecided =>
      rw [ht] at h
      cases h
    | unconfined =>
      rw [ht] at h
      cases h
      exact .unconfined hf ht
    | static =>
      rw [ht] at h
      cases hl : e.label with
      | none =>
        rw [hl] at h
        cases h
      | some label =>
        rw [hl] at h
        obtain ⟨c, hparse, hc⟩ := bind_eq_ok_iff.mp h
        cases hc
        exact .static hf ht hl hparse
    | dynamic =>
      rw [ht] at h
      cases hl : e.label with
      | some label =>
        rw [hl] at h
        cases h
      | none =>
        rw [hl] at h
        obtain ⟨base, hbase, h⟩ := bind_eq_ok_iff.mp h
        obtain ⟨levels, hlevels, h⟩ := bind_eq_ok_iff.mp h
        obtain ⟨⟨level, levels'⟩, hnext, h⟩ := bind_eq_ok_iff.mp h
        cases h
        obtain ⟨hfree, rfl⟩ := Levels.reserveNext_eq_ok hnext
        exact .dynamic hf ht hl hbase hlevels hfree

/-- To ask for a label completes the entry, or fails and leaves the scene as it was. -/
theorem perform_generate_cases (s : Scene) :
    (∃ e, perform .generate s = (.error e, s)) ∨
    ∃ state d, Completed s state d ∧
      perform .generate s = (.ok (), { s with state, definition := d }) := by
  unfold perform
  dsimp only
  cases h : generate s with
  | error e => exact .inl ⟨e, rfl⟩
  | ok p => exact .inr ⟨p.1, p.2, completed_of_generate h, rfl⟩

/-- All that releasing a label can come to. -/
inductive Released (s : Scene) : Except Error Unit × Scene → Prop
  | missing (found : s.findEntry model = none) : Released s (.ok (), s)
  | fixed {e : LabelEntry} (found : s.findEntry model = some e) (type : e.type ≠ .dynamic) :
      Released s (.ok (), s)
  /-- The level is freed and the labels are gone. -/
  | freed {e : LabelEntry} {label : String} {c : Context} {level : String} {levels : Levels}
      (found : s.findEntry model = some e) (type : e.type = .dynamic)
      (labelled : e.label = some label) (parsed : Context.parse label = .ok c)
      (leveled : c.level = some level) (kept : s.levels = .ok levels) :
      Released s (.ok (), { s with
        state := .selinux (levels.erase level)
        definition := s.definition.editEntry model ({ · with label := none, imageLabel := none }) })
  /-- There is no level to free, and the labels are gone. -/
  | cleared {e : LabelEntry} (found : s.findEntry model = some e) (type : e.type = .dynamic)
      (unleveled : ∀ label c, e.label = some label → Context.parse label = .ok c → c.level = none)
      (legible : ∀ label err, e.label = some label → Context.parse label ≠ .error err) :
      Released s (.ok (), { s with
        definition := s.definition.editEntry model ({ · with label := none, imageLabel := none }) })
  /-- The label cannot be read, or the state holds no levels. The label is gone all the same. -/
  | refused {e : LabelEntry} {label : String} {err : Error}
      (found : s.findEntry model = some e) (type : e.type = .dynamic)
      (labelled : e.label = some label)
      (failed : Context.parse label = .error err ∨ s.levels = .error err) :
      Released s (.error err, { s with
        definition := s.definition.editEntry model ({ · with label := none }) })

theorem released (s : Scene) : Released s (release s) := by
  unfold release
  cases hf : s.findEntry model with
  | none => exact .missing hf
  | some e =>
    dsimp only
    by_cases ht : e.type = .dynamic
    · rw [if_neg (not_not_intro ht)]
      cases hl : e.label with
      | none => exact .cleared hf ht (by simp [hl]) (by simp [hl])
      | some label =>
        dsimp only
        cases hc : Context.parse label with
        | error err => exact .refused hf ht hl (.inl hc)
        | ok c =>
          cases hlevel : c.level with
          | none =>
            simp only [bind, Except.bind, hlevel]
            refine .cleared hf ht ?_ ?_
            · rintro label' c' hl' hc'
              obtain rfl := Option.some.inj (hl.symm.trans hl')
              obtain rfl := Except.ok.inj (hc.symm.trans hc')
              exact hlevel
            · rintro label' err hl' hc'
              obtain rfl := Option.some.inj (hl.symm.trans hl')
              rw [hc] at hc'
              cases hc'
          | some level =>
            simp only [bind, Except.bind, hlevel, freeLevel]
            cases hk : s.levels with
            | error err => exact .refused hf ht hl (.inr hk)
            | ok levels => exact .freed hf ht hl hc hlevel hk
    · rw [if_pos ht]
      exact .fixed hf ht

/-! ### Setting contexts -/

/-- The operation sets the context of a process, a socket or a resource. -/
def setsContext : Operation → Bool
  | .generate => false
  | .release => false
  | .reserve _ => false
  | .verify => false
  | _ => true

theorem withHostFor_eq (s : Scene) {α : Type} (a : Option α)
    (f : α → Host → Except Error Unit × Host) : ∃ g, s.withHostFor a f = s.withHost g := by
  cases a with
  | none => exact ⟨fun h => (.ok (), h), rfl⟩
  | some a => exact ⟨f a, rfl⟩

/-- Neither the levels nor the definition play a part in what becomes of them. -/
theorem perform_of_setsContext {op : Operation} (h : setsContext op = true) (s : Scene) :
    ∃ f, perform op s = s.withHost f := by
  have hdone : ∃ f, s.done = s.withHost f := ⟨fun h => (.ok (), h), rfl⟩
  cases op with
  | generate | release | reserve | verify => cases h
  | setProcess =>
    simp only [perform]
    cases processContext s.definition with
    | error e => exact ⟨fun h => (.error e, h), rfl⟩
    | ok context => exact withHostFor_eq s context _
  | setImage disk | restoreImage disk =>
    simp only [perform]
    split
    · exact hdone
    · exact withHostFor_eq ..
  | setSocket | clearSocket | setDaemonSocket | setOpenTap => exact withHostFor_eq ..
  | setDevice | restoreDevice | setSavedState | restoreSavedState | setOpenImage =>
    exact withHostFor_eq ..

theorem state_perform_of_setsContext {op : Operation} (h : setsContext op = true) (s : Scene) :
    (perform op s).2.state = s.state := by
  obtain ⟨f, hout⟩ := perform_of_setsContext h s
  rw [hout]
  rfl

/-- A domain that is not labelled, nor any of its resources. -/
structure LeavesAlone (d : Definition) : Prop where
  confined : confined? d = none
  relabelled : relabelTarget? d = none

theorem leavesAlone_of_forall {d : Definition}
    (h : ∀ e, d.findEntry model = some e → e.type = .unconfined) : LeavesAlone d := by
  have hnone : confined? d = none := by
    rw [confined?, Option.filter_eq_none_iff]
    simpa using h
  have hkept : (d.findEntry model).filter (·.relabels) = none := by
    rw [Option.filter_eq_none_iff]
    intro e he
    simp [LabelEntry.relabels, h e he]
  exact ⟨hnone, by rw [relabelTarget?, hkept, Option.bind_none]⟩

theorem perform_of_leavesAlone {s : Scene} (h : LeavesAlone s.definition) {op : Operation}
    (hop : setsContext op = true) : perform op s = s.done := by
  have hconfine : ∀ f, confine s f = s.done := fun f => by
    rw [confine, h.confined]
    rfl
  have hrelabel : ∀ f, relabel s f = s.done := fun f => by
    rw [relabel, h.relabelled]
    rfl
  cases op with
  | generate | release | reserve | verify => cases hop
  | setProcess =>
    simp only [perform, processContext, h.confined]
    rfl
  | setImage disk | restoreImage disk => simp only [perform, hrelabel, ite_self]
  | clearSocket =>
    simp only [perform, h.confined]
    rfl
  | setSocket | setDaemonSocket | setOpenTap => exact hconfine _
  | setDevice | restoreDevice | setSavedState | restoreSavedState | setOpenImage =>
    exact hrelabel _

end Confinement.Selinux

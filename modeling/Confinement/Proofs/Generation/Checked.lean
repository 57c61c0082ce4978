import Confinement.Proofs.Generation.Turns

/-!
# Checks after a generation

After a generation that succeeds the check of a nested manager finds an entry that the manager's
driver has filled in, or none at all. Owners and profile names are checked there just as they are
when the labels are filled in. Contexts are not: of a static entry only the label is read then, and
of an unconfined one nothing, but the check reads every text that the entry has.
-/

namespace Confinement

open Selinux (Context)

/-! ### What drivers check -/

namespace LabelEntry

def texts (e : LabelEntry) : List String :=
  e.label.toList ++ e.imageLabel.toList ++ e.baseLabel.toList

/-- Every label of the entry can be read as a context. -/
def Legible (e : LabelEntry) : Prop := ∀ text ∈ e.texts, ∃ c, Context.parse text = .ok c

theorem legible_iff {e : LabelEntry} : e.Legible ↔
    (∀ text, e.label = some text → ∃ c, Context.parse text = .ok c) ∧
    (∀ text, e.imageLabel = some text → ∃ c, Context.parse text = .ok c) ∧
    ∀ text, e.baseLabel = some text → ∃ c, Context.parse text = .ok c := by
  simp only [Legible, texts, List.mem_append, Option.mem_toList, or_imp, forall_and, and_assoc]

end LabelEntry

/-- A check of several things succeeds if the check of each one does. -/
theorem forM_eq_ok_iff {α : Type} {f : α → Except Error Unit} {l : List α} :
    l.forM f = .ok () ↔ ∀ x ∈ l, f x = .ok () := by
  induction l with
  | nil => simp [List.forM, pure, Except.pure]
  | cons x l ih =>
    have hcons : (x :: l).forM f = f x >>= fun _ => l.forM f := rfl
    rw [hcons, bind_eq_ok_iff, List.forall_mem_cons, ih]
    exact ⟨fun ⟨_, hx, hl⟩ => ⟨hx, hl⟩, fun ⟨hx, hl⟩ => ⟨(), hx, hl⟩⟩

namespace Technology

/-- The entries that pass the check of a driver. -/
def Accepts : Technology → LabelEntry → Prop
  | .selinux, e => (e.type = .static → e.label ≠ .none) ∧ e.Legible
  | .apparmor, e => e.type = .static → AppArmor.isProfileName (e.label.getD "") = true
  | .dac, e => e.type = .static → ∃ owner, Ownership.parse (e.label.getD "") = .ok owner
  | _, _ => True

end Technology

section Checks

variable {d : Definition} {e : LabelEntry}

theorem Selinux.verify_eq_ok_iff (hf : d.findEntry model = some e) :
    verify d = .ok () ↔ Technology.selinux.Accepts e := by
  have hlegible : (e.label.toList ++ e.imageLabel.toList ++ e.baseLabel.toList).forM
      (fun label => (Context.parse label).map fun _ => ()) = .ok () ↔ e.Legible := by
    simp only [forM_eq_ok_iff, map_eq_ok_iff, and_true]
    rfl
  simp only [verify, hf, Technology.Accepts]
  split
  · rename_i hmissing
    simp [hmissing.1, hmissing.2]
  · rename_i hmissing
    rw [hlegible]
    exact ⟨fun h => ⟨fun ht hl => hmissing ⟨ht, hl⟩, h⟩, fun h => h.2⟩

theorem AppArmor.verify_eq_ok_iff (hf : d.findEntry model = some e) :
    verify d = .ok () ↔ Technology.apparmor.Accepts e := by
  simp only [verify, hf, Technology.Accepts]
  by_cases ht : e.type = .static <;> by_cases hn : isProfileName (e.label.getD "") = true <;>
    simp [ht, hn]

theorem Dac.verify_eq_ok_iff (hf : d.findEntry model = some e) :
    verify d = .ok () ↔ Technology.dac.Accepts e := by
  simp only [verify, hf, Technology.Accepts]
  by_cases ht : e.type = .static
  · simp [ht, map_eq_ok_iff]
  · simp [ht]

theorem Driver.perform_verify_iff {dr : Driver} (hw : dr ∈ workers) {s : Scene}
    (hf : s.findEntry dr.name = some e) :
    (dr.technology.perform .verify s).1 = .ok () ↔ dr.technology.Accepts e := by
  simp only [workers, List.mem_cons, List.not_mem_nil, or_false] at hw
  rcases hw with rfl | rfl | rfl | rfl
  · exact Selinux.verify_eq_ok_iff hf
  · exact AppArmor.verify_eq_ok_iff hf
  · exact Dac.verify_eq_ok_iff hf
  · exact ⟨fun _ => trivial, fun _ => rfl⟩

/-- The check of a manager reads the first entry of its model, if there is one. -/
theorem Engine.perform_verify_iff {s : Engine} {id : ManagerId} {m : Manager}
    (hm : s.manager? id = some m) (hw : m.driver ∈ Driver.workers) (d : Definition) :
    (s.perform id .verify d).1 = .ok () ↔
      ∀ e, d.findEntry m.driver.name = some e → m.driver.technology.Accepts e := by
  have hedit : (s.perform id .verify d).1 = (edit id .verify ⟨s, d⟩).1 := rfl
  rw [hedit]
  rcases hp : m.driver.technology.perform .verify ⟨m.driver.name, m.state, s.host, d⟩ with ⟨r, out⟩
  obtain ⟨t, hdone, -⟩ := edit_worker hm hw hp
  rw [hdone]
  cases hf : d.findEntry m.driver.name with
  | none =>
    rw [Driver.perform_verify_of_missing (s := ⟨m.driver.name, m.state, s.host, d⟩) hw hf] at hp
    obtain ⟨rfl, -⟩ := Prod.mk.inj hp
    simp
  | some e =>
    have hverify := Driver.perform_verify_iff (s := ⟨m.driver.name, m.state, s.host, d⟩) hw hf
    rw [hp] at hverify
    rw [hverify]
    constructor
    · intro h e' he'
      obtain rfl := Option.some.inj he'
      exact h
    · intro h
      exact h e rfl

end Checks

/-! ### What is filled in passes the check -/

namespace Technology.Fills

variable {t : Technology} {uuid : Uuid} {state state' : DriverState} {e x : LabelEntry}

theorem accepts (h : t.Fills uuid state e state' x) (ht : t ≠ .selinux) : t.Accepts x := by
  cases h with
  | nothing => exact trivial
  | selinuxUnconfined type => exact absurd rfl ht
  | selinuxStatic type labelled parsed => exact absurd rfl ht
  | selinuxDynamic type unlabelled based free => exact absurd rfl ht
  | dacUnconfined type =>
    intro hstatic
    rw [type] at hstatic
    cases hstatic
  | dacStatic type labelled parsed => exact fun _ => ⟨_, parsed⟩
  | dacDynamic type =>
    intro hstatic
    rw [LabelEntry.type_withLabels, type] at hstatic
    cases hstatic
  | apparmorUnconfined type baseless =>
    intro hstatic
    rw [type] at hstatic
    cases hstatic
  | apparmorStatic type baseless named => exact fun _ => named
  | apparmorDynamic type baseless unlabelled =>
    intro hstatic
    rw [LabelEntry.type_withLabels, type] at hstatic
    cases hstatic

end Technology.Fills

namespace Selinux

variable {uuid : Uuid} {state state' : DriverState} {e x : LabelEntry}

/-- A static entry that was filled in has a label. -/
theorem label_of_fills (h : Technology.selinux.Fills uuid state e state' x) :
    x.type = .static → x.label ≠ none := by
  intro hstatic
  cases h with
  | selinuxUnconfined type =>
    rw [type] at hstatic
    cases hstatic
  | selinuxStatic type labelled parsed => simp [LabelEntry.withLabels]
  | selinuxDynamic type unlabelled based free => simp [LabelEntry.withLabels]

/-- Where a label is made up all labels can be read: they are made up too, or were read for it. -/
theorem legible_of_fills_dynamic (h : Technology.selinux.Fills uuid state e state' x)
    (hx : x.type = .dynamic) : x.Legible := by
  rw [h.type] at hx
  cases h with
  | selinuxUnconfined type => simp [type] at hx
  | selinuxStatic type labelled parsed => simp [type] at hx
  | @selinuxDynamic _ _ level _ base type unlabelled based free =>
    refine LabelEntry.legible_iff.mpr ⟨?_, ?_, ?_⟩
    · rintro text ⟨⟩
      exact ⟨_, Context.parse_text ((wellFormed_of_baseContext based).withLevel (some level))⟩
    · rintro text ⟨⟩
      exact ⟨_, parse_imageLabel (some level)⟩
    · intro text hbase
      have hbase : e.baseLabel = some text := hbase
      rw [baseContext, hbase] at based
      exact ⟨base, based⟩

/-- Otherwise labels that cannot be read stay, and none comes in. -/
theorem legible_iff_of_fills (h : Technology.selinux.Fills uuid state e state' x)
    (hx : x.type ≠ .dynamic) : x.Legible ↔ e.Legible := by
  rw [h.type] at hx
  cases h with
  | selinuxUnconfined type => exact Iff.rfl
  | @selinuxStatic _ _ label c type labelled parsed =>
    simp only [LabelEntry.legible_iff, LabelEntry.baseLabel_withLabels, labelled]
    refine and_congr Iff.rfl (and_congr_left' ?_)
    cases hi : e.imageLabel with
    | some image => exact Iff.rfl
    | none =>
      refine ⟨fun _ _ h => absurd h (by simp), ?_⟩
      rintro - text ⟨⟩
      exact ⟨_, parse_imageLabel c.level⟩
  | selinuxDynamic type unlabelled based free => exact absurd type hx

end Selinux

/-! ### Labels that cannot be read -/

/-- The first entry of contexts, if there is one, has no label that cannot be read. -/
def Definition.LegibleContexts (d : Definition) : Prop :=
  ∀ e, d.findEntry Selinux.model = some e → e.Legible

/-- To settle an entry, or to make one up, brings in no label. -/
theorem Policy.legible_entryFor (p : Policy) (d : Definition) :
    (p.entryFor Selinux.model d).Legible ↔ d.LegibleContexts := by
  have hsettle : ∀ e : LabelEntry, (p.settle e).Legible ↔ e.Legible := by
    intro e
    unfold settle
    split
    · split <;> exact Iff.rfl
    · exact Iff.rfl
  rw [entryFor, hsettle, Definition.LegibleContexts]
  cases d.findEntry Selinux.model with
  | none => simp [LabelEntry.legible_iff, LabelEntry.implied]
  | some e => simp

namespace Turns

variable {ns : List ManagerId} {M M' : Staff} {d d' : Definition}

/-- Where no context is made up all turns together take and bring no label that cannot be read. -/
theorem legible_iff (hw : M.Work ns) (h : Turns Manager.Labels ns M d M' d') {x : LabelEntry}
    (hx : d'.findEntry Selinux.model = some x) (ht : x.type ≠ .dynamic) :
    x.Legible ↔ d.LegibleContexts := by
  induction h with
  | nil =>
    refine ⟨fun hlegible e he => ?_, fun hd => hd x hx⟩
    obtain rfl := Option.some.inj (hx.symm.trans he)
    exact hlegible
  | @cons n ns M M' m state d mid d' found step rest ih =>
    refine (ih (hw.tail.update found state) hx).trans ?_
    by_cases hmodel : Selinux.model = m.driver.name
    · have hselinux : m.driver = .selinux :=
        Driver.eq_of_name (hw.driver (List.mem_cons_self ..) found) (by simp [Driver.workers])
          hmodel.symm
      rcases step.findEntry_cases with ⟨hnone, hnone', -⟩ | ⟨y, hy, hfills⟩
      · simp [Definition.LegibleContexts, hmodel, hnone, hnone']
      · -- The type of the entry is settled by this turn, so it is the one that `x` has.
        rw [← hmodel] at hy hfills
        rw [hselinux] at hfills
        have hsettled : y.type ≠ .undecided := hfills.type ▸ m.policy.type_settle_ne _
        obtain ⟨x', hx', hbare⟩ := rest.bare_kept hy hsettled
        obtain rfl := Option.some.inj (hx.symm.trans hx')
        rw [LabelEntry.type_of_bare hbare] at ht
        rw [← m.policy.legible_entryFor d, ← Selinux.legible_iff_of_fills hfills ht]
        simp [Definition.LegibleContexts, hy]
    · rw [Definition.LegibleContexts, Definition.LegibleContexts,
        Manager.Labels.ownModel m d state mid step _ hmodel]

end Turns

namespace Engine

variable {s : Engine} {id : ManagerId} {d : Definition}

/-- After a generation that succeeds the check of every nested manager does, but for contexts: an
entry of contexts that is not dynamic passes only if all of its labels could be read before. -/
theorem generated_labels_pass_checks {st : Stage}
    (hs : ∀ n ∈ s.nested id, ∃ m, s.manager? n = some m ∧ m.driver ∈ Driver.workers)
    (h : generateLabels id ⟨s, d⟩ = (.ok (), st)) {n : ManagerId} (hn : n ∈ s.nested id)
    {m : Manager} (hm : s.manager? n = some m) :
    (m.driver ≠ .selinux → (st.engine.perform n .verify st.definition).1 = .ok ()) ∧
    (m.driver = .selinux → ((st.engine.perform n .verify st.definition).1 = .ok () ↔
      (∃ x, st.definition.findEntry Selinux.model = some x ∧ x.type = .dynamic) ∨
        d.LegibleContexts)) := by
  obtain ⟨-, hturns⟩ := turns_of_generateLabels hs h
  have hwork : Staff.Work s.manager? (s.nested id) := hs
  have hw := hwork.driver hn hm
  obtain ⟨state, hafter⟩ := hturns.manager hm
  have hverify := perform_verify_iff hafter hw st.definition
  have hfilled := fun x => Turns.filled hs hturns hn hm (x := x)
  constructor
  · intro hne
    refine hverify.mpr fun x hx => ?_
    obtain ⟨-, _, _, _, hfills⟩ := hfilled x hx
    exact hfills.accepts fun ht => hne (Driver.eq_selinux_of_technology hw ht)
  · intro hselinux
    rw [hverify, hselinux]
    rw [hselinux] at hfilled
    have hmodel : Driver.selinux.name = Selinux.model := rfl
    rw [hmodel] at hfilled ⊢
    cases hf : st.definition.findEntry Selinux.model with
    | none =>
      have hnone : d.findEntry Selinux.model = none := hturns.findEntry_eq_none hf
      simp [Definition.LegibleContexts, hnone]
    | some x =>
      obtain ⟨-, _, _, _, hfills⟩ := hfilled x hf
      have hlabelled := Selinux.label_of_fills hfills
      have haccepts : (∀ e, some x = some e → Driver.selinux.technology.Accepts e) ↔ x.Legible :=
        ⟨fun hall => (hall x rfl).2, fun hlegible e he => by
          obtain rfl := Option.some.inj he
          exact ⟨hlabelled, hlegible⟩⟩
      rw [haccepts]
      by_cases ht : x.type = .dynamic
      · exact ⟨fun _ => .inl ⟨x, rfl, ht⟩, fun _ => Selinux.legible_of_fills_dynamic hfills ht⟩
      · rw [hturns.legible_iff hs hf ht]
        simp [ht]

def inspectedHost : Engine where
  managers :=
    [some ⟨.apparmor, "qemu", {}, .apparmor []⟩,
     some ⟨.selinux, "qemu", {}, .selinux ∅⟩,
     some ⟨.stack, "qemu", {}, .stack [0, 1]⟩]
  held := [1, 2]

/-- An entry that brings the context of the processes, and one for the images. -/
def suppliedContexts (image : String) : LabelEntry :=
  { LabelEntry.supplied "selinux" .static with
    label := some "system_u:system_r:svirt_t:s0", imageLabel := some image }

/-- A guest that brings a profile and contexts. -/
def labelledGuest : Definition :=
  .guest [{ LabelEntry.supplied "apparmor" .static with label := some "guest" },
    suppliedContexts "system_u:object_r:svirt_image_t:s0"]

/-- The members of the stack pass the guest, as its contexts can be read. -/
theorem pass_checks_inspectedHost :
    ((generateLabels 2 ⟨inspectedHost, labelledGuest⟩).2.engine.perform 0 .verify
        (generateLabels 2 ⟨inspectedHost, labelledGuest⟩).2.definition).1 = .ok () ∧
      ((generateLabels 2 ⟨inspectedHost, labelledGuest⟩).2.engine.perform 1 .verify
        (generateLabels 2 ⟨inspectedHost, labelledGuest⟩).2.definition).1 = .ok () := by
  have hs : ∀ n ∈ inspectedHost.nested 2,
      ∃ m, inspectedHost.manager? n = some m ∧ m.driver ∈ Driver.workers := by
    intro n hn
    have hn : n ∈ [0, 1] := hn
    simp only [List.mem_cons, List.not_mem_nil, or_false] at hn
    rcases hn with rfl | rfl <;> exact ⟨_, rfl, by simp [Driver.workers]⟩
  have h : generateLabels 2 ⟨inspectedHost, labelledGuest⟩ =
      (.ok (), (generateLabels 2 ⟨inspectedHost, labelledGuest⟩).2) := by rfl
  have hlegible : labelledGuest.LegibleContexts := by
    rintro e ⟨⟩
    refine LabelEntry.legible_iff.mpr ⟨?_, ?_, ?_⟩ <;> rintro text ⟨⟩ <;> exact ⟨_, rfl⟩
  have hprofiles := generated_labels_pass_checks hs h (n := 0) (by decide) rfl
  have hcontexts := generated_labels_pass_checks hs h (n := 1) (by decide) rfl
  refine ⟨hprofiles.1 fun heq => ?_, (hcontexts.2 rfl).mpr (.inr hlegible)⟩
  have hname : Driver.apparmor.name = Driver.selinux.name := congrArg Driver.name heq
  exact absurd hname (by decide)

/-- An image label that cannot be read passes the generation and does not pass the check. -/
theorem unreadable_image_passes_generation :
    (generateLabels 1 ⟨inspectedHost, .guest [suppliedContexts "garbage"]⟩).1 = .ok () ∧
      ((generateLabels 1 ⟨inspectedHost, .guest [suppliedContexts "garbage"]⟩).2.engine.perform 1
        .verify (generateLabels 1
          ⟨inspectedHost, .guest [suppliedContexts "garbage"]⟩).2.definition).1 =
        .error (.invalidLabel "selinux" "garbage") :=
  ⟨rfl, rfl⟩

end Engine

end Confinement

import Confinement.Proofs.Generation.Repeated
import Confinement.Proofs.Generation.Stopped

/-!
# Starting a stopped domain again

After a release the entries of a domain are as the generation has left them, but for the labels that
are made up. Another generation fills these in as before, from the same free level. What it finds
filled in it leaves alone, or gives it the labels of one owner after the other, of which the last
one is the last one again. It fails only where two members would make up a label for the same entry.
-/

namespace Confinement

open Selinux (heldLevel)

/-! ### Filling in what was filled in before -/

namespace Technology

/-- What another generation may find, before the last turn for the model, in place of the entry `x`
that an earlier generation has left. -/
inductive Outdated (t : Technology) (x : LabelEntry) : LabelEntry → Prop
  /-- A label that is made up has been taken back. -/
  | unlabelled (made : t.MakesOnce x) : t.Outdated x x.bare
  /-- The entry is there. -/
  | same (given : ¬t.MakesOnce x) (settled : t = .dac → x.type ≠ .dynamic) : t.Outdated x x
  /-- The label may be that of any owner by now. -/
  | reowned {y : LabelEntry} (owned : t = .dac) (type : x.type = .dynamic)
      (bare : y.bare = x.bare) (image : y.imageLabel = x.imageLabel) : t.Outdated x y

variable {t : Technology} {uuid : Uuid} {state state' kept : DriverState} {e x y : LabelEntry}

theorem Outdated.bare (h : t.Outdated x y) : y.bare = x.bare := by
  cases h with
  | reowned owned type bare image => exact bare
  | _ => rfl

/-- What a release leaves of an entry. -/
theorem outdated_emptied (t : Technology) (x : LabelEntry) : t.Outdated x (t.emptied x) := by
  by_cases hmakes : t.MakesOnce x
  · rw [emptied_of_makesOnce hmakes]
    exact .unlabelled hmakes
  · rw [emptied_of_not_makesOnce hmakes]
    by_cases hd : t = .dac ∧ x.type = .dynamic
    · exact .reowned hd.1 hd.2 rfl rfl
    · exact .same hmakes fun ht htype => hd ⟨ht, htype⟩

namespace Fills

/-- Labels that are not made up are filled in alike wherever the owner does not matter. -/
theorem elsewhere (h : t.Fills uuid state e state' x) (hx : ¬t.MakesOnce x)
    (hd : t = .dac → x.type ≠ .dynamic) (hk : t.Keeps kept) : t.Fills uuid kept e kept x := by
  cases h with
  | nothing => exact .nothing
  | selinuxUnconfined type => exact .selinuxUnconfined type
  | selinuxStatic type labelled parsed => exact .selinuxStatic type labelled parsed
  | selinuxDynamic type unlabelled based free => exact absurd ⟨.inl rfl, type⟩ hx
  | dacUnconfined type =>
    cases hk
    exact .dacUnconfined type
  | dacStatic type labelled parsed =>
    cases hk
    exact .dacStatic type labelled parsed
  | dacDynamic type => exact absurd type (hd rfl)
  | apparmorUnconfined type baseless => exact .apparmorUnconfined type baseless
  | apparmorStatic type baseless named => exact .apparmorStatic type baseless named
  | apparmorDynamic type baseless unlabelled => exact absurd ⟨.inr rfl, type⟩ hx

/-- A label that was made up and taken back is made up again, from the same free levels. -/
theorem remade (h : t.Fills uuid state e state' x) (hx : t.MakesOnce x)
    (hk : kept.butRules = state.butRules) :
    ∃ kept', kept'.butRules = state'.butRules ∧ t.Fills uuid kept x.bare kept' x := by
  obtain ⟨ht, htype⟩ := hx
  rw [h.type] at htype
  cases h with
  | nothing => simp at ht
  | selinuxUnconfined type => simp [type] at htype
  | selinuxStatic type labelled parsed => simp [type] at htype
  | @selinuxDynamic levels levels' level e base type unlabelled based free =>
    rw [DriverState.eq_selinux_of_butRules hk]
    let x := e.withLabels (some (base.withLevel (some level)).text)
      (some (Selinux.imageLabel (some level)))
    have hfills : Technology.selinux.Fills uuid (.selinux levels) x.bare (.selinux levels') x :=
      .selinuxDynamic (e := x.bare) type rfl based free
    exact ⟨_, rfl, hfills⟩
  | dacUnconfined type => simp at ht
  | dacStatic type labelled parsed => simp at ht
  | dacDynamic type => simp at ht
  | apparmorUnconfined type baseless => simp [type] at htype
  | apparmorStatic type baseless named => simp [type] at htype
  | apparmorDynamic type baseless unlabelled =>
    let x := e.withLabels (some (AppArmor.generatedName uuid)) (some (AppArmor.generatedName uuid))
    have hfills : Technology.apparmor.Fills uuid kept x.bare kept x :=
      .apparmorDynamic (e := x.bare) type baseless rfl
    exact ⟨kept, hk, hfills⟩

/-- An owner fills in its own label, and leaves the image label that it finds. -/
theorem reowned (h : Technology.dac.Fills uuid state e state' x) (policy : OwnershipPolicy)
    (ht : x.type = .dynamic) (hbare : y.bare = x.bare) (himage : y.imageLabel = x.imageLabel) :
    ∃ z, Technology.dac.Fills uuid (.dac policy) y (.dac policy) z ∧ z.bare = x.bare ∧
      z.imageLabel = x.imageLabel ∧ (state = .dac policy → z = x) := by
  rw [h.type] at ht
  cases h with
  | dacUnconfined type => simp [type] at ht
  | dacStatic type labelled parsed => simp [type] at ht
  | @dacDynamic policy₀ _ type =>
    generalize hx : e.withLabels (some policy₀.owner.label)
      (e.imageLabel.or (some policy₀.owner.label)) = x at *
    have hlabel : x.label = some policy₀.owner.label := by rw [← hx]; rfl
    have himage' : y.imageLabel.or (some policy.owner.label) = x.imageLabel := by
      rw [himage, ← hx]
      cases e.imageLabel <;> simp [LabelEntry.withLabels]
    have htype : y.type = .dynamic := by
      rw [LabelEntry.type_of_bare hbare, ← hx]
      exact ht
    refine ⟨_, .dacDynamic htype, hbare, himage', fun hstate => ?_⟩
    obtain rfl := DriverState.dac.inj hstate
    rw [himage', ← hlabel]
    exact LabelEntry.withLabels_of_bare hbare.symm

end Fills

/-- The last turn for a model fills in what the earlier generation has left. -/
theorem Outdated.refill (hy : t.Outdated x y) (h : t.Fills uuid state e state' x)
    (hs : t.Keeps state) (hk : kept.butRules = state.butRules) :
    ∃ kept', kept'.butRules = state'.butRules ∧ t.Fills uuid kept y kept' x := by
  cases hy with
  | unlabelled made => exact h.remade made hk
  | same given settled =>
    have hstate := h.state_eq given
    exact ⟨kept, hk.trans (congrArg _ hstate.symm),
      (h.again given).elsewhere given settled (hs.of_butRules hk)⟩
  | reowned owned type bare image =>
    subst owned
    cases hs with
    | dac policy =>
      obtain rfl := DriverState.eq_dac_of_butRules hk
      have hstate := h.state_eq fun hmakes => by simp [MakesOnce] at hmakes
      obtain ⟨z, hfills, -, -, hz⟩ := h.reowned policy type bare image
      exact ⟨.dac policy, congrArg _ hstate.symm, hz rfl ▸ hfills⟩

/-- An earlier turn leaves an entry that the last one fills in all the same. -/
theorem Outdated.reopen (hy : t.Outdated x y) (h : t.Fills uuid state e state' x)
    (hx : ¬t.MakesOnce x) (hk : t.Keeps kept) :
    ∃ z, t.Outdated x z ∧ t.Fills uuid kept y kept z := by
  cases hy with
  | unlabelled made => exact absurd made hx
  | same given settled => exact ⟨x, .same given settled, (h.again given).elsewhere given settled hk⟩
  | reowned owned type bare image =>
    subst owned
    cases hk with
    | dac policy =>
      obtain ⟨z, hfills, hbare, himage, -⟩ := h.reowned policy type bare image
      exact ⟨z, .reowned rfl type hbare himage, hfills⟩

end Technology

/-! ### The turns of another generation -/

/-- A manager of the same role and with the same levels. -/
theorem Manager.eq_of_butRules {m m' : Manager} (h : m'.butRules = m.butRules) :
    ∃ state, m' = { m with state } ∧ state.butRules = m.state.butRules := by
  obtain ⟨driver, virtDriver, policy, state⟩ := m
  obtain ⟨driver', virtDriver', policy', state'⟩ := m'
  obtain ⟨rfl, rfl, rfl, hstate⟩ := Manager.mk.inj h
  exact ⟨state', rfl, hstate⟩

/-- A driver that makes up a label is alone if those of contexts and of profiles are. -/
theorem Staff.alone_of_makesOnce {M : Staff} {ns : List ManagerId} {d : Definition} {dr : Driver}
    {x : LabelEntry} (hcontexts : M.Alone ns d Selinux.model)
    (hprofiles : M.Alone ns d AppArmor.model) (hw : dr ∈ Driver.workers)
    (hx : dr.technology.MakesOnce x) : M.Alone ns d dr.name := by
  rcases ((Driver.makesOnce_iff hw).mp hx).1 with rfl | rfl
  · exact hcontexts
  · exact hprofiles

namespace Turns

variable {done later : List ManagerId} {M M' : Staff} {a d : Definition} {n : ManagerId}
  {m : Manager} {x y : LabelEntry} {kept : DriverState}

/-- What the driver of a manager fills in when it has its turn again: with turns for the model left
an entry that these fill in all the same, and without them the entry of the first generation. -/
theorem refills (hs : Staff.Ready M (done ++ n :: later))
    (h : Turns Manager.Labels (done ++ n :: later) M a M' d) (hm : M n = some m)
    (halone : m.driver.technology.MakesOnce x → M.Alone (done ++ n :: later) d m.driver.name)
    (hx : d.findEntry m.driver.name = some x) (hy : m.driver.technology.Outdated x y)
    (hk : kept.butRules = m.state.butRules) :
    ∃ state z, m.driver.technology.Fills d.uuid kept y state z ∧
      (M' n).map Manager.butRules = some (Manager.butRules { m with state }) ∧
      ((∃ k ∈ later, M.model? k = some m.driver.name) →
        state = kept ∧ m.driver.technology.Outdated x z) ∧
      ((∀ k ∈ later, M.model? k ≠ some m.driver.name) → z = x) := by
  have hn : n ∈ done ++ n :: later := List.mem_append_right done (List.mem_cons_self ..)
  have hself := Staff.model?_eq hm
  have hworks := hs.works hn hm
  by_cases hlater : ∃ k ∈ later, M.model? k = some m.driver.name
  · obtain ⟨k, hk', hmodel⟩ := hlater
    have hgiven : ¬m.driver.technology.MakesOnce x := fun hmakes =>
      ((halone hmakes).split hx hmakes.2 hself).2 k hk' hmodel
    have hM' : M' n = some m := h.manager_eq .nil hm fun ht y hy htype => hgiven (by
      obtain rfl := Option.some.inj (hx.symm.trans hy)
      exact ⟨.inl ht, htype⟩)
    obtain ⟨-, _, _, _, hfills⟩ := h.filled hs.work hn hm hx
    rw [← h.uuid] at hfills
    obtain ⟨z, hz, hagain⟩ := hy.reopen hfills hgiven (hworks.state.of_butRules hk)
    refine ⟨kept, z, hagain, ?_, fun _ => ⟨rfl, hz⟩, fun hnone => absurd hmodel (hnone k hk')⟩
    rw [hM', Option.map_some]
    simp only [Manager.butRules, hk]
  · have hnone : ∀ k ∈ later, M.model? k ≠ some m.driver.name :=
      fun k hk hmodel => hlater ⟨k, hk, hmodel⟩
    obtain ⟨e, state, hfills, hM'⟩ := h.last hs.work hm hx hnone
    obtain ⟨state', hstate, hagain⟩ := hy.refill hfills hworks.state hk
    refine ⟨state', x, hagain, ?_, fun hprovided => absurd hprovided hlater, fun _ => rfl⟩
    rw [hM', Option.map_some]
    simp only [Manager.butRules, hstate]

end Turns

/-- After a generation that has led from `M` to `M'` and to `d`, another one, with turns left for
`later`, has come to `N` and `c`. -/
structure Resumes (M M' : Staff) (d : Definition) (later : List ManagerId) (N : Staff)
    (c : Definition) : Prop where
  /-- Who has a turn left has what it had before its first turn. -/
  before : ∀ n ∈ later, (N n).map Manager.butRules = (M n).map Manager.butRules
  after : ∀ n, n ∉ later → (N n).map Manager.butRules = (M' n).map Manager.butRules
  framed : d.Framed c
  /-- What the turns that are left find. -/
  entry : ∀ n ∈ later, ∀ m, M n = some m →
    Option.Rel m.driver.technology.Outdated (d.findEntry m.driver.name)
      (c.findEntry m.driver.name)
  /-- Where no turns are left the entries are those of the first generation. -/
  final : ∀ model, (∀ n ∈ later, M.model? n ≠ some model) → c.findEntry model = d.findEntry model

namespace Resumes

variable {done later : List ManagerId} {M M' N : Staff} {a c d : Definition} {n : ManagerId}

theorem missing (hr : Resumes M M' d (n :: later) N c) {m : Manager} (hm : M n = some m)
    (hx : d.findEntry m.driver.name = none) : c.findEntry m.driver.name = none := by
  have hrel := hr.entry n (List.mem_cons_self ..) m hm
  rw [hx] at hrel
  generalize c.findEntry m.driver.name = o at hrel ⊢
  cases hrel
  rfl

theorem outdated (hr : Resumes M M' d (n :: later) N c) {m : Manager} (hm : M n = some m)
    {x : LabelEntry} (hx : d.findEntry m.driver.name = some x) :
    ∃ y, c.findEntry m.driver.name = some y ∧ m.driver.technology.Outdated x y := by
  have hrel := hr.entry n (List.mem_cons_self ..) m hm
  rw [hx] at hrel
  generalize c.findEntry m.driver.name = o at hrel ⊢
  cases hrel with
  | some houtdated => exact ⟨_, rfl, houtdated⟩

theorem manager (hr : Resumes M M' d (n :: later) N c) {m : Manager} (hm : M n = some m) :
    ∃ kept, N n = some { m with state := kept } ∧ kept.butRules = m.state.butRules := by
  have hbefore := hr.before n (List.mem_cons_self ..)
  rw [hm, Option.map_some] at hbefore
  obtain ⟨m', hm', hsame⟩ := Option.map_eq_some_iff.mp hbefore
  obtain ⟨kept, rfl, hkept⟩ := Manager.eq_of_butRules hsame
  exact ⟨kept, hm', hkept⟩

/-- To have no entry of a model was no matter, and is none. -/
theorem pass (hr : Resumes M M' d (n :: later) N c) {m : Manager} (hm : M n = some m)
    (hx : d.findEntry m.driver.name = none) (hM' : M' n = some m) :
    Resumes M M' d later N c where
  before k hk := hr.before k (List.mem_cons_of_mem n hk)
  after k hk := by
    by_cases hkn : k = n
    · subst hkn
      rw [hr.before k (List.mem_cons_self ..), hm, hM']
    · exact hr.after k (List.not_mem_cons_of_ne_of_not_mem hkn hk)
  framed := hr.framed
  entry k hk := hr.entry k (List.mem_cons_of_mem n hk)
  final model hmodel := by
    by_cases hname : model = m.driver.name
    · subst hname
      rw [hr.missing hm hx, hx]
    · exact hr.final model (Staff.not_provided_cons hm hname hmodel)

/-- A turn that fills in an entry leaves it to the turns that are left, or as it was. -/
theorem fill (hr : Resumes M M' d (n :: later) N c) (hw : M.Work (n :: later)) {m : Manager}
    {x y z : LabelEntry} {kept state : DriverState} (hm : M n = some m)
    (hN : N n = some { m with state := kept }) (hx : d.findEntry m.driver.name = some x)
    (hy : c.findEntry m.driver.name = some y) (hbare : z.bare = y.bare)
    (hM' : (M' n).map Manager.butRules = some (Manager.butRules { m with state }))
    (hleft : (∃ k ∈ later, M.model? k = some m.driver.name) →
      state = kept ∧ m.driver.technology.Outdated x z)
    (hlast : (∀ k ∈ later, M.model? k ≠ some m.driver.name) → z = x) :
    Resumes M M' d later (Function.update N n (some { m with state }))
      (c.fill m.driver.name z) where
  before k hk := by
    by_cases hkn : k = n
    · subst hkn
      obtain ⟨rfl, -⟩ := hleft ⟨k, hk, Staff.model?_eq hm⟩
      rw [Function.update_self, ← hN]
      exact hr.before k (List.mem_cons_self ..)
    · rw [Function.update_of_ne hkn]
      exact hr.before k (List.mem_cons_of_mem n hk)
  after k hk := by
    by_cases hkn : k = n
    · subst hkn
      rw [Function.update_self, hM', Option.map_some]
    · rw [Function.update_of_ne hkn]
      exact hr.after k (List.not_mem_cons_of_ne_of_not_mem hkn hk)
  framed := hr.framed.trans (.editEntry c m.driver.name fun _ => rfl)
  entry k hk mk hmk := by
    by_cases hname : mk.driver.name = m.driver.name
    · have hdriver := hw.driver (List.mem_cons_self ..) hm
      have hdriver' := hw.tail.driver hk hmk
      rw [Driver.eq_of_name hdriver' hdriver hname, hx, Definition.findEntry_fill hy hbare]
      exact .some (hleft ⟨k, hk, hname ▸ Staff.model?_eq hmk⟩).2
    · rw [Definition.findEntry_fill_of_ne hname]
      exact hr.entry k (List.mem_cons_of_mem n hk) mk hmk
  final model hmodel := by
    by_cases hname : model = m.driver.name
    · subst hname
      rw [Definition.findEntry_fill hy hbare, hx, hlast hmodel]
    · rw [Definition.findEntry_fill_of_ne hname]
      exact hr.final model (Staff.not_provided_cons hm hname hmodel)

theorem step (hs : M.Ready (done ++ n :: later))
    (h : Turns Manager.Labels (done ++ n :: later) M a M' d)
    (hcontexts : M.Alone (done ++ n :: later) d Selinux.model)
    (hprofiles : M.Alone (done ++ n :: later) d AppArmor.model)
    (hr : Resumes M M' d (n :: later) N c) :
    ∃ m state mid, N n = some m ∧ m.Labels c state mid ∧
      Resumes M M' d later (Function.update N n (some { m with state })) mid := by
  have hn : n ∈ done ++ n :: later := List.mem_append_right done (List.mem_cons_self ..)
  obtain ⟨m, hm, hworks⟩ := hs n hn
  obtain ⟨hmissing, hallowed⟩ := h.policy hn hm
  obtain ⟨kept, hN, hkept⟩ := hr.manager hm
  cases hx : d.findEntry m.driver.name with
  | none =>
    obtain ⟨hlax, hoptional, hothers⟩ := hmissing hx
    have hM' : M' n = some m := h.manager_eq .nil hm fun _ x hx' => by
      rw [hx] at hx'
      cases hx'
    have hc := hr.missing hm hx
    refine ⟨_, kept, c, hN, .passed hc hlax hoptional (hr.framed.entries_ne_nil hothers), ?_⟩
    rw [← hN, Function.update_eq_self]
    exact hr.pass hm hx hM'
  | some x =>
    obtain ⟨y, hy, houtdated⟩ := hr.outdated hm hx
    obtain ⟨state, z, hfills, hM', hleft, hlast⟩ := h.refills hs hm
      (Staff.alone_of_makesOnce hcontexts hprofiles hworks.driver) hx houtdated hkept
    obtain ⟨hsettled, -⟩ := h.filled hs.work hn hm hx
    have htype : y.type = x.type := LabelEntry.type_of_bare houtdated.bare
    have hstep : Manager.Labels { m with state := kept } c state (c.fill m.driver.name z) := by
      refine Manager.labels_of_fills (m := { m with state := kept }) hy (htype ▸ hsettled) ?_ ?_
      · have ha := hallowed x hx
        unfold Policy.Allows at ha ⊢
        rwa [htype]
      · rw [hr.framed.uuid]
        exact hfills
    have hwork : M.Work (n :: later) := fun k hk => hs.work k (List.mem_append_right done hk)
    exact ⟨_, state, _, hN, hstep,
      hr.fill (m := m) hwork hm hN hx hy hfills.bare hM' hleft hlast⟩

/-- All managers have their turns, and the second generation comes to what the first one has come
to. -/
theorem run (hs : M.Ready (done ++ later))
    (h : Turns Manager.Labels (done ++ later) M a M' d)
    (hcontexts : M.Alone (done ++ later) d Selinux.model)
    (hprofiles : M.Alone (done ++ later) d AppArmor.model)
    (hr : Resumes M M' d later N c) :
    ∃ N', Turns Manager.Labels later N c N' d ∧ M'.SameButRules N' := by
  induction later generalizing done N c with
  | nil =>
    obtain rfl := hr.framed.eq fun model => hr.final model fun _ hn => by cases hn
    exact ⟨N, .nil, fun n => hr.after n List.not_mem_nil⟩
  | cons n later ih =>
    obtain ⟨m, state, mid, hN, hstep, hnext⟩ := hr.step hs h hcontexts hprofiles
    rw [List.append_cons] at hs h hcontexts hprofiles
    obtain ⟨N', hturns, hsame⟩ := ih hs h hcontexts hprofiles hnext
    exact ⟨N', .cons hN hstep hturns, hsame⟩

/-- Between a release that has given all levels back and another generation all turns are left. -/
theorem start {ns : List ManagerId} (hs : M.Ready ns) (h : Turns Manager.Labels ns M a M' d)
    (h' : Turns Manager.Frees ns M' d N c) (hsame : M.SameButRules N) :
    Resumes M M' d ns N c where
  before n _ := hsame n
  after n hn := by rw [h'.of_not_mem hn]
  framed := h'.framed
  entry n hn m hm := by
    have hmodel := Staff.model?_eq hm
    rw [h'.findEntry_emptied (h.ready_of_labels hs).work (hs.work.driver hn hm)
      ⟨n, hn, by rwa [h.model?_eq]⟩]
    cases d.findEntry m.driver.name with
    | none => exact .none
    | some x => exact .some (m.driver.technology.outdated_emptied x)
  final model hmodel := h'.findEntry_of_foreign Manager.Frees.ownModel (by rwa [h.model?_eq])

end Resumes

/-! ### Where another generation fails -/

namespace Turns

variable {ns : List ManagerId} {M M' : Staff} {d d' : Definition} {dr : Driver} {x : LabelEntry}

/-- Nobody gets past a label that was made up for its entry. -/
theorem not_provided (hw : M.Work ns) (h : Turns Manager.Labels ns M d M' d')
    (hdr : dr ∈ Driver.workers) (hx : d.findEntry dr.name = some x)
    (hmakes : dr.technology.MakesOnce x) (hl : x.label ≠ none) :
    ∀ k ∈ ns, M.model? k ≠ some dr.name := by
  induction h with
  | nil => exact fun _ hk => by cases hk
  | @cons n ns M M' m state d mid d' found step rest ih =>
    have hname : dr.name ≠ m.driver.name := by
      intro hname
      obtain rfl := Driver.eq_of_name hdr (hw.driver (List.mem_cons_self ..) found) hname
      have hrefuses : m.Refuses d := ⟨x, hx, hmakes, hl⟩
      exact hrefuses.not_labels state mid step
    have hmid : mid.findEntry dr.name = some x :=
      (Manager.Labels.ownModel m d state mid step dr.name hname).trans hx
    have hrest := ih (hw.tail.update found state) hmid
    rw [Staff.model?_update found] at hrest
    exact Staff.not_provided_cons found hname hrest

/-- Only one turn makes up a label for an entry that is dynamic from the start. -/
theorem pairwise (hw : M.Work ns) (h : Turns Manager.Labels ns M d M' d')
    (hdr : dr ∈ Driver.workers) (hx : d.findEntry dr.name = some x)
    (hmakes : dr.technology.MakesOnce x) :
    ns.Pairwise fun i j => ¬(M.model? i = some dr.name ∧ M.model? j = some dr.name) := by
  induction h generalizing x with
  | nil => exact .nil
  | @cons n ns M M' m state d mid d' found step rest ih =>
    have hwork := hw.tail.update found state
    have hmodels : Staff.model? (Function.update M n (some { m with state })) = M.model? :=
      Staff.model?_update found state
    by_cases hname : m.driver.name = dr.name
    · obtain rfl := Driver.eq_of_name (hw.driver (List.mem_cons_self ..) found) hdr hname
      have hsettled : x.type ≠ .undecided := by
        rw [hmakes.2]
        decide
      rcases step.findEntry_cases with ⟨hmissing, -⟩ | ⟨y, hy, hfills⟩
      · rw [hx] at hmissing
        cases hmissing
      · rw [Policy.entryFor_of_settled hx hsettled] at hfills
        have hmakes' : m.driver.technology.MakesOnce y := ⟨hmakes.1, hfills.type.trans hmakes.2⟩
        have hlater := rest.not_provided hwork hdr hy hmakes' (hfills.made hmakes').2
        have hpairs := ih hwork hy hmakes'
        rw [hmodels] at hlater hpairs
        exact .cons (fun k hk hboth => hlater k hk hboth.2) hpairs
    · have hmid : mid.findEntry dr.name = some x :=
        (Manager.Labels.ownModel m d state mid step dr.name (Ne.symm hname)).trans hx
      have hpairs := ih hwork hmid hmakes
      rw [hmodels] at hpairs
      refine .cons (fun k _ hboth => hname ?_) hpairs
      exact Option.some.inj ((Staff.model?_eq found).symm.trans hboth.1)

/-- If all managers have their turns after a release, none that makes up labels has a rival. -/
theorem alone_of_restart {M₁ M₂ M₃ : Staff} {a b c : Definition} (hs : M.Ready ns)
    (h₁ : Turns Manager.Labels ns M a M₁ d) (h₂ : Turns Manager.Frees ns M₁ d M₂ b)
    (h₃ : Turns Manager.Labels ns M₂ b M₃ c) (hdr : dr = .selinux ∨ dr = .apparmor) :
    M.Alone ns d dr.name := by
  have hworks : dr ∈ Driver.workers := by
    rcases hdr with rfl | rfl <;> simp [Driver.workers]
  have hready := h₂.ready_of_frees (h₁.ready_of_labels hs)
  intro x hx ht
  have hbare := h₂.bare_emptied dr.name
  rw [hx, Option.map_some] at hbare
  obtain ⟨y, hy, hyx⟩ := Option.map_eq_some_iff.mp hbare
  have hmakes : dr.technology.MakesOnce y :=
    (Driver.makesOnce_iff hworks).mpr ⟨hdr, (LabelEntry.type_of_bare hyx).trans ht⟩
  have hpairs := h₃.pairwise hready.work hworks hy hmakes
  rwa [h₂.model?_eq, h₁.model?_eq] at hpairs

end Turns

/-! ### Stopping and starting -/

namespace Engine

variable {s : Engine} {id : ManagerId} {root : Manager} {ns : List ManagerId} {d : Definition}
  {st : Stage}

def reserved (s : Engine) : ManagerId → Option Selinux.Levels := Staff.reserved s.manager?

/-- After a generation that succeeds a stack releases what was generated, and another generation
would go through its members as the first one has. -/
theorem turns_of_release (hroot : s.manager? id = some root) (hdriver : root.driver = .stack)
    (hmembers : root.state = .stack ns) (hs : Staff.Ready s.manager? ns)
    (h : generateLabels id ⟨s, d⟩ = (.ok (), st)) :
    ∃ t b, edit id .release st = (.ok (), ⟨t, b⟩) ∧
      Turns Manager.Labels ns s.manager? d st.engine.manager? st.definition ∧
      Turns Manager.Frees ns st.engine.manager? st.definition t.manager? b ∧
      generateLabels id ⟨t, b⟩ = generateEach ns ⟨t, b⟩ := by
  have hid : id ∉ ns := by
    intro hmem
    refine (Driver.fillsOwnEntry_of_mem_workers (hs.works hmem hroot).driver).single ?_
    rw [hdriver]
    rfl
  have hnested : ∀ u : Engine, u.manager? id = some root → u.nested id = ns :=
    fun u hu => nested_of_stack hu hmembers
  have hwork : Staff.Work s.manager? (s.nested id) := by
    rw [hnested s hroot]
    exact hs.work
  obtain ⟨hknown, h₁⟩ := turns_of_generateLabels hwork h
  rw [hnested s hroot] at hknown h₁
  obtain ⟨held, hheld⟩ := h₁.heldLevel_ok hs.work hknown
  have hroot₁ : st.engine.manager? id = some root := (h₁.of_not_mem hid).trans hroot
  obtain ⟨t, b, hrelease, h₂⟩ :=
    edit_release hroot₁ hdriver hmembers (h₁.ready_of_labels hs) hheld
  have hroot₂ : t.manager? id = some root := (h₂.of_not_mem hid).trans hroot₁
  refine ⟨t, b, hrelease, h₁, h₂, ?_⟩
  rw [← hnested t hroot₂]
  refine generateLabels_of_known ?_
  rw [hnested t hroot₂, h₂.knows_iff, h₁.knows_iff]
  exact (h₁.known hknown).congr h₂.framed.models

/-- A stopped domain can be started again. The release of what a stack has generated succeeds, and
empties the entries whose labels were made up. It gives back the levels that the generation has
taken if no two members would have filled in the same dynamic context, and only then. If no two
members make up a label for the same entry, and only then, another generation succeeds, and it comes
to the same labels and levels. -/
theorem generateLabels_after_release (hroot : s.manager? id = some root)
    (hdriver : root.driver = .stack) (hmembers : root.state = .stack ns)
    (hs : ∀ n ∈ ns, ∃ m, s.manager? n = some m ∧ m.Works)
    (h : generateLabels id ⟨s, d⟩ = (.ok (), st)) :
    ∃ rel, edit id .release st = (.ok (), rel) ∧
      (∀ n ∈ ns, ∀ m, s.manager? n = some m → m.driver = .selinux ∨ m.driver = .apparmor →
        ∀ x, rel.definition.findEntry m.driver.name = some x → x.type = .dynamic →
          x.label = none ∧ x.imageLabel = none) ∧
      (rel.engine.reserved = s.reserved ↔
        Staff.Alone s.manager? ns st.definition Selinux.model) ∧
      ((∃ out, generateLabels id rel = (.ok (), out)) ↔
        Staff.Alone s.manager? ns st.definition Selinux.model ∧
          Staff.Alone s.manager? ns st.definition AppArmor.model) ∧
      ∀ out, generateLabels id rel = (.ok (), out) →
        out.definition = st.definition ∧ out.engine.reserved = st.engine.reserved := by
  have hready : Staff.Ready s.manager? ns := hs
  obtain ⟨t, b, hrelease, h₁, h₂, hagain⟩ := turns_of_release hroot hdriver hmembers hready h
  have hready₁ := h₁.ready_of_labels hready
  have hready₂ := h₂.ready_of_frees hready₁
  have halone : (∃ out, generateLabels id ⟨t, b⟩ = (.ok (), out)) →
      Staff.Alone s.manager? ns st.definition Selinux.model ∧
        Staff.Alone s.manager? ns st.definition AppArmor.model := by
    rintro ⟨out, hout⟩
    rw [hagain] at hout
    have h₃ := turns_of_generateEach hready₂.work hout
    exact ⟨h₁.alone_of_restart hready h₂ h₃ (.inl rfl), h₁.alone_of_restart hready h₂ h₃ (.inr rfl)⟩
  have hrestart : Staff.Alone s.manager? ns st.definition Selinux.model →
      Staff.Alone s.manager? ns st.definition AppArmor.model →
      ∃ u, generateLabels id ⟨t, b⟩ = (.ok (), ⟨u, st.definition⟩) ∧
        u.reserved = st.engine.reserved := by
    intro hcontexts hprofiles
    have hresumes := Resumes.start hready h₁ h₂ (h₁.sameButRules hready h₂ hcontexts)
    obtain ⟨N, h₃, hsame⟩ := @Resumes.run [] ns _ _ _ _ _ _ hready h₁ hcontexts hprofiles hresumes
    obtain ⟨u, hrun, rfl⟩ := @generateEach_of_turns ⟨t, b⟩ ns N st.definition hready₂.work h₃
    exact ⟨u, hagain.trans hrun, hsame.reserved_eq⟩
  refine ⟨⟨t, b⟩, hrelease, ?_, ⟨?_, ?_⟩, ⟨halone, ?_⟩, ?_⟩
  · intro n hn m hm hmakesUp x hx ht
    have hworks := hready.works hn hm
    have hprovided : ∃ n ∈ ns, Staff.model? st.engine.manager? n = some m.driver.name :=
      ⟨n, hn, by rw [h₁.model?_eq, Staff.model?_eq hm]⟩
    have hempty := h₂.findEntry_emptied hready₁.work hworks.driver hprovided
    obtain ⟨y, -, rfl⟩ := Option.map_eq_some_iff.mp (hempty.symm.trans hx)
    have hmakes : m.driver.technology.MakesOnce y :=
      Technology.makesOnce_emptied.mp ((Driver.makesOnce_iff hworks.driver).mpr ⟨hmakesUp, ht⟩)
    rw [Technology.emptied_of_makesOnce hmakes]
    exact ⟨rfl, rfl⟩
  · exact h₁.alone_of_reserved hready h₂
  · exact fun hcontexts => (h₁.sameButRules hready h₂ hcontexts).reserved_eq
  · rintro ⟨hcontexts, hprofiles⟩
    obtain ⟨u, hrun, -⟩ := hrestart hcontexts hprofiles
    exact ⟨_, hrun⟩
  · intro out hout
    obtain ⟨hcontexts, hprofiles⟩ := halone ⟨out, hout⟩
    obtain ⟨u, hrun, hreserved⟩ := hrestart hcontexts hprofiles
    rw [hrun] at hout
    obtain ⟨-, rfl⟩ := Prod.mk.inj hout
    exact ⟨rfl, hreserved⟩

/-- A stack of profiles, which confines, of contexts and of ownership. -/
def restartedHost : Engine where
  managers :=
    [some ⟨.apparmor, "qemu", { defaultConfined := true }, .apparmor []⟩,
     some ⟨.selinux, "qemu", {}, .selinux ∅⟩,
     some ⟨.dac, "qemu", {}, .dac {}⟩,
     some ⟨.stack, "qemu", { defaultConfined := true }, .stack [0, 1, 2]⟩]
  held := [3]

/-- The guest loses its profile when it is stopped, and gets it again when it is started. -/
theorem after_release_restartedHost :
    ∃ rel, edit 3 .release (generateLabels 3 ⟨restartedHost, .guest []⟩).2 = (.ok (), rel) ∧
      (∀ x, rel.definition.findEntry "apparmor" = some x → x.type = .dynamic → x.label = none) ∧
      ∃ out, generateLabels 3 rel = (.ok (), out) ∧
        out.definition = (generateLabels 3 ⟨restartedHost, .guest []⟩).2.definition := by
  have hs : ∀ n ∈ [0, 1, 2], ∃ m, restartedHost.manager? n = some m ∧ m.Works := by
    intro n hn
    simp only [List.mem_cons, List.not_mem_nil, or_false] at hn
    rcases hn with rfl | rfl | rfl <;>
      exact ⟨_, rfl, Manager.works_of_initial (by simp [Driver.workers]) rfl⟩
  have h : generateLabels 3 ⟨restartedHost, .guest []⟩ =
      (.ok (), (generateLabels 3 ⟨restartedHost, .guest []⟩).2) := by rfl
  have hcontexts : Staff.Alone restartedHost.manager? [0, 1, 2]
      (generateLabels 3 ⟨restartedHost, .guest []⟩).2.definition Selinux.model := by
    intro _ _ _
    decide
  have hprofiles : Staff.Alone restartedHost.manager? [0, 1, 2]
      (generateLabels 3 ⟨restartedHost, .guest []⟩).2.definition AppArmor.model := by
    intro _ _ _
    decide
  obtain ⟨rel, hrelease, hempty, -, hagain, hsame⟩ :=
    @generateLabels_after_release restartedHost 3 _ [0, 1, 2] (.guest []) _ rfl rfl rfl hs h
  obtain ⟨out, hout⟩ := hagain.mpr ⟨hcontexts, hprofiles⟩
  exact ⟨rel, hrelease,
    fun x hx ht => (hempty 0 (by decide) _ rfl (.inr rfl) x hx ht).1, out, hout, (hsame out hout).1⟩

/-- A stack with two managers of profiles, of which the second one confines. -/
def crowdedHost : Engine where
  managers :=
    [some ⟨.none, "qemu", {}, .none⟩,
     some ⟨.apparmor, "qemu", {}, .apparmor []⟩,
     some ⟨.apparmor, "qemu", { defaultConfined := true }, .apparmor []⟩,
     some ⟨.stack, "qemu", {}, .stack [0, 1, 2]⟩]
  held := [3]

/-- The guest is not started again: now the first manager finds the entry of the second one, and
the second one the label of the first one. -/
theorem rivals_prevent_restart :
    (generateLabels 3 ⟨crowdedHost, .guest []⟩).1 = .ok () ∧
      (edit 3 .release (generateLabels 3 ⟨crowdedHost, .guest []⟩).2).1 = .ok () ∧
      (generateLabels 3 (edit 3 .release (generateLabels 3 ⟨crowdedHost, .guest []⟩).2).2).1 =
        .error (.driver "apparmor" .labelAlreadyDefined) :=
  ⟨rfl, rfl, rfl⟩

end Engine

end Confinement

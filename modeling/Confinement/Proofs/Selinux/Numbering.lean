import Mathlib.Algebra.BigOperators.Intervals
import Mathlib.Data.Nat.Choose.Basic
import Mathlib.Data.Set.Card
import Confinement.Proofs.Selinux.Effects
import Confinement.Proofs.Selinux.Spelling

/-!
# The order in which levels are handed out

The pairs of categories are numbered by the higher category, then by the lower one. A manager hands
out the pair with the lowest number among those whose level is not reserved, whatever else is
reserved. A manager that reserves nothing at first hands them out without a gap, until none is left.
-/

namespace Confinement

namespace Selinux

/-! ### Numbers of pairs -/

/-- How many pairs come before the pair `lo`, `hi`. -/
def pairNumber (lo hi : Nat) : Nat := hi * (hi - 1) / 2 + lo

section Numbers

variable {lo hi lo' hi' : Nat}

theorem pairNumber_succ (lo hi : Nat) : pairNumber lo (hi + 1) = pairNumber lo hi + hi := by
  rw [pairNumber, pairNumber, Nat.triangle_succ]
  omega

theorem pairNumber_mono (lo : Nat) (h : hi ≤ hi') : pairNumber lo hi ≤ pairNumber lo hi' := by
  induction hi', h using Nat.le_induction with
  | base => exact Nat.le_refl _
  | succ n _ ih =>
    rw [pairNumber_succ]
    exact Nat.le_add_right_of_le ih

/-- A higher category comes later, whatever the lower ones are. -/
theorem pairNumber_lt_of_lt (hlt : lo < hi) (h : hi < hi') :
    pairNumber lo hi < pairNumber lo' hi' := by
  have hsucc := pairNumber_mono 0 (Nat.succ_le_of_lt h)
  rw [Nat.succ_eq_add_one, pairNumber_succ] at hsucc
  simp only [pairNumber] at hsucc ⊢
  omega

/-- The numbers go by the higher category, then by the lower one. -/
theorem pairNumber_lt_iff (hlt : lo < hi) (hlt' : lo' < hi') :
    pairNumber lo hi < pairNumber lo' hi' ↔ hi < hi' ∨ hi = hi' ∧ lo < lo' := by
  rcases Nat.lt_trichotomy hi hi' with h | rfl | h
  · exact iff_of_true (pairNumber_lt_of_lt hlt h) (.inl h)
  · simp [pairNumber]
  · have hback : pairNumber lo' hi' < pairNumber lo hi := pairNumber_lt_of_lt hlt' h
    omega

theorem pairNumber_inj (hlt : lo < hi) (hlt' : lo' < hi')
    (h : pairNumber lo hi = pairNumber lo' hi') : lo = lo' ∧ hi = hi' := by
  have hnot := (pairNumber_lt_iff hlt hlt').not.mp h.not_lt
  have hnot' := (pairNumber_lt_iff hlt' hlt).not.mp h.not_gt
  omega

/-- Every number is that of a pair. -/
theorem exists_pairNumber (n : Nat) : ∃ lo hi, lo < hi ∧ pairNumber lo hi = n := by
  induction n with
  | zero => exact ⟨0, 1, Nat.one_pos, rfl⟩
  | succ n ih =>
    obtain ⟨lo, hi, hlt, rfl⟩ := ih
    by_cases hnext : lo + 1 < hi
    · exact ⟨lo + 1, hi, hnext, by rw [pairNumber, pairNumber, Nat.add_assoc]⟩
    · -- The last pair of a category is followed by the first one of the next category.
      refine ⟨0, hi + 1, Nat.succ_pos hi, ?_⟩
      rw [pairNumber_succ, pairNumber, pairNumber]
      omega

/-- The numbers of the pairs that are handed out are those below the number of such pairs. -/
theorem pairNumber_lt_count_iff (hlt : lo < hi) : pairNumber lo hi < 523776 ↔ hi < categories := by
  rw [show 523776 = pairNumber 0 categories from rfl,
    pairNumber_lt_iff hlt (show 0 < categories by decide)]
  omega

end Numbers

theorem pairLevel_inj {lo hi lo' hi' : Nat} :
    pairLevel lo hi = pairLevel lo' hi' ↔ lo = lo' ∧ hi = hi' := by
  constructor
  · intro h
    have hnamed := congrArg namedCategories? h
    rw [namedCategories?_pairLevel, namedCategories?_pairLevel] at hnamed
    simpa using hnamed
  · rintro ⟨rfl, rfl⟩
    rfl

/-- There are as many levels to hand out as there are pairs of categories. -/
theorem ncard_isPair : {level | IsPair level}.ncard = 523776 := by
  have hinj : Function.Injective fun p : (_ : Nat) × Nat => pairLevel p.2 p.1 := by
    rintro ⟨hi, lo⟩ ⟨hi', lo'⟩ h
    obtain ⟨rfl, rfl⟩ := pairLevel_inj.mp h
    rfl
  have hpairs : {level | IsPair level} = (fun p : (_ : Nat) × Nat => pairLevel p.2 p.1) ''
      ((Finset.range categories).sigma fun hi => Finset.range hi) := by
    ext level
    simp only [IsPair, Set.mem_ofPred_eq, Set.mem_image, Finset.mem_coe, Finset.mem_sigma,
      Finset.mem_range, Sigma.exists]
    constructor
    · rintro ⟨lo, hi, hlt, hhi, rfl⟩
      exact ⟨hi, lo, ⟨hhi, hlt⟩, rfl⟩
    · rintro ⟨hi, lo, ⟨hhi, hlt⟩, rfl⟩
      exact ⟨lo, hi, hlt, hhi, rfl⟩
  rw [hpairs, Set.ncard_image_of_injective _ hinj, Set.ncard_coe_finset, Finset.card_sigma]
  simp only [Finset.card_range, Finset.sum_range_id]
  rfl

/-! ### The next level -/

namespace Levels

variable {levels levels' : Levels} {level : String} {lo hi lo' hi' n : Nat}

/-- The first pair, by the higher category and then by the lower one, whose level is free. -/
structure FirstFree (levels : Levels) (lo hi : Nat) : Prop where
  lt : lo < hi
  bounded : hi < categories
  free : pairLevel lo hi ∉ levels
  first : ∀ lo' hi', lo' < hi' → hi' < hi ∨ hi' = hi ∧ lo' < lo → pairLevel lo' hi' ∈ levels

theorem FirstFree.unique (h : levels.FirstFree lo hi) (h' : levels.FirstFree lo' hi') :
    lo = lo' ∧ hi = hi' := by
  have hbefore : ¬(hi < hi' ∨ hi = hi' ∧ lo < lo') := fun hlt => h.free (h'.first lo hi h.lt hlt)
  have hafter : ¬(hi' < hi ∨ hi' = hi ∧ lo' < lo) :=
    fun hlt => h'.free (h.first lo' hi' h'.lt hlt)
  omega

/-- Every pair is reserved. -/
def Full (levels : Levels) : Prop := ∀ level, IsPair level → level ∈ levels

theorem firstFree_eq_none_iff : levels.firstFree = none ↔ levels.Full := by
  simp only [firstFree, firstFreeBelow, List.findSome?_eq_none_iff, List.mem_range,
    Option.map_eq_none_iff, List.find?_eq_none, Bool.not_eq_true', Bool.not_eq_false,
    ← Std.ExtHashSet.mem_iff_contains]
  constructor
  · rintro h l ⟨lo, hi, hlt, hhi, rfl⟩
    exact h hi hhi lo hlt
  · intro h hi hhi lo hlt
    exact h _ ⟨lo, hi, hlt, hhi, rfl⟩

theorem firstFree_eq_some_iff : levels.firstFree = some level ↔
    ∃ lo hi, levels.FirstFree lo hi ∧ level = pairLevel lo hi := by
  constructor
  · intro h
    obtain ⟨lo, hi, hlt, hhi, rfl, hfirst⟩ := first_of_firstFree h
    exact ⟨lo, hi, ⟨hlt, hhi, not_mem_of_firstFree h, hfirst⟩, rfl⟩
  · rintro ⟨lo, hi, hfirst, rfl⟩
    cases h : levels.firstFree with
    | none =>
      have hpair : IsPair (pairLevel lo hi) := ⟨lo, hi, hfirst.lt, hfirst.bounded, rfl⟩
      exact absurd (firstFree_eq_none_iff.mp h _ hpair) hfirst.free
    | some l =>
      obtain ⟨lo', hi', hlt, hhi, rfl, hbefore⟩ := first_of_firstFree h
      have hfound : levels.FirstFree lo' hi' := ⟨hlt, hhi, not_mem_of_firstFree h, hbefore⟩
      obtain ⟨rfl, rfl⟩ := hfound.unique hfirst
      rfl

theorem reserveNext_eq_ok_iff : levels.reserveNext = .ok (level, levels') ↔
    ∃ lo hi, levels.FirstFree lo hi ∧ level = pairLevel lo hi ∧ levels' = levels.insert level := by
  simp only [← and_assoc, exists_and_right, ← firstFree_eq_some_iff]
  unfold reserveNext
  cases levels.firstFree with
  | none => simp
  | some l =>
    simp only [Except.ok.injEq, Prod.mk.injEq, Option.some.injEq]
    constructor
    · rintro ⟨rfl, rfl⟩
      exact ⟨rfl, rfl⟩
    · rintro ⟨rfl, rfl⟩
      exact ⟨rfl, rfl⟩

theorem reserveNext_eq_error_iff {err : Error} : levels.reserveNext = .error err ↔
    err = .driver model .noFreeLevel ∧ levels.Full := by
  rw [← firstFree_eq_none_iff]
  unfold reserveNext
  cases levels.firstFree with
  | none => simp [model, eq_comm]
  | some l => simp

/-- The levels are those of the pairs with a number below `n`. -/
def FirstPairs (levels : Levels) (n : Nat) : Prop :=
  ∀ l, l ∈ levels ↔
    ∃ lo hi, lo < hi ∧ hi < categories ∧ pairNumber lo hi < n ∧ l = pairLevel lo hi

theorem firstPairs_empty : FirstPairs ∅ 0 := fun l => by
  simp [Std.ExtHashSet.not_mem_empty]

theorem FirstPairs.mem_pairLevel_iff (h : levels.FirstPairs n) (hlt : lo < hi)
    (hhi : hi < categories) : pairLevel lo hi ∈ levels ↔ pairNumber lo hi < n := by
  rw [h]
  constructor
  · rintro ⟨lo', hi', -, -, hn, heq⟩
    obtain ⟨rfl, rfl⟩ := pairLevel_inj.mp heq
    exact hn
  · exact fun hn => ⟨lo, hi, hlt, hhi, hn, rfl⟩

/-- The next pair is the one with the number `n`. -/
theorem FirstPairs.firstFree (h : levels.FirstPairs n) (hlt : lo < hi) (hhi : hi < categories)
    (hn : pairNumber lo hi = n) : levels.FirstFree lo hi where
  lt := hlt
  bounded := hhi
  free := by
    rw [h.mem_pairLevel_iff hlt hhi, hn]
    exact Nat.lt_irrefl n
  first lo' hi' hlt' hbefore := by
    have hhi' : hi' < categories := by omega
    rw [h.mem_pairLevel_iff hlt' hhi', ← hn, pairNumber_lt_iff hlt' hlt]
    exact hbefore

theorem FirstPairs.insert (h : levels.FirstPairs n) (hlt : lo < hi) (hhi : hi < categories)
    (hn : pairNumber lo hi = n) : FirstPairs (levels.insert (pairLevel lo hi)) (n + 1) := by
  intro l
  rw [Std.ExtHashSet.mem_insert, beq_iff_eq, h]
  constructor
  · rintro (rfl | ⟨lo', hi', hlt', hhi', hn', rfl⟩)
    · exact ⟨lo, hi, hlt, hhi, by omega, rfl⟩
    · exact ⟨lo', hi', hlt', hhi', by omega, rfl⟩
  · rintro ⟨lo', hi', hlt', hhi', hn', rfl⟩
    rcases Nat.lt_succ_iff_lt_or_eq.mp hn' with hn' | hn'
    · exact .inr ⟨lo', hi', hlt', hhi', hn', rfl⟩
    · obtain ⟨rfl, rfl⟩ := pairNumber_inj hlt hlt' (hn.trans hn'.symm)
      exact .inl rfl

/-- Once all pairs are reserved none is added. -/
theorem FirstPairs.full (h : levels.FirstPairs n) (hn : 523776 ≤ n) :
    levels.Full ∧ levels.FirstPairs (n + 1) := by
  have hbelow : ∀ {lo hi m}, lo < hi → hi < categories → n ≤ m → pairNumber lo hi < m :=
    fun hlt hhi hm => by
      have := (pairNumber_lt_count_iff hlt).mpr hhi
      omega
  refine ⟨?_, fun l => ?_⟩
  · rintro l ⟨lo, hi, hlt, hhi, rfl⟩
    exact (h.mem_pairLevel_iff hlt hhi).mpr (hbelow hlt hhi (Nat.le_refl n))
  · rw [h]
    constructor
    · rintro ⟨lo, hi, hlt, hhi, -, rfl⟩
      exact ⟨lo, hi, hlt, hhi, hbelow hlt hhi (Nat.le_succ n), rfl⟩
    · rintro ⟨lo, hi, hlt, hhi, -, rfl⟩
      exact ⟨lo, hi, hlt, hhi, hbelow hlt hhi (Nat.le_refl n), rfl⟩

end Levels

/-! ### Domains that want a label -/

/-- The first entry of the domain is dynamic and has no label yet, and the context that its label
starts from can be read. -/
def WantsLabel (d : Definition) : Prop :=
  ∃ e base, d.findEntry model = some e ∧ e.type = .dynamic ∧ e.label = none ∧
    baseContext e = .ok base

/-- A label is asked for that takes a level. -/
inductive Demand.Asks : Demand → Prop
  | generate {host : Host} {d : Definition} (wants : WantsLabel d) :
      Asks (.operation host .generate d)

section Scenes

variable {s : Scene} {levels levels' : Levels} {level : String} {err : Error}

theorem perform_generate_of_next (hs : s.state = .selinux levels) (hw : WantsLabel s.definition)
    (hnext : levels.reserveNext = .ok (level, levels')) : ∃ d',
      perform .generate s = (.ok (), { s with state := .selinux levels', definition := d' }) ∧
        Holds d' level := by
  obtain ⟨e, base, hf, ht, hl, hbase⟩ := hw
  have hf : s.findEntry model = some e := hf
  have hlevels : s.levels = .ok levels := Scene.levels_eq_ok_iff.mpr hs
  have hgenerate : generate s = .ok (.selinux levels', s.definition.editEntry model
      (·.withLabels (some (base.withLevel (some level)).text)
        (some (imageLabel (some level))))) := by
    simp only [generate, hf, ht, hl, hbase, hlevels, hnext, bind, Except.bind]
    rfl
  refine ⟨_, by rw [perform, hgenerate, Scene.after_ok], ?_⟩
  have hheld := holds_editEntry_iff hf
    (LabelEntry.model_withLabels · (some (base.withLevel (some level)).text)
      (some (imageLabel (some level)))) (wellFormed_of_baseContext hbase) ht rfl level
  exact hheld.mpr rfl

theorem perform_generate_of_full (hs : s.state = .selinux levels) (hw : WantsLabel s.definition)
    (hfull : levels.reserveNext = .error err) : perform .generate s = (.error err, s) := by
  obtain ⟨e, base, hf, ht, hl, hbase⟩ := hw
  have hf : s.findEntry model = some e := hf
  have hlevels : s.levels = .ok levels := Scene.levels_eq_ok_iff.mpr hs
  have hgenerate : generate s = .error err := by
    simp only [generate, hf, ht, hl, hbase, hlevels, hfull, bind, Except.bind]
  rw [perform, hgenerate, Scene.after_error]

end Scenes

end Selinux

/-! ### Requests for labels -/

namespace Engine

open Selinux

variable {s : Engine} {id : ManagerId} {levels : Levels} {d : Definition} {lo hi n : Nat}

/-- A domain that wants a label gets the first free pair, and nothing else in the engine changes. -/
theorem edit_generate_of_firstFree (hk : s.KeepsLevels id levels) (hw : WantsLabel d)
    (hfirst : levels.FirstFree lo hi) : ∃ d', edit id .generate ⟨s, d⟩ = (.ok (),
        ⟨(s.noted id .generate).withLevels id (levels.insert (pairLevel lo hi)), d'⟩) ∧
      Holds d' (pairLevel lo hi) := by
  have hnext := Levels.reserveNext_eq_ok_iff.mpr ⟨lo, hi, hfirst, rfl, rfl⟩
  obtain ⟨d', hperform, hheld⟩ :=
    perform_generate_of_next (s := ⟨model, .selinux levels, s.host, d⟩) rfl hw hnext
  exact ⟨d', edit_contexts hk .generate rfl hperform rfl rfl, hheld⟩

/-- It gets none if all pairs are reserved, and then nothing changes at all. -/
theorem edit_generate_of_full (hk : s.KeepsLevels id levels) (hw : WantsLabel d)
    (hfull : levels.Full) : edit id .generate ⟨s, d⟩ =
      (.error (.driver model .noFreeLevel), ⟨s.noted id .generate, d⟩) := by
  have hnone := Levels.reserveNext_eq_error_iff.mpr ⟨rfl, hfull⟩
  have hperform :=
    perform_generate_of_full (s := ⟨model, .selinux levels, s.host, d⟩) rfl hw hnone
  rw [edit_contexts hk .generate rfl hperform rfl rfl, withLevels_self (hk.noted .generate)]

/-- One more pair is reserved with every request for a label, in the order of their numbers. -/
theorem firstPairs_serve (hk : s.KeepsLevels id levels) (hfirst : levels.FirstPairs n)
    {x : Demand} (hx : x.Asks) :
    ∃ levels', (s.serve id x).KeepsLevels id levels' ∧ levels'.FirstPairs (n + 1) := by
  obtain ⟨host, d, hw⟩ : ∃ host d, x = .operation host .generate d ∧ WantsLabel d := by
    cases hx with
    | generate wants => exact ⟨_, _, rfl, wants⟩
  obtain ⟨rfl, hw⟩ := hw
  have hk' : KeepsLevels { s with host } id levels := hk
  obtain ⟨lo, hi, hlt, hn⟩ := exists_pairNumber n
  by_cases hhi : hi < categories
  · obtain ⟨d', hedit, -⟩ := edit_generate_of_firstFree hk' hw (hfirst.firstFree hlt hhi hn)
    refine ⟨_, ?_, hfirst.insert hlt hhi hn⟩
    rw [serve, hedit]
    exact (hk'.noted .generate).withLevels
  · have hcount : 523776 ≤ n := by
      rw [← hn]
      exact Nat.le_of_not_lt fun h => hhi ((pairNumber_lt_count_iff hlt).mp h)
    obtain ⟨hfull, hmore⟩ := hfirst.full hcount
    refine ⟨levels, ?_, hmore⟩
    rw [serve, edit_generate_of_full hk' hw hfull]
    exact hk'.noted .generate

theorem firstPairs_serveAll (hk : s.KeepsLevels id levels) (hfirst : levels.FirstPairs n)
    {before : List Demand} (hbefore : ∀ x ∈ before, x.Asks) :
    ∃ levels', (s.serveAll id before).KeepsLevels id levels' ∧
      levels'.FirstPairs (n + before.length) := by
  induction before generalizing s levels n with
  | nil => exact ⟨levels, hk, hfirst⟩
  | cons x before ih =>
    obtain ⟨mid, hmid, hmore⟩ := firstPairs_serve hk hfirst (hbefore x (List.mem_cons_self ..))
    obtain ⟨levels', hrest, hall⟩ :=
      ih hmid hmore fun y hy => hbefore y (List.mem_cons_of_mem x hy)
    refine ⟨levels', hrest, ?_⟩
    rwa [List.length_cons, Nat.add_comm before.length, ← Nat.add_assoc]

/-- The level that is reserved next is that of the first free pair, whatever else is reserved, and
there is none exactly if all pairs are reserved. A domain that wants a label gets that level, or
fails and changes nothing. So a manager that reserves nothing at first hands out the pairs in the
order of their numbers, one to each domain that asks, until all of them are reserved. -/
theorem pairs_handed_out_in_order (hk : s.KeepsLevels id levels) :
    (∀ level levels', levels.reserveNext = .ok (level, levels') ↔ ∃ lo hi,
      levels.FirstFree lo hi ∧ level = pairLevel lo hi ∧ levels' = levels.insert level) ∧
    ({level | IsPair level}.ncard = 523776 ∧ ∀ err, levels.reserveNext = .error err ↔
      err = .driver model .noFreeLevel ∧ levels.Full) ∧
    (∀ d, WantsLabel d →
      (∀ lo hi, levels.FirstFree lo hi → ∃ d', edit id .generate ⟨s, d⟩ = (.ok (),
          ⟨(s.noted id .generate).withLevels id (levels.insert (pairLevel lo hi)), d'⟩) ∧
        Holds d' (pairLevel lo hi)) ∧
      (levels.Full → edit id .generate ⟨s, d⟩ =
        (.error (.driver model .noFreeLevel), ⟨s.noted id .generate, d⟩))) ∧
    (levels = ∅ → ∀ before : List Demand, (∀ x ∈ before, x.Asks) → ∀ host d, WantsLabel d →
      let t := { s.serveAll id before with host }
      (before.length < 523776 → ∃ lo hi, lo < hi ∧ hi < categories ∧
        hi * (hi - 1) / 2 + lo = before.length ∧
        (∀ lo' hi', lo' < hi' → hi' * (hi' - 1) / 2 + lo' = before.length → lo' = lo ∧ hi' = hi) ∧
        ∃ st, edit id .generate ⟨t, d⟩ = (.ok (), st) ∧ Holds st.definition (pairLevel lo hi)) ∧
      (523776 ≤ before.length → edit id .generate ⟨t, d⟩ =
        (.error (.driver model .noFreeLevel), ⟨t.noted id .generate, d⟩))) := by
  refine ⟨fun _ _ => Levels.reserveNext_eq_ok_iff,
    ⟨ncard_isPair, fun _ => Levels.reserveNext_eq_error_iff⟩, fun d hw => ⟨fun lo hi hfirst => ?_,
    fun hfull => ?_⟩, ?_⟩
  · exact edit_generate_of_firstFree hk hw hfirst
  · exact edit_generate_of_full hk hw hfull
  · rintro rfl before hbefore host d hw
    obtain ⟨levels, hserved, hfirst⟩ :=
      firstPairs_serveAll hk Levels.firstPairs_empty hbefore
    rw [Nat.zero_add] at hfirst
    have hk' : KeepsLevels { s.serveAll id before with host } id levels := hserved
    refine ⟨fun hfew => ?_, fun hmany => edit_generate_of_full hk' hw (hfirst.full hmany).1⟩
    obtain ⟨lo, hi, hlt, hn⟩ := exists_pairNumber before.length
    have hhi : hi < categories := (pairNumber_lt_count_iff hlt).mp (hn ▸ hfew)
    obtain ⟨d', hedit, hheld⟩ :=
      edit_generate_of_firstFree hk' hw (hfirst.firstFree hlt hhi hn)
    refine ⟨lo, hi, hlt, hhi, hn, fun lo' hi' hlt' hn' => ?_, _, hedit, hheld⟩
    exact pairNumber_inj hlt' hlt (Eq.trans hn' hn.symm)

theorem wantsLabel_numberedGuest (number : Nat) : WantsLabel (numberedGuest number none) :=
  ⟨_, .domainDefault, rfl, rfl, rfl, rfl⟩

/-- The second of two guests gets the pair with the number one. -/
theorem second_pair_numberedGuest : ∃ st,
    edit 0 .generate ⟨{ contextHost.serveAll 0 [.operation {} .generate (numberedGuest 0 none)] with
      host := {} }, numberedGuest 1 none⟩ = (.ok (), st) ∧
    Holds st.definition "s0:c0,c2" := by
  have hk : contextHost.KeepsLevels 0 ∅ := ⟨_, rfl, rfl, rfl⟩
  obtain ⟨-, -, -, hfresh⟩ := pairs_handed_out_in_order hk
  have hasks : ∀ x ∈ [Demand.operation {} .generate (numberedGuest 0 none)], x.Asks := by
    rintro x hx
    obtain rfl := List.mem_singleton.mp hx
    exact .generate (wantsLabel_numberedGuest 0)
  obtain ⟨hnext, -⟩ := hfresh rfl _ hasks {} _ (wantsLabel_numberedGuest 1)
  obtain ⟨lo, hi, -, -, -, hunique, st, hedit, hheld⟩ := hnext (by decide)
  obtain ⟨rfl, rfl⟩ := hunique 0 2 (by decide) rfl
  exact ⟨st, hedit, hheld⟩

end Engine

end Confinement

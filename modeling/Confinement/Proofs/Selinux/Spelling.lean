import Confinement.Proofs.Selinux.Demands
import Confinement.Proofs.Text.Decimal
import Confinement.Proofs.Text.Split

/-!
# Levels that name the same categories

Two levels may name the same two categories: in another order, one of them twice, or as a range.
A manager tells levels apart by their texts, and hands out a pair in one spelling only. So a label
that it generates shares its pair with no level that the manager has handed out, but it may share
the pair with a level that a domain has brought in another spelling.
-/

namespace Confinement

/-! ### Reading the categories of a level -/

namespace Selinux

def category? : List Char → Option Nat
  | 'c' :: digits => Text.digits? digits
  | _ => none

/-- The categories of one part of a list: a single one, or a range from one to another. -/
def categoryRange? (s : List Char) : Option (List Nat) :=
  match Text.cutFirst '.' s with
  | none => (category? s).map fun n => [n]
  | some (first, last) => do
    let lo ← category? first
    let hi ← category? last
    if lo ≤ hi then some (List.range' lo (hi + 1 - lo)) else none

/-- The categories that a level of the sensitivity `s0` lists. -/
def namedCategories? (level : String) : Option (List Nat) := do
  let (sensitivity, list) ← Text.cutFirst ':' level.toList
  if sensitivity = ['s', '0'] then
    let ranges ← (Text.split ',' list).mapM categoryRange?
    some ranges.flatten
  else none

/-- The level names the two categories, and no others. -/
def Names (level : String) (a b : Nat) : Prop :=
  ∃ named, namedCategories? level = some named ∧ ∀ n, n ∈ named ↔ n = a ∨ n = b

variable {level : String} {lo hi a b : Nat}

theorem Names.symm (h : Names level a b) : Names level b a := by
  obtain ⟨named, hnamed, hmem⟩ := h
  exact ⟨named, hnamed, fun n => (hmem n).trans or_comm⟩

theorem categoryRange?_repr (n : Nat) : categoryRange? ('c' :: n.repr.toList) = some [n] := by
  have hnone : Text.cutFirst '.' ('c' :: n.repr.toList) = none := by
    rw [Text.cutFirst_eq_none_iff, List.mem_cons, not_or]
    refine ⟨by decide, fun h => ?_⟩
    have hdigit := Text.isDigit_of_mem_repr h
    revert hdigit
    decide
  rw [categoryRange?, hnone, category?, Text.digits?_repr]
  rfl

/-- A level that is handed out lists the lower category and then the higher one. -/
theorem namedCategories?_pairLevel (lo hi : Nat) :
    namedCategories? (pairLevel lo hi) = some [lo, hi] := by
  have htext : (pairLevel lo hi).toList =
      ['s', '0'] ++ ':' :: (('c' :: lo.repr.toList) ++ ',' :: ('c' :: hi.repr.toList)) := by
    simp [pairLevel]
  have hcomma : ∀ n : Nat, ',' ∉ 'c' :: n.repr.toList := by
    intro n h
    rcases List.mem_cons.mp h with h | h
    · revert h
      decide
    · have hdigit := Text.isDigit_of_mem_repr h
      revert hdigit
      decide
  rw [namedCategories?, htext, Text.cutFirst_append (by decide)]
  simp only [Option.bind_eq_bind, Option.bind_some, if_true]
  rw [Text.split_append, Text.split_of_not_mem (hcomma lo), Text.split_of_not_mem (hcomma hi)]
  simp only [List.cons_append, List.nil_append, List.mapM_cons, List.mapM_nil,
    categoryRange?_repr]
  rfl

/-- No two pairs that are handed out are the same two categories. -/
theorem names_pairLevel_iff (hlt : lo < hi) (hab : a < b) :
    Names (pairLevel lo hi) a b ↔ a = lo ∧ b = hi := by
  unfold Names
  simp only [namedCategories?_pairLevel, Option.some.injEq, exists_eq_left', List.mem_cons,
    List.not_mem_nil, or_false]
  constructor
  · intro h
    have hlo := (h lo).mp (.inl rfl)
    have hhi := (h hi).mp (.inr rfl)
    omega
  · rintro ⟨rfl, rfl⟩ n
    exact Iff.rfl

end Selinux

/-! ### Labels that are generated -/

namespace Engine

open Selinux

variable {s : Engine} {id : ManagerId} {initial : Levels}

/-- Every level that is reserved was so at the start, has come with a domain, or is a pair that was
handed out. -/
theorem origin_serveAll (hk : s.KeepsLevels id initial) (demands : List Demand) :
    ∃ levels, (s.serveAll id demands).KeepsLevels id levels ∧
      ∀ l ∈ levels, (l ∈ initial ∨ ∃ x ∈ demands, x.Brings l) ∨ IsPair l := by
  refine keepsLevels_serveAll (P := fun levels => ∀ l ∈ levels, (l ∈ initial ∨ _) ∨ IsPair l)
    (fun x hx levels levels' taken hmoves horigin l hl => ?_) hk fun l hl => .inl (.inl hl)
  rcases (hmoves.mem_iff l).mp hl with ⟨hl, -⟩ | hbrought | htaken
  · exact horigin l hl
  · exact .inl (.inr ⟨x, hx, hbrought⟩)
  · exact .inr (hmoves.pair l htaken).2

/-- Whatever the manager was asked before, a dynamic label gets the first pair whose own spelling is
not reserved. A reserved level that names the same two categories is spelled in another way, and
comes from a domain, or from before. -/
theorem pair_shared_only_in_other_spelling (hk : s.KeepsLevels id initial)
    (demands : List Demand) {d : Definition} {st : Stage}
    (h : edit id .generate ⟨s.serveAll id demands, d⟩ = (.ok (), st)) {x : LabelEntry}
    (hx : st.definition.findEntry model = some x) (ht : x.type = .dynamic) :
    ∃ levels lo hi, (s.serveAll id demands).KeepsLevels id levels ∧
      lo < hi ∧ hi < categories ∧ Names (pairLevel lo hi) lo hi ∧
      Holds st.definition (pairLevel lo hi) ∧ pairLevel lo hi ∉ levels ∧
      (∀ lo' hi', lo' < hi' → hi' < hi ∨ hi' = hi ∧ lo' < lo → pairLevel lo' hi' ∈ levels) ∧
      ∀ l ∈ levels, Names l lo hi ∨ Names l hi lo →
        l ≠ pairLevel lo hi ∧ (l ∈ initial ∨ ∃ y ∈ demands, y.Brings l) := by
  obtain ⟨levels, hlevels, horigin⟩ := origin_serveAll hk demands
  obtain ⟨level, hnext, hheld, -⟩ := holds_of_generate hlevels h hx ht
  obtain ⟨lo, hi, hlt, hhi, rfl, hfirst⟩ :=
    Levels.first_of_firstFree (Levels.firstFree_of_reserveNext hnext)
  have hfree := (Levels.reserveNext_eq_ok hnext).1
  have hnames : Names (pairLevel lo hi) lo hi := (names_pairLevel_iff hlt hlt).mpr ⟨rfl, rfl⟩
  refine ⟨levels, lo, hi, hlevels, hlt, hhi, hnames, hheld, hfree, hfirst, fun l hl hname => ?_⟩
  have hname : Names l lo hi := hname.elim (fun h => h) Names.symm
  refine ⟨fun heq => hfree (heq ▸ hl), ?_⟩
  rcases horigin l hl with houtside | ⟨lo', hi', hlt', -, rfl⟩
  · exact houtside
  · -- A pair that was handed out is this very pair, which is free.
    obtain ⟨rfl, rfl⟩ := (names_pairLevel_iff hlt' hlt).mp hname
    exact absurd hl hfree

/-- A guest that runs with the first two categories, the higher one first. -/
def swappedGuest : Definition := numberedGuest 1 (some "system_u:system_r:svirt_t:s0:c1,c0")

/-- The level of the guest is reserved, and the first pair of all stays free. -/
theorem reserve_swappedGuest : ∃ t, contextHost.reserveDomainLevel 0 swappedGuest = (.ok (), t) ∧
    t.manager? 0 = some ⟨.selinux, "qemu", {}, .selinux ((∅ : Levels).insert "s0:c1,c0")⟩ ∧
    pairLevel 0 1 ∉ (∅ : Levels).insert "s0:c1,c0" := by
  have hm : contextHost.manager 0 = .ok ⟨.selinux, "qemu", {}, .selinux ∅⟩ := rfl
  have hheld : heldLevel swappedGuest = .ok (some "s0:c1,c0") := rfl
  have hfree : Levels.reserve ∅ "s0:c1,c0" = (.ok (), (∅ : Levels).insert "s0:c1,c0") := by
    simp [Levels.reserve]
  refine ⟨contextHost.setManager 0
    ⟨.selinux, "qemu", {}, .selinux ((∅ : Levels).insert "s0:c1,c0")⟩, ?_, rfl, ?_⟩
  · simp only [reserveDomainLevel, withScene, hm, Selinux.reserveDomainLevel, hheld,
      Scene.after_ok, reserveLevel, hfree]
  · have hne : "s0:c1,c0" ≠ pairLevel 0 1 := by decide
    simpa using hne

/-- The next guest gets a pair that only the swapped level may name. -/
theorem pair_shared_swappedGuest : ∃ st,
    edit 0 .generate ⟨contextHost.serveAll 0 [.reservation swappedGuest], numberedGuest 0 none⟩ =
      (.ok (), st) ∧
    ∃ (levels : Levels) (lo hi : Nat), Holds st.definition (pairLevel lo hi) ∧
      pairLevel lo hi ∉ levels ∧
      ∀ l ∈ levels, Names l lo hi → l ≠ pairLevel lo hi ∧ Holds swappedGuest l := by
  obtain ⟨t, hreserve, ht, hfirst⟩ := reserve_swappedGuest
  obtain ⟨u, hgenerate, -⟩ := edit_generate_of_free ht hfirst (d := numberedGuest 0 none) rfl rfl
    rfl rfl
  have hserved : contextHost.serveAll 0 [.reservation swappedGuest] = t :=
    congrArg Prod.snd hreserve
  rw [← hserved] at hgenerate
  obtain ⟨levels, lo, hi, -, -, -, -, hheld, hfree, -, hshared⟩ :=
    pair_shared_only_in_other_spelling ⟨_, rfl, rfl, rfl⟩ _ hgenerate rfl rfl
  refine ⟨_, hgenerate, levels, lo, hi, hheld, hfree, fun l hl hname => ?_⟩
  obtain ⟨hne, hempty | ⟨y, hy, hbrings⟩⟩ := hshared l hl (.inl hname)
  · exact absurd hempty Std.ExtHashSet.not_mem_empty
  · obtain rfl := List.mem_singleton.mp hy
    cases hbrings with
    | stored held => exact ⟨hne, held⟩

/-- The next guest gets the two categories that the first one runs with. -/
theorem swapped_pair_is_handed_out : ∃ t u d',
    contextHost.reserveDomainLevel 0 swappedGuest = (.ok (), t) ∧
    t.KeepsLevels 0 ((∅ : Levels).insert "s0:c1,c0") ∧ Names "s0:c1,c0" 0 1 ∧
    edit 0 .generate ⟨t, numberedGuest 0 none⟩ = (.ok (), ⟨u, d'⟩) ∧
    Holds d' "s0:c0,c1" ∧ Names "s0:c0,c1" 0 1 := by
  obtain ⟨t, hreserve, ht, hfirst⟩ := reserve_swappedGuest
  obtain ⟨u, hgenerate, -⟩ := edit_generate_of_free ht hfirst (d := numberedGuest 0 none) rfl rfl
    rfl rfl
  have hlow : pairLevel 0 1 = "s0:c0,c1" := by decide
  have hhigh : pairLevel 1 0 = "s0:c1,c0" := by decide
  have hswapped : Names (pairLevel 1 0) 0 1 :=
    ⟨[1, 0], namedCategories?_pairLevel 1 0, fun n => by simp [or_comm]⟩
  have hnames : Names (pairLevel 0 1) 0 1 :=
    (names_pairLevel_iff Nat.one_pos Nat.one_pos).mpr ⟨rfl, rfl⟩
  rw [hhigh] at hswapped
  rw [hlow] at hnames
  exact ⟨t, u, _, hreserve, ⟨_, ht, rfl, rfl⟩, hswapped, hgenerate,
    holds_iff_heldLevel.mpr rfl, hnames⟩

end Engine

end Confinement

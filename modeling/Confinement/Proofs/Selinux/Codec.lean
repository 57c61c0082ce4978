import Confinement.Proofs.Text.Split
import Confinement.Selinux.Context

/-!
# Contexts and their texts

A context whose first three parts are not empty and hold no colon is read back from its text, and
what is read from a text is such a context, with that text. A text can be read if it has three parts
that are not empty, whatever follows on them.
-/

namespace Confinement

namespace Selinux.Context

/-- A part that can stand before a colon. -/
def IsPart (s : String) : Prop := s ≠ "" ∧ ':' ∉ s.toList

/-- All of a context but its level is made of parts. -/
structure WellFormed (c : Context) : Prop where
  user : IsPart c.user
  role : IsPart c.role
  type : IsPart c.type

theorem WellFormed.withLevel {c : Context} (h : c.WellFormed) (level : Option String) :
    (c.withLevel level).WellFormed := ⟨h.user, h.role, h.type⟩

theorem toList_text (c : Context) :
    c.text.toList = c.user.toList ++ ':' :: (c.role.toList ++ ':' :: (c.type.toList ++
      (c.level.map fun level => ':' :: level.toList).getD [])) := by
  unfold text
  cases c.level with
  | none => simp
  | some level => simp

/-- Parts without colons are found again. -/
theorem parts?_append {user role type : List Char} (hu : ':' ∉ user) (hr : ':' ∉ role)
    (ht : ':' ∉ type) (level : Option (List Char)) :
    parts? (user ++ ':' :: (role ++ ':' :: (type ++ (level.map (':' :: ·)).getD []))) =
      some (user, role, type, level) := by
  unfold parts?
  rw [Text.cutFirst_append hu]
  simp only [Option.bind_eq_bind, Option.bind_some]
  rw [Text.cutFirst_append hr]
  simp only [Option.bind_some]
  cases level with
  | none =>
    have hnone := Text.cutFirst_eq_none_iff.mpr ht
    simp [hnone]
  | some level =>
    have hsome := Text.cutFirst_append ht level
    simp [hsome]

/-- The parts of a text hold no colons and make up the text. -/
theorem of_parts? {s user role type : List Char} {level : Option (List Char)}
    (h : parts? s = some (user, role, type, level)) :
    ':' ∉ user ∧ ':' ∉ role ∧ ':' ∉ type ∧
      s = user ++ ':' :: (role ++ ':' :: (type ++ (level.map (':' :: ·)).getD [])) := by
  obtain ⟨⟨u, afterUser⟩, hu, h⟩ := Option.bind_eq_some_iff.mp h
  obtain ⟨⟨r, afterRole⟩, hr, h⟩ := Option.bind_eq_some_iff.mp h
  have hs := Text.eq_of_cutFirst hu
  have hafter := Text.eq_of_cutFirst hr
  dsimp only at hafter h
  cases ht : Text.cutFirst ':' afterRole with
  | none =>
    rw [ht] at h
    obtain ⟨rfl, rfl, rfl, rfl⟩ : u = user ∧ r = role ∧ afterRole = type ∧ none = level := by
      simpa using h
    refine ⟨Text.not_mem_of_cutFirst hu, Text.not_mem_of_cutFirst hr,
      Text.cutFirst_eq_none_iff.mp ht, ?_⟩
    simp [hs, hafter]
  | some p =>
    obtain ⟨type', level'⟩ := p
    rw [ht] at h
    obtain ⟨rfl, rfl, rfl, rfl⟩ : u = user ∧ r = role ∧ type' = type ∧ some level' = level := by
      simpa using h
    have hlast := Text.eq_of_cutFirst ht
    refine ⟨Text.not_mem_of_cutFirst hu, Text.not_mem_of_cutFirst hr,
      Text.not_mem_of_cutFirst ht, ?_⟩
    simp [hs, hafter, hlast]

/-- What is written is read back. -/
theorem ofText?_text {c : Context} (h : c.WellFormed) : ofText? c.text = some c := by
  obtain ⟨⟨hu, hu'⟩, ⟨hr, hr'⟩, ⟨ht, ht'⟩⟩ := h
  have hparts := parts?_append hu' hr' ht' (c.level.map String.toList)
  rw [Option.map_map] at hparts
  have hne : ¬(c.user.toList = [] ∨ c.role.toList = [] ∨ c.type.toList = []) := by
    simp only [String.toList_eq_nil_iff]
    simp [hu, hr, ht]
  unfold ofText?
  rw [toList_text]
  simp only [Function.comp_def] at hparts
  rw [hparts]
  simp only [if_neg hne, String.ofList_toList, Option.map_map]
  cases c with
  | mk user role type level => cases level <;> simp

theorem parse_text {c : Context} (h : c.WellFormed) : parse c.text = .ok c :=
  parse_eq_ok_iff.mpr (ofText?_text h)

/-- Only well-formed contexts are read. -/
theorem wellFormed_of_ofText? {s : String} {c : Context} (h : ofText? s = some c) :
    c.WellFormed := by
  unfold ofText? at h
  split at h
  · rename_i user role type level hparts
    split at h
    · cases h
    · rename_i hne
      obtain rfl := Option.some.inj h
      simp only [not_or] at hne
      obtain ⟨hu, hr, ht⟩ := hne
      obtain ⟨hu', hr', ht', -⟩ := of_parts? hparts
      have hpart : ∀ cs : List Char, cs ≠ [] → ':' ∉ cs → IsPart (String.ofList cs) := by
        intro cs hcs hcolon
        refine ⟨?_, by rwa [String.toList_ofList]⟩
        rwa [ne_eq, ← String.toList_eq_nil_iff, String.toList_ofList]
      exact ⟨hpart user hu hu', hpart role hr hr', hpart type ht ht'⟩
  · cases h

theorem wellFormed_of_parse {s : String} {c : Context} (h : parse s = .ok c) : c.WellFormed :=
  wellFormed_of_ofText? (parse_eq_ok_iff.mp h)

theorem wellFormed_domainDefault : domainDefault.WellFormed := by
  refine ⟨⟨?_, ?_⟩, ⟨?_, ?_⟩, ⟨?_, ?_⟩⟩ <;> decide

/-! ### Texts that are contexts -/

/-- The text of what was read is what it was read from. -/
theorem text_of_ofText? {s : String} {c : Context} (h : ofText? s = some c) : c.text = s := by
  unfold ofText? at h
  split at h
  · rename_i user role type level hparts
    split at h
    · cases h
    · obtain rfl := Option.some.inj h
      obtain ⟨-, -, -, hs⟩ := of_parts? hparts
      rw [← String.toList_inj, toList_text, hs]
      cases level <;> simp
  · cases h

theorem parse_eq_ok_iff_text {s : String} {c : Context} :
    parse s = .ok c ↔ c.WellFormed ∧ c.text = s := by
  constructor
  · intro h
    exact ⟨wellFormed_of_parse h, text_of_ofText? (parse_eq_ok_iff.mp h)⟩
  · rintro ⟨hc, rfl⟩
    exact parse_text hc

/-- The parts before the level are the first three pieces between colons. -/
theorem exists_parts?_iff {s user role type : List Char} :
    (∃ level, parts? s = some (user, role, type, level)) ↔
      ∃ rest, Text.split ':' s = user :: role :: type :: rest := by
  constructor
  · rintro ⟨level, h⟩
    obtain ⟨hu, hr, ht, rfl⟩ := of_parts? h
    rw [Text.split_append, Text.split_of_not_mem hu, Text.split_append, Text.split_of_not_mem hr]
    cases level with
    | none => exact ⟨[], by simp [Text.split_of_not_mem ht]⟩
    | some level =>
      exact ⟨Text.split ':' level, by simp [Text.split_append, Text.split_of_not_mem ht]⟩
  · rintro ⟨rest, h⟩
    obtain ⟨afterUser, huser, h⟩ := Text.cutFirst_of_split h
    obtain ⟨afterRole, hrole, h⟩ := Text.cutFirst_of_split h
    simp only [parts?, huser, hrole, Option.bind_eq_bind, Option.bind_some]
    cases hc : Text.cutFirst ':' afterRole with
    | none =>
      rw [Text.split_of_not_mem (Text.cutFirst_eq_none_iff.mp hc)] at h
      exact ⟨none, by simp [(List.cons.inj h).1]⟩
    | some p =>
      obtain ⟨before, after⟩ := p
      rw [Text.split_eq_of_cutFirst hc] at h
      exact ⟨some after, by simp [(List.cons.inj h).1]⟩

theorem exists_parse_iff {s : String} : (∃ c, parse s = .ok c) ↔
    ∃ user role type rest, Text.split ':' s.toList = user :: role :: type :: rest ∧
      user ≠ [] ∧ role ≠ [] ∧ type ≠ [] := by
  simp only [parse_eq_ok_iff]
  constructor
  · rintro ⟨c, h⟩
    unfold ofText? at h
    split at h
    · rename_i user role type level hparts
      split at h
      · cases h
      · rename_i hne
        obtain ⟨rest, hsplit⟩ := exists_parts?_iff.mp ⟨level, hparts⟩
        simp only [not_or] at hne
        exact ⟨user, role, type, rest, hsplit, hne⟩
    · cases h
  · rintro ⟨user, role, type, rest, hsplit, hu, hr, ht⟩
    obtain ⟨level, hparts⟩ := exists_parts?_iff.mpr ⟨rest, hsplit⟩
    have hne : ¬(user = [] ∨ role = [] ∨ type = []) := by simp [hu, hr, ht]
    simp only [ofText?, hparts, if_neg hne]
    exact ⟨_, rfl⟩

/-- A text is read as a context if it has at least three pieces between colons and the first three
are not empty. It is read as the one context of parts without colons that has this text, and so no
two such contexts have the same text. -/
theorem parse_inverts_text (s : String) :
    ((∃ c, parse s = .ok c) ↔
      ∃ user role type rest, Text.split ':' s.toList = user :: role :: type :: rest ∧
        user ≠ [] ∧ role ≠ [] ∧ type ≠ []) ∧
    (∀ c, parse s = .ok c ↔ c.WellFormed ∧ c.text = s) ∧
    ∀ c c' : Context, c.WellFormed → c'.WellFormed → (c.text = c'.text ↔ c = c') := by
  refine ⟨exists_parse_iff, fun c => parse_eq_ok_iff_text, fun c c' hc hc' => ?_⟩
  refine ⟨fun htext => ?_, congrArg text⟩
  have hread := parse_text hc
  rw [htext, parse_text hc'] at hread
  exact (Except.ok.inj hread).symm

end Selinux.Context

end Confinement

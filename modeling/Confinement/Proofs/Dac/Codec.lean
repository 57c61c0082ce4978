import Confinement.Dac.Ownership
import Confinement.Proofs.Text.Decimal
import Confinement.Proofs.Text.Split

/-!
# Owners and their labels

The label of an owner is read back as that owner, whatever its two ids are. So different owners have
different labels. What is read is two ids with a colon between them, each in decimal digits that may
stand behind up to two plus signs: one is the sign of the label and one that of the number.
-/

namespace Confinement.Ownership

/-- An id is read back behind the sign of the label. -/
theorem id?_idText (id : UInt32) : id? ('+' :: (idText id).toList) = some id := by
  rw [id?, Text.dropPlus_cons_plus]
  exact Text.uint32?_repr id

/-- What is written is read back. -/
theorem ofLabel?_label (o : Ownership) : ofLabel? o.label = some o := by
  have htext : o.label.toList =
      ('+' :: (idText o.user).toList) ++ ':' :: '+' :: (idText o.group).toList := by
    simp [label]
  have hcolon : ':' ∉ '+' :: (idText o.user).toList := by
    rintro (_ | ⟨_, h⟩)
    cases Text.isDigit_of_mem_repr h
  rw [ofLabel?, htext, Text.cutFirst_append hcolon]
  simp only [id?_idText]

theorem parse_label (o : Ownership) : parse o.label = .ok o :=
  parse_eq_ok_iff.mpr (ofLabel?_label o)

theorem label_inj {o o' : Ownership} : o.label = o'.label ↔ o = o' := by
  refine ⟨fun h => ?_, congrArg label⟩
  have hread := ofLabel?_label o
  rw [h, ofLabel?_label] at hread
  exact (Option.some.inj hread).symm

/-! ### Texts that are labels -/

/-- The ids of `o`, each behind at most `signs` plus signs, with a colon between them. -/
def IsLabel (signs : Nat) (s : String) (o : Ownership) : Prop :=
  ∃ user group, s.toList = user ++ ':' :: group ∧
    Text.Writes signs user o.user.toNat ∧ Text.Writes signs group o.group.toNat

/-- No id holds a colon, so a label is cut where it was put together. -/
theorem IsLabel.cutFirst {signs : Nat} {s : String} {o : Ownership} (h : IsLabel signs s o) :
    ∃ user group, Text.cutFirst ':' s.toList = some (user, group) ∧
      Text.Writes signs user o.user.toNat ∧ Text.Writes signs group o.group.toNat := by
  obtain ⟨user, group, hs, huser, hgroup⟩ := h
  have hcolon : ':' ∉ user := by
    intro hmem
    rcases huser.eq_plus_or_isDigit hmem with hplus | hdigit
    · cases hplus
    · cases hdigit
  exact ⟨user, group, by rw [hs, Text.cutFirst_append hcolon], huser, hgroup⟩

/-- An id is read behind the sign of the label and the sign of the number. -/
theorem id?_eq_some_iff {id : UInt32} {s : List Char} :
    id? s = some id ↔ Text.Writes 2 s id.toNat := by
  exact Text.uint32?_eq_some_iff.trans Text.writes_succ_iff.symm

theorem ofLabel?_eq_some_iff {s : String} {o : Ownership} :
    ofLabel? s = some o ↔ IsLabel 2 s o := by
  constructor
  · intro h
    unfold ofLabel? at h
    split at h
    · rename_i user group hcut
      split at h
      · rename_i u g hu hg
        obtain rfl := Option.some.inj h
        exact ⟨user, group, Text.eq_of_cutFirst hcut, id?_eq_some_iff.mp hu,
          id?_eq_some_iff.mp hg⟩
      · cases h
    · cases h
  · intro h
    obtain ⟨user, group, hcut, huser, hgroup⟩ := h.cutFirst
    rw [ofLabel?, hcut]
    simp only [id?_eq_some_iff.mpr huser, id?_eq_some_iff.mpr hgroup]

theorem parse_eq_error_iff {s : String} {e : Error} :
    parse s = .error e ↔ ofLabel? s = none ∧ e = .invalidLabel "dac" s := by
  unfold parse
  split
  · rename_i o hread
    simp [hread]
  · rename_i hread
    simp [hread, eq_comm]

theorem parse_cases (s : String) :
    (∃ o, parse s = .ok o) ∨ parse s = .error (.invalidLabel "dac" s) := by
  unfold parse
  split
  · exact .inl ⟨_, rfl⟩
  · exact .inr rfl

/-- A text is read as an owner if it is one or more digits, a colon, and one or more digits, with up
to two plus signs before either run of digits, and the digits are the two ids. Every other text is
refused, and the refusal names it. -/
theorem parse_accepts_labels (s : String) :
    (∀ o, parse s = .ok o ↔ IsLabel 2 s o) ∧
    ∀ e, parse s = .error e ↔ (∀ o, ¬IsLabel 2 s o) ∧ e = .invalidLabel "dac" s := by
  constructor
  · intro o
    rw [parse_eq_ok_iff, ofLabel?_eq_some_iff]
  · intro e
    simp only [parse_eq_error_iff, Option.eq_none_iff_forall_ne_some, ne_eq, ofLabel?_eq_some_iff]

/-- The sign of a label is read twice, though a label has it once. -/
theorem doubled_sign_accepted :
    parse "++107:+36" = .ok ⟨107, 36⟩ ∧ ∀ o, ¬IsLabel 1 "++107:+36" o := by
  refine ⟨parse_eq_ok_iff.mpr (by decide), fun o h => ?_⟩
  obtain ⟨user, group, hcut, huser, -⟩ := h.cutFirst
  have hcut' : Text.cutFirst ':' "++107:+36".toList = some ("++107".toList, "+36".toList) := by
    decide
  obtain ⟨rfl, -⟩ := Prod.mk.inj (Option.some.inj (hcut'.symm.trans hcut))
  have hread := Text.uint32?_eq_some_iff.mpr huser
  have hnone : Text.uint32? "++107".toList = none := by decide
  cases hnone.symm.trans hread

end Confinement.Ownership

import Confinement.DomainName
import Confinement.Layout
import Confinement.Proofs.Path.Components

/-!
# Files of domains

A name of a domain is a short text of letters, digits and a few other characters, none of which
means anything in a path. So the file of a domain stands in the directory of domains itself, and two
domains never share a file.
-/

namespace Confinement

/-- The letters and digits of ASCII. -/
def IsLetterOrDigit (c : Char) : Prop :=
  ('A' ≤ c ∧ c ≤ 'Z') ∨ ('a' ≤ c ∧ c ≤ 'z') ∨ ('0' ≤ c ∧ c ≤ '9')

/-- Texts of 1 to 64 letters, digits, dots, underscores and hyphens that begin with a letter or
digit. -/
structure IsName (s : String) : Prop where
  length : 1 ≤ s.length ∧ s.length ≤ 64
  first : ∀ c, s.toList.head? = some c → IsLetterOrDigit c
  characters : ∀ c ∈ s.toList, IsLetterOrDigit c ∨ c = '.' ∨ c = '_' ∨ c = '-'

theorem isPlainLetter_iff {c : Char} : isPlainLetter c = true ↔ IsLetterOrDigit c := by
  have hclasses : isPlainLetter c = (c.isUpper || c.isLower || c.isDigit) := rfl
  have hupper : c.isUpper = true ↔ 'A' ≤ c ∧ c ≤ 'Z' := decide_eq_true_iff
  have hlower : c.isLower = true ↔ 'a' ≤ c ∧ c ≤ 'z' :=
    Bool.and_eq_true_iff.trans (and_congr decide_eq_true_iff decide_eq_true_iff)
  have hdigit : c.isDigit = true ↔ '0' ≤ c ∧ c ≤ '9' :=
    Bool.and_eq_true_iff.trans (and_congr decide_eq_true_iff decide_eq_true_iff)
  rw [hclasses, Bool.or_eq_true, Bool.or_eq_true, hupper, hlower, hdigit, or_assoc]
  rfl

theorem isNameCharacter_iff {c : Char} :
    isNameCharacter c = true ↔ IsLetterOrDigit c ∨ c = '.' ∨ c = '_' ∨ c = '-' := by
  simp only [isNameCharacter, Bool.or_eq_true, beq_iff_eq, isPlainLetter_iff]
  constructor
  · rintro (((h | h) | h) | h) <;> simp [h]
  · rintro (h | h | h | h) <;> simp [h]

/-- The characters of names are single bytes. -/
theorem utf8Size_of_isNameCharacter {c : Char} (h : isNameCharacter c = true) :
    c.utf8Size = 1 := by
  rw [Char.utf8Size_eq_one_iff]
  rcases isNameCharacter_iff.mp h with (h | h | h) | rfl | rfl | rfl
  · exact UInt32.le_trans h.2 (by decide)
  · exact UInt32.le_trans h.2 (by decide)
  · exact UInt32.le_trans h.2 (by decide)
  · decide
  · decide
  · decide

theorem utf8ByteSize_ofList {s : List Char} (h : ∀ c ∈ s, isNameCharacter c = true) :
    (String.ofList s).utf8ByteSize = s.length := by
  induction s with
  | nil => rfl
  | cons c rest ih =>
    have hrest := ih fun d hd => h d (List.mem_cons_of_mem c hd)
    have hc := utf8Size_of_isNameCharacter (h c (List.mem_cons_self ..))
    rw [String.ofList_cons, String.utf8ByteSize_append, String.utf8ByteSize_singleton, hrest, hc,
      List.length_cons, Nat.add_comm]

/-- The bound on bytes is one on characters, because no other character passes. -/
theorem utf8ByteSize_eq_length {s : String} (h : ∀ c ∈ s.toList, isNameCharacter c = true) :
    s.utf8ByteSize = s.length := by
  have hsize := utf8ByteSize_ofList h
  rwa [String.ofList_toList, String.length_toList] at hsize

/-- What is checked of a name concerns its size, its first character and every character. -/
theorem isDomainName_iff_characters {s : String} : isDomainName s = true ↔
    s.utf8ByteSize ≤ 64 ∧ (∃ c, s.toList.head? = some c ∧ isPlainLetter c = true) ∧
      ∀ c ∈ s.toList, isNameCharacter c = true := by
  unfold isDomainName
  cases s.toList with
  | nil => simp
  | cons c rest =>
    simp only [Bool.and_eq_true, decide_eq_true_eq, List.all_eq_true, List.head?_cons,
      List.forall_mem_cons, Option.some.injEq, exists_eq_left']
    have hletter : isPlainLetter c = true → isNameCharacter c = true := fun h => by
      simp [isNameCharacter, h]
    constructor
    · rintro ⟨hsize, hfirst, hrest⟩
      exact ⟨hsize, hfirst, hletter hfirst, hrest⟩
    · rintro ⟨hsize, hfirst, -, hrest⟩
      exact ⟨hsize, hfirst, hrest⟩

theorem isDomainName_iff {s : String} : isDomainName s = true ↔ IsName s := by
  have hlength : s.toList.length = s.length := String.length_toList
  rw [isDomainName_iff_characters]
  constructor
  · rintro ⟨hsize, ⟨c, hc, hfirst⟩, hall⟩
    obtain ⟨rest, hrest⟩ := List.head?_eq_some_iff.mp hc
    rw [utf8ByteSize_eq_length hall] at hsize
    rw [hrest, List.length_cons] at hlength
    refine ⟨⟨by omega, hsize⟩, fun d hd => ?_, fun d hd => isNameCharacter_iff.mp (hall d hd)⟩
    obtain rfl := Option.some.inj (hc.symm.trans hd)
    exact isPlainLetter_iff.mp hfirst
  · rintro ⟨⟨hpositive, hsize⟩, hfirst, hcharacters⟩
    have hall : ∀ c ∈ s.toList, isNameCharacter c = true := fun c hc =>
      isNameCharacter_iff.mpr (hcharacters c hc)
    have hne : s.toList ≠ [] := List.ne_nil_of_length_pos (by omega)
    have hc := List.head?_eq_some_head hne
    rw [← utf8ByteSize_eq_length hall] at hsize
    exact ⟨hsize, ⟨_, hc, isPlainLetter_iff.mpr (hfirst _ hc)⟩, hall⟩

theorem DomainName.isName (n : DomainName) : IsName n.text := isDomainName_iff.mp n.valid

/-- No domain has a name that means something in a path. -/
theorem DomainName.isFileName (n : DomainName) : Path.IsFileName (n.text ++ ".json") := by
  have hlength : 6 ≤ (n.text ++ ".json").length := by
    rw [String.length_append]
    exact Nat.add_le_add_right n.isName.length.1 5
  have hne : ∀ s : String, s.length < 6 → n.text ++ ".json" ≠ s := by
    rintro s hs rfl
    omega
  refine ⟨fun hslash => ?_, hne "" (by decide), hne "." (by decide), hne ".." (by decide)⟩
  rw [String.toList_append, List.mem_append] at hslash
  rcases hslash with hname | hextension
  · have hcharacter := isNameCharacter_iff.mpr (n.isName.characters '/' hname)
    exact absurd hcharacter (by decide)
  · exact absurd hextension (by decide)

/-- A text is taken for the name of a domain exactly if it is 1 to 64 letters, digits, dots,
underscores and hyphens and begins with a letter or digit. Wherever the configuration is kept, the
components of a domain's file are those of the directory of domains and then the name with its
extension, and the files of two domains are the same only if the domains have one name. -/
theorem domain_files_are_children :
    (∀ s, (∃ n, DomainName.ofString? s = some n ∧ n.text = s) ↔ IsName s) ∧
    ∀ (l : Layout) (m n : DomainName),
      (l.domain n.text).components = l.domains.components ++ [.name (n.text ++ ".json")] ∧
      ((l.domain m.text).same (l.domain n.text) = true ↔ m = n) := by
  have hfile : ∀ (l : Layout) (n : DomainName), (l.domain n.text).components =
      l.domains.components ++ [.name (n.text ++ ".json")] := fun l n =>
    Path.components_join_fileName n.isFileName l.domains
  refine ⟨fun s => ⟨?_, fun hs => ?_⟩, fun l m n => ⟨hfile l n, fun hsame => ?_, ?_⟩⟩
  · rintro ⟨n, -, rfl⟩
    exact n.isName
  · have hvalid := isDomainName_iff.mpr hs
    exact ⟨⟨s, hvalid⟩, DomainName.ofString?_text ⟨s, hvalid⟩, rfl⟩
  · rw [Path.same_iff, hfile, hfile, List.append_cancel_left_eq, List.cons.injEq] at hsame
    have htext : m.text ++ ".json" = n.text ++ ".json" := Path.Component.name.inj hsame.1
    exact DomainName.ext ((String.append_left_inj ".json").mp htext)
  · rintro rfl
    exact Path.same_iff.mpr rfl

end Confinement

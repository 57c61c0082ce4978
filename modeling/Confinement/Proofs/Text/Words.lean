import Confinement.Text

/-!
# The words of a text

A text is its words with white space between them, and with as much of it as one likes before the
first word and behind the last. The words of a text are the only ones that it is made of in this
way, so they are found again in any text that spaces them out.
-/

namespace Confinement.Text

/-- A run of characters, at least one, that are not white space. -/
structure IsWord (w : List Char) : Prop where
  ne_nil : w ≠ []
  not_blank : ∀ c ∈ w, isBlank c = false

/-- The text `s` spaces out the words `ws`: nothing else is in it but white space, and there is some
between two words. -/
inductive Spaced : List (List Char) → List Char → Prop
  | done : Spaced [] []
  | blank {ws : List (List Char)} {c : Char} {s : List Char} (hc : isBlank c = true)
      (hs : Spaced ws s) : Spaced ws (c :: s)
  | word {ws : List (List Char)} {w s : List Char} (hw : IsWord w)
      (hgap : ∀ c, s.head? = some c → isBlank c = true) (hs : Spaced ws s) :
      Spaced (w :: ws) (w ++ s)

variable {c : Char} {w s : List Char} {ws : List (List Char)}

theorem IsWord.singleton (hc : isBlank c = false) : IsWord [c] where
  ne_nil := List.cons_ne_nil c []
  not_blank d hd := by rwa [List.mem_singleton.mp hd]

theorem IsWord.cons (hc : isBlank c = false) (hw : IsWord w) : IsWord (c :: w) where
  ne_nil := List.cons_ne_nil c w
  not_blank d hd := by
    rcases List.mem_cons.mp hd with rfl | hd
    · exact hc
    · exact hw.not_blank d hd

theorem words_cons_of_blank (hc : isBlank c = true) (s : List Char) : words (c :: s) = words s := by
  simp [words, hc]

/-- A word ends where the next blank stands. -/
theorem words_append (hw : IsWord w) (hgap : ∀ c, s.head? = some c → isBlank c = true) :
    words (w ++ s) = w :: words s := by
  obtain ⟨hne, hblank⟩ := hw
  induction w with
  | nil => exact absurd rfl hne
  | cons c w ih =>
    have hc : isBlank c = false := hblank c (List.mem_cons_self ..)
    cases w with
    | nil =>
      cases s with
      | nil => simp [words, hc]
      | cons d s => simp [words, hc, hgap d rfl]
    | cons d w =>
      have hd : isBlank d = false := hblank d (by simp)
      have hrest : words (d :: w ++ s) = (d :: w) :: words s :=
        ih (List.cons_ne_nil d w) fun x hx => hblank x (List.mem_cons_of_mem c hx)
      rw [List.cons_append] at hrest
      simp only [List.cons_append]
      rw [words, hrest]
      simp [hc, hd]

/-- Words that are spaced out are found again. -/
theorem words_of_spaced (h : Spaced ws s) : words s = ws := by
  induction h with
  | done => rfl
  | blank hc _ ih => rw [words_cons_of_blank hc, ih]
  | word hw hgap _ ih => rw [words_append hw hgap, ih]

/-- A character more at the front of a text that begins with a word belongs to this word. -/
theorem Spaced.cons {d : Char} (hc : isBlank c = false) (hd : isBlank d = false)
    (h : Spaced ws (d :: s)) :
    ∃ w rest, ws = w :: rest ∧ Spaced ((c :: w) :: rest) (c :: d :: s) := by
  generalize ht : d :: s = t at h
  cases h with
  | done => cases ht
  | blank hblank _ =>
    obtain ⟨rfl, -⟩ := List.cons.inj ht
    cases hd.symm.trans hblank
  | word hw hgap hs => exact ⟨_, _, rfl, .word (hw.cons hc) hgap hs⟩

/-- Every text spaces out its words. -/
theorem spaced_words (s : List Char) : Spaced (words s) s := by
  induction s with
  | nil => exact .done
  | cons c s ih =>
    cases hc : isBlank c with
    | true =>
      rw [words_cons_of_blank hc]
      exact .blank hc ih
    | false =>
      cases s with
      | nil =>
        rw [words]
        simp only [hc]
        exact .word (.singleton hc) (by simp) .done
      | cons d s =>
        cases hd : isBlank d with
        | true =>
          have hgap : ∀ x, (d :: s).head? = some x → isBlank x = true := by
            intro x hx
            rwa [← Option.some.inj hx]
          have hone : words (c :: d :: s) = [c] :: words (d :: s) :=
            words_append (.singleton hc) hgap
          rw [hone]
          exact .word (.singleton hc) hgap ih
        | false =>
          obtain ⟨w, rest, hwords, hspaced⟩ := ih.cons hc hd
          have hmore : words (c :: d :: s) = (c :: w) :: rest := by
            rw [words, hwords]
            simp [hc, hd]
          rw [hmore]
          exact hspaced

theorem words_eq_iff : words s = ws ↔ Spaced ws s :=
  ⟨fun h => h ▸ spaced_words s, words_of_spaced⟩

/-- What is in no word and is not white space is not in the text. -/
theorem Spaced.not_mem (h : Spaced ws s) (hc : isBlank c = false) (hws : ∀ w ∈ ws, c ∉ w) :
    c ∉ s := by
  induction h with
  | done => exact List.not_mem_nil
  | blank hblank _ ih =>
    rw [List.mem_cons, not_or]
    refine ⟨?_, ih hws⟩
    rintro rfl
    cases hc.symm.trans hblank
  | word _ _ _ ih =>
    rw [List.mem_append, not_or]
    exact ⟨hws _ (List.mem_cons_self ..), ih fun w hw => hws w (List.mem_cons_of_mem _ hw)⟩

end Confinement.Text

import Confinement.Json.Printer

/-!
# Written values are read back

A value of texts and truth values, arrays and objects is written so that reading gives it back:
every character of a text comes out of its quotes as it went in, blanks and line breaks between
tokens count for nothing, and the machine that builds values ends with the value itself.
-/

namespace Confinement.Json

/-! ### Characters -/

section Lexing

variable {state state' : LexState} {c : Char} {rest : List Char} {tokens : List Token}

theorem lexFrom_cons (h : step state c = some (tokens, state')) :
    lexFrom state (c :: rest) = (lexFrom state' rest).map (tokens ++ ·) := by
  rw [lexFrom, h]
  simp only [Option.bind_eq_bind, Option.bind_some]
  cases lexFrom state' rest <;> rfl

/-- A character that ends no token. -/
theorem lexFrom_silent (h : step state c = some ([], state')) :
    lexFrom state (c :: rest) = lexFrom state' rest := by
  rw [lexFrom_cons h]
  cases lexFrom state' rest <;> rfl

theorem lexFrom_mark {t : Token} (hspace : isSpace c = false) (h : mark? c = some t) :
    lexFrom .between (c :: rest) = (lexFrom .between rest).map ([t] ++ ·) := by
  refine lexFrom_cons ?_
  simp [step, startToken, hspace, h]

theorem lexFrom_space (h : isSpace c = true) :
    lexFrom .between (c :: rest) = lexFrom .between rest := by
  refine lexFrom_silent ?_
  simp [step, startToken, h]

theorem lexFrom_indent (depth : Nat) (rest : List Char) :
    lexFrom .between ((indent depth).toList ++ rest) = lexFrom .between rest := by
  have hblanks : ∀ n, lexFrom .between (List.replicate n ' ' ++ rest) = lexFrom .between rest := by
    intro n
    induction n with
    | zero => rfl
    | succ n ih => rw [List.replicate_succ, List.cons_append, lexFrom_space (by decide), ih]
  rw [indent, String.toList_append, String.toList_ofList, String.toList_ofList,
    List.append_assoc, List.singleton_append, lexFrom_space (by decide), hblanks]

/-! ### Texts in quotes -/

theorem hexValue?_digitChar : ∀ k : Fin 16, hexValue? (Nat.digitChar k) = some k.val := by decide

/-- What a written character is read as. -/
def pieceOf (c : Char) : Piece :=
  if escapeLetter? c = none ∧ c.toNat < 0x20 then .unit c.toNat else .char c

/-- Inside quotes a written character is read as one piece. -/
theorem lexFrom_escape (c : Char) (read : List Piece) (rest : List Char) :
    lexFrom (.string read) (escape c ++ rest) = lexFrom (.string (pieceOf c :: read)) rest := by
  have hslash : ∀ read, step (.string read) '\\' = some ([], .escape read) := fun _ => rfl
  unfold escape
  cases h : escapeLetter? c with
  | some letter =>
    have hchar : pieceOf c = .char c := by simp [pieceOf, h]
    have hletter : step (.escape read) letter = some ([], .string (.char c :: read)) := by
      unfold escapeLetter? at h
      split at h <;> cases h <;> rfl
    rw [hchar]
    exact (lexFrom_silent (hslash read)).trans (lexFrom_silent hletter)
  | none =>
    by_cases hcontrol : c.toNat < 0x20
    · have hunit : pieceOf c = .unit c.toNat := by simp [pieceOf, h, hcontrol]
      have hhigh := hexValue?_digitChar ⟨c.toNat / 16, by omega⟩
      have hlow := hexValue?_digitChar ⟨c.toNat % 16, Nat.mod_lt _ (by decide)⟩
      have hvalue : c.toNat / 16 * 16 + c.toNat % 16 = c.toNat := Nat.div_add_mod' ..
      have hstart : step (.escape read) 'u' = some ([], .unit read 0 0) := rfl
      have hfirst : step (.unit read 0 0) '0' = some ([], .unit read 0 1) := rfl
      have hsecond : step (.unit read 0 1) '0' = some ([], .unit read 0 2) := rfl
      have hthird : step (.unit read 0 2) (Nat.digitChar (c.toNat / 16)) =
          some ([], .unit read (c.toNat / 16) 3) := by simp [step, hhigh]
      have hlast : step (.unit read (c.toNat / 16) 3) (Nat.digitChar (c.toNat % 16)) =
          some ([], .string (.unit c.toNat :: read)) := by simp [step, hlow, hvalue]
      rw [if_pos hcontrol, hunit]
      simp only [List.cons_append, List.nil_append]
      rw [lexFrom_silent (hslash read), lexFrom_silent hstart, lexFrom_silent hfirst,
        lexFrom_silent hsecond, lexFrom_silent hthird, lexFrom_silent hlast]
    · rw [if_neg hcontrol]
      have hchar : pieceOf c = .char c := by simp [pieceOf, hcontrol]
      rw [hchar]
      refine lexFrom_silent ?_
      have hquote : c ≠ '"' := by
        rintro rfl
        cases h
      have hslash : c ≠ '\\' := by
        rintro rfl
        cases h
      simp [step, hquote, hslash, hcontrol]

/-- The pieces of a text make the text. -/
theorem joinPieces_pieceOf (s : List Char) : joinPieces (s.map pieceOf) = some s := by
  induction s with
  | nil => rfl
  | cons c s ih =>
    rw [List.map_cons]
    by_cases hcontrol : escapeLetter? c = none ∧ c.toNat < 0x20
    · have hlow : c.toNat < 0xD800 ∨ 0xDFFF < c.toNat := by omega
      rw [pieceOf, if_pos hcontrol, joinPieces.eq_def]
      simp only [if_pos hlow, ih, Option.map_some, Char.ofNat_toNat]
    · rw [pieceOf, if_neg hcontrol, joinPieces, ih, Option.map_some]

theorem lexFrom_text (s : List Char) (read : List Piece) (rest : List Char) :
    lexFrom (.string read) (s.flatMap escape ++ '"' :: rest) = (lexFrom .between rest).map
      ([.string ((joinPieces (read.reverse ++ s.map pieceOf)).map String.ofList)] ++ ·) := by
  induction s generalizing read with
  | nil =>
    rw [List.map_nil, List.append_nil]
    exact lexFrom_cons rfl
  | cons c s ih =>
    rw [List.flatMap_cons, List.append_assoc, lexFrom_escape, ih, List.reverse_cons,
      List.append_assoc, List.map_cons, List.singleton_append]

/-- A text in quotes is one token. -/
theorem lexFrom_quote (s : String) (rest : List Char) :
    lexFrom .between ((quote (some s)).toList ++ rest) =
      (lexFrom .between rest).map ([.string (some s)] ++ ·) := by
  have hopen : step .between '"' = some ([], .string []) := rfl
  have hquote : (quote (some s)).toList ++ rest =
      '"' :: (s.toList.flatMap escape ++ '"' :: rest) := by simp [quote]
  rw [hquote, lexFrom_silent hopen, lexFrom_text, List.reverse_nil, List.nil_append,
    joinPieces_pieceOf, Option.map_some, String.ofList_toList]

/-! ### Words -/

/-- No letter follows, so a word ends here. -/
def EndsWord (rest : List Char) : Prop := ∀ c, rest.head? = some c → c.isAlpha = false

/-- Letters go on a word. -/
theorem lexFrom_letters {letters : List Char} (h : ∀ c ∈ letters, c.isAlpha = true)
    (read rest : List Char) :
    lexFrom (.word read) (letters ++ rest) = lexFrom (.word (letters.reverse ++ read)) rest := by
  induction letters generalizing read with
  | nil => rfl
  | cons c letters ih =>
    have hc : step (.word read) c = some ([], .word (c :: read)) := by
      simp [step, h c (List.mem_cons_self ..)]
    rw [List.cons_append, lexFrom_silent hc, ih fun d hd => h d (List.mem_cons_of_mem c hd),
      List.reverse_cons, List.append_assoc, List.singleton_append]

theorem lexFrom_wordEnd {read : List Char} {t : Token} (ht : word? read.reverse = some t)
    (hrest : EndsWord rest) :
    lexFrom (.word read) rest = (lexFrom .between rest).map ([t] ++ ·) := by
  have hfinish : finish (.word read) = some [t] := by rw [finish, ht, Option.map_some]
  cases rest with
  | nil => exact hfinish
  | cons c rest =>
    have hstep : step (.word read) c =
        (step .between c).map fun p => ([t] ++ p.1, p.2) := by
      have halpha : c.isAlpha = false := hrest c rfl
      simp only [step, halpha, Bool.false_eq_true, if_false, restart, hfinish]
      cases startToken c <;> rfl
    cases hstart : step .between c with
    | none =>
      rw [hstart] at hstep
      simp [lexFrom, hstep, hstart]
    | some p =>
      rw [hstart, Option.map_some] at hstep
      rw [lexFrom_cons hstep, lexFrom_cons hstart, Option.map_map]
      exact congrArg (Option.map · _) (funext fun ts => List.append_assoc ..)

/-- A word is one token, unless a letter follows. -/
theorem lexFrom_word {c : Char} {letters : List Char} {t : Token}
    (hstart : step .between c = some ([], .word [c])) (hletters : letters.all Char.isAlpha = true)
    (ht : word? (c :: letters) = some t) (hrest : EndsWord rest) :
    lexFrom .between (c :: letters ++ rest) = (lexFrom .between rest).map ([t] ++ ·) := by
  have hword : word? (letters.reverse ++ [c]).reverse = some t := by simpa using ht
  rw [List.cons_append, lexFrom_silent hstart, lexFrom_letters (List.all_eq_true.mp hletters),
    lexFrom_wordEnd hword hrest]

end Lexing

/-! ### Values from characters -/

/-- The value that the characters complete. -/
def buildFrom (frames : List Frame) (expect : Expect) (s : List Char) : Option Json :=
  (lexFrom .between s).bind (build frames expect)

section Building

variable {frames frames' : List Frame} {expect expect' : Expect} {s rest : List Char} {t : Token}

/-- Characters that make one token are one step of the machine. -/
theorem buildFrom_token
    (h : lexFrom .between (s ++ rest) = (lexFrom .between rest).map ([t] ++ ·))
    (ht : advance frames expect t = some (frames', expect')) :
    buildFrom frames expect (s ++ rest) = buildFrom frames' expect' rest := by
  rw [buildFrom, h, Option.bind_map, buildFrom]
  congr 1
  funext ts
  simp [build, ht]

theorem buildFrom_mark {c : Char} (hspace : isSpace c = false) (hc : mark? c = some t)
    (ht : advance frames expect t = some (frames', expect')) :
    buildFrom frames expect (c :: rest) = buildFrom frames' expect' rest :=
  buildFrom_token (s := [c]) (lexFrom_mark hspace hc) ht

theorem buildFrom_indent (depth : Nat) :
    buildFrom frames expect ((indent depth).toList ++ rest) = buildFrom frames expect rest := by
  rw [buildFrom, lexFrom_indent, buildFrom]

theorem buildFrom_space {c : Char} (h : isSpace c = true) :
    buildFrom frames expect (c :: rest) = buildFrom frames expect rest := by
  rw [buildFrom, lexFrom_space h, buildFrom]

end Building

/-- A value without numbers, in which all strings and all names are texts. -/
inductive Plain : Json → Prop
  | null : Plain .null
  | bool (b : Bool) : Plain (.bool b)
  | text (s : String) : Plain (.string (some s))
  | array {items : List Json} (h : ∀ v ∈ items, Plain v) : Plain (.array items)
  | object {members : List (Option String × Json)} (names : ∀ m ∈ members, m.1 ≠ none)
      (h : ∀ m ∈ members, Plain m.2) : Plain (.object members)

/-- Where a value may begin. -/
def Begins (expect : Expect) : Prop := expect = .value ∨ expect = .firstItem

theorem advance_begins {expect : Expect} (h : Begins expect) (frames : List Frame) {t : Token}
    (ht : t ≠ .closeBracket) : advance frames expect t = begin? frames t := by
  rcases h with rfl | rfl
  · cases t <;> rfl
  · cases t <;> first | rfl | exact absurd rfl ht

/-- Where a value may begin, its text is read as the value. -/
def ReadsBack (v : Json) : Prop :=
  ∀ depth frames expect rest, Begins expect → EndsWord rest →
    buildFrom frames expect ((render depth v).toList ++ rest) = buildFrom frames (.more v) rest

/-! ### Arrays and objects -/

section Nested

variable {frames : List Frame} {rest : List Char} {v : Json} {name : Option String}

theorem endsWord_cons {c : Char} (h : c.isAlpha = false) : EndsWord (c :: rest) := by
  rintro d ⟨rfl⟩
  exact h

theorem endsWord_indent (depth : Nat) : EndsWord ((indent depth).toList ++ rest) := by
  have hindent : (indent depth).toList ++ rest =
      '\n' :: ((String.ofList (List.replicate (2 * depth) ' ')).toList ++ rest) := by simp [indent]
  rw [hindent]
  exact endsWord_cons (by decide)

theorem toList_renderItems_cons (depth : Nat) (v : Json) (vs : List Json) :
    (renderItems depth (v :: vs)).toList = ',' :: ((indent depth).toList ++
      ((render depth v).toList ++ (renderItems depth vs).toList)) := by
  simp [renderItems]

theorem toList_renderMembers_cons (depth : Nat) (name : Option String) (v : Json)
    (ms : List (Option String × Json)) :
    (renderMembers depth ((name, v) :: ms)).toList = ',' :: ((indent depth).toList ++
      ((quote name).toList ++ ':' :: ' ' ::
        ((render depth v).toList ++ (renderMembers depth ms).toList))) := by
  simp [renderMembers]

theorem toList_render_array (depth : Nat) (v : Json) (vs : List Json) :
    (render depth (.array (v :: vs))).toList = '[' :: ((indent (depth + 1)).toList ++
      ((render (depth + 1) v).toList ++ ((renderItems (depth + 1) vs).toList ++
        ((indent depth).toList ++ [']'])))) := by
  simp [render]

theorem toList_render_object (depth : Nat) (name : Option String) (v : Json)
    (ms : List (Option String × Json)) :
    (render depth (.object ((name, v) :: ms))).toList = '\x7b' :: ((indent (depth + 1)).toList ++
      ((quote name).toList ++ ':' :: ' ' :: ((render (depth + 1) v).toList ++
        ((renderMembers (depth + 1) ms).toList ++ ((indent depth).toList ++ ['\x7d']))))) := by
  simp [render]

theorem endsWord_items (depth : Nat) (vs : List Json) (h : EndsWord rest) :
    EndsWord ((renderItems depth vs).toList ++ rest) := by
  cases vs with
  | nil => simpa [renderItems] using h
  | cons v vs =>
    rw [toList_renderItems_cons, List.cons_append]
    exact endsWord_cons (by decide)

theorem endsWord_members (depth : Nat) (ms : List (Option String × Json)) (h : EndsWord rest) :
    EndsWord ((renderMembers depth ms).toList ++ rest) := by
  cases ms with
  | nil => simpa [renderMembers] using h
  | cons m ms =>
    rw [toList_renderMembers_cons, List.cons_append]
    exact endsWord_cons (by decide)

/-- The items behind the first complete the array. -/
theorem buildFrom_items {vs : List Json} (h : ∀ v ∈ vs, ReadsBack v) (depth outer : Nat)
    (items : List Json) (last : Json) :
    buildFrom (.array items :: frames) (.more last) ((renderItems depth vs).toList ++
        ((indent outer).toList ++ ']' :: rest)) =
      buildFrom frames (.more (.array (items.reverse ++ last :: vs))) rest := by
  induction vs generalizing items last with
  | nil =>
    rw [renderItems, String.toList_empty, List.nil_append, buildFrom_indent]
    refine buildFrom_mark (by decide) rfl ?_
    simp [advance]
  | cons v vs ih =>
    have hcomma : advance (.array items :: frames) (.more last) .comma =
        some (.array (last :: items) :: frames, .value) := rfl
    have hends : EndsWord ((renderItems depth vs).toList ++
        ((indent outer).toList ++ ']' :: rest)) := endsWord_items depth vs (endsWord_indent outer)
    rw [toList_renderItems_cons]
    simp only [List.cons_append, List.append_assoc]
    rw [buildFrom_mark (by decide) rfl hcomma, buildFrom_indent,
      h v (List.mem_cons_self ..) depth _ _ _ (.inl rfl) hends,
      ih fun w hw => h w (List.mem_cons_of_mem v hw)]
    simp

/-- A name and its value, behind the mark that lets a name come. -/
theorem buildFrom_member {members : List (Option String × Json)} {expect : Expect}
    (hname : ∀ name, advance frames expect (.string name) = some (frames, .colon members name))
    (hn : name ≠ none) (hv : ReadsBack v) (depth : Nat) (hends : EndsWord rest) :
    buildFrom frames expect ((quote name).toList ++ ':' :: ' ' ::
        ((render depth v).toList ++ rest)) =
      buildFrom (.object members name :: frames) (.more v) rest := by
  obtain ⟨text, rfl⟩ := Option.ne_none_iff_exists'.mp hn
  have hcolon : advance frames (.colon members (some text)) .colon =
      some (.object members (some text) :: frames, .value) := rfl
  rw [buildFrom_token (lexFrom_quote text _) (hname _), buildFrom_mark (by decide) rfl hcolon,
    buildFrom_space (by decide), hv depth _ _ _ (.inl rfl) hends]

/-- The members behind the first complete the object. -/
theorem buildFrom_members {ms : List (Option String × Json)} (hnames : ∀ m ∈ ms, m.1 ≠ none)
    (h : ∀ m ∈ ms, ReadsBack m.2) (depth outer : Nat) (members : List (Option String × Json))
    (name : Option String) (last : Json) :
    buildFrom (.object members name :: frames) (.more last) ((renderMembers depth ms).toList ++
        ((indent outer).toList ++ '\x7d' :: rest)) =
      buildFrom frames (.more (.object (members.reverse ++ (name, last) :: ms))) rest := by
  induction ms generalizing members name last with
  | nil =>
    rw [renderMembers, String.toList_empty, List.nil_append, buildFrom_indent]
    refine buildFrom_mark (by decide) rfl ?_
    simp [advance]
  | cons m ms ih =>
    obtain ⟨next, v⟩ := m
    have hcomma : advance (.object members name :: frames) (.more last) .comma =
        some (frames, .name ((name, last) :: members)) := rfl
    have hends : EndsWord ((renderMembers depth ms).toList ++
        ((indent outer).toList ++ '\x7d' :: rest)) :=
      endsWord_members depth ms (endsWord_indent outer)
    rw [toList_renderMembers_cons]
    simp only [List.cons_append, List.append_assoc]
    rw [buildFrom_mark (by decide) rfl hcomma, buildFrom_indent,
      buildFrom_member (fun _ => rfl) (hnames (next, v) (List.mem_cons_self ..))
        (h (next, v) (List.mem_cons_self ..)) depth hends,
      ih (fun m hm => hnames m (List.mem_cons_of_mem _ hm))
        fun m hm => h m (List.mem_cons_of_mem _ hm)]
    simp

end Nested

/-! ### All values -/

/-- A value that is written as a word. -/
theorem readsBack_of_word {v : Json} {t : Token} {c : Char} {letters : List Char}
    (hv : ∀ frames, begin? frames t = some (frames, .more v))
    (htext : ∀ depth, (render depth v).toList = c :: letters)
    (hstart : step .between c = some ([], .word [c])) (hletters : letters.all Char.isAlpha = true)
    (ht : word? (c :: letters) = some t) : ReadsBack v := by
  intro depth frames expect rest hbegins hends
  have hbracket : t ≠ .closeBracket := by
    rintro rfl
    cases hv []
  rw [htext]
  exact buildFrom_token (lexFrom_word hstart hletters ht hends)
    ((advance_begins hbegins frames hbracket).trans (hv frames))

/-- A plain value is read back from its text. -/
theorem Plain.readsBack {v : Json} (h : Plain v) : ReadsBack v := by
  induction h with
  | null =>
    exact readsBack_of_word (fun _ => rfl) (fun _ => by rw [render]; rfl) rfl rfl rfl
  | bool b =>
    cases b with
    | true =>
      exact readsBack_of_word (fun _ => rfl) (fun _ => by rw [render]; rfl) rfl rfl rfl
    | false =>
      exact readsBack_of_word (fun _ => rfl) (fun _ => by rw [render]; rfl) rfl rfl rfl
  | text s =>
    intro depth frames expect rest hbegins hends
    exact buildFrom_token (lexFrom_quote s rest) (advance_begins hbegins frames nofun)
  | @array items h ih =>
    intro depth frames expect rest hbegins hends
    have hopen := advance_begins hbegins frames (t := .openBracket) nofun
    cases items with
    | nil =>
      rw [show (render depth (.array [])).toList = ['[', ']'] by rw [render]; rfl]
      simp only [List.cons_append, List.nil_append]
      rw [buildFrom_mark (by decide) rfl hopen]
      exact buildFrom_mark (by decide) rfl rfl
    | cons v vs =>
      have hrest : EndsWord ((renderItems (depth + 1) vs).toList ++
          ((indent depth).toList ++ ']' :: rest)) :=
        endsWord_items (depth + 1) vs (endsWord_indent depth)
      rw [toList_render_array]
      simp only [List.cons_append, List.append_assoc, List.nil_append]
      rw [buildFrom_mark (by decide) rfl hopen, buildFrom_indent,
        ih v (List.mem_cons_self ..) _ _ _ _ (.inr rfl) hrest,
        buildFrom_items fun w hw => ih w (List.mem_cons_of_mem v hw)]
      rfl
  | @object members names h ih =>
    intro depth frames expect rest hbegins hends
    have hopen := advance_begins hbegins frames (t := .openBrace) nofun
    cases members with
    | nil =>
      rw [show (render depth (.object [])).toList = ['\x7b', '\x7d'] by rw [render]; rfl]
      simp only [List.cons_append, List.nil_append]
      rw [buildFrom_mark (by decide) rfl hopen]
      exact buildFrom_mark (by decide) rfl rfl
    | cons m ms =>
      obtain ⟨name, v⟩ := m
      have hrest : EndsWord ((renderMembers (depth + 1) ms).toList ++
          ((indent depth).toList ++ '\x7d' :: rest)) :=
        endsWord_members (depth + 1) ms (endsWord_indent depth)
      rw [toList_render_object]
      simp only [List.cons_append, List.append_assoc, List.nil_append]
      rw [buildFrom_mark (by decide) rfl hopen, buildFrom_indent,
        buildFrom_member (fun _ => rfl) (names (name, v) (List.mem_cons_self ..))
          (ih (name, v) (List.mem_cons_self ..)) (depth + 1) hrest,
        buildFrom_members (fun m hm => names m (List.mem_cons_of_mem _ hm))
          fun m hm => ih m (List.mem_cons_of_mem _ hm)]
      rfl

/-- The text of a plain value is read as the value. -/
theorem ofString?_toText {v : Json} (h : Plain v) : ofString? v.toText = some v := by
  have hread := h.readsBack 0 [] .value [] (.inl rfl) (by simp [EndsWord])
  rw [List.append_nil] at hread
  exact hread

end Confinement.Json

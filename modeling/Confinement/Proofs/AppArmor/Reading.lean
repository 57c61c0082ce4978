import Confinement.Proofs.AppArmor.History
import Confinement.Proofs.Text.Split

/-!
# Reading a profile

A profile has three lines that say whose it is, a line for every rule, with the path in quotes, and
a line that closes it. Nothing in a path is masked when it is written. So a profile reads back as
the rules that it was made of exactly if no path holds a quote or the end of a line; any other path
can end its own rule and begin another.
-/

namespace Confinement.AppArmor

/-! ### Reading -/

/-- Reads the access at the end of a rule. -/
def accessOf? (rest : List Char) : Option Access :=
  [Access.read, .readWrite].find? fun a => (" " ++ a.letters ++ ",").toList == rest

/-- Reads a rule: a quoted path, up to the closing quote, and an access. -/
def ruleOf? (line : List Char) : Option (Path × Access) :=
  match line with
  | ' ' :: ' ' :: '"' :: quoted =>
    (Text.cutFirst '"' quoted).bind fun (path, rest) =>
      (accessOf? rest).map fun access => (⟨String.ofList path⟩, access)
  | _ => none

/-- Reads the rules in all lines but the one that closes the profile. -/
def rulesOf? : List (List Char) → Option Grants
  | [] => none
  | line :: lines =>
    if line :: lines = Text.split '\n' profileFoot.toList then some []
    else (ruleOf? line).bind fun rule => (rulesOf? lines).map (rule :: ·)

/-- Reads the name of the profile in the line that begins it. -/
def nameOf? (line : List Char) : Option String :=
  match Text.split ' ' line with
  | [word, name, flags, brace] =>
    if word = "profile".toList ∧ flags = "flags=(attach_disconnected)".toList ∧
        brace = "\x7b".toList then some (String.ofList name)
    else none
  | _ => none

/-- Reads the name and the rules of a profile. -/
def readProfile? (text : String) : Option (String × Grants) :=
  match Text.split '\n' text.toList with
  | tunables :: head :: base :: lines =>
    if tunables = "#include <tunables/global>".toList ∧
        base = "  #include <abstractions/base>".toList then
      (nameOf? head).bind fun name => (rulesOf? lines).map fun rules => (name, rules)
    else none
  | _ => none

/-- A path that does not end the quotation or the line that it stands in. -/
def Quotable (p : Path) : Prop := '"' ∉ p.text.toList ∧ '\n' ∉ p.text.toList

/-! ### The lines of a profile -/

/-- The line of one rule, without its end. -/
def ruleBody (r : Path × Access) : List Char :=
  ' ' :: ' ' :: '"' :: (r.1.text.toList ++ '"' :: (" " ++ r.2.letters ++ ",").toList)

theorem toList_ruleLine (path : Path) (access : Access) :
    (ruleLine path access).toList = ruleBody (path, access) ++ ['\n'] := by
  simp [ruleLine, ruleBody]

theorem toList_join_ruleLine (grants : Grants) :
    (String.join (grants.map fun (p, a) => ruleLine p a)).toList =
      grants.flatMap fun r => ruleBody r ++ ['\n'] := by
  rw [String.toList_join, List.flatMap_map]
  exact congrArg (List.flatMap · grants) (funext fun r => toList_ruleLine r.1 r.2)

/-- The lines of the rules, as they are met in the text. -/
def ruleLines (grants : Grants) : List (List Char) :=
  grants.flatMap fun r => Text.split '\n' (ruleBody r)

theorem split_rules (grants : Grants) (rest : List Char) :
    Text.split '\n' ((grants.flatMap fun r => ruleBody r ++ ['\n']) ++ rest) =
      ruleLines grants ++ Text.split '\n' rest := by
  induction grants with
  | nil => rfl
  | cons r grants ih =>
    rw [ruleLines, List.flatMap_cons, List.flatMap_cons, List.append_assoc, List.append_assoc,
      List.singleton_append, Text.split_append, ih, List.append_assoc]
    rfl

/-- The line that begins a profile. -/
def headLine (name : String) : List Char :=
  ("profile " ++ name ++ " flags=(attach_disconnected) \x7b").toList

theorem toList_profileHead (name : String) :
    (profileHead name).toList = "#include <tunables/global>".toList ++ '\n' ::
      (headLine name ++ '\n' :: ("  #include <abstractions/base>".toList ++ ['\n'])) := by
  have htunables : "#include <tunables/global>\n".toList =
      "#include <tunables/global>".toList ++ ['\n'] := by simp
  have hflags : " flags=(attach_disconnected) \x7b\n".toList =
      " flags=(attach_disconnected) \x7b".toList ++ ['\n'] := by simp
  have hbase : "  #include <abstractions/base>\n".toList =
      "  #include <abstractions/base>".toList ++ ['\n'] := by simp
  unfold profileHead headLine
  rw [String.toList_append, String.toList_append, String.toList_append, String.toList_append,
    String.toList_append, String.toList_append, htunables, hflags, hbase]
  generalize "#include <tunables/global>".toList = tunables,
    " flags=(attach_disconnected) \x7b".toList = flags,
    "  #include <abstractions/base>".toList = base
  simp only [List.append_assoc, List.cons_append, List.nil_append]

theorem split_render {name : String} (hname : '\n' ∉ name.toList) (grants : Grants) :
    Text.split '\n' (render name grants).toList =
      "#include <tunables/global>".toList :: headLine name ::
        "  #include <abstractions/base>".toList ::
          (ruleLines grants ++ Text.split '\n' profileFoot.toList) := by
  have hhead : '\n' ∉ headLine name := by simp [headLine, hname]
  have hlines : (render name grants).toList =
      "#include <tunables/global>".toList ++ '\n' :: (headLine name ++ '\n' ::
        ("  #include <abstractions/base>".toList ++ '\n' ::
          ((grants.flatMap fun r => ruleBody r ++ ['\n']) ++ profileFoot.toList))) := by
    rw [render, String.toList_append, String.toList_append, toList_profileHead,
      toList_join_ruleLine]
    simp only [List.append_assoc, List.cons_append, List.nil_append]
  rw [hlines, Text.split_append, Text.split_append, Text.split_append, split_rules,
    Text.split_of_not_mem hhead, Text.split_of_not_mem (by simp),
    Text.split_of_not_mem (by simp)]
  rfl

theorem nameOf?_headLine {name : String} (hname : ' ' ∉ name.toList) :
    nameOf? (headLine name) = some name := by
  have hline : headLine name = "profile".toList ++ ' ' :: (name.toList ++ ' ' ::
      ("flags=(attach_disconnected)".toList ++ ' ' :: "\x7b".toList)) := by
    simp [headLine]
  have hsplit : Text.split ' ' (headLine name) =
      ["profile".toList, name.toList, "flags=(attach_disconnected)".toList, "\x7b".toList] := by
    rw [hline, Text.split_append, Text.split_append, Text.split_append, Text.split_of_not_mem hname]
    rfl
  rw [nameOf?, hsplit]
  simp

/-! ### Rules read back -/

theorem accessOf?_letters (a : Access) :
    accessOf? (" " ++ a.letters ++ ",").toList = some a := by
  cases a <;> decide

/-- A rule is found again exactly if the path does not end its own quotation. -/
theorem ruleOf?_ruleBody_iff {r : Path × Access} :
    ruleOf? (ruleBody r) = some r ↔ '"' ∉ r.1.text.toList := by
  obtain ⟨p, a⟩ := r
  constructor
  · intro h
    obtain ⟨⟨path, rest⟩, hcut, h⟩ := Option.bind_eq_some_iff.mp h
    obtain ⟨access, -, h⟩ := Option.map_eq_some_iff.mp h
    obtain ⟨rfl, -⟩ := Prod.mk.inj h
    rw [String.toList_ofList]
    exact Text.not_mem_of_cutFirst hcut
  · intro h
    have hcut := Text.cutFirst_append h (" " ++ a.letters ++ ",").toList
    simp only [ruleOf?, ruleBody, hcut, Option.bind_some, accessOf?_letters, Option.map_some,
      String.ofList_toList]

/-- A rule with a path of one line is one line. -/
theorem not_mem_ruleBody {r : Path × Access} (h : '\n' ∉ r.1.text.toList) :
    '\n' ∉ ruleBody r := by
  obtain ⟨p, a⟩ := r
  cases a <;> simpa [ruleBody, Access.letters] using h

/-- All lines but two hold a rule. -/
theorem length_of_rulesOf? {lines : List (List Char)} {rules : Grants}
    (h : rulesOf? lines = some rules) : lines.length = rules.length + 2 := by
  induction lines generalizing rules with
  | nil => cases h
  | cons line lines ih =>
    rw [rulesOf?] at h
    split at h
    · rename_i hfoot
      obtain rfl := Option.some.inj h
      simp [hfoot, Text.length_split, profileFoot]
    · obtain ⟨rule, -, h⟩ := Option.bind_eq_some_iff.mp h
      obtain ⟨rules', hrules, rfl⟩ := Option.map_eq_some_iff.mp h
      rw [List.length_cons, List.length_cons, ih hrules]

theorem length_ruleLines (grants : Grants) :
    (ruleLines grants).length = grants.length + (grants.flatMap ruleBody).count '\n' := by
  induction grants with
  | nil => rfl
  | cons r grants ih =>
    have hcons : ruleLines (r :: grants) = Text.split '\n' (ruleBody r) ++ ruleLines grants := rfl
    rw [hcons, List.length_append, Text.length_split, ih, List.flatMap_cons, List.count_append,
      List.length_cons]
    omega

/-- The line of a rule does not close the profile. -/
theorem rulesOf?_cons (r : Path × Access) (lines : List (List Char)) :
    rulesOf? (ruleBody r :: lines) =
      (ruleOf? (ruleBody r)).bind fun rule => (rulesOf? lines).map (rule :: ·) := by
  rw [rulesOf?, if_neg]
  intro h
  cases (List.cons.inj h).1

/-- Rules that take one line each read back exactly if no path ends its own quotation. -/
theorem rulesOf?_ruleLines {grants : Grants} (hlines : ∀ r ∈ grants, '\n' ∉ ruleBody r) :
    rulesOf? (ruleLines grants ++ Text.split '\n' profileFoot.toList) = some grants ↔
      ∀ r ∈ grants, '"' ∉ r.1.text.toList := by
  induction grants with
  | nil => exact ⟨fun _ => nofun, fun _ => rfl⟩
  | cons r grants ih =>
    obtain ⟨hr, hrest⟩ := List.forall_mem_cons.mp hlines
    have hcons : ruleLines (r :: grants) = ruleBody r :: ruleLines grants := by
      rw [ruleLines, List.flatMap_cons, Text.split_of_not_mem hr]
      rfl
    rw [hcons, List.cons_append, rulesOf?_cons, List.forall_mem_cons, ← ih hrest,
      ← ruleOf?_ruleBody_iff]
    constructor
    · intro h
      obtain ⟨rule, hrule, h⟩ := Option.bind_eq_some_iff.mp h
      obtain ⟨rules, hrules, h⟩ := Option.map_eq_some_iff.mp h
      obtain ⟨rfl, rfl⟩ := List.cons.inj h
      exact ⟨hrule, hrules⟩
    · rintro ⟨hrule, hrules⟩
      rw [hrule, hrules]
      rfl

/-- Whatever the paths are, the name reads back. -/
theorem readProfile?_render {name : String} (hblank : ' ' ∉ name.toList)
    (hline : '\n' ∉ name.toList) (grants : Grants) :
    readProfile? (render name grants) =
      (rulesOf? (ruleLines grants ++ Text.split '\n' profileFoot.toList)).map (name, ·) := by
  rw [readProfile?, split_render hline]
  simp [nameOf?_headLine hblank]

/-- A profile reads back as what it was made of exactly if every path can be quoted. -/
theorem readProfile?_render_iff {name : String} (hblank : ' ' ∉ name.toList)
    (hline : '\n' ∉ name.toList) (grants : Grants) :
    readProfile? (render name grants) = some (name, grants) ↔ ∀ r ∈ grants, Quotable r.1 := by
  rw [readProfile?_render hblank hline]
  simp only [Option.map_eq_some_iff, Prod.mk.injEq, true_and, exists_eq_right]
  constructor
  · intro h
    have hlength := length_of_rulesOf? h
    rw [List.length_append, length_ruleLines] at hlength
    have hfoot : (Text.split '\n' profileFoot.toList).length = 2 := by decide
    have hcount : (grants.flatMap ruleBody).count '\n' = 0 := by omega
    have hlines : ∀ r ∈ grants, '\n' ∉ ruleBody r := fun r hr hmem =>
      List.count_eq_zero.mp hcount (List.mem_flatMap.mpr ⟨r, hr, hmem⟩)
    refine fun r hr => ⟨(rulesOf?_ruleLines hlines).mp h r hr, fun hmem => hlines r hr ?_⟩
    simp [ruleBody, hmem]
  · intro h
    exact (rulesOf?_ruleLines fun r hr => not_mem_ruleBody (h r hr).2).mpr fun r hr => (h r hr).1

/-! ### Names of profiles -/

theorem not_mem_of_isProfileName {name : String} (h : isProfileName name = true) {c : Char}
    (hc : Text.isBlank c = true) : c ∉ name.toList := by
  intro hmem
  simp only [isProfileName, Bool.and_eq_true, Bool.not_eq_true', List.any_eq_false,
    Bool.or_eq_true, not_or] at h
  exact (h.2 c hmem).1 hc

/-- What joins texts and what they are made of is all that the joined text is made of. -/
theorem forall_mem_intercalate {P : Char → Prop} {sep : List Char} {texts : List (List Char)}
    (hsep : ∀ c ∈ sep, P c) (htexts : ∀ text ∈ texts, ∀ c ∈ text, P c) :
    ∀ c ∈ sep.intercalate texts, P c := by
  induction texts with
  | nil => exact nofun
  | cons text texts ih =>
    obtain ⟨htext, hrest⟩ := List.forall_mem_cons.mp htexts
    cases texts with
    | nil => simpa using htext
    | cons next texts =>
      rw [List.intercalate_cons_cons]
      simp only [List.mem_append]
      rintro c ((hc | hc) | hc)
      · exact htext c hc
      · exact hsep c hc
      · exact ih hrest c hc

/-- The digits of a UUID, and the hyphens between them, are neither blanks nor quotes. -/
theorem isProfileName_generatedName (uuid : Uuid) : isProfileName (generatedName uuid) = true := by
  have hdigit : ∀ d, (Text.isBlank (Uuid.digitChar d) || Uuid.digitChar d == '"') = false := by
    decide
  have hgroup : ∀ start size, ∀ c ∈ ((uuid.digits.map Uuid.digitChar).drop start).take size,
      (Text.isBlank c || c == '"') = false := by
    intro start size c hc
    obtain ⟨d, -, rfl⟩ := List.mem_map.mp (List.mem_of_mem_drop (List.mem_of_mem_take hc))
    exact hdigit d
  have hfirst : ∀ c ∈ "seclabel-".toList, (Text.isBlank c || c == '"') = false := by
    have hletters : "seclabel-".toList = ['s', 'e', 'c', 'l', 'a', 'b', 'e', 'l', '-'] := by simp
    simp only [hletters, List.forall_mem_cons]
    exact ⟨rfl, rfl, rfl, rfl, rfl, rfl, rfl, rfl, rfl, nofun⟩
  have huuid : ∀ c ∈ uuid.toString.toList, (Text.isBlank c || c == '"') = false := by
    rw [Uuid.toString, String.toList_intercalate]
    have hdash : ∀ c ∈ "-".toList, (Text.isBlank c || c == '"') = false := by
      have hletter : "-".toList = ['-'] := by simp
      simp only [hletter, List.forall_mem_cons]
      exact ⟨rfl, nofun⟩
    refine forall_mem_intercalate hdash ?_
    simp only [List.map_cons, List.map_nil, String.toList_ofList, List.forall_mem_cons]
    exact ⟨hgroup 0 8, hgroup 8 4, hgroup 12 4, hgroup 16 4, hgroup 20 12, nofun⟩
  have hne : generatedName uuid ≠ "" := by simp [generatedName]
  have hchars : (generatedName uuid).toList.any (fun c => Text.isBlank c || c == '"') = false := by
    rw [List.any_eq_false, generatedName, String.toList_append]
    intro c hc
    rcases List.mem_append.mp hc with hc | hc
    · simp [hfirst c hc]
    · simp [huuid c hc]
  simp [isProfileName, hne, hchars]

/-- The label that a request to label leaves in an entry is a name of a profile, if the domain is
confined at all. -/
theorem isProfileName_of_generate {d d' : Definition} {e : LabelEntry}
    (h : generate d = .ok d') (hf : d'.findEntry model = some e) (ht : e.type ≠ .unconfined) :
    ∃ name, e.label = some name ∧ isProfileName name = true := by
  have hedit : ∀ label, (d.editEntry model
      fun e => { e with label := label, imageLabel := label }).findEntry model =
        (d.findEntry model).map fun e => { e with label := label, imageLabel := label } :=
    fun label => Definition.findEntry_editEntry fun _ => rfl
  unfold generate at h
  cases hd : d.findEntry model with
  | none =>
    rw [hd] at h
    obtain rfl := Except.ok.inj h
    cases hd.symm.trans hf
  | some old =>
    rw [hd] at h hedit
    dsimp only at h
    split at h
    · cases h
    · split at h
      · -- A static label was there before, and has been checked.
        split at h
        · rename_i hname
          obtain rfl := Except.ok.inj h
          obtain rfl := Option.some.inj ((hedit _).symm.trans hf)
          cases hl : old.label with
          | none =>
            rw [hl] at hname
            exact absurd hname (by decide)
          | some name =>
            rw [hl] at hname
            exact ⟨name, rfl, hname⟩
        · cases h
      · split at h
        · cases h
        · obtain rfl := Except.ok.inj h
          obtain rfl := Option.some.inj ((hedit _).symm.trans hf)
          exact ⟨_, rfl, isProfileName_generatedName d.uuid⟩
      · rename_i htype
        obtain rfl := Except.ok.inj h
        obtain rfl := Option.some.inj (hd.symm.trans hf)
        exact absurd htype ht
      · cases h

end Confinement.AppArmor

namespace Confinement.Engine

open AppArmor

variable {s : Engine} {id : ManagerId} {d d' : Definition} {e : LabelEntry}

/-- A domain that has been labelled has a profile, whatever the manager was asked before. It is made
of one rule for each path that the manager grants to the domain, and reads back as these rules
exactly if each of the paths can be quoted. -/
theorem profile_reads_back_iff (hk : s.KeepsRules id []) (os : List Occasion)
    (hl : generate d = .ok d') (hf : d'.findEntry model = some e) (ht : e.type ≠ .unconfined) :
    ∃ rules name text, (s.meetAll id os).KeepsRules id rules ∧ e.label = some name ∧
      (s.meetAll id os).profile id d' = .ok text ∧
      (rules.grants d'.uuid).Pairwise (fun r r' => r.1.same r'.1 = false) ∧
      (∀ p a, (rules.grants d'.uuid).access? p = some a ↔
        ∃ r ∈ rules.grants d'.uuid, p.same r.1 = true ∧ r.2 = a) ∧
      (readProfile? text = some (name, rules.grants d'.uuid) ↔
        ∀ r ∈ rules.grants d'.uuid, Quotable r.1) := by
  obtain ⟨name, hname, hvalid⟩ := isProfileName_of_generate hl hf ht
  obtain ⟨rules, hrules, hsorted, -⟩ := access?_meetAll hk os
  have hprofile := profile_eq hrules d'
  rw [hf, Option.bind_some, hname] at hprofile
  have hgrants : (rules.grants d'.uuid).Sorted := hsorted (fun _ => Grants.sorted_nil) _
  refine ⟨rules, name, _, hrules, hname, hprofile, hgrants.distinct, fun p a => ?_, ?_⟩
  · exact hgrants.access?_eq_some_iff
  · exact readProfile?_render_iff (not_mem_of_isProfileName hvalid (by decide))
      (not_mem_of_isProfileName hvalid (by decide)) _

/-- The one file that the guest was given is the one that its profile names. -/
theorem reads_back_sharedImage : ∃ text,
    (profileHost.meetAll 0 sharedImage).profile 0 namedGuest = .ok text ∧
      readProfile? text = some ("seclabel-00000000-0000-0000-0000-000000000000",
        [(⟨"/images/a.img"⟩, .read)]) := by
  have hk : profileHost.KeepsRules 0 [] := ⟨_, rfl, rfl, rfl⟩
  have hl : generate (.guest [.supplied "apparmor" .dynamic]) = .ok namedGuest := rfl
  have hkept : (profileHost.meetAll 0 sharedImage).KeepsRules 0
      [(namedGuest.uuid, [(⟨"/images/a.img"⟩, .read)])] := ⟨_, rfl, rfl, rfl⟩
  obtain ⟨rules, name, text, hrules, hname, hprofile, -, -, hread⟩ :=
    profile_reads_back_iff hk sharedImage hl rfl nofun
  obtain rfl := hrules.unique hkept
  obtain rfl := Option.some.inj hname
  refine ⟨text, hprofile, hread.mpr fun r hr => ?_⟩
  obtain rfl := List.mem_singleton.mp hr
  exact ⟨by decide, by decide⟩

/-- A path that ends its own quotation and its line, and begins another rule. -/
def forgingPath : Path := ⟨"/images/a\" rwk,\n  \"/etc/shadow"⟩

/-- The manager grants one path, and the profile names two others. -/
theorem path_adds_rule : ∃ s text,
    s = profileHost.meetAll 0 [⟨{}, namedGuest, .setImage { path := forgingPath }⟩] ∧
      s.KeepsRules 0 [(namedGuest.uuid, [(forgingPath, .readWrite)])] ∧
      s.profile 0 namedGuest = .ok text ∧
      readProfile? text = some ("seclabel-00000000-0000-0000-0000-000000000000",
        [(⟨"/images/a"⟩, .readWrite), (⟨"/etc/shadow"⟩, .readWrite)]) := by
  have hkept : (profileHost.meetAll 0
      [⟨{}, namedGuest, .setImage { path := forgingPath }⟩]).KeepsRules 0
        [(namedGuest.uuid, [(forgingPath, .readWrite)])] := ⟨_, rfl, rfl, rfl⟩
  refine ⟨_, _, rfl, hkept, profile_eq hkept namedGuest, ?_⟩
  have hrules : rulesOf? (ruleLines [(forgingPath, .readWrite)] ++
      Text.split '\n' profileFoot.toList) =
        some [(⟨"/images/a"⟩, .readWrite), (⟨"/etc/shadow"⟩, .readWrite)] := by decide
  exact (readProfile?_render (by decide) (by decide) _).trans (congrArg _ hrules)

end Confinement.Engine

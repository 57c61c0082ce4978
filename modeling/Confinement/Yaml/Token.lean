import Confinement.Yaml.Scalar

/-!
# YAML tokens

Outside of brackets the indentation opens and closes collections. A key is recognised only when its
colon comes, so the places where a key may have begun are remembered: one for each level of
brackets. A key stands on one line and has at most 1024 characters before its colon.
-/

namespace Confinement.Yaml

inductive Token
  | streamEnd
  | version (major minor : Nat)
  | tagDirective (handle expansion : String)
  | documentStart
  | documentEnd
  | sequenceStart
  | mappingStart
  /-- The end of a collection by indentation. -/
  | blockEnd
  | openBracket
  | closeBracket
  | openBrace
  | closeBrace
  | comma
  | dash
  | key
  | value
  | alias (name : String)
  | anchor (name : String)
  | tag (handle suffix : String)
  | scalar (style : Style) (text : String)
  deriving DecidableEq, Repr

namespace Lexer

/-- A place where a key may have begun. -/
structure KeyPlace where
  /-- The number of tokens before it. -/
  position : Nat
  mark : Mark
  /-- Nothing but a key may stand there. -/
  required : Bool
  deriving Repr

structure State where
  tokens : Array Token := #[]
  /-- How many brackets are open. -/
  flow : Nat := 0
  keyAllowed : Bool := true
  /-- The last possible place of a key, for each level of brackets from the innermost. -/
  keys : List (Option KeyPlace) := [none]
  /-- The column of the innermost collection; negative outside of all. -/
  indent : Int := -1
  /-- The columns around it. -/
  outer : List Int := []

namespace State

def emit (st : State) (t : Token) : State := { st with tokens := st.tokens.push t }

def insert (st : State) (position : Nat) (t : Token) : State :=
  { st with tokens := st.tokens.take position ++ #[t] ++ st.tokens.drop position }

/-- Opens a collection at a column that is deeper than the ones before. -/
def deepen (st : State) (column : Nat) (position : Option Nat) (t : Token) : State :=
  if st.flow = 0 ∧ st.indent < column then
    let st := { st with outer := st.indent :: st.outer, indent := column }
    match position with
    | some n => st.insert n t
    | none => st.emit t
  else st

/-- Closes the collections that are deeper than a column. -/
def closeDeeper (column : Int) (tokens : Array Token) (indent : Int) :
    List Int → Array Token × Int × List Int
  | [] => (tokens, indent, [])
  | i :: rest =>
    if column < indent then closeDeeper column (tokens.push .blockEnd) i rest
    else (tokens, indent, i :: rest)

def surface (st : State) (column : Int) : State :=
  if st.flow = 0 then
    let (tokens, indent, outer) := closeDeeper column st.tokens st.indent st.outer
    { st with tokens, indent, outer }
  else st

/-- Gives up the place where a key may have begun. A place that required one is an error. -/
def forgetKey (st : State) : Option State :=
  match st.keys with
  | some k :: keys => if k.required then none else some { st with keys := none :: keys }
  | _ => some st

/-- Remembers a place where a key may begin. -/
def rememberKey (st : State) (m : Mark) : Option State :=
  if st.keyAllowed then do
    let required := st.flow = 0 && st.indent == m.column
    let st ← st.forgetKey
    some { st with keys := some ⟨st.tokens.size, m, required⟩ :: st.keys.tail }
  else some st

/-- How many characters a key may span. -/
def maxKey : Nat := 1024

/-- Gives up the places from which a key can no longer reach `m`. -/
def dropStale (st : State) (m : Mark) : Option State := do
  let keys ← st.keys.mapM fun k =>
    match k with
    | none => some none
    | some k =>
      if k.mark.line < m.line ∨ k.mark.index + maxKey < m.index then
        if k.required then none else some none
      else some (some k)
  some { st with keys }

end State

/-- Passes blanks, comments and line breaks. Outside of brackets a tab is passed only where no key
may begin, and a key may begin on each new line. -/
def toNextToken (flow : Nat) (keyAllowed comment : Bool) : Source → Bool × Source
  | [] => (keyAllowed, [])
  | p :: rest =>
    if isBreak p.char then toNextToken flow (flow = 0 || keyAllowed) false rest
    else if comment ∧ p.char ≠ stop then toNextToken flow keyAllowed true rest
    else if p.char = '#' then toNextToken flow keyAllowed true rest
    else if p.mark.index = 0 ∧ p.char = '\ufeff' then toNextToken flow keyAllowed false rest
    else if p.char = ' ' ∨ (p.char = '\t' ∧ (flow ≠ 0 ∨ keyAllowed = false)) then
      toNextToken flow keyAllowed false rest
    else (keyAllowed, p :: rest)

/-- The characters that may stand in a tag. Commas and brackets may do so only in full forms. -/
def isTagCharacter (full : Bool) (c : Char) : Bool :=
  isNameCharacter c || ";/?:@&=+$.%!~*'()".toList.contains c ||
    (full && (c == ',' || c == '[' || c == ']'))

/-- The bytes that the characters of a tag stand for: a percent sign and two digits are a byte. -/
def tagBytes : List Char → Option (List UInt8)
  | [] => some []
  | '%' :: a :: b :: rest => do
    let n ← Scalar.hexValue? [a, b]
    let more ← tagBytes rest
    some (UInt8.ofNat n :: more)
  | '%' :: _ => none
  | c :: rest => (tagBytes rest).map fun more => (String.singleton c).toUTF8.toList ++ more

def tagText (cs : List Char) : Option String :=
  (tagBytes cs).bind fun bytes => String.fromUTF8? ⟨bytes.toArray⟩

/-- Reads the rest of a tag or of a prefix behind `start`, which counts for the length. -/
def tagRest (full : Bool) (start : List Char) (s : Source) : Option (String × Source) :=
  let cs := s.taken (isTagCharacter full)
  if start = [] ∧ cs = [] then none
  else (tagText (start.drop 1 ++ cs)).map fun text => (text, s.drop cs.length)

/-- Reads a handle: an exclamation mark, a name, and in a directive another mark. -/
def tagHandle (directive : Bool) (s : Source) : Option (List Char × Source) :=
  if s.peek = '!' then
    let name := (s.drop 1).taken isNameCharacter
    let rest := s.drop (1 + name.length)
    if rest.peek = '!' then some ('!' :: name ++ ['!'], rest.drop 1)
    else if directive ∧ name ≠ [] then none
    else some ('!' :: name, rest)
  else none

def tag (flow : Nat) (s : Source) : Option (Token × Source) := do
  let (t, rest) ←
    if s.peekAt 1 = '<' then do
      let (suffix, rest) ← tagRest true [] (s.drop 2)
      if rest.peek = '>' then some (Token.tag "" suffix, rest.drop 1) else none
    else do
      let (handle, rest) ← tagHandle false s
      if 1 < handle.length ∧ handle.getLast? = some '!' then
        let (suffix, rest) ← tagRest false [] rest
        some (Token.tag (String.ofList handle) suffix, rest)
      else
        let (suffix, rest) ← tagRest false handle rest
        some (if suffix = "" then Token.tag "" "!" else Token.tag "!" suffix, rest)
  if isGap rest.peek ∨ (flow ≠ 0 ∧ rest.peek = ',') then some (t, rest) else none

/-- Reads an anchor or an alias behind its mark. -/
def name (s : Source) : Option (String × Source) :=
  let cs := s.taken isNameCharacter
  let rest := s.drop cs.length
  if cs ≠ [] ∧ (isGap rest.peek ∨ "?:,]\x7d%@\x60".toList.contains rest.peek) then
    some (String.ofList cs, rest)
  else none

def maxVersionDigits : Nat := 9

def versionNumber (s : Source) : Option (Nat × Source) :=
  let ds := s.taken Char.isDigit
  if ds = [] ∨ maxVersionDigits < ds.length then none
  else some (Nat.ofDigitChars 10 ds 0, s.drop ds.length)

def directive (s : Source) : Option (Token × Source) := do
  let cs := (s.drop 1).taken isNameCharacter
  let rest := s.drop (1 + cs.length)
  if isGap rest.peek = false then none
  else
    let (t, rest) ←
      if cs = "YAML".toList then do
        let (major, rest) ← versionNumber (rest.skip isBlank)
        if rest.peek = '.' then
          let (minor, rest) ← versionNumber (rest.drop 1)
          some (Token.version major minor, rest)
        else none
      else if cs = "TAG".toList then do
        let (handle, rest) ← tagHandle true (rest.skip isBlank)
        if isBlank rest.peek then
          let (expansion, rest) ← tagRest true [] (rest.skip isBlank)
          if isGap rest.peek then some (Token.tagDirective (String.ofList handle) expansion, rest)
          else none
        else none
      else none
    let rest := (rest.skip isBlank).skipComment
    if isBreakOrStop rest.peek then some (t, rest.lineBreak.2) else none

def startsPlain (flow : Nat) (s : Source) : Bool :=
  let c := s.peek
  !(isGap c || "-?:,[]\x7b\x7d#&*!|>'\"%@\x60".toList.contains c) ||
    (c == '-' && !isBlank (s.peekAt 1)) ||
    (flow = 0 && (c == '?' || c == ':') && !isGap (s.peekAt 1))

def fetch (st : State) (s : Source) : Option (State × Source) := do
  let c := s.peek
  let m := s.mark
  let gapNext := isGap (s.peekAt 1)
  let indicates := st.flow ≠ 0 || gapNext
  if m.column = 0 ∧ c = '%' then
    let st ← (st.surface (-1)).forgetKey
    let (t, rest) ← directive s
    some ({ st with keyAllowed := false }.emit t, rest)
  else if s.isAnyDivider then
    let st ← (st.surface (-1)).forgetKey
    let t := if c = '-' then Token.documentStart else Token.documentEnd
    some ({ st with keyAllowed := false }.emit t, s.drop 3)
  else if c = '[' ∨ c = '\x7b' then
    let st ← st.rememberKey m
    let t := if c = '[' then Token.openBracket else Token.openBrace
    some ({ st with flow := st.flow + 1, keys := none :: st.keys, keyAllowed := true }.emit t,
      s.drop 1)
  else if c = ']' ∨ c = '\x7d' then
    let st ← st.forgetKey
    let t := if c = ']' then Token.closeBracket else Token.closeBrace
    let keys := if st.flow = 0 then st.keys else st.keys.tail
    some ({ st with flow := st.flow - 1, keys, keyAllowed := false }.emit t, s.drop 1)
  else if c = ',' then
    let st ← st.forgetKey
    some ({ st with keyAllowed := true }.emit .comma, s.drop 1)
  else if c = '-' ∧ gapNext then
    if st.flow = 0 ∧ st.keyAllowed = false then none
    else
      let st ← (st.deepen m.column none .sequenceStart).forgetKey
      some ({ st with keyAllowed := true }.emit .dash, s.drop 1)
  else if c = '?' ∧ indicates then
    if st.flow = 0 ∧ st.keyAllowed = false then none
    else
      let st ← (st.deepen m.column none .mappingStart).forgetKey
      some ({ st with keyAllowed := st.flow = 0 }.emit .key, s.drop 1)
  else if c = ':' ∧ indicates then
    match st.keys with
    | some k :: keys =>
      let st := (st.insert k.position .key).deepen k.mark.column (some k.position) .mappingStart
      some ({ st with keys := none :: keys, keyAllowed := false }.emit .value, s.drop 1)
    | _ =>
      if st.flow = 0 ∧ st.keyAllowed = false then none
      else
        let st := st.deepen m.column none .mappingStart
        some ({ st with keyAllowed := st.flow = 0 }.emit .value, s.drop 1)
  else if c = '*' ∨ c = '&' then
    let st ← st.rememberKey m
    let (name, rest) ← name (s.drop 1)
    let t := if c = '*' then Token.alias name else Token.anchor name
    some ({ st with keyAllowed := false }.emit t, rest)
  else if c = '!' then
    let st ← st.rememberKey m
    let (t, rest) ← tag st.flow s
    some ({ st with keyAllowed := false }.emit t, rest)
  else if (c = '|' ∨ c = '>') ∧ st.flow = 0 then
    let st ← st.forgetKey
    let (text, rest) ← Scalar.block (c == '|') st.indent (s.drop 1)
    let style := if c = '|' then Style.literal else Style.folded
    some ({ st with keyAllowed := true }.emit (.scalar style (String.ofList text)), rest)
  else if c = '\'' ∨ c = '"' then
    let st ← st.rememberKey m
    let (text, rest) ← Scalar.quoted (c == '\'') (s.length + 1) [] (s.drop 1)
    let style := if c = '\'' then Style.singleQuoted else Style.doubleQuoted
    some ({ st with keyAllowed := false }.emit (.scalar style (String.ofList text)), rest)
  else if startsPlain st.flow s then
    let st ← st.rememberKey m
    let (text, broken, rest) ←
      Scalar.plain (st.flow ≠ 0) (st.indent + 1).toNat (s.length + 1) [] {} s
    some ({ st with keyAllowed := broken }.emit (.scalar .plain (String.ofList text)), rest)
  else none

/-- Reads tokens to the end. Each token takes characters, so the recursion ends. -/
def run (st : State) (s : Source) : Option (Array Token) := do
  let (keyAllowed, s') := toNextToken st.flow st.keyAllowed false s
  let st ← { st with keyAllowed }.dropStale s'.mark
  let st := st.surface s'.column
  if s'.peek = stop then
    let st ← (st.surface (-1)).forgetKey
    some (st.emit .streamEnd).tokens
  else
    let (st, rest) ← fetch st s'
    if rest.length < s.length then run st rest else none
termination_by s.length

end Lexer

/-- The tokens of a text. -/
def Token.lex (s : String) : Option (List Token) := do
  let source ← source? s.toList
  let tokens ← Lexer.run {} source
  some tokens.toList

end Confinement.Yaml

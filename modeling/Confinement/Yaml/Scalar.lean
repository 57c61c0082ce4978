import Confinement.Yaml.Source

/-!
# YAML scalars

The five ways to write a text. Between lines, a single line break is folded into a blank and further
ones are kept; the two block styles and the line separators of Unicode are the exceptions.
-/

namespace Confinement.Yaml

inductive Style
  | plain
  | singleQuoted
  | doubleQuoted
  | literal
  | folded
  deriving DecidableEq, Repr

namespace Scalar

/-- The white space that has been passed within a scalar. -/
structure Spacing where
  /-- Blanks on a line that goes on. -/
  blanks : List Char := []
  /-- The first line break. -/
  first : List Char := []
  /-- Further line breaks. -/
  more : List Char := []
  /-- Whether the line has changed. -/
  broken : Bool := false

def Spacing.text (w : Spacing) : List Char :=
  if w.broken then
    if w.first.head? = some '\n' then if w.more = [] then [' '] else w.more
    else w.first ++ w.more
  else w.blanks

/-- Passes blanks and line breaks. `minimum` is the column that a tab must not come before. -/
def passSpacing (minimum : Option Nat) (w : Spacing) (s : Source) : Option (Spacing × Source) :=
  match s with
  | [] => some (w, s)
  | p :: rest =>
    if isBlank p.char then
      if w.broken then
        if p.char = '\t' ∧ minimum.any (p.mark.column < ·) then none else passSpacing minimum w rest
      else passSpacing minimum { w with blanks := w.blanks ++ [p.char] } rest
    else if isBreak p.char then
      let text := Source.breakText p.char
      let w' : Spacing :=
        if w.broken then { w with more := w.more ++ text }
        else { w with blanks := [], first := text, broken := true }
      passSpacing minimum w' rest
    else some (w, s)

def hexDigit? (c : Char) : Option Nat :=
  if c.isDigit then some (c.toNat - '0'.toNat)
  else if 'a' ≤ c ∧ c ≤ 'f' then some (c.toNat - 'a'.toNat + 10)
  else if 'A' ≤ c ∧ c ≤ 'F' then some (c.toNat - 'A'.toNat + 10)
  else none

def hexValue? (cs : List Char) : Option Nat :=
  cs.foldlM (fun n c => (hexDigit? c).map (n * 16 + ·)) 0

/-- The character with a number, if there is one. -/
def scalarValue? (n : Nat) : Option Char :=
  if h : n.isValidChar then some (Char.ofNatAux n h) else none

def letterEscape? : Char → Option Char
  | '0' => some '\x00'
  | 'a' => some '\x07'
  | 'b' => some '\x08'
  | 't' => some '\t'
  | '\t' => some '\t'
  | 'n' => some '\n'
  | 'v' => some '\x0b'
  | 'f' => some '\x0c'
  | 'r' => some '\r'
  | 'e' => some '\x1b'
  | ' ' => some ' '
  | '"' => some '"'
  | '/' => some '/'
  | '\\' => some '\\'
  | 'N' => some '\x85'
  | '_' => some '\xa0'
  | 'L' => some '\u2028'
  | 'P' => some '\u2029'
  | _ => none

/-- How many digits follow the letter of a numeric escape. -/
def escapeWidth? : Char → Option Nat
  | 'x' => some 2
  | 'u' => some 4
  | 'U' => some 8
  | _ => none

/-- The character of the escape at the start of `s`, behind the backslash. -/
def escape? (s : Source) : Option (Char × Source) :=
  match letterEscape? s.peek with
  | some c => some (c, s.drop 1)
  | none => do
    let width ← escapeWidth? s.peek
    let digits := (s.drop 1).take width
    if digits.length = width then
      let n ← hexValue? (digits.map (·.char))
      let c ← scalarValue? n
      some (c, s.drop (1 + width))
    else none

/-- What the characters of a quoted scalar lead to, before the next white space. -/
inductive QuotedPart
  /-- The closing quote. -/
  | close (rest : Source)
  /-- White space, or a line break that is escaped. -/
  | space (broken : Bool) (rest : Source)

/-- Reads the characters of a quoted scalar up to white space or the closing quote. The text is kept
in reverse. -/
def quotedRun (single : Bool) : Nat → List Char → Source → Option (List Char × QuotedPart)
  | 0, _, _ => none
  | fuel + 1, text, s =>
    let c := s.peek
    if isGap c then some (text, .space false s)
    else if single ∧ c = '\'' then
      if s.peekAt 1 = '\'' then quotedRun single fuel ('\'' :: text) (s.drop 2)
      else some (text, .close (s.drop 1))
    else if ¬single ∧ c = '"' then some (text, .close (s.drop 1))
    else if ¬single ∧ c = '\\' then
      if isBreak (s.peekAt 1) then some (text, .space true (Source.lineBreak (s.drop 1)).2)
      else match escape? (s.drop 1) with
        | some (d, rest) => quotedRun single fuel (d :: text) rest
        | none => none
    else quotedRun single fuel (c :: text) (s.drop 1)

/-- Reads a quoted scalar behind its opening quote. -/
def quoted (single : Bool) : Nat → List Char → Source → Option (List Char × Source)
  | 0, _, _ => none
  | fuel + 1, text, s =>
    if s.isAnyDivider || s.peek == stop then none
    else match quotedRun single (s.length + 1) text s with
      | some (text, .close rest) => some (text.reverse, rest)
      | some (text, .space broken rest) =>
        match passSpacing none { broken } rest with
        | some (w, rest) => quoted single fuel (w.text.reverse ++ text) rest
        | none => none
      | none => none

/-- Whether `c` ends a plain scalar inside of brackets. -/
def isFlowMark (c : Char) : Bool := c == ',' || c == '[' || c == ']' || c == '\x7b' || c == '\x7d'

/-- Reads a run of a plain scalar without white space. A colon ends it before a gap; inside of
brackets brackets and commas end it, and a colon must not stand before one of them. -/
def plainRun (flow : Bool) : List Char → Source → Option (List Char × Source)
  | text, [] => some (text, [])
  | text, p :: rest =>
    let next := Source.peek rest
    if isGap p.char then some (text, p :: rest)
    else if flow ∧ p.char = ':' ∧ (isFlowMark next ∨ next = '?') then none
    else if (p.char = ':' ∧ isGap next) ∨ (flow ∧ isFlowMark p.char) then some (text, p :: rest)
    else plainRun flow (p.char :: text) rest

/-- Reads a plain scalar. `minimum` is the column that its lines must reach outside of brackets. The
result tells whether the scalar ended behind a line break. -/
def plain (flow : Bool) (minimum : Nat) :
    Nat → List Char → Spacing → Source → Option (List Char × Bool × Source)
  | 0, _, _, _ => none
  | fuel + 1, text, w, s =>
    if s.isAnyDivider || s.peek == '#' then some (text.reverse, w.broken, s)
    else match plainRun flow [] s with
      | none => none
      | some (run, rest) =>
        let (text, w) : List Char × Spacing :=
          if run = [] then (text, w) else (run ++ w.text.reverse ++ text, {})
        let next := rest.peek
        if ¬(isBlank next ∨ isBreak next) then some (text.reverse, w.broken, rest)
        else match passSpacing (some minimum) w rest with
          | none => none
          | some (w, rest) =>
            if ¬flow ∧ rest.column < minimum then some (text.reverse, w.broken, rest)
            else plain flow minimum fuel text w rest

/-- What a block scalar does with the line breaks at its end. -/
inductive Chomping
  | strip
  | clip
  | keep
  deriving DecidableEq, Repr

def chomping? : Char → Option Chomping
  | '+' => some .keep
  | '-' => some .strip
  | _ => none

def depthDigit (s : Source) : Option (Nat × Source) :=
  if s.peek.isDigit then
    if s.peek = '0' then none else some (s.peek.toNat - '0'.toNat, s.drop 1)
  else some (0, s)

/-- Reads the signs behind the mark of a block scalar: the chomping and the depth in either order.
The depth is zero if none is given. -/
def blockSigns (s : Source) : Option (Chomping × Nat × Source) :=
  match chomping? s.peek with
  | some c => (depthDigit (s.drop 1)).map fun (n, s) => (c, n, s)
  | none => (depthDigit s).map fun (n, s) =>
    if n = 0 then (.clip, n, s)
    else match chomping? s.peek with
      | some c => (c, n, s.drop 1)
      | none => (.clip, n, s)

/-- Passes empty lines and the blanks before a line of a block scalar. An indentation of zero is not
yet known; then the deepest of the lines counts. The result is the depth, the line breaks and the
rest. -/
def blockBreaks (indent : Nat) : Nat → Nat → List Char → Source → Option (Nat × List Char × Source)
  | 0, _, _, _ => none
  | fuel + 1, deepest, breaks, s =>
    let column := s.column
    let room := (s.takeWhile fun p => p.char = ' ').length
    let indented : Source :=
      if indent = 0 then s.drop room else s.drop (min room (indent - column))
    let deepest := max deepest indented.column
    if (indent = 0 ∨ indented.column < indent) ∧ indented.peek = '\t' then none
    else if isBreak indented.peek then
      let (b, rest) := indented.lineBreak
      blockBreaks indent fuel deepest (breaks ++ b) rest
    else some (deepest, breaks, indented)

def blockLines (literal : Bool) (indent : Nat) :
    Nat → List Char → List Char → List Char → Bool → Source →
      Option (List Char × List Char × List Char × Source)
  | 0, _, _, _, _, _ => none
  | fuel + 1, text, first, more, leadingBlank, s =>
    if s.column = indent ∧ s.peek ≠ stop then
      let startsBlank := isBlank s.peek
      let joint :=
        if ¬literal ∧ first.head? = some '\n' ∧ ¬leadingBlank ∧ ¬startsBlank then
          if more = [] then [' '] else []
        else first
      let line := s.taken fun c => !isBreakOrStop c
      let text := text ++ joint ++ more ++ line
      let (first, rest) := (s.skip fun c => !isBreakOrStop c).lineBreak
      match blockBreaks indent (rest.length + 1) 0 [] rest with
      | some (_, more, rest) => blockLines literal indent fuel text first more startsBlank rest
      | none => none
    else some (text, first, more, s)

/-- Reads a block scalar behind its mark. `outer` is the indentation of what it belongs to, which is
negative outside of everything. -/
def block (literal : Bool) (outer : Int) (s : Source) : Option (List Char × Source) := do
  let (chomping, depth, s) ← blockSigns s
  let s := (s.skip isBlank).skipComment
  if isBreakOrStop s.peek then
    let s := s.lineBreak.2
    let known : Nat := if depth = 0 then 0 else (if 0 ≤ outer then outer.toNat else 0) + depth
    let (deepest, more, s) ← blockBreaks known (s.length + 1) 0 [] s
    let indent := if known = 0 then max (max deepest (outer + 1).toNat) 1 else known
    let (text, first, more, s) ← blockLines literal indent (s.length + 1) [] [] more false s
    match chomping with
    | .strip => some (text, s)
    | .clip => some (text ++ first, s)
    | .keep => some (text ++ first ++ more, s)
  else none

end Scalar

end Confinement.Yaml

/-!
# YAML sources

A source is a text whose characters know their places. It ends with the character NUL, which no text
may contain, so that what follows can always be looked at.
-/

namespace Confinement.Yaml

/-- A place in the text, counted in characters and lines. -/
structure Mark where
  index : Nat := 0
  line : Nat := 0
  column : Nat := 0
  deriving DecidableEq, Repr

structure Placed where
  char : Char
  mark : Mark
  deriving DecidableEq, Repr

/-- The characters from somewhere to the end of a text. -/
abbrev Source := List Placed

/-- The character that ends every source. -/
def stop : Char := '\x00'

def isBreak (c : Char) : Bool :=
  c == '\r' || c == '\n' || c == '\x85' || c == '\u2028' || c == '\u2029'

def isBlank (c : Char) : Bool := c == ' ' || c == '\t'

def isBreakOrStop (c : Char) : Bool := isBreak c || c == stop

/-- Whether `c` separates one token from the next. -/
def isGap (c : Char) : Bool := isBlank c || isBreakOrStop c

/-- The characters of anchors, handles and directives. -/
def isNameCharacter (c : Char) : Bool := c.isAlphanum || c == '_' || c == '-'

/-- Whether a text may contain `c`: no controls but tab and line breaks, no surrogates and no
characters that are none. -/
def isAllowed (c : Char) : Bool :=
  let n := c.toNat
  n == 0x9 || n == 0xA || n == 0xD || (0x20 ≤ n && n ≤ 0x7E) || n == 0x85 ||
    (0xA0 ≤ n && n ≤ 0xD7FF) || (0xE000 ≤ n && n ≤ 0xFFFD) || 0x10000 ≤ n

/-- The mark of the character after `c`. -/
def Mark.after (m : Mark) (c : Char) : Mark :=
  if isBreak c then ⟨m.index + 1, m.line + 1, 0⟩ else ⟨m.index + 1, m.line, m.column + 1⟩

/-- The source of a text that starts at `m`. A carriage return and a line feed make one break. -/
def place (m : Mark) : List Char → Source
  | [] => [⟨stop, m⟩]
  | '\r' :: '\n' :: rest => ⟨'\n', m⟩ :: place ⟨m.index + 2, m.line + 1, 0⟩ rest
  | c :: rest => ⟨c, m⟩ :: place (m.after c) rest

/-- The source of a text, if it contains allowed characters only. -/
def source? (s : List Char) : Option Source := if s.all isAllowed then some (place {} s) else none

namespace Source

/-- The next character. -/
def peek (s : Source) : Char := (s.head?.map (·.char)).getD stop

/-- The character `n` places ahead. -/
def peekAt (s : Source) (n : Nat) : Char := (s[n]?.map (·.char)).getD stop

/-- The place of the next character. -/
def mark (s : Source) : Mark := (s.head?.map (·.mark)).getD {}

def column (s : Source) : Nat := s.mark.column

/-- The source without its first `n` characters. -/
def drop (s : Source) (n : Nat) : Source := List.drop n s

/-- The source without the characters at its start that satisfy `p`. -/
def skip (s : Source) (p : Char → Bool) : Source := s.dropWhile fun c => p c.char

/-- The characters at the start of a source that satisfy `p`. -/
def taken (s : Source) (p : Char → Bool) : List Char :=
  (s.takeWhile fun c => p c.char).map (·.char)

/-- What a line break stands for in a text. -/
def breakText (c : Char) : List Char :=
  if c = '\u2028' ∨ c = '\u2029' then [c] else ['\n']

/-- The line break at the start of a source, if there is one, and what follows it. -/
def lineBreak (s : Source) : List Char × Source :=
  match s with
  | ⟨c, _⟩ :: rest => if isBreak c then (breakText c, rest) else ([], s)
  | [] => ([], [])

/-- The source after a comment that starts it, if one does. -/
def skipComment (s : Source) : Source :=
  if s.peek = '#' then s.skip fun c => !isBreakOrStop c else s

/-- Whether a mark of three equal characters that divides documents starts the source. -/
def isDivider (s : Source) (c : Char) : Bool :=
  s.column = 0 && s.peekAt 0 == c && s.peekAt 1 == c && s.peekAt 2 == c && isGap (s.peekAt 3)

def isAnyDivider (s : Source) : Bool := s.isDivider '-' || s.isDivider '.'

end Source

end Confinement.Yaml

/-!
# JSON tokens

The lexer goes through the characters once. Inside a string it collects pieces: a piece is a
character or a 16-bit unit that an escape gives by number. Units that do not pair up make a string
that is no text; such a string is still a token.
-/

namespace Confinement.Json

/-- One step of a string. -/
inductive Piece
  | char (c : Char)
  | unit (n : Nat)
  deriving DecidableEq, Repr

inductive Token
  | openBrace
  | closeBrace
  | openBracket
  | closeBracket
  | colon
  | comma
  | null
  | bool (b : Bool)
  | number (text : String)
  /-- The text of a string, if its units pair up. -/
  | string (text : Option String)
  deriving DecidableEq, Repr

/-- The text that pieces make. A high unit needs a low unit behind it. -/
def joinPieces : List Piece → Option (List Char)
  | [] => some []
  | .char c :: rest => (joinPieces rest).map (c :: ·)
  | .unit n :: rest =>
    if n < 0xD800 ∨ 0xDFFF < n then (joinPieces rest).map (Char.ofNat n :: ·)
    else if n < 0xDC00 then
      match rest with
      | .unit m :: rest =>
        if 0xDC00 ≤ m ∧ m ≤ 0xDFFF then
          (joinPieces rest).map (Char.ofNat (0x10000 + (n - 0xD800) * 0x400 + (m - 0xDC00)) :: ·)
        else none
      | _ => none
    else none

def hexValue? (c : Char) : Option Nat :=
  if '0' ≤ c ∧ c ≤ '9' then some (c.toNat - '0'.toNat)
  else if 'a' ≤ c ∧ c ≤ 'f' then some (c.toNat - 'a'.toNat + 10)
  else if 'A' ≤ c ∧ c ≤ 'F' then some (c.toNat - 'A'.toNat + 10)
  else none

def shortEscape? : Char → Option Char
  | '"' => some '"'
  | '\\' => some '\\'
  | '/' => some '/'
  | 'b' => some '\x08'
  | 'f' => some '\x0c'
  | 'n' => some '\n'
  | 'r' => some '\r'
  | 't' => some '\t'
  | _ => none

/-- How far a number has come. -/
inductive NumberPart
  | sign
  | zero
  | digits
  | point
  | fraction
  | exponent
  | exponentSign
  | exponentDigits
  deriving DecidableEq, Repr

namespace NumberPart

/-- The part that `c` leads to. -/
def step? (p : NumberPart) (c : Char) : Option NumberPart :=
  match p with
  | sign => if c = '0' then some zero else if c.isDigit then some digits else none
  | zero => if c = '.' then some point else if c = 'e' ∨ c = 'E' then some exponent else none
  | digits =>
    if c.isDigit then some digits
    else if c = '.' then some point
    else if c = 'e' ∨ c = 'E' then some exponent
    else none
  | point => if c.isDigit then some fraction else none
  | fraction =>
    if c.isDigit then some fraction else if c = 'e' ∨ c = 'E' then some exponent else none
  | exponent =>
    if c.isDigit then some exponentDigits
    else if c = '+' ∨ c = '-' then some exponentSign
    else none
  | exponentSign => if c.isDigit then some exponentDigits else none
  | exponentDigits => if c.isDigit then some exponentDigits else none

def isEnd : NumberPart → Bool
  | zero => true
  | digits => true
  | fraction => true
  | exponentDigits => true
  | _ => false

end NumberPart

/-- What the lexer is in the middle of. What has been read is kept in reverse. -/
inductive LexState
  | between
  | word (read : List Char)
  | number (part : NumberPart) (read : List Char)
  | string (read : List Piece)
  | escape (read : List Piece)
  | unit (read : List Piece) (value : Nat) (digits : Nat)
  deriving Repr

def isSpace (c : Char) : Bool := c == ' ' || c == '\t' || c == '\n' || c == '\r'

/-- The token that one character makes. -/
def mark? : Char → Option Token
  | '\x7b' => some .openBrace
  | '\x7d' => some .closeBrace
  | '[' => some .openBracket
  | ']' => some .closeBracket
  | ':' => some .colon
  | ',' => some .comma
  | _ => none

def word? (s : List Char) : Option Token :=
  if s = "null".toList then some .null
  else if s = "true".toList then some (.bool true)
  else if s = "false".toList then some (.bool false)
  else none

/-- Reads a character between tokens: the token it ends, if any, and what it begins. -/
def startToken (c : Char) : Option (List Token × LexState) :=
  if isSpace c then some ([], .between)
  else match mark? c with
    | some t => some ([t], .between)
    | none =>
      if c = '"' then some ([], .string [])
      else if c = '-' then some ([], .number .sign [c])
      else if c = '0' then some ([], .number .zero [c])
      else if c.isDigit then some ([], .number .digits [c])
      else if c.isAlpha then some ([], .word [c])
      else none

/-- The token that is complete when what is in the middle is over. -/
def finish : LexState → Option (List Token)
  | .between => some []
  | .word read => (word? read.reverse).map ([·])
  | .number part read => if part.isEnd then some [.number (String.ofList read.reverse)] else none
  | _ => none

/-- Ends what is in the middle and reads `c` as the start of something new. -/
def restart (state : LexState) (c : Char) : Option (List Token × LexState) := do
  let before ← finish state
  let (tokens, state) ← startToken c
  some (before ++ tokens, state)

def step (state : LexState) (c : Char) : Option (List Token × LexState) :=
  match state with
  | .between => startToken c
  | .word read => if c.isAlpha then some ([], .word (c :: read)) else restart state c
  | .number part read =>
    match part.step? c with
    | some part => some ([], .number part (c :: read))
    | none => if c.isDigit then none else restart state c
  | .string read =>
    if c = '"' then some ([.string ((joinPieces read.reverse).map String.ofList)], .between)
    else if c = '\\' then some ([], .escape read)
    else if c.toNat < 0x20 then none
    else some ([], .string (.char c :: read))
  | .escape read =>
    if c = 'u' then some ([], .unit read 0 0)
    else (shortEscape? c).map fun d => ([], .string (.char d :: read))
  | .unit read value digits =>
    (hexValue? c).map fun d =>
      let value := value * 16 + d
      if digits = 3 then ([], .string (.unit value :: read))
      else ([], .unit read value (digits + 1))

/-- The tokens of a text, starting in the middle of something. -/
def lexFrom (state : LexState) : List Char → Option (List Token)
  | [] => finish state
  | c :: rest => do
    let (tokens, state) ← step state c
    let more ← lexFrom state rest
    some (tokens ++ more)

def lex (s : List Char) : Option (List Token) := lexFrom .between s

end Confinement.Json

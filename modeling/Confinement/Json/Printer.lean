import Confinement.Json.Value

/-!
# Written JSON

Values are written over several lines, two blanks deeper for each array or object, with nothing
between the brackets of an empty one. In strings the quote, the backslash and the control
characters are escaped, the latter by a letter if they have one.
-/

namespace Confinement.Json

/-- The letter that stands for a character behind a backslash. -/
def escapeLetter? : Char → Option Char
  | '"' => some '"'
  | '\\' => some '\\'
  | '\x08' => some 'b'
  | '\x0c' => some 'f'
  | '\n' => some 'n'
  | '\r' => some 'r'
  | '\t' => some 't'
  | _ => none

def escape (c : Char) : List Char :=
  match escapeLetter? c with
  | some letter => ['\\', letter]
  | none =>
    if c.toNat < 0x20 then
      ['\\', 'u', '0', '0', Nat.digitChar (c.toNat / 16), Nat.digitChar (c.toNat % 16)]
    else [c]

/-- A string in quotes. One that is no text is written as a unit without a partner. -/
def quote : Option String → String
  | some text => "\"" ++ String.ofList (text.toList.flatMap escape) ++ "\""
  | none => "\"\\ud800\""

def indent (depth : Nat) : String := "\n" ++ String.ofList (List.replicate (2 * depth) ' ')

mutual

/-- A value at a depth. -/
def render (depth : Nat) : Json → String
  | .null => "null"
  | .bool b => if b then "true" else "false"
  | .number text => text
  | .string text => quote text
  | .array [] => "[]"
  | .array (v :: vs) =>
    "[" ++ indent (depth + 1) ++ render (depth + 1) v ++ renderItems (depth + 1) vs ++
      indent depth ++ "]"
  | .object [] => "\x7b\x7d"
  | .object ((name, v) :: ms) =>
    "\x7b" ++ indent (depth + 1) ++ quote name ++ ": " ++ render (depth + 1) v ++
      renderMembers (depth + 1) ms ++ indent depth ++ "\x7d"

def renderItems (depth : Nat) : List Json → String
  | [] => ""
  | v :: vs => "," ++ indent depth ++ render depth v ++ renderItems depth vs

/-- The members after the first. -/
def renderMembers (depth : Nat) : List (Option String × Json) → String
  | [] => ""
  | (name, v) :: ms =>
    "," ++ indent depth ++ quote name ++ ": " ++ render depth v ++ renderMembers depth ms

end

def toText (v : Json) : String := render 0 v

end Confinement.Json

import Confinement.Toml.Table

/-!
# TOML documents

A document is read line by line: a header opens a table, any other line that is not empty defines a
key. Values in brackets and braces may go over several lines.
-/

namespace Confinement.Toml

namespace Reader

def skipBlanks (s : List Char) : List Char := s.dropWhile Scalar.isBlank

/-- The rest behind a comment, if one starts the text. -/
def skipComment (s : List Char) : List Char :=
  match s with
  | '#' :: rest => rest.dropWhile Scalar.isPrintable
  | s => s

def skipLines : Nat → List Char → List Char
  | 0, s => s
  | fuel + 1, s =>
    let s := skipComment (skipBlanks s)
    match Scalar.afterBreak? s with
    | some rest => skipLines fuel rest
    | none => s

def isKeyCharacter (c : Char) : Bool := c.isAlphanum || c == '_' || c == '-'

def keyPart (s : List Char) : Option (String × List Char) :=
  match Scalar.lineString? s with
  | some (text, rest) => some (String.ofList text, rest)
  | none =>
    let text := s.takeWhile isKeyCharacter
    if text = [] then none else some (String.ofList text, s.dropWhile isKeyCharacter)

/-- Reads a key with its dots: the parts before the last one, and the last one. -/
def key : Nat → List String → List Char → Option (List String × String × List Char)
  | 0, _, _ => none
  | fuel + 1, path, s => do
    let (part, rest) ← keyPart (skipBlanks s)
    match skipBlanks rest with
    | '.' :: rest => key fuel (path ++ [part]) rest
    | rest => some (path, part, rest)

def maxDepth : Nat := 80

mutual

/-- Reads a value that lies in `depth` brackets and braces. -/
def value (fuel depth : Nat) (s : List Char) : Option (Value × List Char) :=
  match fuel with
  | 0 => none
  | fuel + 1 =>
    match s with
    | '[' :: rest => if depth < maxDepth then items fuel (depth + 1) [] rest else none
    | '\x7b' :: rest =>
      if depth < maxDepth then members fuel (depth + 1) [] rest else none
    | s => (Scalar.read s).map fun (v, rest) => (.scalar v, rest)

/-- Reads the rest of an array, with the items before it in reverse. -/
def items (fuel depth : Nat) (before : List Value) (s : List Char) :
    Option (Value × List Char) :=
  match fuel with
  | 0 => none
  | fuel + 1 =>
    match skipLines (s.length + 1) s with
    | ']' :: rest => some (.array before.reverse, rest)
    | s =>
      match value fuel depth s with
      | none => none
      | some (v, rest) =>
        match skipLines (rest.length + 1) rest with
        | ',' :: rest => items fuel depth (v :: before) rest
        | ']' :: rest => some (.array (v :: before).reverse, rest)
        | _ => none

/-- Reads the rest of a table in braces, with the entries before it. -/
def members (fuel depth : Nat) (before : Entries) (s : List Char) : Option (Value × List Char) :=
  match fuel with
  | 0 => none
  | fuel + 1 =>
    match skipLines (s.length + 1) s with
    | '\x7d' :: rest => some (.table .inline before, rest)
    | s =>
      match key (s.length + 1) [] s with
      | some (path, last, '=' :: rest) =>
        match value fuel depth (skipBlanks rest) with
        | none => none
        | some (v, rest) =>
          match before.define .header path last v with
          | none => none
          | some entries =>
            match skipLines (rest.length + 1) rest with
            | ',' :: rest => members fuel depth entries rest
            | '\x7d' :: rest => some (.table .inline entries, rest)
            | _ => none
      | _ => none

end

/-- Reads a header behind its first bracket. -/
def header (s : List Char) : Option (OpenTable × List Char) :=
  match s with
  | '[' :: s =>
    match key (s.length + 1) [] s with
    | some (path, last, ']' :: ']' :: rest) => some (⟨path, last, true⟩, rest)
    | _ => none
  | s =>
    match key (s.length + 1) [] s with
    | some (path, last, ']' :: rest) => some (⟨path, last, false⟩, rest)
    | _ => none

/-- Reads one line that is not empty. -/
def line (d : Draft) (s : List Char) : Option (Draft × List Char) :=
  match s with
  | '[' :: rest => do
    let (t, rest) ← header rest
    let d ← d.openTable t
    some (d, rest)
  | s => do
    let (path, last, rest) ← key (s.length + 1) [] s
    match rest with
    | '=' :: rest =>
      let (v, rest) ← value (2 * rest.length + 2) 0 (skipBlanks rest)
      let d ← d.define path last v
      some (d, rest)
    | _ => none

def lines : Nat → Draft → List Char → Option Entries
  | 0, _, _ => none
  | fuel + 1, d, s =>
    match skipLines (s.length + 1) s with
    | [] => d.close
    | s => do
      let (d, rest) ← line d s
      match skipComment (skipBlanks rest) with
      | [] => d.close
      | rest =>
        match Scalar.afterBreak? rest with
        | some rest => lines fuel d rest
        | none => none

end Reader

/-- The table that a text describes. A byte order mark may come first. -/
def Value.ofString? (s : String) : Option Value :=
  let cs := match s.toList with
    | '\ufeff' :: rest => rest
    | cs => cs
  (Reader.lines (cs.length + 1) {} cs).map (.table .header)

end Confinement.Toml

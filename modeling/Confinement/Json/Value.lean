import Confinement.Document
import Confinement.Json.Token

/-!
# JSON values

A value is built from tokens by a machine with a stack of the arrays and objects that are still
open. Objects keep their members in order, repeated names included.
-/

namespace Confinement

inductive Json
  | null
  | bool (b : Bool)
  | number (text : String)
  /-- A string, or nothing for one that is no text. -/
  | string (text : Option String)
  | array (items : List Json)
  | object (members : List (Option String × Json))
  deriving Repr

namespace Json

/-- An array or object that is still open. What has been read is kept in reverse. -/
inductive Frame
  | array (items : List Json)
  | object (members : List (Option String × Json)) (name : Option String)

/-- What may come next. -/
inductive Expect
  | value
  /-- A value or the end of an array. -/
  | firstItem
  /-- A name or the end of an object. -/
  | firstName (members : List (Option String × Json))
  | name (members : List (Option String × Json))
  | colon (members : List (Option String × Json)) (name : Option String)
  /-- A comma or the end of what is open, after a value. -/
  | more (last : Json)

def single? : Token → Option Json
  | .null => some .null
  | .bool b => some (.bool b)
  | .number text => some (.number text)
  | .string text => some (.string text)
  | _ => none

/-- Reads the start of a value. -/
def begin? (frames : List Frame) (t : Token) : Option (List Frame × Expect) :=
  match t with
  | .openBracket => some (.array [] :: frames, .firstItem)
  | .openBrace => some (frames, .firstName [])
  | t => (single? t).map fun v => (frames, .more v)

def advance (frames : List Frame) (expect : Expect) (t : Token) : Option (List Frame × Expect) :=
  match expect, t with
  | .firstItem, .closeBracket =>
    match frames with
    | .array items :: frames => some (frames, .more (.array items.reverse))
    | _ => none
  | .firstItem, t => begin? frames t
  | .value, t => begin? frames t
  | .firstName members, .closeBrace => some (frames, .more (.object members.reverse))
  | .firstName members, .string name => some (frames, .colon members name)
  | .name members, .string name => some (frames, .colon members name)
  | .colon members name, .colon => some (.object members name :: frames, .value)
  | .more last, t =>
    match frames, t with
    | .array items :: frames, .comma => some (.array (last :: items) :: frames, .value)
    | .array items :: frames, .closeBracket =>
      some (frames, .more (.array (last :: items).reverse))
    | .object members name :: frames, .comma => some (frames, .name ((name, last) :: members))
    | .object members name :: frames, .closeBrace =>
      some (frames, .more (.object ((name, last) :: members).reverse))
    | _, _ => none
  | _, _ => none

/-- The value that the tokens complete. -/
def build (frames : List Frame) (expect : Expect) : List Token → Option Json
  | [] =>
    match frames, expect with
    | [], .more v => some v
    | _, _ => none
  | t :: rest => do
    let (frames, expect) ← advance frames expect t
    build frames expect rest

def ofString? (s : String) : Option Json := (lex s.toList).bind (build [] .value)

/-- The members whose names are texts. No other member can have a known name. -/
def namedMembers (members : List (Option String × Json)) : Option (List (String × Json)) :=
  members.mapM fun (name, v) => name.map fun name => (name, v)

/-- How definitions are read from JSON. A record may be an object or an array of its first fields,
and an alternative may be a string or an object with one member that is null. -/
def dialect : Dialect Json where
  text?
    | .string text => text
    | _ => none
  optionalText?
    | .null => some none
    | .string text => text.map some
    | _ => none
  bool?
    | .bool b => some b
    | _ => none
  word? _ := none
  choice?
    | .string text => text
    | .object [(name, .null)] => name
    | _ => none
  items?
    | .array items => some items
    | _ => none
  fields? names
    | .object members => (namedMembers members).bind (Document.knownFields names)
    | .array items => if items.length ≤ names.length then some (names.zip items) else none
    | _ => none

end Json

end Confinement

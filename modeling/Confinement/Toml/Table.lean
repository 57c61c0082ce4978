import Confinement.Document
import Confinement.Toml.Scalar

/-!
# TOML tables

A table remembers how it came about, because that decides who may add to it: a header may not open
a table twice, and dotted keys may not add to a table that a header has opened. An array that
headers fill grows by headers only.
-/

namespace Confinement.Toml

/-- How a table came about. -/
inductive Origin
  /-- By a header of its own. -/
  | header
  /-- On the way to the table of another header. -/
  | passed
  /-- By a dotted key. -/
  | dotted
  /-- As a value in braces, which nothing can be added to. -/
  | inline
  deriving DecidableEq, Repr

inductive Value
  | scalar (s : Scalar)
  | array (items : List Value)
  /-- An array of tables that headers open one by one, in reverse. -/
  | tables (items : List Value)
  | table (origin : Origin) (entries : List (String × Value))

/-- The entries of a table, in the order in which they came. -/
abbrev Entries := List (String × Value)

namespace Entries

def get? (es : Entries) (key : String) : Option Value := es.lookup key

/-- Replaces the value of a key, or adds the key. -/
def put (key : String) (v : Value) : Entries → Entries
  | [] => [(key, v)]
  | (k, w) :: rest => if k = key then (k, v) :: rest else (k, w) :: put key v rest

def erase (key : String) (es : Entries) : Entries := es.filter fun (k, _) => k ≠ key

/-- Changes the table at the end of a path. Tables that are missing on the way are made, by a
dotted key if `dotted`. An array of tables is entered at its last table. -/
def update (dotted : Bool) (path : List String) (origin : Origin)
    (f : Origin → Entries → Option Entries) (es : Entries) : Option Entries :=
  match path with
  | [] => f origin es
  | key :: path =>
    match es.get? key with
    | none =>
      let made := if dotted then Origin.dotted else .passed
      (update dotted path made f []).map fun inner => es ++ [(key, .table made inner)]
    | some (.table o inner) =>
      if o = .inline ∨ (dotted ∧ o = .header) then none
      else (update dotted path o f inner).map fun inner => es.put key (.table o inner)
    | some (.tables (.table o inner :: before)) =>
      (update dotted path o f inner).map fun inner =>
        es.put key (.tables (.table o inner :: before))
    | some _ => none

/-- Adds a key and its value to a table that `origin` made. A dotted key adds only to a table that
a dotted key has made, and a key is defined once. -/
def define (origin : Origin) (path : List String) (key : String) (v : Value) (es : Entries) :
    Option Entries :=
  update true path origin (fun o inner =>
    if path ≠ [] ∧ o ≠ .dotted then none
    else match inner.get? key with
      | some _ => none
      | none => some (inner ++ [(key, v)])) es

end Entries

structure OpenTable where
  path : List String
  key : String
  /-- Whether the table is an item of an array of tables. -/
  isItem : Bool

/-- A document that is being read. -/
structure Draft where
  root : Entries := []
  /-- The table of the last header, detached from the root. -/
  current : Option OpenTable := none
  entries : Entries := []

namespace Draft

/-- Puts the table of the last header into its place. -/
def close (d : Draft) : Option Entries :=
  match d.current with
  | none => some d.entries
  | some t =>
    Entries.update false t.path .header (fun _ es =>
      if t.isItem then
        match es.get? t.key with
        | none => some (es ++ [(t.key, .tables [.table .header d.entries])])
        | some (.tables items) => some (es.put t.key (.tables (.table .header d.entries :: items)))
        | some _ => none
      else some (es ++ [(t.key, .table .header d.entries)])) d.root

/-- What a table starts with that a header opens: what headers below it have brought. -/
def reopened (t : OpenTable) (root : Entries) : Option Entries :=
  let rec find : List String → Entries → Option Value
    | [], es => es.get? t.key
    | k :: path, es =>
      match es.get? k with
      | some (.table _ inner) => find path inner
      | some (.tables (.table _ inner :: _)) => find path inner
      | _ => none
  match find t.path root with
  | none => some []
  | some (.table .passed inner) => some inner
  | some _ => none

def openTable (t : OpenTable) (d : Draft) : Option Draft := do
  let root ← d.close
  if t.isItem then
    let root ← Entries.update false t.path .header (fun _ es =>
      match es.get? t.key with
      | none => some es
      | some (.tables _) => some es
      | some _ => none) root
    some ⟨root, some t, []⟩
  else
    let root ← Entries.update false t.path .header (fun _ es => some es) root
    let entries ← reopened t root
    let root ← Entries.update false t.path .header (fun _ es => some (es.erase t.key)) root
    some ⟨root, some t, entries⟩

/-- Adds a key and its value to the open table. -/
def define (path : List String) (key : String) (v : Value) (d : Draft) : Option Draft :=
  (d.entries.define .header path key v).map fun entries => { d with entries }

end Draft

namespace Value

def items? : Value → Option (List Value)
  | .array items => some items
  | .tables items => some items.reverse
  | _ => none

/-- How definitions and settings are read from TOML. A record may be a table or an array of its
first fields, and a date or time is a record without known fields. An alternative may be a string or
a table with one key whose value is empty. -/
def dialect : Dialect Value where
  text?
    | .scalar (.string text) => some text
    | _ => none
  optionalText?
    | .scalar (.string text) => some (some text)
    | _ => none
  bool?
    | .scalar (.bool b) => some b
    | _ => none
  word?
    | .scalar (.integer n) =>
      if 0 ≤ n ∧ n.toNat < UInt32.size then some (UInt32.ofNat n.toNat) else none
    | _ => none
  choice?
    | .scalar (.string text) => some text
    | .table _ [(key, .table _ [])] => some key
    | .table _ [(key, .array [])] => some key
    | _ => none
  items? := items?
  fields? names v :=
    match v with
    | .table _ entries => Document.knownFields names entries
    | .scalar .time => some []
    | v => (items? v).map names.zip

end Value

end Confinement.Toml

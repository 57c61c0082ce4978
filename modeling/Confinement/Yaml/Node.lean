import Confinement.Document
import Confinement.Yaml.Event

/-!
# YAML documents

A document is a tree of nodes. An alias is a node that points to a slot of the document's anchors.
An anchor takes the slot whose number is the count of the names that are already known, so a name
that is defined again can take a slot from another one; the node that begins last keeps the slot.
-/

namespace Confinement.Yaml

inductive Node
  | scalar (tag : Option String) (style : Style) (text : String)
  | sequence (items : List Node)
  | mapping (members : List (Node × Node))
  | alias (slot : Nat)

/-- A node with an anchor: its slot, and the number of the event that begins it. -/
structure Anchored where
  slot : Nat
  start : Nat
  node : Node

structure Document where
  root : Node
  anchors : List Anchored

namespace Node

/-- A collection that is still open, with what was read in reverse, and its slot and start. -/
inductive Frame
  | sequence (slot : Option Nat) (start : Nat) (items : List Node)
  | mapping (slot : Option Nat) (start : Nat) (members : List (Node × Node)) (key : Option Node)

structure Builder where
  frames : List Frame := []
  /-- The names of anchors with their slots, the latest first. -/
  names : List (String × Nat) := []
  anchors : List Anchored := []
  root : Option Node := none

namespace Builder

/-- The number of names that are known. -/
def nameCount (b : Builder) : Nat := (b.names.map Prod.fst).eraseDups.length

/-- Gives an anchor its slot. -/
def takeSlot (b : Builder) (anchor : Option String) : Option Nat × Builder :=
  match anchor with
  | some name => (some b.nameCount, { b with names := (name, b.nameCount) :: b.names })
  | none => (none, b)

/-- Keeps a complete node under its slot. -/
def keep (b : Builder) (slot : Option Nat) (start : Nat) (n : Node) : Builder :=
  match slot with
  | some slot => { b with anchors := ⟨slot, start, n⟩ :: b.anchors }
  | none => b

/-- Adds a complete node to what is open. -/
def add (b : Builder) (n : Node) : Option Builder :=
  match b.frames with
  | [] => if b.root.isSome then none else some { b with root := some n }
  | .sequence slot start items :: fs =>
    some { b with frames := .sequence slot start (n :: items) :: fs }
  | .mapping slot start members none :: fs =>
    some { b with frames := .mapping slot start members (some n) :: fs }
  | .mapping slot start members (some k) :: fs =>
    some { b with frames := .mapping slot start ((k, n) :: members) none :: fs }

/-- Reads one event. -/
def read (b : Builder) (start : Nat) : Event → Option Builder
  | .scalar anchor tag style text =>
    let (slot, b) := b.takeSlot anchor
    let n := Node.scalar tag style text
    (b.keep slot start n).add n
  | .alias name => (b.names.lookup name).bind fun slot => b.add (.alias slot)
  | .sequenceStart anchor =>
    let (slot, b) := b.takeSlot anchor
    some { b with frames := .sequence slot start [] :: b.frames }
  | .mappingStart anchor =>
    let (slot, b) := b.takeSlot anchor
    some { b with frames := .mapping slot start [] none :: b.frames }
  | .sequenceEnd =>
    match b.frames with
    | .sequence slot start items :: frames =>
      let n := Node.sequence items.reverse
      (Builder.keep { b with frames } slot start n).add n
    | _ => none
  | .mappingEnd =>
    match b.frames with
    | .mapping slot start members none :: frames =>
      let n := Node.mapping members.reverse
      (Builder.keep { b with frames } slot start n).add n
    | _ => none

/-- Reads all events. -/
def readAll (b : Builder) (start : Nat) : List Event → Option Builder
  | [] => some b
  | e :: rest => (b.read start e).bind fun b => readAll b (start + 1) rest

end Builder

end Node

namespace Document

/-- The document that events describe. -/
def ofEvents? (events : List Event) : Option Document := do
  let b ← Node.Builder.readAll {} 0 events
  let root ← b.root
  some ⟨root, b.anchors⟩

/-- The only document of a text. -/
def ofString? (s : String) : Option Document := do
  let tokens ← Token.lex s
  let events ← Event.document tokens
  ofEvents? events

/-- The node in a slot: of those that took it, the one that began last. -/
def slot? (d : Document) (slot : Nat) : Option Node :=
  ((d.anchors.filter (·.slot == slot)).foldl (fun (best : Option Anchored) a =>
    match best with
    | some b => if b.start < a.start then some a else best
    | none => some a) none).map (·.node)

/-- The node that is meant: an alias means the node in its slot. -/
def resolve (d : Document) (n : Node) : Node :=
  match n with
  | .alias slot => (d.slot? slot).getD n
  | n => n

/-- Whether a plain text means that there is no value. -/
def isNull (text : String) : Bool := ["null", "Null", "NULL", "~"].contains text

def nullTag : String := "tag:yaml.org,2002:null"

def boolTag : String := "tag:yaml.org,2002:bool"

def bool? (text : String) : Option Bool :=
  if ["true", "True", "TRUE"].contains text then some true
  else if ["false", "False", "FALSE"].contains text then some false
  else none

/-- The name behind the exclamation mark of a tag of the document's own. -/
def ownTag? (tag : Option String) : Option String :=
  tag.bind fun t =>
    match t.toList with
    | '!' :: name => some (String.ofList name)
    | _ => none

/-- An empty plain scalar may stand for an empty collection. -/
def isEmpty : Node → Bool
  | .scalar _ .plain "" => true
  | _ => false

def text? (d : Document) (n : Node) : Option String :=
  match d.resolve n with
  | .scalar _ _ text => some text
  | _ => none

/-- Text, or an empty or null plain scalar for its absence. -/
def optionalText? (d : Document) (n : Node) : Option (Option String) :=
  match d.resolve n with
  | .scalar none .plain text => if text = "" ∨ isNull text then some none else some (some text)
  | .scalar (some tag) .plain text =>
    if tag = nullTag then if isNull text then some none else none else some (some text)
  | .scalar _ _ text => some (some text)
  | _ => none

def boolean? (d : Document) (n : Node) : Option Bool :=
  match d.resolve n with
  | .scalar _ .plain text => bool? text
  | .scalar (some tag) .literal text => if tag = boolTag then bool? text else none
  | _ => none

/-- The name of an alternative is a scalar, or an own tag on a scalar without content. -/
def choice? (d : Document) (n : Node) : Option String :=
  match d.resolve n with
  | .scalar tag style text =>
    match ownTag? tag with
    | some name => if style = .plain ∧ (text = "" ∨ isNull text) then some name else none
    | none => some text
  | _ => none

def items? (d : Document) (n : Node) : Option (List Node) :=
  match d.resolve n with
  | .sequence items => some items
  | n => if isEmpty n then some [] else none

/-- A record is a mapping whose keys are scalars. -/
def fields? (d : Document) (names : List String) (n : Node) : Option (List (String × Node)) :=
  match d.resolve n with
  | .mapping members =>
    (members.mapM fun m => (d.text? m.1).map fun k => (k, m.2)).bind
      (Confinement.Document.knownFields names)
  | n => if isEmpty n then some [] else none

/-- How definitions are read from the document. -/
def dialect (d : Document) : Dialect Node where
  text? := d.text?
  optionalText? := d.optionalText?
  bool? := d.boolean?
  word? _ := none
  choice? := d.choice?
  items? := d.items?
  fields? := d.fields?

end Document

end Confinement.Yaml

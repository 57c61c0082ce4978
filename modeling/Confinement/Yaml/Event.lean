import Confinement.Yaml.Token

/-!
# YAML events

Events are the tokens put in order: every collection has a start and an end, every key a value, and
a missing node is an empty plain scalar. A stack of goals says what has to come; each goal reads
some tokens, gives some events, and leaves new goals.
-/

namespace Confinement.Yaml

inductive Event
  | scalar (anchor tag : Option String) (style : Style) (text : String)
  | alias (name : String)
  | sequenceStart (anchor : Option String)
  | sequenceEnd
  | mappingStart (anchor : Option String)
  | mappingEnd
  deriving DecidableEq, Repr

/-- What has to come. -/
inductive Goal
  | node (block indentless : Bool)
  | blockItem
  /-- An item of a sequence at the column of the mapping around it. -/
  | indentlessItem
  | blockKey
  | blockValue
  | flowItem (first : Bool)
  /-- The key of a pair that is an item of a sequence in brackets. -/
  | pairKey
  | pairValue
  | pairEnd
  | flowKey (first : Bool)
  | flowValue
  /-- The value of a key that no mark announces. -/
  | flowNoValue
  deriving DecidableEq, Repr

namespace Event

/-- The node that is not there. -/
def missing : Event := .scalar none none .plain ""

/-- What a handle stands for. -/
abbrev Handles := List (String × String)

def standardHandles : Handles := [("!", "!"), ("!!", "tag:yaml.org,2002:")]

def resolveTag (handles : Handles) (handle suffix : String) : Option String :=
  if handle = "" then some suffix else (handles.lookup handle).map (· ++ suffix)

/-- What stands before a node: an anchor and a tag, in either order. -/
def properties (handles : Handles) :
    List Token → Option (Option String × Option String × List Token)
  | .anchor a :: .tag h s :: rest => (resolveTag handles h s).map fun t => (some a, some t, rest)
  | .anchor a :: rest => some (some a, none, rest)
  | .tag h s :: .anchor a :: rest => (resolveTag handles h s).map fun t => (some a, some t, rest)
  | .tag h s :: rest => (resolveTag handles h s).map fun t => (none, some t, rest)
  | rest => some (none, none, rest)

/-- What a goal gives: events, new goals and the tokens that are left. -/
abbrev Step := List Event × List Goal × List Token

/-- A tag that says nothing is none. -/
def properTag (tag : Option String) : Option String :=
  match tag with
  | some t => if t = "" ∨ t = "!" then none else some t
  | none => none

def node (handles : Handles) (block indentless : Bool) (ts : List Token) : Option Step :=
  match ts with
  | .alias name :: rest => some ([.alias name], [], rest)
  | _ =>
    match properties handles ts with
    | none => none
    | some (anchor, tag, ts) =>
      match ts with
      | .scalar style text :: rest =>
        some ([.scalar anchor (properTag tag) style text], [], rest)
      | .openBracket :: rest => some ([.sequenceStart anchor], [.flowItem true], rest)
      | .openBrace :: rest => some ([.mappingStart anchor], [.flowKey true], rest)
      | .dash :: _ =>
        if indentless then some ([.sequenceStart anchor], [.indentlessItem], ts)
        else if anchor.isSome || tag.isSome then some ([.scalar anchor tag .plain ""], [], ts)
        else none
      | .sequenceStart :: rest =>
        if block then some ([.sequenceStart anchor], [.blockItem], rest)
        else if anchor.isSome || tag.isSome then some ([.scalar anchor tag .plain ""], [], ts)
        else none
      | .mappingStart :: rest =>
        if block then some ([.mappingStart anchor], [.blockKey], rest)
        else if anchor.isSome || tag.isSome then some ([.scalar anchor tag .plain ""], [], ts)
        else none
      | _ =>
        if anchor.isSome || tag.isSome then some ([.scalar anchor tag .plain ""], [], ts)
        else none

/-- Reads a node, or finds it missing before one of the given tokens. -/
def nodeUnless (ends : List Token) (goal : Goal) (after : List Goal) (ts : List Token) :
    Option Step :=
  match ts with
  | t :: _ => if ends.contains t then some ([missing], after, ts) else some ([], goal :: after, ts)
  | [] => none

def step (handles : Handles) (goal : Goal) (ts : List Token) : Option Step :=
  match goal with
  | .node block indentless => node handles block indentless ts
  | .blockItem =>
    match ts with
    | .dash :: rest => nodeUnless [.dash, .blockEnd] (.node true false) [.blockItem] rest
    | .blockEnd :: rest => some ([.sequenceEnd], [], rest)
    | _ => none
  | .indentlessItem =>
    match ts with
    | .dash :: rest =>
      nodeUnless [.dash, .key, .value, .blockEnd] (.node true false) [.indentlessItem] rest
    | _ => some ([.sequenceEnd], [], ts)
  | .blockKey =>
    match ts with
    | .key :: rest => nodeUnless [.key, .value, .blockEnd] (.node true true) [.blockValue] rest
    | .blockEnd :: rest => some ([.mappingEnd], [], rest)
    | _ => none
  | .blockValue =>
    match ts with
    | .value :: rest => nodeUnless [.key, .value, .blockEnd] (.node true true) [.blockKey] rest
    | _ => some ([missing], [.blockKey], ts)
  | .flowItem first =>
    let item (ts : List Token) : Option Step :=
      match ts with
      | .closeBracket :: rest => some ([.sequenceEnd], [], rest)
      | .key :: rest => some ([.mappingStart none], [.pairKey], rest)
      | _ => some ([], [.node false false, .flowItem false], ts)
    match first, ts with
    | true, ts => item ts
    | false, .closeBracket :: rest => some ([.sequenceEnd], [], rest)
    | false, .comma :: rest => item rest
    | false, _ => none
  | .pairKey =>
    match ts with
    | [] => none
    | t :: rest =>
      if [Token.value, .comma, .closeBracket].contains t then some ([missing], [.pairValue], rest)
      else some ([], [.node false false, .pairValue], ts)
  | .pairValue =>
    match ts with
    | .value :: rest => nodeUnless [.comma, .closeBracket] (.node false false) [.pairEnd] rest
    | _ => some ([missing], [.pairEnd], ts)
  | .pairEnd => some ([.mappingEnd], [.flowItem false], ts)
  | .flowKey first =>
    let member (ts : List Token) : Option Step :=
      match ts with
      | .closeBrace :: rest => some ([.mappingEnd], [], rest)
      | .key :: rest =>
        nodeUnless [.value, .comma, .closeBrace] (.node false false) [.flowValue] rest
      | _ => some ([], [.node false false, .flowNoValue], ts)
    match first, ts with
    | true, ts => member ts
    | false, .closeBrace :: rest => some ([.mappingEnd], [], rest)
    | false, .comma :: rest => member rest
    | false, _ => none
  | .flowValue =>
    match ts with
    | .value :: rest => nodeUnless [.comma, .closeBrace] (.node false false) [.flowKey false] rest
    | _ => some ([missing], [.flowKey false], ts)
  | .flowNoValue => some ([missing], [.flowKey false], ts)

/-- Reads what the goals ask for, the first one first. The fuel bounds the number of goals. -/
def runWithin (handles : Handles) : Nat → List Goal → List Token → Option (List Event × List Token)
  | _, [], ts => some ([], ts)
  | 0, _ :: _, _ => none
  | fuel + 1, goal :: goals, ts => do
    let (events, new, ts) ← step handles goal ts
    let (more, ts) ← runWithin handles fuel (new ++ goals) ts
    some (events ++ more, ts)

/-- Reads one node with all that belongs to it. A token is read after at most five goals. -/
def run (handles : Handles) (ts : List Token) : Option (List Event × List Token) :=
  runWithin handles (6 * ts.length + 6) [.node true false] ts

def isSupported (major minor : Nat) : Bool := major = 1 && (minor = 1 || minor = 2)

/-- Reads directives: at most one version, and each handle once. -/
def directives : (versioned : Bool) → Handles → List Token → Option (Handles × List Token)
  | versioned, handles, .version major minor :: rest =>
    if versioned || !isSupported major minor then none else directives true handles rest
  | versioned, handles, .tagDirective handle expansion :: rest =>
    if (handles.map Prod.fst).contains handle then none
    else directives versioned (handles ++ [(handle, expansion)]) rest
  | _, handles, ts => some (handles, ts)

/-- Whether a token cannot begin the content of a document. -/
def isOutside : Token → Bool
  | .version .. => true
  | .tagDirective .. => true
  | .documentStart => true
  | .documentEnd => true
  | .streamEnd => true
  | _ => false

/-- Whether nothing comes any more. -/
def isOver : List Token → Bool
  | [.streamEnd] => true
  | .documentEnd :: rest => isOver rest
  | _ => false

def document (ts : List Token) : Option (List Event) := do
  let explicit := match ts with
    | .version .. :: _ => true
    | .tagDirective .. :: _ => true
    | .documentStart :: _ => true
    | _ => false
  let (handles, ts) ← directives false [] ts
  let handles := handles ++ standardHandles
  let (events, rest) ←
    if explicit then
      match ts with
      | .documentStart :: t :: rest =>
        if isOutside t then some ([missing], t :: rest) else run handles (t :: rest)
      | _ => none
    else run handles ts
  if isOver rest then some events else none

end Event

end Confinement.Yaml

import Confinement.Text

/-!
# Paths

A path keeps its spelling. What it means is its list of components: repeated slashes, a trailing
slash and inner dots are not components, so two spellings of one path have the same components.
Paths are compared by components.
-/

namespace Confinement

structure Path where
  text : String
  deriving DecidableEq, Repr, Inhabited

namespace Path

/-- One step of a path. The constructors stand in the order of comparison. -/
inductive Component
  | root
  | here
  | parent
  | name (text : String)
  deriving DecidableEq, Repr

namespace Component

/-- The step that the text between two slashes makes, if it makes one. -/
def ofSegment? (s : String) : Option Component :=
  if s = "" then none
  else if s = "." then none
  else if s = ".." then some parent
  else some (name s)

def rank : Component → Nat
  | root => 0
  | here => 1
  | parent => 2
  | name _ => 3

def compare : Component → Component → Ordering
  | name s, name t => Ord.compare s t
  | c, d => Ord.compare c.rank d.rank

end Component

/-- The texts between the slashes. -/
def segments (p : Path) : List String :=
  (Text.split '/' p.text.toList).map String.ofList

def ofSegments (segments : List String) : Path := ⟨"/".intercalate segments⟩

def isAbsolute (p : Path) : Bool := p.text.toList.head? == some '/'

/-- The steps of a path. A leading dot counts in a relative path. -/
def components (p : Path) : List Component :=
  match p.segments with
  | [] => []
  | first :: rest =>
    let start :=
      if p.isAbsolute then [.root]
      else if first = "." then [.here]
      else (Component.ofSegment? first).toList
    start ++ rest.filterMap Component.ofSegment?

/-- The order of component lists: the first difference decides. -/
def compareComponents : List Component → List Component → Ordering
  | [], [] => .eq
  | [], _ :: _ => .lt
  | _ :: _, [] => .gt
  | c :: cs, d :: ds =>
    match c.compare d with
    | .eq => compareComponents cs ds
    | o => o

/-- Paths in the order of their components. -/
def compare (p q : Path) : Ordering := compareComponents p.components q.components

/-- Whether two spellings name the same path. -/
def same (p q : Path) : Bool := p.components == q.components

/-- The path `q` as seen from `p`. An absolute `q` stands for itself. -/
def join (p q : Path) : Path :=
  if q.isAbsolute then q
  else if p.text = "" ∨ p.text.toList.getLast? = some '/' then ⟨p.text ++ q.text⟩
  else ⟨p.text ++ "/" ++ q.text⟩

/-- Whether a segment makes no step inside a path. -/
def isIdle (segment : String) : Bool := segment = "" || segment = "."

/-- An absolute path seen from the root. Inner segments keep their spelling. -/
def fromRoot (p : Path) : Path :=
  let inner := (p.segments.dropWhile isIdle).reverse.dropWhile isIdle
  ofSegments inner.reverse

/-- The last component, if it is a name. -/
def fileName? (p : Path) : Option String :=
  match p.components.getLast? with
  | some (.name s) => some s
  | _ => none

/-- What follows the last dot of the file name. A name that only starts with a dot has none. -/
def extension? (p : Path) : Option String :=
  p.fileName?.bind fun s =>
    match Text.cutLast '.' s.toList with
    | some ([], _) => none
    | some (_, after) => some (String.ofList after)
    | none => none

@[simp] theorem isAbsolute_mk (s : String) :
    (Path.mk s).isAbsolute = (s.toList.head? == some '/') := rfl

theorem same_iff {p q : Path} : p.same q = true ↔ p.components = q.components := by
  simp [same]

end Path

end Confinement

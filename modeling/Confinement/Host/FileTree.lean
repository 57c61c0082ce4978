import Confinement.Error
import Confinement.Path
import Confinement.Dac.Ownership

/-!
# Files

A tree of files is a table from locations to nodes. A location is the list of names from the root,
without links and relative steps, and `locate` finds the location that a path leads to.
-/

namespace Confinement

/-- The names on the way from the root. -/
abbrev Location := List String

/-- The location that a path means from the directory `here` if it leads through no links. -/
def Location.direct (here : Location) (p : Path) : Location :=
  p.segments.foldl
    (fun l s => if Path.isIdle s then l else if s = ".." then l.dropLast else l ++ [s])
    (if p.isAbsolute then [] else here)

inductive FileContent
  | directory
  | file (bytes : ByteArray)
  | link (target : Path)

structure FileNode where
  content : FileContent
  owner : Ownership := .root

structure FileTree where
  nodes : List (Location × FileNode) := []

namespace FileTree

def node? (t : FileTree) (l : Location) : Option FileNode := t.nodes.lookup l

def isDirectory (t : FileTree) (l : Location) : Bool :=
  match t.node? l with
  | some ⟨.directory, _⟩ => true
  | _ => false

/-- Adds a node, unless the location is taken. -/
def add (t : FileTree) (l : Location) (n : FileNode) : FileTree :=
  match t.node? l with
  | some _ => t
  | none => ⟨t.nodes ++ [(l, n)]⟩

/-- Adds a node, and the directories on the way to it. -/
def graft (t : FileTree) (l : Location) (n : FileNode) : FileTree :=
  let above := (List.range l.length).foldl
    (fun (t : FileTree) k => t.add (l.take k) ⟨.directory, .root⟩) t
  above.add l n

/-- The longest name of a file, in bytes. -/
def maxName : Nat := 255

/-- The length that a path must stay below, in bytes. -/
def maxPath : Nat := 4096

/-- The most links that one path may lead through. -/
def maxLinks : Nat := 40

/-- Follows the segments of a path from a location. Links are followed, also at the end. -/
def walk (t : FileTree) (links : Nat) (here : Location) (segments : List String) :
    Except IoFault Location :=
  match segments with
  | [] => .ok here
  | s :: rest =>
    if t.isDirectory here = false then .error .notDirectory
    else if Path.isIdle s then walk t links here rest
    else if s = ".." then walk t links here.dropLast rest
    else if maxName < s.utf8ByteSize then .error .nameTooLong
    else match t.node? (here ++ [s]) with
      | none => .error .noSuchEntry
      | some ⟨.link target, _⟩ =>
        match links with
        | 0 => .error .tooManyLinks
        | links + 1 =>
          walk t links (if target.isAbsolute then [] else here) (target.segments ++ rest)
      | some _ => walk t links (here ++ [s]) rest
termination_by (links, segments.length)

/-- The location that a path leads to from the directory `here`. -/
def locate (t : FileTree) (here : Location) (p : Path) : Except IoFault Location :=
  if p.text.toList.contains '\x00' then .error .nulInPath
  else if p.text = "" then .error .noSuchEntry
  else if maxPath ≤ p.text.utf8ByteSize then .error .nameTooLong
  else walk t maxLinks (if p.isAbsolute then [] else here) p.segments

/-- The owner of what is at a location. -/
def owner? (t : FileTree) (l : Location) : Option Ownership := (t.node? l).map (·.owner)

/-- Gives what is at a location a new owner. -/
def setOwner (t : FileTree) (l : Location) (o : Ownership) : FileTree :=
  ⟨t.nodes.map fun (k, n) => if k = l then (k, { n with owner := o }) else (k, n)⟩

/-- The text of the file that a path leads to. -/
def readText (t : FileTree) (here : Location) (p : Path) : Except IoFault String := do
  let l ← t.locate here p
  match t.node? l with
  | some ⟨.file bytes, _⟩ =>
    match String.fromUTF8? bytes with
    | some s => .ok s
    | none => .error .invalidText
  | some ⟨.directory, _⟩ => .error .isDirectory
  | _ => .error .noSuchEntry

/-- Whether a path leads anywhere. -/
def leads (t : FileTree) (here : Location) (p : Path) : Bool := (t.locate here p).isOk

/-- The names in the directory that a path leads to. -/
def names (t : FileTree) (here : Location) (p : Path) : Except IoFault (List String) := do
  let l ← t.locate here p
  if t.isDirectory l then
    .ok (t.nodes.filterMap fun (k, _) =>
      if k.dropLast = l then k.getLast? else none)
  else .error .notDirectory

theorem lookup_map_owner (nodes : List (Location × FileNode)) (l k : Location) (o : Ownership) :
    (nodes.map fun (k, n) => if k = l then (k, { n with owner := o }) else (k, n)).lookup k =
      (nodes.lookup k).map fun n => if k = l then { n with owner := o } else n := by
  induction nodes with
  | nil => rfl
  | cons e rest ih =>
    obtain ⟨j, n⟩ := e
    by_cases hj : j = l
    · by_cases hk : k = j
      · subst hj hk; simp
      · have : (k == j) = false := by simpa using hk
        simp [hj, List.lookup_cons] at ih ⊢
        subst hj
        simp [this, ih]
    · by_cases hk : k = j
      · subst hk; simp [hj]
      · have : (k == j) = false := by simpa using hk
        simp [hj, List.lookup_cons, this, ih]

theorem node?_setOwner (t : FileTree) (l k : Location) (o : Ownership) :
    (t.setOwner l o).node? k =
      (t.node? k).map fun n => if k = l then { n with owner := o } else n :=
  lookup_map_owner t.nodes l k o

/-- A new owner reaches the one location and no other. -/
theorem owner?_setOwner (t : FileTree) (l k : Location) (o : Ownership) :
    (t.setOwner l o).owner? k = if k = l then (t.owner? k).map fun _ => o else t.owner? k := by
  unfold owner?
  rw [node?_setOwner]
  by_cases h : k = l <;> simp [h, Function.comp_def]

end FileTree

end Confinement

import Confinement.Path
import Confinement.Uuid

/-!
# File rules

What the profiles of one manager grant: for every domain, by its UUID, an access for each path.
The paths of a domain are kept in order, and a path that is granted again keeps its first spelling.
-/

namespace Confinement.AppArmor

/-- What a rule lets a domain do with a file. -/
inductive Access
  | read
  | readWrite
  deriving DecidableEq, Repr

def Access.letters : Access → String
  | read => "r"
  | readWrite => "rwk"

/-- The rules of one domain, by path. -/
abbrev Grants := List (Path × Access)

namespace Grants

/-- Gives a path an access, whatever access it had. -/
def insert (path : Path) (access : Access) : Grants → Grants
  | [] => [(path, access)]
  | (p, a) :: rest =>
    match path.compare p with
    | .lt => (path, access) :: (p, a) :: rest
    | .eq => (p, access) :: rest
    | .gt => (p, a) :: insert path access rest

def erase (path : Path) (grants : Grants) : Grants := grants.filter fun (p, _) => !path.same p

def access? (grants : Grants) (path : Path) : Option Access :=
  (grants.find? fun (p, _) => path.same p).map Prod.snd

end Grants

/-- The rules of the domains of one manager. -/
abbrev Rules := List (Uuid × Grants)

namespace Rules

/-- The rules of one domain. A domain that was never granted anything has none. -/
def grants (rules : Rules) (uuid : Uuid) : Grants := (rules.lookup uuid).getD []

def edit (uuid : Uuid) (f : Grants → Grants) : Rules → Rules
  | [] => [(uuid, f [])]
  | (u, grants) :: rest =>
    if u = uuid then (u, f grants) :: rest else (u, grants) :: edit uuid f rest

/-- Drops the rules of one domain. -/
def release (uuid : Uuid) (rules : Rules) : Rules := rules.filter fun (u, _) => u ≠ uuid

theorem grants_edit (rules : Rules) (uuid other : Uuid) (f : Grants → Grants) :
    grants (edit uuid f rules) other =
      if other = uuid then f (grants rules uuid) else grants rules other := by
  induction rules with
  | nil =>
    by_cases h : other = uuid
    · simp [edit, grants, h]
    · have : (other == uuid) = false := by simpa using h
      simp [edit, grants, List.lookup_cons, h, this]
  | cons r rest ih =>
    obtain ⟨u, g⟩ := r
    unfold edit
    by_cases hu : u = uuid
    · subst hu
      by_cases h : other = u
      · simp [grants, h]
      · have : (other == u) = false := by simpa using h
        simp [grants, List.lookup_cons, h, this]
    · simp only [hu, if_false]
      by_cases ho : other = u
      · subst ho
        simp [grants, hu]
      · have : (other == u) = false := by simpa using ho
        have hu' : (uuid == u) = false := by simpa using fun h => hu h.symm
        simpa [grants, List.lookup_cons, this, hu'] using ih

theorem grants_release (rules : Rules) (uuid other : Uuid) :
    grants (release uuid rules) other = if other = uuid then [] else grants rules other := by
  induction rules with
  | nil => simp [release, grants]
  | cons r rest ih =>
    obtain ⟨u, g⟩ := r
    unfold release at ih ⊢
    by_cases hu : u = uuid
    · subst hu
      by_cases h : other = u
      · simpa [h] using ih
      · have : (other == u) = false := by simpa using h
        simpa [h, grants, List.lookup_cons, this] using ih
    · by_cases ho : other = u
      · subst ho
        simp [grants, hu]
      · have : (other == u) = false := by simpa using ho
        simpa [grants, List.lookup_cons, hu, this] using ih

end Rules

end Confinement.AppArmor

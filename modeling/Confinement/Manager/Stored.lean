import Confinement.Definition.File
import Confinement.Manager.Tree

/-!
# Levels of stored domains

The definitions of a host's domains are files of one directory. Before a label is generated, the
levels that other stored domains hold are reserved, so that none of them is handed out again.
-/

namespace Confinement

/-- The definitions in the files of a directory. Files that hold none are passed over. The supply of
fresh UUIDs gives the i-th file its own. -/
def Host.definitionsIn (h : Host) (fresh : Nat → Uuid) (dir : Path) (names : List String) :
    List Definition :=
  names.zipIdx.filterMap fun (name, i) =>
    (Definition.ofFile (fresh i) h (dir.join ⟨name⟩)).toOption

namespace Engine

def withScene (id : ManagerId) (d : Definition) (f : Scene → Except Error Unit × Scene)
    (s : Engine) : Except Error Unit × Engine :=
  match s.manager id with
  | .error e => (.error e, s)
  | .ok m =>
    let (r, scene) := f ⟨m.driver.name, m.state, s.host, d⟩
    (r, s.setManager id { m with state := scene.state })

def reserveDomainLevel (id : ManagerId) (d : Definition) (s : Engine) :
    Except Error Unit × Engine :=
  s.withScene id d Selinux.reserveDomainLevel

def profile (id : ManagerId) (d : Definition) (s : Engine) : Except Error String :=
  match s.manager id with
  | .error e => .error e
  | .ok m => AppArmor.renderProfile ⟨m.driver.name, m.state, s.host, d⟩

/-- Reserves the levels of stored domains other than `current`. A refusal changes nothing. -/
def reserveStored (id : ManagerId) (current : Uuid) (stored : List Definition) (s : Engine) :
    Engine :=
  (stored.filter (·.uuid != current)).foldl (fun s d => (s.reserveDomainLevel id d).2) s

/-- The member that labels through security contexts, if a manager's caller has to satisfy one. -/
def levelKeeper? (s : Engine) (id : ManagerId) : Option ManagerId :=
  (s.nested id).find? fun n => (s.manager? n).any (·.driver.name == Selinux.model)

/-- Reserves the levels of the domains that are stored in a directory, except `current`. A missing
directory stores none. -/
def reserveKnownLevels (id : ManagerId) (fresh : Nat → Uuid) (dir : Path) (current : Uuid)
    (s : Engine) : Except IoFault Unit × Engine :=
  match s.levelKeeper? id with
  | none => (.ok (), s)
  | some keeper =>
    match s.host.files.names s.host.directory dir with
    | .error .noSuchEntry => (.ok (), s)
    | .error fault => (.error fault, s)
    | .ok names =>
      (.ok (), s.reserveStored keeper current (s.host.definitionsIn fresh dir names))

end Engine

end Confinement

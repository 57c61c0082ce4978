import Confinement.Manager.Tree

/-!
# All resources of a domain

Labelling a domain's resources stops at the first failure; restoring them does not, and reports the
first one.
-/

namespace Confinement

namespace Definition

/-- The disks that labels are for. -/
def labelledDisks (d : Definition) : List Disk := d.disks.filter fun disk => !disk.noRelabel

/-- The operations that label all resources and, if given, the saved state. -/
def settingOperations (d : Definition) (savedState : Option Path) : List Operation :=
  d.labelledDisks.map .setImage ++ d.devices.map (.setDevice · none) ++
    savedState.toList.map .setSavedState

def restoringOperations (d : Definition) : List Operation :=
  d.labelledDisks.map .restoreImage ++ d.devices.map (.restoreDevice · none)

end Definition

namespace Engine

/-- Carries out operations up to the first failure. -/
def performWhile (id : ManagerId) (d : Definition) :
    List Operation → Engine → Except Error Unit × Engine
  | [], s => (.ok (), s)
  | op :: ops, s =>
    match s.perform id op d with
    | (.ok (), s) => performWhile id d ops s
    | (.error e, s) => (.error e, s)

/-- Carries out operations, all of them, and reports the first failure. -/
def performEvery (id : ManagerId) (d : Definition) :
    List Operation → Engine → Except Error Unit × Engine
  | [], s => (.ok (), s)
  | op :: ops, s =>
    let (r, s) := s.perform id op d
    let (r', s) := performEvery id d ops s
    (firstFailure r r', s)

def setAll (id : ManagerId) (d : Definition) (savedState : Option Path) (s : Engine) :
    Except Error Unit × Engine :=
  s.performWhile id d (d.settingOperations savedState)

def restoreAll (id : ManagerId) (d : Definition) (s : Engine) : Except Error Unit × Engine :=
  s.performEvery id d d.restoringOperations

end Engine

end Confinement

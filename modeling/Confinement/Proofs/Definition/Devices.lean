import Confinement.Definition.Basic
import Confinement.Proofs.Path.Places

/-!
# Devices below the root of a domain

A domain that sees another root sees the device at `/dev/net/tun` below that root: the components of
the device without its own root follow on those of the root. Steps to the parent are kept as they
are. So the device is the one that the domain means as long as its path does not climb out of `/`,
where such a step would lead nowhere; below another root it leads out of it.
-/

namespace Confinement

namespace HostDevice

variable {dev : HostDevice} {root : Path}

/-- Below another root a device has the components of the root and then its own. -/
theorem components_pathIn (h : dev.path.isAbsolute = true) (root : Path) :
    (dev.pathIn (some root)).components = root.components ++ dev.path.steps := by
  rw [pathIn, if_pos h, Path.components_join root dev.path.lead_fromRoot,
    Path.components_fromRoot]

/-- The place that a device has below another root is where its own steps lead from that root. -/
theorem direct_pathIn (h : dev.path.isAbsolute = true) (root : Path) (here : Location) :
    Location.direct here (dev.pathIn (some root)) =
      Path.follow (Location.direct here root) dev.path.steps := by
  rw [Path.direct_eq_follow, components_pathIn h, Path.follow_append, Path.direct_eq_follow]

theorem direct_of_isAbsolute (h : dev.path.isAbsolute = true) (here : Location) :
    Location.direct here dev.path = Path.follow [] dev.path.steps := by
  rw [Path.direct_eq_follow, Path.components_of_isAbsolute h]
  rfl

/-- Below a root, an absolute path of a device begins with the components of the root, and then come
those of the path but `/`. On them one stays below the root exactly if no beginning of them has more
steps to the parent than names, or if the root is `/` itself. Under the same condition, and under no
other, the path leads to the place below the root to which the path of the device leads below `/`. A
root that is relative is looked up from the directory `here`. -/
theorem pathIn_stays_under_root_iff (h : dev.path.isAbsolute = true) (root : Path) :
    ∃ rest, dev.path.components = .root :: rest ∧
      (dev.pathIn (some root)).components = root.components ++ rest ∧
      ∀ here, (Path.StaysUnder (Location.direct here root) rest ↔
          Location.direct here root = [] ∨ ¬Path.Climbs rest) ∧
        (Location.direct here (dev.pathIn (some root)) =
            Location.direct here root ++ Location.direct [] dev.path ↔
          Location.direct here root = [] ∨ ¬Path.Climbs rest) := by
  have hroot := dev.path.root_not_mem_steps
  refine ⟨dev.path.steps, Path.components_of_isAbsolute h, components_pathIn h root, fun here => ?_⟩
  rw [direct_pathIn h, direct_of_isAbsolute h]
  exact ⟨Path.staysUnder_iff hroot, Path.follow_eq_append_iff hroot⟩

/-- A device whose path is spelled with a step to the parent and does not climb. -/
def tunnel : HostDevice := ⟨⟨"//dev/./vfio/../net/tun/"⟩⟩

def guestRoot : Path := ⟨"/run/ns/guest1"⟩

/-- The device is found below the root of the guest, where the guest means it. -/
theorem pathIn_tunnel : tunnel.path.isAbsolute = true ∧
    Path.StaysUnder (Location.direct [] guestRoot)
      [.name "dev", .name "vfio", .parent, .name "net", .name "tun"] ∧
    Location.direct [] (tunnel.pathIn (some guestRoot)) =
      Location.direct [] guestRoot ++ Location.direct [] tunnel.path := by
  have habs : tunnel.path.isAbsolute = true := by decide
  have hcomponents : tunnel.path.components =
      [.root, .name "dev", .name "vfio", .parent, .name "net", .name "tun"] := by decide
  obtain ⟨rest, hrest, -, hplaces⟩ := pathIn_stays_under_root_iff habs guestRoot
  obtain rfl := (List.cons.inj (hcomponents.symm.trans hrest)).2
  obtain ⟨hstays, hsame⟩ := hplaces []
  exact ⟨habs, hstays.mpr (.inr (by decide)), hsame.mpr (.inr (by decide))⟩

/-- A device whose path climbs. Above `/` this leads nowhere. -/
def strayDevice : HostDevice := ⟨⟨"/../etc/shadow"⟩⟩

/-- The path of the device below the root of a guest leads out of this root, and to another file
than the guest means. -/
theorem parent_steps_leave_root : strayDevice.path.isAbsolute = true ∧
    strayDevice.pathIn (some guestRoot) = ⟨"/run/ns/guest1/../etc/shadow"⟩ ∧
    ¬Path.StaysUnder (Location.direct [] guestRoot) [.parent, .name "etc", .name "shadow"] ∧
    Location.direct [] (strayDevice.pathIn (some guestRoot)) = ["run", "ns", "etc", "shadow"] ∧
    Location.direct [] guestRoot ++ Location.direct [] strayDevice.path =
      ["run", "ns", "guest1", "etc", "shadow"] := by
  decide

end HostDevice

end Confinement

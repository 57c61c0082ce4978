import Confinement.Path

/-!
# Standard places

Where the configuration, the stored definitions and the generated profiles are kept.
-/

namespace Confinement

structure Layout where
  /-- The directory of the configuration. -/
  root : Path
  /-- The directory of what lives only while the host is up. -/
  runtime : Path
  deriving DecidableEq, Repr

namespace Layout

/-- The places of the host. -/
def standard : Layout := ⟨⟨"/etc/seclabel"⟩, ⟨"/run/seclabel"⟩⟩

/-- Everything below one directory. -/
def under (root : Path) : Layout := ⟨root, root.join ⟨"run"⟩⟩

/-- The directory of a user's settings. A relative `configHome` does not count, and an empty home
stands for the home of the account. -/
def userSettings (accountHome home : Path) (configHome : Option Path) : Path :=
  let base := if home.text = "" then accountHome else home
  match configHome with
  | some dir => if dir.isAbsolute then dir else base.join ⟨".config"⟩
  | none => base.join ⟨".config"⟩

/-- The places of a user without privileges. -/
def ofUser (accountHome home : Path) (configHome : Option Path) : Layout :=
  under ((userSettings accountHome home configHome).join ⟨"seclabel"⟩)

def configFile (l : Layout) : Path := l.root.join ⟨"seclabel.toml"⟩

def domains (l : Layout) : Path := l.root.join ⟨"domains"⟩

/-- The file that holds the definition of the domain `name`. -/
def domain (l : Layout) (name : String) : Path := l.domains.join ⟨name ++ ".json"⟩

def profiles (l : Layout) : Path := l.runtime.join ⟨"apparmor"⟩

end Layout

end Confinement

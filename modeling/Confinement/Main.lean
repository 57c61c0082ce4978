import Confinement.Command.Arguments
import Confinement.Command.Execution

/-!
# The program

The layer between the system and the library. It copies the files that an invocation mentions,
carries the invocation out, and writes what it has to say.
-/

namespace Confinement.Program

def pathOf (l : Location) : String := "/" ++ "/".intercalate l

/-- Copies what the system has at a location into a tree. A file that cannot be read is left out. -/
def copyNode (t : FileTree) (l : Location) : IO FileTree := do
  let path := (← IO.currentDir) / pathOf l
  if ← path.isDir then return t.add l ⟨.directory, .root⟩
  else
    try return t.add l ⟨.file (← IO.FS.readBinFile path), .root⟩
    catch _ => return t

/-- Copies what lies on the way to a path, and what it leads to. -/
def copy (here : Location) (t : FileTree) (p : Path) : IO FileTree := do
  let l := Location.direct here p
  (List.range (l.length + 1)).foldlM (fun t k => copyNode t (l.take k)) t

/-- Copies a directory with the files in it. -/
def copyDirectory (here : Location) (t : FileTree) (p : Path) : IO FileTree := do
  let t ← copy here t p
  let l := Location.direct here p
  if t.isDirectory l then
    let entries ← ((← IO.currentDir) / pathOf l).readDir
    entries.foldlM (fun t e => copyNode t (l ++ [e.fileName])) t
  else return t

/-- The files that an invocation reads. -/
def filesOf (layout : Layout) (i : Invocation) : List Path :=
  let domain := match i.command with
    | .generate file _ => [file]
    | .verify file => [file]
    | .process _ file => file.toList
    | _ => []
  i.options.config.getD layout.configFile :: domain

/-- The directories that an invocation reads. -/
def directoriesOf (layout : Layout) (i : Invocation) : List Path :=
  match i.command with
  | .generate _ domains => [domains.getD layout.domains]
  | _ => []

/-- The process that an invocation asks about, if it runs. -/
def processesOf (i : Invocation) : IO (List ProcessInfo) := do
  match i.command with
  | .process pid _ =>
    let dir := (← IO.currentDir) / ("/proc/" ++ toString pid)
    if ← (dir / "stat").pathExists then
      let label ←
        try some <$> IO.FS.readFile (dir / "attr" / "current")
        catch _ => pure none
      return [{ pid, stat := ← IO.FS.readFile (dir / "stat"), label }]
    else return []
  | _ => return []

/-- The security modules of the host, as the system shows them. -/
def modulesOf : IO SecurityModules := do
  let root ← IO.currentDir
  let has (path : String) : IO Bool := (root / path).pathExists
  let selinux ← has "/sys/fs/selinux"
  let enforcement ←
    try some <$> IO.FS.readFile (root / "/sys/fs/selinux/enforce")
    catch _ => pure none
  let apparmor := (← has "/sys/module/apparmor") && (← has "/sys/kernel/security/apparmor")
  let profileAttribute ← has "/proc/self/attr/apparmor/exec"
  return { selinux, enforcement, apparmor, profileAttribute }

/-- The host, as far as an invocation sees it. -/
def hostOf (layout : Layout) (i : Invocation) : IO Host := do
  let here := Location.direct [] ⟨(← IO.currentDir).toString⟩
  let files ← copy here {} ⟨"."⟩
  let files ← (filesOf layout i).foldlM (copy here) files
  let files ← (directoriesOf layout i).foldlM (copyDirectory here) files
  return { files, directory := here, processes := ← processesOf i, modules := ← modulesOf }

/-- The digits of one UUID in random bytes that hold those of many. -/
def digitsAt (bytes : ByteArray) (i : Nat) : List (Fin 16) :=
  (List.range 32).map fun k =>
    ⟨(bytes.data.getD (32 * i + k) 0).toNat % 16, Nat.mod_lt _ (by decide)⟩

theorem length_digitsAt (bytes : ByteArray) (i : Nat) : (digitsAt bytes i).length = 32 := by
  simp [digitsAt]

/-- A supply of random UUIDs for a host's domain and for all files in its tree. -/
def supply (h : Host) : IO (Nat → Uuid) := do
  let bytes ← IO.getRandomBytes (USize.ofNat (32 * (h.files.nodes.length + 1)))
  return fun i => .ofRandom (digitsAt bytes i) (length_digitsAt bytes i)

def usage : String := "Usage: confinement [OPTIONS] <COMMAND>"

def refuse (fault : UsageFault) : IO UInt32 := do
  match fault with
  | .helpRequested => IO.println usage; return 0
  | .versionRequested => IO.println "confinement"; return 0
  | _ => IO.eprintln usage; return 2

def carryOut (i : Invocation) : IO UInt32 := do
  let host ← hostOf .standard i
  let station : Station := { fresh := ← supply host }
  let (report, lines) := (station.run i).eval { engine := { host } }
  lines.forM IO.println
  match report with
  | none => return 0
  | some report => IO.eprintln ("Error: " ++ report.message); return 1

end Confinement.Program

def main (arguments : List String) : IO UInt32 :=
  match Confinement.Invocation.ofArguments arguments with
  | .ok i => Confinement.Program.carryOut i
  | .error fault => Confinement.Program.refuse fault

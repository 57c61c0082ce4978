import Confinement.Error
import Confinement.Host.Basic
import Confinement.Text

/-!
# Child processes

Signals, waiting and ending. A child that has ended keeps its number until it is reaped. To end a
child is to ask it with the signal 15, to wait a while, and to kill it with the signal 9 if it does
not listen.
-/

namespace Confinement

/-! ### Wait statuses

The word in which the system reports how a process ended: the low seven bits are zero after an exit
and hold the signal otherwise, with all bits set for a process that has only stopped; the exit code
stands in the next byte.
-/

/-- What a wait status says. -/
inductive Ending
  | exited (code : Nat)
  | killed (signal : Nat)
  /-- The process has not ended. -/
  | stopped
  deriving DecidableEq, Repr

namespace Ending

def ofStatus (status : Int32) : Ending :=
  let low := (status.toInt % 128).toNat
  if low = 0 then exited (status.toInt / 256 % 256).toNat
  else if low = 127 then stopped
  else killed low

def describe (status : Int32) : String :=
  match ofStatus status with
  | exited code => "exit status " ++ code.repr
  | killed signal => "fatal signal " ++ signal.repr
  | stopped => "invalid value " ++ status.toInt.repr

def code : Ending → Nat
  | exited code => code
  | killed signal => 128 + signal
  | stopped => 1

end Ending

/-! ### Start times

The line of counters of a process begins with its number and, in parentheses, its command name. The
name may hold anything, so the fields are counted from the last closing parenthesis. The start time
is the twentieth field behind it.
-/

/-- How many fields stand between the command name and the start time. -/
def fieldsBeforeStart : Nat := 19

def startTime? (line : String) : Option Nat := do
  let (_, fields) ← Text.cutLast ')' line.toList
  let field ← (Text.words fields)[fieldsBeforeStart]?
  Text.unsigned? UInt64.size field

def startTime (pid : UInt32) (line : Option String) : Except Error Nat :=
  match line with
  | none => .error (.io .noSuchEntry)
  | some s =>
    match startTime? s with
    | some n => .ok n
    | none => .error (.internal (.malformedStat pid))

/-! ### Signals -/

/-- A child of this process, running or waiting to be reaped. -/
structure Child where
  pid : UInt32
  stat : String
  /-- How the child ends when the signal arrives, if the signal ends it. -/
  onSignal : Nat → Option Ending
  /-- How the child has ended, or how it ends if nobody interferes. -/
  ending : Ending
  /-- Whether the child has ended. -/
  ended : Bool

/-- The processes that signals can be sent to: strangers and children. -/
structure ProcessTable where
  strangers : List ProcessInfo := []
  children : List Child := []

namespace ProcessTable

def maxSignal : Int := 64

/-- Process numbers are positive words with a sign. -/
def inRange (pid : UInt32) : Bool := pid.toNat < UInt32.size / 2

def child? (t : ProcessTable) (pid : UInt32) : Option Child := t.children.find? (·.pid == pid)

/-- Whether the process is known, be it only to be reaped. -/
def has (t : ProcessTable) (pid : UInt32) : Bool :=
  t.strangers.any (·.pid == pid) || t.children.any (·.pid == pid)

/-- What a signal does to a child. -/
def Child.receive (c : Child) (signal : Nat) : Child :=
  if c.ended then c
  else match c.onSignal signal with
    | some ending => { c with ending, ended := true }
    | none => c

/-- The number that stands for this process and all its children. -/
def everyone : UInt32 := 0

/-- Delivers a signal, as far as the system allows it. -/
def deliver (t : ProcessTable) (pid : UInt32) (signal : Int) : Except IoFault Unit × ProcessTable :=
  if signal < 0 ∨ maxSignal < signal then (.error .invalidArgument, t)
  else if pid = everyone ∨ t.has pid then
    let children := t.children.map fun c =>
      if pid = everyone ∨ c.pid = pid then Child.receive c signal.toNat else c
    (.ok (), { t with children })
  else (.error .noSuchProcess, t)

def kill (t : ProcessTable) (pid : UInt32) (signal : Int) : Except Error Unit × ProcessTable :=
  if inRange pid then
    match t.deliver pid signal with
    | (.ok (), t') => (.ok (), t')
    | (.error fault, t') => (.error (.internal (.signalFailed signal pid fault)), t')
  else (.error (.internal (.pidOutOfRange pid)), t)

def reap (t : ProcessTable) (pid : UInt32) : ProcessTable :=
  { t with children := t.children.filter fun c => c.pid ≠ pid }

def awaited? (t : ProcessTable) (pid : UInt32) : Option Child :=
  if pid = everyone then t.children.head? else t.child? pid

/-- Waits for a child to end and forgets it. The result is its exit code. -/
def wait (t : ProcessTable) (pid : UInt32) : Except Error Nat × ProcessTable :=
  if inRange pid then
    match t.awaited? pid with
    | some c => (.ok c.ending.code, t.reap c.pid)
    | none => (.error (.internal (.waitFailed pid .noChildProcess)), t)
  else (.error (.internal (.pidOutOfRange pid)), t)

/-- The signal that asks a process to end. -/
def terminate : Int := 15

/-- The signal that no process survives. -/
def destroy : Int := 9

/-- Ends and forgets a child. Nothing happens to a process that is no child. -/
def abort (t : ProcessTable) (pid : UInt32) : ProcessTable :=
  match t.child? pid with
  | none => t
  | some c =>
    if c.ended then t.reap pid
    else
      let asked := (t.deliver pid terminate).2
      match asked.child? pid with
      | some c' => if c'.ended then asked.reap pid else (asked.deliver pid destroy).2.reap pid
      | none => asked

def stat? (t : ProcessTable) (pid : UInt32) : Option String :=
  match t.child? pid with
  | some c => some c.stat
  | none => (t.strangers.find? (·.pid == pid)).map (·.stat)

end ProcessTable

theorem ProcessTable.child?_reap (t : ProcessTable) (pid : UInt32) :
    (t.reap pid).child? pid = none := by
  simp [ProcessTable.reap, ProcessTable.child?, List.find?_eq_none]

/-- After an end by force or otherwise the child is gone. -/
theorem ProcessTable.child?_abort (t : ProcessTable) (pid : UInt32) :
    (t.abort pid).child? pid = none := by
  unfold ProcessTable.abort
  split
  · assumption
  · split
    · exact child?_reap t pid
    · dsimp only
      split
      · split <;> exact child?_reap _ pid
      · assumption

end Confinement

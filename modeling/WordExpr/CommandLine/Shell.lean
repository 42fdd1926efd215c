import WordExpr.CommandLine.Location

/-!
# What a run does to the world

A `Shell m` holds the effects of a run as operations in a monad `m`: reading the standard input
and files, making an output ready and writing to it, each of which may fail with the words of the
machine, and telling the user something.

`Desk` is a world small enough to reason about, a single directory with named files and a few
devices, where no time passes. `Desk.shell` is the shell of a machine that works on it.
-/

namespace WordExpr

structure Shell (m : Type → Type) where
  /-- the whole standard input -/
  stdin : ExceptT String m String
  readFile : String → ExceptT String m String
  /-- makes an output ready: a file is created, or emptied where it exists -/
  ready : Output → ExceptT String m Unit
  /-- adds to an output -/
  write : Output → ByteArray → ExceptT String m Unit
  log : Level → String → m Unit
  /-- why a run failed -/
  complain : String → m Unit
  /-- the seconds since the run began -/
  elapsed : m String

/-! ## a desk -/

structure Desk where
  stdin : String := ""
  files : List (String × ByteArray) := []
  stdout : ByteArray := .empty
  /-- oldest first -/
  log : List (Level × String) := []
  complaints : List String := []

namespace Desk

/-! ### files -/

def setFile (name : String) (bytes : ByteArray) :
    List (String × ByteArray) → List (String × ByteArray)
  | [] => [(name, bytes)]
  | (n, b) :: fs => if n = name then (n, bytes) :: fs else (n, b) :: setFile name bytes fs

def file? (d : Desk) (name : String) : Option ByteArray := d.files.lookup name

def empty (d : Desk) (name : String) : Desk := { d with files := setFile name .empty d.files }

def append (d : Desk) (name : String) (bytes : ByteArray) : Desk :=
  { d with files := setFile name ((d.file? name).getD .empty ++ bytes) d.files }

/-! ### effects -/

def read (d : Desk) : Location → Except Trouble ByteArray
  | .file name =>
    match d.file? name with
    | some bytes => .ok bytes
    | none => .error .missing
  | .device .stdin => .ok d.stdin.toUTF8
  | .device .null => .ok .empty
  | .device _ | .outside => .error .missing
  | .nowhere why => .error why

def readText (d : Desk) (l : Location) : Except Trouble String := do
  match String.fromUTF8? (← d.read l) with
  | some text => pure text
  | none => .error .garbled

def ready (d : Desk) : Location → Except Trouble Unit × Desk
  | .file name => (.ok (), d.empty name)
  | .device _ | .outside => (.ok (), d)
  | .nowhere why => (.error why, d)

def write (d : Desk) (bytes : ByteArray) : Location → Except Trouble Unit × Desk
  | .file name => (.ok (), d.append name bytes)
  | .device .stdout => (.ok (), { d with stdout := d.stdout ++ bytes })
  | .device .full => (if bytes.isEmpty then .ok () else .error .full, d)
  | .device _ | .outside => (.ok (), d)
  | .nowhere why => (.error why, d)

/-- an effect on a desk, with its trouble in words -/
def attempt {α : Type} (machine : Machine) (effect : Desk → Except Trouble α × Desk) :
    ExceptT String (StateM Desk) α :=
  .mk do return (← modifyGet effect).mapError machine.wording

def shell (machine : Machine := {}) : Shell (StateM Desk) where
  stdin := do return (← get).stdin
  readFile path := attempt machine fun d => (d.readText (machine.locate path), d)
  ready out := attempt machine (·.ready (machine.locateOutput out))
  write out bytes := attempt machine (·.write bytes (machine.locateOutput out))
  log level text := modify (fun d => { d with log := d.log ++ [(level, text)] })
  complain text := modify (fun d => { d with complaints := d.complaints ++ [text] })
  elapsed := pure "0.000"

end Desk

end WordExpr

import WordExpr.Settings
import WordExpr.Text.Basic

/-!
# Locations

A `Machine` is what is known of the surroundings of a run: how long names and paths may be, which
directories can be reached from the one with the plain files, and how it words its `Trouble`.
`Machine.locate` tells where a path leads on it: to a file of that directory, whether it is there
already or not, to a device, out of sight (to a file of some other directory), or nowhere.

Empty steps and `.` stay where they are, so `./a` and `.//a` are both the file `a`. A path that
ends in one of them, or in `..`, does not lead to a file, and neither does one that is too long or
has too long a name.
-/

namespace WordExpr

/-! ## trouble -/

/-- why a machine does not do what it is asked for -/
inductive Trouble where
  | tooLong
  | directory
  | missing
  | full
  | garbled
deriving DecidableEq, Repr

def Trouble.text : Trouble → String
  | tooLong => "File name too long (os error 36)"
  | directory => "Is a directory (os error 21)"
  | missing => "No such file or directory (os error 2)"
  | full => "No space left on device (os error 28)"
  | garbled => "stream did not contain valid UTF-8"

/-! ## places -/

inductive Device where
  | stdin
  | stdout
  | stderr
  /-- takes everything and holds nothing -/
  | null
  /-- has no room -/
  | full
deriving DecidableEq, Repr

def Device.ofName? : String → Option Device
  | "stdin" => some stdin
  | "stdout" => some stdout
  | "stderr" => some stderr
  | "null" => some null
  | "full" => some full
  | _ => none

inductive Location where
  | file (name : String)
  | device (d : Device)
  /-- may be written, and holds nothing that can be read -/
  | outside
  | nowhere (why : Trouble)
deriving DecidableEq, Repr

inductive Directory where
  /-- the one with the plain files -/
  | here
  | devices
  | elsewhere
deriving DecidableEq, Repr

def Directory.entry (name : String) : Directory → Location
  | here => .file name
  | devices => ((Device.ofName? name).map .device).getD (.nowhere .missing)
  | elsewhere => .outside

/-! ## machines -/

structure Machine where
  /-- in bytes -/
  maxName : Nat := 255
  /-- in bytes -/
  maxPath : Nat := 4095
  /-- whether a path begins with a slash, and its moves up to the last one -/
  directories : List ((Bool × List String) × Directory) :=
    [((false, []), .here), ((false, [".."]), .elsewhere), ((true, ["tmp"]), .elsewhere),
      ((true, ["dev"]), .devices)]
  wording : Trouble → String := Trouble.text

namespace Machine

def steps (path : String) : List String := (Text.split '/' path.toList).map String.ofList

def isMove (step : String) : Bool := step != "" && step != "."

/-- a last step after which a path cannot have led to a file -/
def isDirectory (step : String) : Bool := !isMove step || step == ".."

def locate (m : Machine) (path : String) : Location :=
  let all := steps path
  let name := all.getLastD ""
  let way := (path.toList.head? == some '/', (all.filter isMove).dropLast)
  if m.maxPath < path.utf8ByteSize || m.maxName < name.utf8ByteSize then .nowhere .tooLong
  else if path = "" then .nowhere .missing
  else if isDirectory name then .nowhere .directory
  else ((m.directories.lookup way).map (·.entry name)).getD (.nowhere .missing)

def locateOutput (m : Machine) : Output → Location
  | .stdout => .device .stdout
  | .file path => m.locate path

end Machine

end WordExpr

import WordExpr.CommandLine.Run

/-!
# The program

The shell of the real world, and `main`. Messages and complaints go to the standard error.
-/

namespace WordExpr

/-- an action, with its failure in words -/
def attempt {α : Type} (action : IO α) : ExceptT String IO α :=
  .mk do return (← action.toBaseIO).mapError (·.toString)

/-- milliseconds as seconds with three decimals -/
def secondsText (ms : Nat) : String :=
  s!"{ms / 1000}.{ms / 100 % 10}{ms / 10 % 10}{ms % 10}"

def handleOf : Output → IO IO.FS.Stream
  | .stdout => IO.getStdout
  | .file path => do return IO.FS.Stream.ofHandle (← IO.FS.Handle.mk path .append)

def writeTo (out : Output) (bytes : ByteArray) : IO Unit := do
  let h ← handleOf out
  h.write bytes
  h.flush

/-- the shell of a run that began at `start` -/
def Shell.real (start : Nat) : Shell IO where
  stdin := attempt (do (← IO.getStdin).readToEnd)
  readFile path := attempt (IO.FS.readFile path)
  ready
    | .stdout => pure ()
    | .file path => attempt (IO.FS.writeFile path "")
  write out bytes := attempt (writeTo out bytes)
  log level text := IO.eprintln s!"[{level.name}] {text}"
  complain text := IO.eprintln s!"error: {text}"
  elapsed := do return secondsText ((← IO.monoMsNow) - start)

end WordExpr

def main (args : List String) : IO UInt32 := do
  let start ← IO.monoMsNow
  return (← (WordExpr.Shell.real start).run args).code

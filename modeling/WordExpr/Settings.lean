import WordExpr.Error
import WordExpr.Word.Width

/-!
# Settings of a run

The width of all words, where the results go (`Output`) and how much is told on the way
(`Verbosity`): a message has a `Level` and is shown at verbosities that reach it.
-/

namespace WordExpr

/-! ## output -/

inductive Output where
  | stdout
  | file (path : String)
deriving DecidableEq, Repr

/-- `-` is the standard output, anything else a file -/
def Output.ofText (s : String) : Output := if s = "-" then .stdout else .file s

def Output.text : Output → String
  | stdout => "-"
  | file path => path

/-! ## messages -/

inductive Level where
  | warn
  | info
  | debug
  | trace
deriving DecidableEq, Repr

def Level.name : Level → String
  | warn => "WARN"
  | info => "INFO"
  | debug => "DEBUG"
  | trace => "TRACE"

def Level.rank : Level → Nat
  | warn => 0
  | info => 1
  | debug => 2
  | trace => 3

inductive Verbosity where
  | quiet
  | normal
  | verbose
  | trace
deriving DecidableEq, Repr

namespace Verbosity

/-- the last level that is shown -/
def level : Verbosity → Level
  | quiet => .warn
  | normal => .info
  | verbose => .debug
  | trace => .trace

/-- quiet wins over any number of requests for more -/
def ofFlags (quiet : Bool) (more : Nat) : Verbosity :=
  match quiet, more with
  | true, _ => .quiet
  | false, 0 => .normal
  | false, 1 => .verbose
  | false, _ => .trace

def shows (v : Verbosity) (l : Level) : Bool := l.rank ≤ v.level.rank

end Verbosity

/-! ## settings -/

structure Config where
  width : Width := .single
  output : Output := .stdout
  verbosity : Verbosity := .normal
deriving DecidableEq

def widthOf (bits : Nat) : Except Error Width :=
  match Width.ofBits? bits with
  | some w => .ok w
  | none => .error (.unsupportedWidth bits)

def Config.of (bits : Nat) (output : Output) (verbosity : Verbosity) : Except Error Config := do
  pure ⟨← widthOf bits, output, verbosity⟩

end WordExpr

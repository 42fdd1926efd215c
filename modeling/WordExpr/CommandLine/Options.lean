import WordExpr.Settings
import WordExpr.Source.Literal

/-!
# Command line options

`Options.ofArgs` reads the arguments of a run. An argument is

* a word, which begins the expression: it and everything behind it are words, whatever they
  look like. An argument that starts with `-` is a word too unless all of it is known: a minus
  sign may open an expression;
* `--`, which is dropped, with only words behind it;
* a long option, its value behind `=` or in the next argument;
* a cluster of short options, in which an option with a value takes the rest of the cluster as
  its value or else the next argument.

A value in an argument of its own may be anything that would be a word, so neither a known option
nor `--`. Only the request for more messages may be repeated. A batch excludes words. Grouping
needs a batch where there are no words, and changes nothing beside words.
-/

namespace WordExpr

/-- options without a value -/
inductive Flag where
  | verbose
  | quiet
  | group
  | help
deriving DecidableEq, Repr

/-- options with a value -/
inductive Setting where
  | bits
  | output
  | batch
deriving DecidableEq, Repr

inductive Switch where
  | flag (f : Flag)
  | setting (s : Setting)
deriving DecidableEq, Repr

def Switch.ofChar? : Char → Option Switch
  | 'b' => some (.setting .bits)
  | 'o' => some (.setting .output)
  | 'v' => some (.flag .verbose)
  | 'q' => some (.flag .quiet)
  | 's' => some (.flag .quiet)
  | 'h' => some (.flag .help)
  | _ => none

def Switch.ofName? : String → Option Switch
  | "bits" => some (.setting .bits)
  | "output" => some (.setting .output)
  | "batch" => some (.setting .batch)
  | "verbose" => some (.flag .verbose)
  | "quiet" => some (.flag .quiet)
  | "group" => some (.flag .group)
  | "help" => some (.flag .help)
  | _ => none

def Flag.name : Flag → String
  | verbose => "--verbose"
  | quiet => "--quiet"
  | group => "--group"
  | help => "--help"

def Setting.name : Setting → String
  | bits => "--bits"
  | output => "--output"
  | batch => "--batch"

/-! ## arguments -/

inductive Argument where
  | word
  | onlyWordsFollow
  | long (s : Switch) (value : Option String)
  | cluster (cs : List Char)

/-- a name and what stands behind the first `=`, if there is one -/
def splitValue (cs : List Char) : String × Option String :=
  (String.ofList (cs.takeWhile (· ≠ '=')),
    match cs.dropWhile (· ≠ '=') with
    | [] => none
    | _ :: value => some (String.ofList value))

def Argument.ofChars : List Char → Argument
  | ['-', '-'] => onlyWordsFollow
  | '-' :: '-' :: cs =>
    let (name, value) := splitValue cs
    match Switch.ofName? name with
    | some s => long s value
    | none => word
  | ['-'] => word
  | '-' :: cs => if cs.all (fun c => (Switch.ofChar? c).isSome) then cluster cs else word
  | _ => word

/-! ## options -/

inductive UsageError where
  | help
  | missingValue (s : Setting)
  | unwantedValue (f : Flag)
  | repeated (name : String)
  | notANumber (text : String)
  | wordsBesideBatch
  | nothingToGroup
deriving DecidableEq, Repr

def usageLines : List String :=
  ["usage: [-b BITS] [-o FILE] [-v] [-q] (EXPR | --batch FILE [--group])",
    "  -b, --bits BITS    width of every word in bits, 1 to 32 (1)",
    "  -o, --output FILE  where the results go, - for standard output (-)",
    "  -v, --verbose      more messages",
    "  -q, --quiet        only warnings",
    "      --batch FILE   one expression in each line of FILE, - for standard input",
    "      --group        also list the expressions by digest"]

def UsageError.message : UsageError → String
  | help => "\n".intercalate usageLines
  | missingValue s => s!"a value is required for {s.name}"
  | unwantedValue f => s!"{f.name} takes no value"
  | repeated name => s!"{name} cannot be used more than once"
  | notANumber text => s!"{Text.quote text} is not a number of bits"
  | wordsBesideBatch => "--batch cannot be used with an expression"
  | nothingToGroup => "--group needs --batch"

structure Options where
  words : List String := []
  bits : Option Nat := none
  output : Option Output := none
  verbose : Nat := 0
  quiet : Bool := false
  batch : Option String := none
  group : Bool := false
deriving DecidableEq, Repr

namespace Options

def setFlag (o : Options) : Flag → Except UsageError Options
  | .verbose => .ok { o with verbose := o.verbose + 1 }
  | .quiet => if o.quiet then .error (.repeated Flag.quiet.name) else .ok { o with quiet := true }
  | .group => if o.group then .error (.repeated Flag.group.name) else .ok { o with group := true }
  | .help => .error .help

/-- a number of 32 bits, in decimal; a sign is allowed, and so 0 has a negative spelling -/
def number? (text : String) : Option Nat :=
  match text.toList with
  | '-' :: cs => (unsigned 10 cs).filter (· = 0)
  | cs => (number 10 cs).filter (· < UInt32.size)

def setValue (o : Options) (s : Setting) (value : String) : Except UsageError Options :=
  match s with
  | .bits =>
    match o.bits, number? value with
    | some _, _ => .error (.repeated s.name)
    | none, none => .error (.notANumber value)
    | none, some n => .ok { o with bits := some n }
  | .output =>
    if o.output.isSome then .error (.repeated s.name)
    else .ok { o with output := some (.ofText value) }
  | .batch =>
    if o.batch.isSome then .error (.repeated s.name) else .ok { o with batch := some value }

/-- also gives the option that still waits for its value -/
def setCluster (o : Options) : List Char → Except UsageError (Options × Option Setting)
  | [] => .ok (o, none)
  | c :: cs =>
    match Switch.ofChar? c with
    | some (.flag f) => (o.setFlag f).bind (setCluster · cs)
    | some (.setting s) =>
      if cs.isEmpty then .ok (o, some s)
      else (o.setValue s (String.ofList cs)).map (·, none)
    | none => .ok (o, none)

def setLong (o : Options) :
    Switch → Option String → Except UsageError (Options × Option Setting)
  | .flag f, none => (o.setFlag f).map (·, none)
  | .flag f, some _ => .error (.unwantedValue f)
  | .setting s, none => .ok (o, some s)
  | .setting s, some value => (o.setValue s value).map (·, none)

def check (o : Options) : Except UsageError Options :=
  if o.batch.isSome && !o.words.isEmpty then .error .wordsBesideBatch
  else if o.group && o.batch.isNone && o.words.isEmpty then .error .nothingToGroup
  else .ok o

/-- `waiting` is an option whose value comes next -/
def read (o : Options) (waiting : Option Setting) : List String → Except UsageError Options
  | [] =>
    match waiting with
    | some s => .error (.missingValue s)
    | none => o.check
  | arg :: rest =>
    match waiting, Argument.ofChars arg.toList with
    | some s, .word => (o.setValue s arg).bind (fun o => read o none rest)
    | some s, _ => .error (.missingValue s)
    | none, .word => check { o with words := arg :: rest }
    | none, .onlyWordsFollow => check { o with words := rest }
    | none, .long s value => (o.setLong s value).bind (fun (o, waiting) => read o waiting rest)
    | none, .cluster cs => (o.setCluster cs).bind (fun (o, waiting) => read o waiting rest)

def ofArgs (args : List String) : Except UsageError Options := read {} none args

def verbosity (o : Options) : Verbosity := .ofFlags o.quiet o.verbose

def config (o : Options) : Except Error Config :=
  Config.of (o.bits.getD Width.single.bits) (o.output.getD .stdout) o.verbosity

end Options

end WordExpr

import WordExpr.Batch
import WordExpr.CommandLine.Options
import WordExpr.CommandLine.Shell

/-!
# Runs

`run` is the whole program: it reads the arguments, does one expression or a batch through a
`Shell` and gives the exit code, 0 for success, 1 for a failure and 2 for arguments that make no
sense.

* one expression  a report on it, then its table and its digest on two lines of the output;
* a batch         a line for each success (digest, canonical text, text as written, with tabs
                  between) and a warning for each failure; with grouping also, behind an empty
                  line, each digest with the texts that share it.

The output is made ready before the table is computed. What is written is held back up to
`bufferSize` bytes (`put`), and goes out at the end or when there is more. The first failure ends a
run, and is all that it complains of.
-/

namespace WordExpr

variable {m : Type → Type} [Monad m]

/-- how a run ends -/
inductive Ending where
  | success
  | failure
  | usage
deriving DecidableEq, Repr

def Ending.code : Ending → UInt32
  | success => 0
  | failure => 1
  | usage => 2

namespace Shell

/-! ## messages -/

def tell (sh : Shell m) (c : Config) (level : Level) (text : String) : m Unit :=
  if c.verbosity.shows level then sh.log level text else pure ()

def tellAll (sh : Shell m) (c : Config) (level : Level) (texts : List String) : m Unit :=
  texts.forM (sh.tell c level)

def fail (sh : Shell m) (text : String) : m Ending := do
  sh.complain text
  pure .failure

/-! ## output -/

/-- in bytes -/
def bufferSize : Nat := 8192

/-- `held` has not been written yet; it goes out with the first bytes that are too many -/
def put (sh : Shell m) (out : Output) (held bytes : ByteArray) : ExceptT String m ByteArray := do
  if held.size + bytes.size ≤ bufferSize then pure (held ++ bytes)
  else
    sh.write out (held ++ bytes)
    pure .empty

def putAll (sh : Shell m) (out : Output) (held : ByteArray) (texts : List String) :
    ExceptT String m ByteArray :=
  texts.foldlM (fun held text => sh.put out held text.toUTF8) held

/-! ## one expression -/

def variableLine (v : Variable) : String := s!"  {v.name} <- {v.spelling} ({v.occurrences}x)"

def report (e : Expression) (c : Config) : List String :=
  [s!"Raw input: {e.raw}", s!"Cleaned input: {e.cleaned}", s!"Parsed input: {e.render}",
    s!"Variables: {e.registry.size}, slots: {e.registry.slots}"]
  ++ e.registry.vars.map variableLine ++ [s!"max_bits: {c.width.bits}"]

def runTable (sh : Shell m) (c : Config) (e : Expression) : ExceptT String m Unit := do
  let t := e.fingerprint c.width .unlimited
  let held ← (sh.put c.output .empty t.sink.received).adapt (s!"I/O error: {·}")
  match t.result with
  | .error why =>
    -- what is held goes out all the same
    try sh.write c.output held catch _ => pure ()
    throw why.message
  | .ok f =>
    let held ← sh.put c.output held (f.digest.hex ++ "\n").toUTF8
    sh.write c.output held
    sh.tell c .info s!"Combinations: {f.combinations}, undefined: {f.undefined}"

def runSingle (sh : Shell m) (c : Config) (raw : String) : ExceptT String m Unit := do
  if Text.trim raw = "" then throw "no expression given (pass EXPR or --batch FILE)"
  else
    match Expression.parse raw with
    | .error why => throw s!"Failed to parse {Text.quote raw}: {why.message}"
    | .ok e =>
      sh.tellAll c .info (report e c)
      sh.ready c.output
      sh.runTable c e

/-! ## batches -/

def successLine? (e : Batch.Entry) : Option String :=
  match e.result with
  | .ok s => some s!"{s.fingerprint.digest.hex}\t{s.canonical}\t{e.raw}\n"
  | .error _ => none

def failureLine? (e : Batch.Entry) : Option String :=
  match e.result with
  | .ok _ => none
  | .error why => some s!"line {e.line}: {Text.quote e.raw}: {why.message}"

def memberLine (es : List Batch.Entry) (i : Nat) : String :=
  match es[i]? with
  | some e => s!"\t{e.raw}\n"
  | none => ""

def groupLines (es : List Batch.Entry) (g : Batch.Group) : List String :=
  s!"{g.fingerprint.digest.hex} ({g.members.length} expressions)\n"
    :: g.members.map (memberLine es)

def listingLines (es : List Batch.Entry) (gs : List Batch.Group) : List String :=
  "\n" :: gs.flatMap (groupLines es)

def groupsNews (gs : List Batch.Group) : String := s!"Behaviour classes: {gs.length}"

def putListing (sh : Shell m) (c : Config) (es : List Batch.Entry) (held : ByteArray) :
    ExceptT String m ByteArray := do
  let gs := Batch.groups es
  let held ← sh.putAll c.output held (listingLines es gs)
  sh.tell c .info (groupsNews gs)
  pure held

def failedNews (es : List Batch.Entry) : List String :=
  let failed := (es.filterMap failureLine?).length
  if 0 < failed then [s!"{failed} of {es.length} expressions failed"] else []

def writeBatch (sh : Shell m) (c : Config) (es : List Batch.Entry) (grouped : Bool) :
    ExceptT String m Unit := do
  let held ← sh.putAll c.output .empty (es.filterMap successLine?)
  let held ← if grouped then sh.putListing c es held else pure held
  sh.write c.output held
  sh.tellAll c .warn (failedNews es)

/-- `-` is the standard input -/
def source (sh : Shell m) (path : String) : ExceptT String m String :=
  if path = "-" then sh.stdin else (sh.readFile path).adapt (s!"Failed to read {path}: {·}")

def batchNews (es : List Batch.Entry) (w : Width) : String :=
  s!"Batch: {es.length} expressions, max_bits: {w.bits}, multithread: true"

def runBatch (sh : Shell m) (c : Config) (path : String) (grouped : Bool) :
    ExceptT String m Unit := do
  let input ← sh.source path
  let es := Batch.entries input c.width
  sh.tell c .info (batchNews es c.width)
  sh.tellAll c .warn (es.filterMap failureLine?)
  sh.ready c.output
  sh.writeBatch c es grouped

/-! ## any run -/

def perform (sh : Shell m) (c : Config) (o : Options) : ExceptT String m Unit :=
  match o.batch with
  | some path => sh.runBatch c path o.group
  | none => sh.runSingle c (" ".intercalate o.words)

def runOptions (sh : Shell m) (o : Options) : m Ending :=
  match o.config with
  | .error why => sh.fail why.message
  | .ok c => do
    match ← (sh.perform c o).run with
    | .error text => sh.fail text
    | .ok () =>
      sh.tell c .info s!"Done in {← sh.elapsed} s"
      pure .success

def run (sh : Shell m) (args : List String) : m Ending :=
  match Options.ofArgs args with
  | .error .help => do
    let _ ← (sh.write .stdout (UsageError.help.message ++ "\n").toUTF8).run
    pure .success
  | .error why => do
    sh.complain why.message
    pure .usage
  | .ok o => sh.runOptions o

end Shell

end WordExpr

import WordExpr.Registry
import WordExpr.Source.Spelling
import WordExpr.Source.WellFormed
import WordExpr.Table.Basic
import WordExpr.Tree.Builder
import WordExpr.Tree.Render

/-!
# Expressions

`Expression.parse` takes a text through the whole front end: the normal spelling must be well
formed with its whitespace and without it, the tree is built from the text without whitespace,
and its variables are interned and renamed. The result keeps the text as it was given, its
clean spelling, the tree and the registry.
-/

namespace WordExpr

structure Expression where
  raw : String
  cleaned : String
  tree : Tree
  registry : Registry
deriving DecidableEq, Repr

namespace Expression

def parse (raw : String) : Except Error Expression := do
  (validate (normalize raw)).mapError .notWellFormed
  (validate (clean raw)).mapError .notWellFormed
  let tree ← (Tree.ofText (clean raw)).mapError .parse
  let (tree, registry) := tree.consolidate
  pure ⟨raw, clean raw, tree, registry⟩

/-- canonical text: current names, decimal constants -/
def render (e : Expression) : String := e.tree.render e.registry.nameOf

def isConstant (e : Expression) : Bool := e.registry.isEmpty

/-- with the values in the cells -/
def evaluate (e : Expression) (w : Width) : Except Error Outcome :=
  (e.tree.evaluate e.registry w).mapError .eval

def fingerprint (e : Expression) (w : Width) (s : Sink) : Tabulation :=
  tabulate e.tree e.registry w s

end Expression

end WordExpr

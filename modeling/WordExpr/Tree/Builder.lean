import WordExpr.Source.Token
import WordExpr.Tree.Walk

/-!
# Building a tree token by token

A `Builder` takes one token after the other and keeps a tree that is complete up to its cursor:
node 0 is the group around the whole input, and `current` is the innermost open group or the last
operator below it, which waits for its right operand or has it already. A binary operator takes over
what stands to its left as far as that binds at least as tightly, so operators of one level
associate to the left and no operator stack is needed.

* `Builder.push`    takes a token; a refused token is reported and the builder may go on;
* `Builder.finish`  the tree of everything taken, without the group around it;
* `Tree.ofText`     the tree of a text, or the first error met.

A new node is made for each term once it has been read as a name or a number, for each opening
bracket, and for each binary operator once its left operand is there.
-/

namespace WordExpr

structure Builder where
  tree : Tree := .single
  current : NodeId := 0
  /-- open brackets -/
  depth : Nat := 0
  /-- a negation waits for its operand -/
  minus : Bool := false
  /-- a complement waits for its operand -/
  complement : Bool := false
  /-- where the last token stopped -/
  stop : Nat := 0
deriving DecidableEq, Repr

namespace Builder

/-- a builder and what it had to refuse -/
abbrev Step := Builder × Option ParseError

def done (b : Builder) : Step := (b, none)

def refuse (b : Builder) (tok : Token) (why : Fault) : Step :=
  (b, some (.structural why tok.text tok.offset))

def hasPending (b : Builder) : Bool := b.minus || b.complement

/-! ## operands -/

/-- a new node that takes the waiting flags -/
def allocFlagged (b : Builder) (n : Node) : NodeId × Builder :=
  let (id, tree) := b.tree.alloc { n with minus := b.minus, complement := b.complement }
  (id, { b with tree, minus := false, complement := false })

/-- puts an operand into the free place at the cursor -/
def attach (b : Builder) (tok : Token) (operand : NodeId) : Step :=
  let n := b.tree.node b.current
  if n.isGroup && n.left.isNone then
    done { b with tree := b.tree.setLeft b.current operand }
  else if n.operator?.isSome && n.right.isNone then
    done { b with tree := b.tree.setRight b.current operand }
  else b.refuse tok .noFreeSlot

def term (b : Builder) (tok : Token) : Step :=
  match Symbol.ofTerm tok.text with
  | .error e => (b, some e)
  | .ok s =>
    let (leaf, b) := b.allocFlagged (.leaf s)
    b.attach tok leaf

def openGroup (b : Builder) (tok : Token) : Step :=
  let (group, b) := b.allocFlagged .group
  match b.attach tok group with
  | (b, none) => done { b with current := group, depth := b.depth + 1 }
  | refused => refused

/-! ## operators -/

def unary (b : Builder) (tok : Token) (op : Operator) : Step :=
  if b.hasPending then b.refuse tok .stackedUnary
  else if op = .neg then done { b with minus := true }
  else done { b with complement := true }

/-- a new operator that takes `operand`, the only one of the group at the cursor, as its left one -/
def firstOperator (b : Builder) (op : Operator) (operand : NodeId) : Builder :=
  let (new, tree) := b.tree.alloc (.binary op)
  { b with tree := (tree.setLeft new operand).setLeft b.current new, current := new }

/-- a new operator that takes `operand`, the right one of the operator at the cursor -/
def tighterOperator (b : Builder) (op : Operator) (operand : NodeId) : Builder :=
  let (new, tree) := b.tree.alloc (.binary op)
  { b with tree := (tree.setLeft new operand).setRight b.current new, current := new }

def bindsAtLeast (op : Operator) (n : Node) : Bool := n.operator?.any (op.level ≤ ·.level)

/-- a new operator that takes the operator at the cursor, with all above it that bind at least as
tightly -/
def looserOperator (b : Builder) (tok : Token) (op : Operator) : Step :=
  let (new, tree) := b.tree.alloc (.binary op)
  let anchor := tree.ascend (bindsAtLeast op) b.current
  match (tree.node anchor).parent with
  | none => { b with tree }.refuse tok .operatorOutsideGroup
  | some above =>
    done { b with tree := (tree.exchange above anchor new).2.setLeft new anchor, current := new }

def binary (b : Builder) (tok : Token) (op : Operator) : Step :=
  let n := b.tree.node b.current
  if b.hasPending then b.refuse tok .binaryAfterUnary
  else
    match n.operator? with
    | none =>
      match n.left with
      | none => b.refuse tok .missingLeft
      | some operand => done (b.firstOperator op operand)
    | some prev =>
      match n.right with
      | none => b.refuse tok .missingRight
      | some operand =>
        if op.level ≤ prev.level then b.looserOperator tok op
        else done (b.tighterOperator op operand)

/-! ## closing brackets -/

/-- the first node without an operator on the way up, `fuel` links at most -/
def enclosingGroup? (t : Tree) (fuel : Nat) (id : NodeId) : Option NodeId :=
  if (t.node id).operator?.isNone then some id
  else
    match fuel, (t.node id).parent with
    | fuel + 1, some up => enclosingGroup? t fuel up
    | _, _ => none

def closeGroup (b : Builder) (tok : Token) : Step :=
  let n := b.tree.node b.current
  if b.depth = 0 then b.refuse tok .unmatchedClose
  else if n.operator?.isSome && n.right.isNone then b.refuse tok .missingRight
  else
    match enclosingGroup? b.tree b.tree.size b.current with
    | none => b.refuse tok .closeOutsideGroup
    | some group =>
      let g := b.tree.node group
      match g.left, g.parent with
      | none, _ => b.refuse tok .emptyGroup
      | some _, none => b.refuse tok .unmatchedClose
      | some _, some above => done { b with current := above, depth := b.depth - 1 }

/-! ## any token -/

def take (b : Builder) (tok : Token) : Step :=
  match tok.kind with
  | .term => b.term tok
  | .operator =>
    match Operator.ofChar? tok.firstChar with
    | none => b.refuse tok .unknownOperator
    | some op => if op.isUnary then b.unary tok op else b.binary tok op
  | .bracket => if isOpening tok.firstChar then b.openGroup tok else b.closeGroup tok
  | .whitespace => b.done

/-- The kind of a token decides what it is, then its first character. -/
def push (b : Builder) (tok : Token) : Step := { b with stop := tok.stop }.take tok

/-- stops at the first item that is refused -/
def pushAll (b : Builder) : List Item → Except ParseError Builder
  | [] => .ok b
  | .error e :: _ => .error e
  | .ok tok :: rest =>
    match b.push tok with
    | (b, none) => b.pushAll rest
    | (_, some e) => .error e

/-! ## the end of the input -/

/-- what a node lacks, with the token to show for it -/
def lack? (n : Node) : Option (Fault × String) :=
  match n.operator? with
  | some op =>
    if n.left.isNone || n.right.isNone then some (.missingOperand, op.char.toString) else none
  | none => if n.isGroup && n.left.isNone then some (.emptyGroup, "") else none

def finish (b : Builder) : Except ParseError Tree :=
  if b.depth ≠ 0 then .error (.unclosed b.depth)
  else if b.hasPending then .error (.structural .danglingUnary "" b.stop)
  else
    match (b.tree.node (b.tree.findRoot b.current)).left with
    | none => .error .empty
    | some top =>
      match b.tree.preorder.findSome? (fun id => lack? (b.tree.node id)) with
      | some (why, token) => .error (.structural why token b.stop)
      | none => .ok (b.tree.setRoot top)

end Builder

def Tree.ofText (text : String) : Except ParseError Tree :=
  (Builder.pushAll {} (tokenize text)).bind Builder.finish

end WordExpr

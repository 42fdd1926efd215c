import WordExpr.Proofs.Building.Acceptance
import WordExpr.Proofs.Relabel

/-!
# The same input with other operands

A builder does not look at the operands it takes. So two sequences of tokens with the same
operators and brackets, whose operands correspond by a map of atoms, lead through the same steps to
arenas that differ by this map only, node for node (`Tree.ofTokens_relabel`).

`Builder.mirror g n b` is the builder `b` with other operands; `stop`, which tokens of other lengths
change, is `n`. Each operation that refuses nothing commutes with it.
-/

namespace WordExpr

variable (g : Atom → Atom)

def Builder.mirror (n : Nat) (b : Builder) : Builder :=
  { b with tree := b.tree.relabel g, stop := n }

namespace Builder

variable {g} {n : Nat} {b b' : Builder} {tok tok' : Token}

/-! ## operands -/

theorem allocFlagged_mirror (m : Node) : (b.mirror g n).allocFlagged (m.relabel g) =
    ((b.allocFlagged m).1, (b.allocFlagged m).2.mirror g n) := by
  have h : (b.tree.relabel g).alloc
      { m.relabel g with minus := b.minus, complement := b.complement } = _ :=
    b.tree.alloc_relabel g { m with minus := b.minus, complement := b.complement }
  rw [allocFlagged, mirror, h]
  rfl

theorem attach_mirror {c : NodeId} (h : b.attach tok c = (b', none)) :
    (b.mirror g n).attach tok' c = (b'.mirror g n, none) := by
  have hn : (b.mirror g n).tree.node (b.mirror g n).current = (b.tree.node b.current).relabel g :=
    b.tree.node_relabel g b.current
  rw [attach] at h ⊢
  simp only [hn, Node.isGroup_relabel, Node.operator?_relabel, Node.left_relabel,
    Node.right_relabel]
  split at h
  · next hl =>
    cases h
    rw [if_pos hl]
    show done { b with tree := (b.tree.relabel g).setLeft b.current c, stop := n } = _
    rw [Tree.setLeft_relabel]
    rfl
  · next hl =>
    rw [if_neg hl]
    split at h
    · next hr =>
      cases h
      rw [if_pos hr]
      show done { b with tree := (b.tree.relabel g).setRight b.current c, stop := n } = _
      rw [Tree.setRight_relabel]
      rfl
    · cases h

theorem term_mirror {a : Atom} (ha : Symbol.ofTerm tok.text = .ok a.symbol)
    (ha' : Symbol.ofTerm tok'.text = .ok (g a).symbol) (h : b.term tok = (b', none)) :
    (b.mirror g n).term tok' = (b'.mirror g n, none) := by
  rw [term, ha] at h
  unfold term
  rw [ha']
  have hleaf : Node.leaf (g a).symbol = (Node.leaf a.symbol).relabel g := by
    rw [Node.relabel_of_symbol (a := a) rfl]
    rfl
  simp only [hleaf, allocFlagged_mirror]
  exact attach_mirror h

theorem openGroup_mirror (h : b.openGroup tok = (b', none)) :
    (b.mirror g n).openGroup tok' = (b'.mirror g n, none) := by
  rw [openGroup] at h ⊢
  have hgroup : Node.group = Node.group.relabel g := rfl
  rw [hgroup, allocFlagged_mirror]
  simp only at h ⊢
  split at h
  · next b1 h1 =>
    cases h
    rw [attach_mirror h1]
    rfl
  · next hne => exact absurd h (hne _)

/-! ## operators -/

theorem unary_mirror {op : Operator} (h : b.unary tok op = (b', none)) :
    (b.mirror g n).unary tok' op = (b'.mirror g n, none) := by
  rw [unary] at h ⊢
  split at h
  · cases h
  next hp =>
  rw [if_neg (show ¬ (b.mirror g n).hasPending = true from hp)]
  split at h
  · next heq =>
    cases h
    rw [if_pos heq]
    rfl
  · next hne =>
    cases h
    rw [if_neg hne]
    rfl

theorem firstOperator_mirror (op : Operator) (c : NodeId) :
    (b.mirror g n).firstOperator op c = (b.firstOperator op c).mirror g n := by
  have halloc := b.tree.alloc_relabel g (.binary op)
  show (⟨((((b.tree.relabel g).alloc (Node.relabel g (.binary op))).2.setLeft
    ((b.tree.relabel g).alloc (Node.relabel g (.binary op))).1 c).setLeft b.current
    ((b.tree.relabel g).alloc (Node.relabel g (.binary op))).1),
    ((b.tree.relabel g).alloc (Node.relabel g (.binary op))).1, _, _, _, _⟩ : Builder) = _
  rw [halloc]
  simp only [Tree.setLeft_relabel]
  rfl

theorem tighterOperator_mirror (op : Operator) (c : NodeId) :
    (b.mirror g n).tighterOperator op c = (b.tighterOperator op c).mirror g n := by
  have halloc := b.tree.alloc_relabel g (.binary op)
  show (⟨((((b.tree.relabel g).alloc (Node.relabel g (.binary op))).2.setLeft
    ((b.tree.relabel g).alloc (Node.relabel g (.binary op))).1 c).setRight b.current
    ((b.tree.relabel g).alloc (Node.relabel g (.binary op))).1),
    ((b.tree.relabel g).alloc (Node.relabel g (.binary op))).1, _, _, _, _⟩ : Builder) = _
  rw [halloc]
  simp only [Tree.setLeft_relabel, Tree.setRight_relabel]
  rfl

theorem bindsAtLeast_relabel (op : Operator) (m : Node) :
    bindsAtLeast op (m.relabel g) = bindsAtLeast op m := by
  unfold bindsAtLeast
  rw [Node.operator?_relabel]

theorem looserOperator_mirror {op : Operator} (h : b.looserOperator tok op = (b', none)) :
    (b.mirror g n).looserOperator tok' op = (b'.mirror g n, none) := by
  have halloc : (b.mirror g n).tree.alloc (.binary op) =
    ((b.tree.alloc (.binary op)).1, (b.tree.alloc (.binary op)).2.relabel g) :=
    b.tree.alloc_relabel g (.binary op)
  rw [looserOperator] at h ⊢
  rw [halloc]
  generalize b.tree.alloc (.binary op) = new at h ⊢
  obtain ⟨new, t⟩ := new
  have hcur : (b.mirror g n).current = b.current := rfl
  simp only [hcur, t.ascend_relabel g (bindsAtLeast_relabel op), Tree.node_relabel] at h ⊢
  split at h
  · cases h
  · next above habove =>
    cases h
    have hparent : ((t.node (t.ascend (bindsAtLeast op) b.current)).relabel g).parent =
        some above := habove
    simp only [hparent, Tree.exchange_relabel, Tree.setLeft_relabel]
    rfl

theorem binary_mirror {op : Operator} (h : b.binary tok op = (b', none)) :
    (b.mirror g n).binary tok' op = (b'.mirror g n, none) := by
  have hn : (b.mirror g n).tree.node (b.mirror g n).current = (b.tree.node b.current).relabel g :=
    b.tree.node_relabel g b.current
  rw [binary] at h ⊢
  simp only [hn, Node.operator?_relabel]
  split at h
  · cases h
  next hp =>
  rw [if_neg (show ¬ (b.mirror g n).hasPending = true from hp)]
  cases hop : (b.tree.node b.current).operator? with
  | none =>
    simp only [hop] at h
    cases hl : (b.tree.node b.current).left with
    | none =>
      rw [hl] at h
      cases h
    | some c =>
      rw [hl] at h
      have hb' : b.firstOperator op c = b' := congrArg Prod.fst h
      have hl' : ((b.tree.node b.current).relabel g).left = some c := hl
      simp only [hl', firstOperator_mirror, hb']
      rfl
  | some prev =>
    simp only [hop] at h
    cases hr : (b.tree.node b.current).right with
    | none =>
      rw [hr] at h
      cases h
    | some c =>
      rw [hr] at h
      have hr' : ((b.tree.node b.current).relabel g).right = some c := hr
      simp only [hr'] at h ⊢
      split at h
      · next hle =>
        rw [if_pos hle]
        exact looserOperator_mirror h
      · next hle =>
        have hb' : b.tighterOperator op c = b' := congrArg Prod.fst h
        rw [if_neg hle, tighterOperator_mirror, hb']
        rfl

/-! ## closing brackets -/

theorem enclosingGroup?_relabel (t : Tree) (fuel : Nat) (id : NodeId) :
    enclosingGroup? (t.relabel g) fuel id = enclosingGroup? t fuel id := by
  induction fuel generalizing id with
  | zero =>
    rw [enclosingGroup?.eq_def, enclosingGroup?.eq_def t, Tree.node_relabel,
      Node.operator?_relabel]
  | succ fuel ih =>
    rw [enclosingGroup?.eq_def, enclosingGroup?.eq_def t, Tree.node_relabel,
      Node.operator?_relabel, Node.parent_relabel]
    cases (t.node id).parent with
    | none => rfl
    | some up =>
      show (if (t.node id).operator?.isNone then _ else
        enclosingGroup? (t.relabel g) fuel up) = _
      rw [ih]

theorem closeGroup_mirror (h : b.closeGroup tok = (b', none)) :
    (b.mirror g n).closeGroup tok' = (b'.mirror g n, none) := by
  have hn : (b.mirror g n).tree.node (b.mirror g n).current = (b.tree.node b.current).relabel g :=
    b.tree.node_relabel g b.current
  have hgroup : enclosingGroup? (b.mirror g n).tree (b.mirror g n).tree.size
      (b.mirror g n).current = enclosingGroup? b.tree b.tree.size b.current := by
    show enclosingGroup? (b.tree.relabel g) (b.tree.relabel g).size b.current = _
    rw [Tree.size_relabel, enclosingGroup?_relabel]
  rw [closeGroup] at h ⊢
  simp only [hn, hgroup, Node.operator?_relabel, Node.right_relabel]
  split at h
  · cases h
  next hd =>
  rw [if_neg (show ¬ (b.mirror g n).depth = 0 from hd)]
  split at h
  · cases h
  next hr =>
  rw [if_neg hr]
  cases henc : enclosingGroup? b.tree b.tree.size b.current with
  | none =>
    simp only [henc] at h
    cases h
  | some group =>
    have hgn : (b.mirror g n).tree.node group = (b.tree.node group).relabel g :=
      b.tree.node_relabel g group
    simp only [henc] at h
    simp only [hgn, Node.left_relabel, Node.parent_relabel]
    split at h
    · cases h
    · cases h
    · cases h
      rfl

/-! ## whole inputs -/

theorem push_mirror {c : Piece} (hc : tok.piece? = some c)
    (hc' : tok'.piece? = some (c.relabel g)) (h : b.push tok = (b', none)) :
    (b.mirror g n).push tok' = (b'.mirror g tok'.stop, none) := by
  have hfit := Token.piece?_eq_some_iff.mp hc
  have hfit' := Token.piece?_eq_some_iff.mp hc'
  show ({ b with stop := tok.stop }.mirror g tok'.stop).take tok' = _
  change { b with stop := tok.stop }.take tok = _ at h
  rw [take] at h ⊢
  cases c with
  | operand a =>
    rw [hfit.1] at h
    rw [hfit'.1]
    exact term_mirror hfit.2 hfit'.2 h
  | operator op =>
    rw [hfit.1] at h
    rw [hfit'.1]
    simp only [hfit.2] at h
    simp only [hfit'.2]
    split at h
    · next hu =>
      rw [if_pos hu]
      exact unary_mirror h
    · next hu =>
      rw [if_neg hu]
      exact binary_mirror h
  | opening =>
    rw [hfit.1] at h
    rw [hfit'.1]
    simp only [hfit.2, if_true] at h
    simp only [hfit'.2, if_true]
    exact openGroup_mirror h
  | closing =>
    rw [hfit.1] at h
    rw [hfit'.1]
    simp only [hfit.2] at h
    simp only [hfit'.2]
    exact closeGroup_mirror h

end Builder

/-- tokens that are alike but for their operands -/
def Token.Alike (g : Atom → Atom) (t t' : Token) : Prop :=
  ∃ c, t.piece? = some c ∧ t'.piece? = some (c.relabel g)

theorem Builder.pushAll_mirror {g : Atom → Atom} {toks toks' : List Token}
    (ha : List.Forall₂ (Token.Alike g) toks toks') {n : Nat} {b b' : Builder}
    (h : b.pushAll (toks.map .ok) = .ok b') :
    ∃ m, (b.mirror g n).pushAll (toks'.map .ok) = .ok (b'.mirror g m) := by
  induction ha generalizing n b with
  | nil =>
    cases h
    exact ⟨n, rfl⟩
  | cons hc ha ih =>
    obtain ⟨c, hc, hc'⟩ := hc
    rw [List.map_cons, pushAll] at h ⊢
    split at h
    · next b1 h1 =>
      rw [push_mirror hc hc' h1]
      exact ih h
    · cases h

theorem Builder.lack?_relabel (g : Atom → Atom) (m : Node) : lack? (m.relabel g) = lack? m := by
  rw [lack?, lack?, Node.operator?_relabel, Node.isGroup_relabel, Node.left_relabel,
    Node.right_relabel]

theorem Builder.finish_mirror {g : Atom → Atom} {n : Nat} {b : Builder} {t : Tree}
    (h : b.finish = .ok t) : (b.mirror g n).finish = .ok (t.relabel g) := by
  have hroot : (b.mirror g n).tree.findRoot (b.mirror g n).current = b.tree.findRoot b.current :=
    b.tree.ascend_relabel g (fun _ => rfl) b.current
  have hn : (b.mirror g n).tree.node (b.tree.findRoot b.current) =
      (b.tree.node (b.tree.findRoot b.current)).relabel g := b.tree.node_relabel g _
  have hlack : (b.mirror g n).tree.preorder.findSome?
      (fun id => lack? ((b.mirror g n).tree.node id)) =
      b.tree.preorder.findSome? (fun id => lack? (b.tree.node id)) := by
    show (b.tree.relabel g).preorder.findSome? (fun id => lack? ((b.tree.relabel g).node id)) = _
    simp only [Tree.preorder_relabel, Tree.node_relabel, lack?_relabel]
  rw [finish] at h ⊢
  simp only [hroot, hn, hlack, Node.left_relabel]
  split at h
  · cases h
  next hd =>
  rw [if_neg (show ¬ (b.mirror g n).depth ≠ 0 from hd)]
  split at h
  · cases h
  next hp =>
  rw [if_neg (show ¬ (b.mirror g n).hasPending = true from hp)]
  split at h
  · cases h
  next top htop =>
  split at h
  · cases h
  next hnone =>
  cases h
  show Except.ok ((b.tree.relabel g).setRoot top) = _
  rw [Tree.setRoot_relabel]

/-- The arenas of two inputs that are alike but for their operands differ by these only. -/
theorem Tree.ofTokens_relabel {g : Atom → Atom} {toks toks' : List Token}
    (ha : List.Forall₂ (Token.Alike g) toks toks') {t : Tree} (h : ofTokens toks = .ok t) :
    ofTokens toks' = .ok (t.relabel g) := by
  cases hb : Builder.pushAll {} (toks.map .ok) with
  | error e =>
    rw [ofTokens, hb] at h
    cases h
  | ok b =>
    rw [ofTokens, hb] at h
    obtain ⟨m, hm⟩ := Builder.pushAll_mirror ha (n := 0) hb
    have hstart : ({} : Builder).mirror g 0 = {} := by
      unfold Builder.mirror
      rw [Tree.single_relabel]
    rw [ofTokens, ← hstart, hm]
    exact Builder.finish_mirror h

end WordExpr

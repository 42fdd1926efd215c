import WordExpr.Proofs.Accepted
import WordExpr.Proofs.Building.Invariant
import WordExpr.Proofs.Spanning

/-!
# The shape of the tree of a text

Every term, every opening bracket and every binary operator makes one node, and one more is made for
the group around the input, which the finished tree leaves behind at place 0. All others hang
together below the root, and their leaves are the terms of the text in its order
(`Tree.exists_builtFrom`).

* `Node.Complete`      a leaf without children, a group with its operand, or a binary operator with
                       both of its own;
* `Formula.Regular`    one flag at most, and none at an operator: this is what derivations give;
* `Tree.BuiltFrom`     what the tokens of a text make of an arena.
-/

namespace WordExpr

/-! ## formulas -/

namespace Formula

/-- how many nodes there are -/
def size : Formula → Nat
  | leaf _ _ => 1
  | group _ x => x.size + 1
  | binary _ _ x y => x.size + y.size + 1

/-- the atoms from left to right -/
def atoms : Formula → List Atom
  | leaf _ a => [a]
  | group _ x => x.atoms
  | binary _ _ x y => x.atoms ++ y.atoms

end Formula

/-- not both flags -/
def Flags.Single (f : Flags) : Prop := ¬ (f.minus = true ∧ f.complement = true)

/-- at most one flag at leaves and groups, and none at operators, which are binary -/
def Formula.Regular : Formula → Prop
  | leaf f _ => f.Single
  | group f x => f.Single ∧ x.Regular
  | binary f op x y => f = {} ∧ op.isBinary = true ∧ x.Regular ∧ y.Regular

/-! ## from the pieces to the formula -/

namespace Piece

def makesNode : Piece → Bool
  | operand _ | opening => true
  | operator op => op.isBinary
  | closing => false

def atom? : Piece → Option Atom
  | operand a => some a
  | _ => none

end Piece

namespace Sign

variable {u : List Piece} {f : Flags}

theorem single (h : Sign u f) : f.Single := by
  cases h <;> exact nofun

theorem countP_makesNode (h : Sign u f) : u.countP Piece.makesNode = 0 := by
  cases h <;> rfl

theorem filterMap_atom? (h : Sign u f) : u.filterMap Piece.atom? = [] := by
  cases h <;> rfl

end Sign

namespace Derives

variable {k : Nat} {ps : List Piece} {x : Formula}

theorem regular (h : Derives k ps x) : x.Regular := by
  induction h with
  | operand hu a => exact hu.single
  | brackets hu h ih => exact ⟨hu.single, ih⟩
  | tighter h ih => exact ih
  | chain hop hl hr ihl ihr => exact ⟨rfl, hop, ihl, ihr⟩

theorem size_eq (h : Derives k ps x) : x.size = ps.countP Piece.makesNode := by
  induction h with
  | operand hu a =>
    rw [List.countP_append, hu.countP_makesNode]
    rfl
  | brackets hu h ih =>
    rw [List.countP_append, hu.countP_makesNode, List.countP_cons_of_pos rfl, List.countP_append,
      ← ih, Nat.zero_add]
    rfl
  | tighter h ih => exact ih
  | @chain ps qs op x y hop hl hr ihl ihr =>
    have hnode : (Piece.operator op).makesNode = true := hop
    rw [List.countP_append, List.countP_cons_of_pos hnode, ← ihl, ← ihr]
    rfl

theorem atoms_eq (h : Derives k ps x) : x.atoms = ps.filterMap Piece.atom? := by
  induction h with
  | operand hu a =>
    rw [List.filterMap_append, hu.filterMap_atom?]
    rfl
  | @brackets u ps f x hu h ih =>
    have hopen : (Piece.opening :: (ps ++ [Piece.closing])).filterMap Piece.atom? =
        (ps ++ [Piece.closing]).filterMap Piece.atom? := rfl
    rw [List.filterMap_append, hu.filterMap_atom?, hopen, List.filterMap_append, ← ih]
    exact (List.append_nil _).symm
  | tighter h ih => exact ih
  | chain hop hl hr ihl ihr =>
    rw [List.filterMap_append, Formula.atoms, ihl, ihr]
    rfl

end Derives

/-! ## from the tokens to the pieces -/

theorem Operator.isBinaryOperator_of_ofChar? {c : Char} {op : Operator}
    (h : ofChar? c = some op) : isBinaryOperator c = op.isBinary := by
  rw [← char_of_ofChar? h]
  cases op <;> decide

namespace Token

def isTerm (t : Token) : Bool := t.kind == .term
def opensGroup (t : Token) : Bool := t.kind == .bracket && isOpening t.firstChar
def isBinary (t : Token) : Bool := t.kind == .operator && isBinaryOperator t.firstChar

end Token

theorem countP_makesNode_of_pieces? {toks : List Token} {ps : List Piece}
    (h : pieces? toks = some ps) : ps.countP Piece.makesNode =
      toks.countP Token.isTerm + toks.countP Token.opensGroup + toks.countP Token.isBinary := by
  induction toks generalizing ps with
  | nil =>
    cases h
    rfl
  | cons t toks ih =>
    rw [pieces?] at h
    split at h
    · next hk =>
      rw [ih h]
      simp [Token.isTerm, Token.opensGroup, Token.isBinary, hk]
    · split at h
      · next c cs hc hcs =>
        cases h
        have hfit := Token.piece?_eq_some_iff.mp hc
        have hstep : (if c.makesNode then 1 else 0) = (if t.isTerm then 1 else 0) +
            (if t.opensGroup then 1 else 0) + (if t.isBinary then 1 else 0) := by
          cases c with
          | operand a =>
            simp [Token.isTerm, Token.opensGroup, Token.isBinary, Piece.makesNode, hfit.1]
          | operator op =>
            have hb := Operator.isBinaryOperator_of_ofChar? hfit.2
            cases hop : op.isBinary <;>
              simp [Token.isTerm, Token.opensGroup, Token.isBinary, Piece.makesNode, hfit.1, hb,
                hop]
          | opening | closing =>
            simp [Token.isTerm, Token.opensGroup, Token.isBinary, Piece.makesNode, hfit.1, hfit.2]
        simp only [List.countP_cons, ih hcs]
        omega
      · cases h

/-- the operands are the terms as they are read -/
theorem map_ofTerm_of_pieces? {toks : List Token} {ps : List Piece} (h : pieces? toks = some ps) :
    (toks.filter Token.isTerm).map (fun t => Symbol.ofTerm t.text) =
      (ps.filterMap Piece.atom?).map (fun a => .ok a.symbol) := by
  induction toks generalizing ps with
  | nil =>
    cases h
    rfl
  | cons t toks ih =>
    rw [pieces?] at h
    split at h
    · next hk =>
      rw [List.filter_cons_of_neg (by simp [Token.isTerm, hk]), ih h]
    · split at h
      · next c cs hc hcs =>
        cases h
        have hfit := Token.piece?_eq_some_iff.mp hc
        cases c with
        | operand a =>
          rw [List.filter_cons_of_pos (by simp [Token.isTerm, hfit.1]), List.map_cons, ih hcs,
            hfit.2]
          rfl
        | operator | opening | closing =>
          rw [List.filter_cons_of_neg (by simp [Token.isTerm, hfit.1]), ih hcs]
          rfl
      · cases h

/-! ## from the formula to the nodes -/

/-- a leaf, a group with its operand, or a binary operator with both of its own -/
inductive Node.Complete (n : Node) : Prop where
  | leaf (a : Atom) (hs : n.symbol = some a.symbol) (hl : n.left = none) (hr : n.right = none)
  | group (hs : n.symbol = none) (hl : n.left.isSome) (hr : n.right = none)
  | binary (op : Operator) (hs : n.symbol = some (.operator op)) (hop : op.isBinary = true)
    (hl : n.left.isSome) (hr : n.right.isSome)

/-- one flag at most, and none at an operator -/
structure Node.Flagged (n : Node) : Prop where
  single : n.flags.Single
  operator : n.operator?.isSome → n.flags = {}

namespace Part

variable {q : Part} {x : Formula}

theorem isSome_id?_of_formula? (hx : q.formula? = some x) : q.id?.isSome := by
  obtain ⟨i, hi⟩ := exists_id?_of_formula? hx
  rw [hi]
  rfl

theorem isEmpty_outline (hx : q.formula? = some x) (up : Option NodeId) :
    (q.outline up).isEmpty = false := by
  cases q with
  | missing => cases hx
  | leaf | group | binary => rfl

theorem size_eq (hx : q.formula? = some x) : q.size = x.size := by
  induction q generalizing x with
  | missing => cases hx
  | leaf id f a =>
    cases hx
    rfl
  | group id f p ih =>
    obtain ⟨y, hy, rfl⟩ := Option.map_eq_some_iff.mp hx
    rw [size, ih hy, Formula.size]
  | binary id op l r ihl ihr =>
    rw [formula?] at hx
    split at hx
    · next y z hy hz =>
      cases hx
      rw [size, ihl hy, ihr hz, Formula.size]
    · cases hx

theorem complete_entries (hx : q.formula? = some x) (hr : x.Regular) (up : Option NodeId) :
    ∀ e ∈ q.entries up, e.2.Complete ∧ e.2.Flagged := by
  induction q generalizing up x with
  | missing => cases hx
  | leaf id f a =>
    cases hx
    rw [entries_leaf, List.forall_mem_singleton]
    refine ⟨.leaf a rfl rfl rfl, hr, fun hop => ?_⟩
    have hnone : (Node.ofAtom up f a).operator? = none := a.operator?_symbol
    rw [hnone] at hop
    cases hop
  | group id f p ih =>
    obtain ⟨y, hy, rfl⟩ := Option.map_eq_some_iff.mp hx
    obtain ⟨hf, hr⟩ := hr
    rw [entries_group, List.forall_mem_cons]
    have hplain : (Node.ofGroup up p.id? f).operator?.isSome = true → f = {} :=
      fun hop => absurd hop Bool.false_ne_true
    exact ⟨⟨.group rfl (isSome_id?_of_formula? hy) rfl, hf, hplain⟩, ih hy hr _⟩
  | binary id op l r ihl ihr =>
    rw [formula?] at hx
    split at hx
    · next y z hy hz =>
      cases hx
      obtain ⟨-, hop, hry, hrz⟩ := hr
      rw [entries_binary, List.forall_mem_cons, List.forall_mem_append]
      have hflags : (Node.ofOperator up l.id? r.id? op).Flagged :=
        ⟨fun h => Bool.false_ne_true h.1, fun _ => rfl⟩
      exact ⟨⟨.binary op rfl hop (isSome_id?_of_formula? hy) (isSome_id?_of_formula? hz), hflags⟩,
        ihl hy hry _, ihr hz hrz _⟩
    · cases hx

/-- the leaves are the atoms, from left to right -/
theorem leaves_outline (hx : q.formula? = some x) (up : Option NodeId) :
    (q.outline up).leaves.map Prod.snd = x.atoms.map Atom.symbol := by
  induction q generalizing up x with
  | missing => cases hx
  | leaf id f a =>
    cases hx
    cases a <;> rfl
  | group id f p ih =>
    obtain ⟨y, hy, rfl⟩ := Option.map_eq_some_iff.mp hx
    rw [outline, Outline.leaves, isEmpty_outline hy]
    show ((p.outline (some id)).leaves ++ []).map Prod.snd = _
    rw [List.append_nil, ih hy, Formula.atoms]
  | binary id op l r ihl ihr =>
    rw [formula?] at hx
    split at hx
    · next y z hy hz =>
      cases hx
      rw [outline, Outline.leaves, isEmpty_outline hy]
      show ((l.outline (some id)).leaves ++ (r.outline (some id)).leaves).map Prod.snd = _
      rw [List.map_append, ihl hy, ihr hz, Formula.atoms, List.map_append]
    · cases hx

end Part

/-! ## parents -/

namespace Outline

variable {o : Outline} {up : Option NodeId} {i : NodeId}

theorem ParentedBy.exists_entry (h : o.ParentedBy up) (hi : o.id? = some i) :
    ∃ n, (i, n) ∈ o.entries ∧ n.parent = up := by
  cases o with
  | empty => cases hi
  | node id n l r =>
    cases hi
    exact ⟨n, List.mem_cons_self .., h.1⟩

/-- the child of an entry names it -/
theorem ParentedBy.exists_child (h : o.ParentedBy up) (hl : o.Linked) {e : Entry}
    (he : e ∈ o.entries) {side : Side} (hi : e.2.child side = some i) :
    ∃ n, (i, n) ∈ o.entries ∧ n.parent = some e.1 := by
  induction o generalizing up with
  | empty => cases he
  | node id n l r ihl ihr =>
    obtain ⟨-, hpl, hpr⟩ := h
    obtain ⟨el, er, hll, hlr⟩ := hl
    have hleft : (∃ m, (i, m) ∈ l.entries ∧ m.parent = some e.1) →
        ∃ m, (i, m) ∈ (node id n l r).entries ∧ m.parent = some e.1 :=
      fun ⟨m, hm, hp⟩ => ⟨m, List.mem_cons_of_mem _ (List.mem_append_left _ hm), hp⟩
    have hright : (∃ m, (i, m) ∈ r.entries ∧ m.parent = some e.1) →
        ∃ m, (i, m) ∈ (node id n l r).entries ∧ m.parent = some e.1 :=
      fun ⟨m, hm, hp⟩ => ⟨m, List.mem_cons_of_mem _ (List.mem_append_right _ hm), hp⟩
    rcases List.mem_cons.mp he with rfl | he
    · cases side with
      | left => exact hleft (hpl.exists_entry (el.symm.trans hi))
      | right => exact hright (hpr.exists_entry (er.symm.trans hi))
    · rcases List.mem_append.mp he with he | he
      · exact hleft (ihl hpl hll he)
      · exact hright (ihr hpr hlr he)

end Outline

/-! ## the arena -/

/-- What the tokens of a text make of an arena. Place 0 is left to the group around the input. -/
structure Tree.BuiltFrom (t : Tree) (toks : List Token) : Prop where
  size : t.size = 1 + toks.countP Token.isTerm + toks.countP Token.opensGroup +
    toks.countP Token.isBinary
  root : (t.node t.root).parent = none
  reached : ∀ i, (∃ path, t.follow path (some t.root) = some i) ↔ 0 < i ∧ i < t.size
  once : ∀ i p q, t.follow p (some t.root) = some i → t.follow q (some t.root) = some i → p = q
  complete : ∀ i, 0 < i → i < t.size → (t.node i).Complete
  parents : ∀ i side child, 0 < i → i < t.size → (t.node i).child side = some child →
    (t.node child).parent = some i
  flags : ∀ i < t.size, (t.node i).Flagged
  leaves : t.leaves.map (fun i => (t.node i).symbol) =
    (toks.filter Token.isTerm).map (fun tok => (Symbol.ofTerm tok.text).toOption)

namespace Tree

namespace Encloses

variable {t : Tree} {q : Part} {i : NodeId}

theorem mem_toList_iff (h : t.Encloses q) (hsize : t.size = q.size + 1) :
    i ∈ (q.outline none).toList ↔ 0 < i ∧ i < t.size := by
  constructor
  · intro hi
    refine ⟨Nat.pos_of_ne_zero ?_, h.shows.spans.lt_size hi⟩
    rintro rfl
    rw [← Outline.map_entries] at hi
    exact (List.nodup_cons.mp h.holds.nodup).1 hi
  · rintro ⟨hpos, hlt⟩
    rcases h.exists_entry hsize hlt with rfl | ⟨e, he, rfl⟩
    · exact absurd hpos (Nat.lt_irrefl 0)
    · rw [← Outline.map_entries]
      exact List.mem_map_of_mem he

end Encloses

/-- the leaves below the root are the terms as they are read -/
theorem leaves_outline_eq {toks : List Token} {ps : List Piece} {x : Formula} {q : Part}
    (hps : pieces? toks = some ps) (hd : Derives 0 ps x) (hx : q.formula? = some x) :
    (q.outline none).leaves.map (fun e => .ok e.2) =
      (toks.filter Token.isTerm).map (fun tok => Symbol.ofTerm tok.text) := by
  have hok := congrArg (List.map (Except.ok (ε := ParseError))) (Part.leaves_outline hx none)
  rw [List.map_map, List.map_map, hd.atoms_eq] at hok
  exact hok.trans (map_ofTerm_of_pieces? hps).symm

theorem builtFrom_of_ofTokens {toks : List Token} {t : Tree} (h : ofTokens toks = .ok t) :
    t.BuiltFrom toks := by
  obtain ⟨ps, q, x, hps, hq, hsize, hx, hd⟩ := derives_of_ofTokens h
  have hspans := hq.shows.spans
  have hentry : ∀ i, 0 < i → i < t.size → ∃ e ∈ q.entries none, e.1 = i ∧ t.node i = e.2 := by
    intro i hpos hlt
    rcases hq.exists_entry hsize hlt with rfl | ⟨e, he, rfl⟩
    · exact absurd hpos (Nat.lt_irrefl 0)
    · exact ⟨e, he, rfl, hspans.holds.node e he⟩
  have hcomplete := Part.complete_entries hx hd.regular none
  have hparents := Part.parentedBy_outline none q
  refine ⟨?_, ?_, fun i => ?_, fun i p p' => hspans.follow_injective, fun i hpos hlt => ?_,
    fun i side child hpos hlt hchild => ?_, fun i hlt => ?_, ?_⟩
  · rw [hsize, Part.size_eq hx, hd.size_eq, countP_makesNode_of_pieces? hps]
    omega
  · obtain ⟨n, hn, hup⟩ := hparents.exists_entry hspans.root
    rw [hspans.holds.node _ hn]
    exact hup
  · exact hspans.exists_follow_iff.trans (hq.mem_toList_iff hsize)
  · obtain ⟨e, he, rfl, hn⟩ := hentry i hpos hlt
    rw [hn]
    exact (hcomplete e he).1
  · obtain ⟨e, he, rfl, hn⟩ := hentry i hpos hlt
    rw [hn] at hchild
    obtain ⟨m, hm, hup⟩ := hparents.exists_child hspans.linked he hchild
    rw [hspans.holds.node _ hm]
    exact hup
  · rcases Nat.eq_zero_or_pos i with rfl | hpos
    · rw [hq.holds.node (0, .ofGroup none q.id? {}) (List.mem_cons_self ..)]
      exact ⟨nofun, nofun⟩
    · obtain ⟨e, he, rfl, hn⟩ := hentry i hpos hlt
      rw [hn]
      exact (hcomplete e he).2
  · have hleaves := congrArg (List.map Prod.snd) hspans.leaves_eq
    have hterms := congrArg (List.map Except.toOption) (leaves_outline_eq hps hd hx)
    rw [List.map_map, List.map_map] at hleaves hterms
    exact hleaves.trans hterms

/-- **The shape of the tree of a text.** Terms, opening brackets and binary operators make one node
each, all of which hang together below the root, and the leaves are the terms in their order. -/
theorem exists_builtFrom {text : String} {t : Tree} (h : ofText text = .ok t) :
    ∃ toks : List Token, tokenize text = toks.map .ok ∧ t.BuiltFrom toks := by
  obtain ⟨toks, htoks, hof⟩ := ofText_eq_ok_iff.mp h
  exact ⟨toks, htoks, builtFrom_of_ofTokens hof⟩

theorem exists_builtFrom_nested : ∃ t, ofText "~[a-b*0x1f]" = .ok t ∧
    t.BuiltFrom [⟨.operator, "~", 0⟩, ⟨.bracket, "[", 1⟩, ⟨.term, "a", 2⟩, ⟨.operator, "-", 3⟩,
      ⟨.term, "b", 4⟩, ⟨.operator, "*", 5⟩, ⟨.term, "0x1f", 6⟩, ⟨.bracket, "]", 10⟩] ∧
    t.size = 7 := by
  generalize hlist : ([⟨.operator, "~", 0⟩, ⟨.bracket, "[", 1⟩, ⟨.term, "a", 2⟩,
    ⟨.operator, "-", 3⟩, ⟨.term, "b", 4⟩, ⟨.operator, "*", 5⟩, ⟨.term, "0x1f", 6⟩,
    ⟨.bracket, "]", 10⟩] : List Token) = toks
  have hread : tokenize "~[a-b*0x1f]" = toks.map .ok := by
    rw [← hlist]
    decide +kernel
  have hsome : (ofText "~[a-b*0x1f]").toOption.isSome = true := by decide +kernel
  obtain ⟨t, ht⟩ := Option.isSome_iff_exists.mp hsome
  obtain ⟨toks', htoks', hbuilt⟩ := exists_builtFrom (eq_ok_of_toOption ht)
  obtain rfl : toks = toks' :=
    List.map_injective_iff.mpr (fun _ _ => Except.ok.inj) (hread.symm.trans htoks')
  refine ⟨t, eq_ok_of_toOption ht, hbuilt, ?_⟩
  rw [hbuilt.size, ← hlist]
  decide +kernel

end Tree

end WordExpr

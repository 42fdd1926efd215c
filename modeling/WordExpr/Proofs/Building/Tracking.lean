import WordExpr.Proofs.Building.Finish
import WordExpr.Proofs.Grammar

/-!
# What a builder has taken

A builder that has refused nothing holds derivations of the tokens it has taken.

* `Read fs ps`       the frames `fs` stand for the pieces `ps`: what is held on the left of an
                     operator is a derivation of its level, and the levels rise from group to
                     cursor;
* `Tracks b ps`      the builder `b` after the pieces `ps`. A unary operator behind a complete
                     operand is taken, but then the builder is stuck: no way leads from there to a
                     tree;
* `Tracks.push`      one token, and `Tracks.pushAll` a whole input;
* `Tracks.finish`    a tree at the end of the input shows a derivation of all of it.
-/

namespace WordExpr

/-! ## frames and the pieces behind them -/

inductive Read : List Frame → List Piece → Prop where
  | start : Read [.group 0 {}] []
  | opening {fs : List Frame} {ps u : List Piece} {f : Flags} (id : NodeId) (h : Read fs ps)
    (hu : Sign u f) : Read (.group id f :: fs) (ps ++ (u ++ [.opening]))
  | operator {fs : List Frame} {ps qs : List Piece} {op : Operator} {l : Part} {x : Formula}
    (id : NodeId) (h : Read fs ps) (hop : op.isBinary) (hx : l.formula? = some x)
    (hl : Derives op.tier qs x) (hfs : ∀ f ∈ fs.head?, f.binds op = false) :
    Read (.operator id op l :: fs) (ps ++ (qs ++ [.operator op]))

/-- a frame with an operator of at least this level -/
def Frame.From (k : Nat) : Frame → Prop
  | group _ _ => False
  | operator _ op _ => k ≤ op.tier

theorem Frame.from_zero {f : Frame} (h : f.isGroup = false) : f.From 0 := by
  cases f with
  | group id fl => cases h
  | operator id op l => exact Nat.zero_le _

/-- a frame that binds less tightly than this level -/
def Frame.Below (k : Nat) : Frame → Prop
  | group _ _ => True
  | operator _ op _ => op.tier < k

theorem Frame.below_of_binds {op : Operator} {f : Frame} (h : f.binds op = false) :
    f.Below op.tier := by
  cases f with
  | group id fl => trivial
  | operator id o l =>
    have hlt : ¬ op.level ≤ o.level := by simpa [Frame.binds] using h
    exact Nat.lt_of_not_le (mt (op.tier_le_iff o).mp hlt)

theorem Frame.from_of_binds {op : Operator} {f : Frame} (h : f.binds op = true) :
    f.From op.tier := by
  cases f with
  | group id fl => cases h
  | operator id o l => exact (op.tier_le_iff o).mpr (by simpa [Frame.binds] using h)

/-- taking frames off: what they hold and the part below them are one derivation -/
theorem Read.reduce {gs fs : List Frame} {ps qs : List Piece} {p : Part} {x : Formula} {k m : Nat}
    (h : Read (gs ++ fs) ps) (hgs : ∀ g ∈ gs, g.From m) (hx : p.formula? = some x)
    (hd : Derives k qs x) (hm : m ≤ k) (hk : ∀ g ∈ gs.head?, g.Below k) :
    ∃ ps' qs' y, Read fs ps' ∧ ps ++ qs = ps' ++ qs' ∧ (plug p gs).formula? = some y ∧
      Derives m qs' y := by
  induction gs generalizing p x ps qs k with
  | nil => exact ⟨ps, qs, x, h, rfl, hx, hd.mono hm⟩
  | cons g gs ih =>
    have hg := hgs g (List.mem_cons_self ..)
    have hgk := hk g rfl
    cases g with
    | group id f => exact hg.elim
    | operator id op l =>
      cases h with
      | @operator _ ps0 ql _ _ y _ h hop hy hl hfs =>
        have hchain := Derives.chain hop hl (hd.mono hgk)
        obtain ⟨ps', qs', z, h1, h2, h3, h4⟩ := ih (p := .binary id op l p) h
          (fun g hg => hgs g (List.mem_cons_of_mem _ hg)) (by rw [Part.formula?, hy, hx]) hchain hg
          (fun g hg => Frame.below_of_binds (hfs g (by
            cases gs with
            | nil => cases hg
            | cons g' gs => exact hg)))
        exact ⟨ps', qs', z, h1, by rw [← h2]; simp, h3, h4⟩

theorem Read.forall_below {fs : List Frame} {ps : List Piece} (h : Read fs ps) :
    ∀ f ∈ fs, f.Below 6 := by
  induction h with
  | start => simp [Frame.Below]
  | opening id h hu ih => exact List.forall_mem_cons.mpr ⟨trivial, ih⟩
  | @operator fs ps qs op l x id h hop hx hl hfs ih =>
    exact List.forall_mem_cons.mpr ⟨op.tier_lt_iff.mpr hop, ih⟩

/-! ## builders and the pieces behind them -/

theorem Sign.eq_nil {u : List Piece} (h : Sign u {}) : u = [] := by
  cases h
  rfl

inductive Tracks (b : Builder) (ps : List Piece) : Prop where
  | waiting {fs : List Frame} {ps' u : List Piece} (h : Represents b fs .missing)
    (hs : (plug .missing fs).size = b.tree.size) (hr : Read fs ps') (hu : Sign u b.flags)
    (e : ps = ps' ++ u)
  | holding {fs : List Frame} {p : Part} {x : Formula} {ps' qs : List Piece}
    (h : Represents b fs p) (hs : (plug p fs).size = b.tree.size) (hr : Read fs ps')
    (hb : b.hasPending = false) (hx : p.formula? = some x) (hd : Derives 6 qs x)
    (e : ps = ps' ++ qs)
  | stuck {fs : List Frame} {p : Part} {i : NodeId} (h : Represents b fs p) (hp : p.id? = some i)
    (hb : b.hasPending = true)

namespace Tracks

variable {b b' : Builder} {ps : List Piece} {tok : Token}

theorem start : Tracks {} [] := .waiting .start rfl .start .plain rfl

theorem stop (h : Tracks b ps) (n : Nat) : Tracks { b with stop := n } ps := by
  cases h with
  | waiting h hs hr hu e => exact .waiting (h.stop n) hs hr hu e
  | holding h hs hr hb hx hd e => exact .holding (h.stop n) hs hr hb hx hd e
  | stuck h hp hb => exact .stuck (h.stop n) hp hb

theorem term (h : Tracks b ps) {a : Atom} (ha : Symbol.ofTerm tok.text = .ok a.symbol)
    (hb : b.term tok = (b', none)) : Tracks b' (ps ++ [.operand a]) := by
  cases h with
  | waiting h hs hr hu e =>
    obtain ⟨f, gs, rfl⟩ := h.exists_cons
    obtain ⟨b1, h1, hrep, hflags, hsize⟩ := h.term ha
    cases hb.symm.trans h1
    refine .holding hrep ?_ hr (Builder.hasPending_eq_false_iff.mpr hflags) rfl (.operand hu a)
      (by rw [e, List.append_assoc])
    rw [size_plug] at hs ⊢
    rw [hsize, ← hs, Nat.add_right_comm]
    rfl
  | holding h hs hr hp hx hd e =>
    obtain ⟨i, hi⟩ := Part.exists_id?_of_formula? hx
    obtain ⟨b1, h1, -⟩ := h.term_full hi ha
    cases hb.symm.trans h1
  | stuck h hp =>
    obtain ⟨b1, h1, -⟩ := h.term_full hp ha
    cases hb.symm.trans h1

theorem openGroup (h : Tracks b ps) (hb : b.openGroup tok = (b', none)) :
    Tracks b' (ps ++ [.opening]) := by
  cases h with
  | waiting h hs hr hu e =>
    obtain ⟨f, gs, rfl⟩ := h.exists_cons
    obtain ⟨b1, h1, hrep, hflags, hsize⟩ := h.openGroup tok
    cases hb.symm.trans h1
    refine .waiting hrep ?_ (.opening _ hr hu) (u := []) (hflags ▸ .plain) ?_
    · rw [size_plug] at hs ⊢
      rw [hsize, ← hs, List.map_cons, List.sum_cons, Frame.size]
      omega
    · rw [e, List.append_nil, List.append_assoc]
  | holding h hs hr hp hx hd e =>
    obtain ⟨i, hi⟩ := Part.exists_id?_of_formula? hx
    obtain ⟨b1, h1, -⟩ := h.openGroup_full hi tok
    cases hb.symm.trans h1
  | stuck h hp =>
    obtain ⟨b1, h1, -⟩ := h.openGroup_full hp tok
    cases hb.symm.trans h1

theorem unary (h : Tracks b ps) {op : Operator} (hop : op.isUnary = true)
    (hb : b.unary tok op = (b', none)) : Tracks b' (ps ++ [.operator op]) := by
  rw [Builder.unary] at hb
  split at hb
  · cases hb
  next hpend =>
  have hflags : b.flags = {} := Builder.hasPending_eq_false_iff.mp (by simpa using hpend)
  -- the builder with the flag of the operator, whatever it was before
  obtain ⟨f, hb', hf⟩ : ∃ f : Flags,
      b' = { b with minus := f.minus, complement := f.complement } ∧ Sign [.operator op] f := by
    obtain ⟨hm, hc⟩ : b.minus = false ∧ b.complement = false := by
      simpa [Builder.flags] using hflags
    split at hb
    · next heq =>
      cases hb
      exact ⟨{ minus := true }, by rw [hc], heq ▸ .minus⟩
    · next hne =>
      cases hb
      have heq : op = .bitNot := by revert hop hne; cases op <;> decide
      exact ⟨{ complement := true }, by rw [hm], heq ▸ .complement⟩
  subst hb'
  cases h with
  | waiting h hs hr hu e =>
    rw [hflags] at hu
    cases hu.eq_nil
    exact .waiting ⟨h.holds, h.current, h.depth, h.base, h.root⟩ hs hr hf
      (by rw [e, List.append_nil])
  | holding h hs hr hp hx hd e =>
    obtain ⟨i, hi⟩ := Part.exists_id?_of_formula? hx
    refine .stuck ⟨h.holds, h.current, h.depth, h.base, h.root⟩ hi ?_
    show (f.minus || f.complement) = true
    cases hf <;> rfl
  | stuck h hp hb => exact absurd hb hpend

theorem binary (h : Tracks b ps) {op : Operator} (hop : op.isBinary = true)
    (hb : b.binary tok op = (b', none)) : Tracks b' (ps ++ [.operator op]) := by
  cases h with
  | waiting h =>
    obtain ⟨why, -, he⟩ := h.binary_missing op tok
    cases hb.symm.trans he
  | holding h hs hr hp hx hd e =>
    obtain ⟨i, hi⟩ := Part.exists_id?_of_formula? hx
    obtain ⟨gs, f, fs, rfl, hgs, hf⟩ := h.exists_split (fun f => !f.binds op) rfl
    simp only [Bool.not_eq_eq_eq_not, Bool.not_false, Bool.not_true] at hgs hf
    obtain ⟨b1, h1, hrep, hflags, hsize⟩ := h.binary hi hp hgs hf tok
    cases hb.symm.trans h1
    obtain ⟨ps', qs', y, hr', heq, hy, hd'⟩ := hr.reduce
      (fun g hg => Frame.from_of_binds (hgs g hg)) hx hd
      (Nat.le_of_lt (op.tier_lt_iff.mpr hop))
      (fun g hg => hr.forall_below g (List.mem_append_left _ (List.mem_of_head? hg)))
    refine .waiting hrep ?_ (.operator _ hr' hop hy hd' (fun g hg => Option.some.inj hg ▸ hf))
      (u := []) ?_ ?_
    · rw [plug_append, size_plug] at hs
      rw [hsize, ← hs, size_plug, List.map_cons, List.sum_cons, Frame.size, Part.size]
      omega
    · rw [hflags, Builder.hasPending_eq_false_iff.mp hp]
      exact .plain
    · rw [e, heq]
      simp
  | stuck h hp hpend =>
    rw [Builder.binary, hpend] at hb
    cases hb

theorem closeGroup (h : Tracks b ps) (hb : b.closeGroup tok = (b', none)) :
    Tracks b' (ps ++ [.closing]) := by
  have hdepth : b.depth ≠ 0 := by
    intro h0
    rw [Builder.closeGroup, if_pos h0] at hb
    cases hb
  cases h with
  | waiting h =>
    obtain ⟨why, -, he⟩ := h.closeGroup_missing tok
    cases hb.symm.trans he
  | @holding fs p x _ _ h hs hr hp hx hd e =>
    obtain ⟨i, hi⟩ := Part.exists_id?_of_formula? hx
    obtain ⟨gs, f, fs, rfl, hgs, hf⟩ := h.exists_split Frame.isGroup rfl
    have hfs := h.ne_nil_of_depth hgs hf hdepth
    obtain ⟨b1, h1, hrep, hflags, hsize⟩ := h.closeGroup hi hgs hf hfs tok
    cases hb.symm.trans h1
    have hs' : (plug (f.fill (plug p gs)) fs).size = b'.tree.size := by
      rw [hsize, ← hs, plug_append]
      rfl
    obtain ⟨ps', qs', y, hr', heq, hy, hd'⟩ := hr.reduce (m := 0)
      (fun g hg => Frame.from_zero (hgs g hg)) hx hd (Nat.zero_le 6)
      (fun g hg => hr.forall_below g (List.mem_append_left _ (List.mem_of_head? hg)))
    cases hr' with
    | start => exact absurd rfl hfs
    | operator => cases hf
    | @opening _ ps0 u fl id hr' hu =>
      refine .holding hrep hs' hr' (Builder.hasPending_eq_false_iff.mpr (hflags.trans
        (Builder.hasPending_eq_false_iff.mp hp))) (x := .group fl y) ?_ (.brackets hu hd') ?_
      · show (plug _ gs).formula?.map _ = _
        rw [hy]
        rfl
      · rw [e, heq]
        simp
  | stuck h hp hpend =>
    obtain ⟨gs, f, fs, rfl, hgs, hf⟩ := h.exists_split Frame.isGroup rfl
    have hfs := h.ne_nil_of_depth hgs hf hdepth
    obtain ⟨b1, h1, hrep, hflags, -⟩ := h.closeGroup hp hgs hf hfs tok
    cases hb.symm.trans h1
    refine .stuck hrep (f.id?_fill _) ?_
    have hne : b.flags ≠ {} := fun h0 => by
      rw [Builder.hasPending_eq_false_iff.mpr h0] at hpend
      cases hpend
    rw [← hflags] at hne
    exact (Bool.not_eq_false _).mp (mt Builder.hasPending_eq_false_iff.mp hne)

theorem push (h : Tracks b ps) (hb : b.push tok = (b', none)) :
    (tok.kind = .whitespace ∧ Tracks b' ps) ∨
      (tok.kind ≠ .whitespace ∧ ∃ c, tok.piece? = some c ∧ Tracks b' (ps ++ [c])) := by
  have h := h.stop tok.stop
  rw [Builder.push, Builder.take] at hb
  unfold Token.piece?
  cases hk : tok.kind with
  | term =>
    rw [hk] at hb
    refine .inr ⟨by decide, ?_⟩
    cases hs : Symbol.ofTerm tok.text with
    | error e =>
      change Builder.term _ tok = _ at hb
      rw [Builder.term, hs] at hb
      cases hb
    | ok s =>
      obtain ⟨a, rfl⟩ := Symbol.exists_atom_of_ofTerm hs
      exact ⟨.operand a, by simp [a.atom?_symbol], h.term hs hb⟩
  | operator =>
    rw [hk] at hb
    refine .inr ⟨by decide, ?_⟩
    cases hop : Operator.ofChar? tok.firstChar with
    | none =>
      simp only [hop] at hb
      cases hb
    | some op =>
      simp only [hop] at hb
      refine ⟨.operator op, rfl, ?_⟩
      split at hb
      · next hu => exact h.unary hu hb
      · next hu => exact h.binary (by simpa [Operator.isBinary] using hu) hb
  | bracket =>
    rw [hk] at hb
    refine .inr ⟨by decide, ?_⟩
    cases ho : isOpening tok.firstChar with
    | true =>
      simp only [ho, if_true] at hb
      exact ⟨.opening, rfl, h.openGroup hb⟩
    | false =>
      simp only [ho] at hb
      exact ⟨.closing, rfl, h.closeGroup hb⟩
  | whitespace =>
    rw [hk] at hb
    cases hb
    exact .inl ⟨rfl, h⟩

theorem pushAll {toks : List Token} (h : Tracks b ps)
    (hb : b.pushAll (toks.map .ok) = .ok b') :
    ∃ qs, pieces? toks = some qs ∧ Tracks b' (ps ++ qs) := by
  induction toks generalizing b ps with
  | nil =>
    cases hb
    exact ⟨[], rfl, by rwa [List.append_nil]⟩
  | cons tok toks ih =>
    rw [List.map_cons, Builder.pushAll] at hb
    split at hb
    · next b1 hpush =>
      rcases h.push hpush with ⟨hk, h1⟩ | ⟨hk, c, hc, h1⟩
      · obtain ⟨qs, hqs, h2⟩ := ih h1 hb
        exact ⟨qs, by rw [pieces?, if_pos hk, hqs], h2⟩
      · obtain ⟨qs, hqs, h2⟩ := ih h1 hb
        exact ⟨c :: qs, by rw [pieces?, if_neg hk, hc, hqs], by simpa using h2⟩
    · cases hb

/-- a tree at the end of the input shows a derivation of all of it, and nothing else is in the
arena but the group at place 0 -/
theorem finish (h : Tracks b ps) {t : Tree} (ht : b.finish = .ok t) :
    ∃ q x, t.Encloses q ∧ t.size = q.size + 1 ∧ q.formula? = some x ∧ Derives 0 ps x := by
  cases h with
  | @waiting fs _ _ h =>
    obtain ⟨-, -, q, x, hq, hx⟩ := h.of_finish ht
    have hnone := formula?_plug_missing (q := .missing) rfl fs
    rw [hq, Part.formula?, hx] at hnone
    cases hnone
  | holding h hs hr hp hx hd e =>
    obtain ⟨hdepth, -, q, y, hq, hy⟩ := h.of_finish ht
    obtain ⟨t', ht', hshow, hsize⟩ := h.finish hdepth hp hq hy
    cases ht.symm.trans ht'
    obtain ⟨gs, f, fs, rfl, hgs, hf⟩ := h.exists_split Frame.isGroup rfl
    obtain rfl : fs = [] := by
      by_contra hfs
      exact h.depth_ne_zero hf hfs hdepth
    obtain ⟨ps', qs', z, hr', heq, hz, hd'⟩ := hr.reduce (m := 0)
      (fun g hg => Frame.from_zero (hgs g hg)) hx hd (Nat.zero_le 6)
      (fun g hg => hr.forall_below g (List.mem_append_left _ (List.mem_of_head? hg)))
    cases hr' with
    | start =>
      rw [plug_append] at hq
      cases hq
      rw [List.nil_append] at heq
      refine ⟨_, z, hshow, ?_, hz, by rwa [e, heq]⟩
      rw [hsize, ← hs, plug_append]
      rfl
    | opening id h => cases h
    | operator => cases hf
  | stuck h hp hb =>
    obtain ⟨-, hpend, -⟩ := h.of_finish ht
    rw [hb] at hpend
    cases hpend

end Tracks

end WordExpr

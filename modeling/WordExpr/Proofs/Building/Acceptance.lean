import WordExpr.Proofs.Building.Tracking

/-!
# What a builder accepts

`Tree.ofTokens` gives a tree exactly for the sentences, and that tree has the one formula that the
reference grammar derives (`Tree.ofTokens_ok_iff_sentence`).

`Derives.runs` follows a derivation: from a free place below a looser frame, no token is refused,
and at the end the builder holds the derived formula, cut at its last operators.
-/

namespace WordExpr

/-- the tree of a sequence of tokens, if none of them is refused -/
def Tree.ofTokens (toks : List Token) : Except ParseError Tree :=
  (Builder.pushAll {} (toks.map .ok)).bind Builder.finish

/-! ## sequences of tokens -/

theorem Builder.pushAll_append {b b' : Builder} {xs : List Item} (h : b.pushAll xs = .ok b')
    (ys : List Item) : b.pushAll (xs ++ ys) = b'.pushAll ys := by
  induction xs generalizing b with
  | nil =>
    cases h
    rfl
  | cons x xs ih =>
    cases x with
    | error e => cases h
    | ok tok =>
      rw [List.cons_append]
      simp only [Builder.pushAll] at h ⊢
      split at h
      · exact ih h
      · cases h

theorem pieces?_append {toks : List Token} {ps qs : List Piece}
    (h : pieces? toks = some (ps ++ qs)) :
    ∃ ts us, toks = ts ++ us ∧ pieces? ts = some ps ∧ pieces? us = some qs := by
  induction toks generalizing ps with
  | nil =>
    obtain ⟨rfl, rfl⟩ := List.append_eq_nil_iff.mp (Option.some.inj h).symm
    exact ⟨[], [], rfl, rfl, rfl⟩
  | cons t toks ih =>
    rw [pieces?] at h
    split at h
    · next hk =>
      obtain ⟨ts, us, rfl, h1, h2⟩ := ih h
      exact ⟨t :: ts, us, rfl, by rw [pieces?, if_pos hk, h1], h2⟩
    next hk =>
    cases ps with
    | nil => exact ⟨[], t :: toks, rfl, rfl, by rw [pieces?, if_neg hk]; exact h⟩
    | cons c ps =>
      split at h
      · next c' cs hc hcs =>
        cases h
        obtain ⟨ts, us, rfl, h1, h2⟩ := ih hcs
        exact ⟨t :: ts, us, rfl, by rw [pieces?, if_neg hk, hc, h1], h2⟩
      · cases h

/-- a property of builders that the place of the last token does not touch -/
def Builder.Steady (Q : Builder → Prop) : Prop := ∀ b n, Q b → Q { b with stop := n }

theorem Builder.pushAll_nil_pieces {Q : Builder → Prop} (hQ : Builder.Steady Q) {toks : List Token}
    (h : pieces? toks = some []) {b : Builder} (hb : Q b) :
    ∃ b', b.pushAll (toks.map .ok) = .ok b' ∧ Q b' := by
  induction toks generalizing b with
  | nil => exact ⟨b, rfl, hb⟩
  | cons t toks ih =>
    rw [pieces?] at h
    split at h
    · next hk =>
      obtain ⟨b', h1, h2⟩ := ih h (hQ b t.stop hb)
      refine ⟨b', ?_, h2⟩
      rw [List.map_cons, Builder.pushAll, Builder.push, Builder.take, hk]
      exact h1
    · split at h <;> cases h

/-- one piece with the whitespace around it -/
theorem Builder.pushAll_singleton {Q : Builder → Prop} (hQ : Builder.Steady Q) {toks : List Token}
    {c : Piece} (h : pieces? toks = some [c]) {b : Builder}
    (hb : ∀ tok, tok.piece? = some c → ∃ b', b.push tok = (b', none) ∧ Q b') :
    ∃ b', b.pushAll (toks.map .ok) = .ok b' ∧ Q b' := by
  induction toks generalizing b with
  | nil => cases h
  | cons t toks ih =>
    rw [pieces?] at h
    rw [List.map_cons, Builder.pushAll]
    split at h
    · next hk =>
      have hpush : b.push t = ({ b with stop := t.stop }, none) := by
        unfold Builder.push Builder.take
        rw [hk]
        rfl
      rw [hpush]
      -- a push puts its own place into `stop`, so the whitespace before it leaves no trace
      exact ih h hb
    · split at h
      · next c' cs hc hcs =>
        cases h
        obtain ⟨b', h1, h2⟩ := hb t hc
        rw [h1]
        exact Builder.pushAll_nil_pieces hQ hcs h2
      · cases h

/-! ## along a derivation -/

namespace Represents

variable {b : Builder} {f : Frame} {gs fs : List Frame} {p : Part} {tok : Token}

theorem push_operand (h : Represents b (f :: fs) .missing) {a : Atom}
    (hc : tok.piece? = some (.operand a)) :
    ∃ b', b.push tok = (b', none) ∧
      (∃ id, Represents b' (f :: fs) (.leaf id b.flags a)) ∧ b'.flags = {} := by
  obtain ⟨hk, hs⟩ := Token.piece?_eq_some_iff.mp hc
  obtain ⟨b', h1, h2, h3, -⟩ := (h.stop tok.stop).term hs
  refine ⟨b', ?_, ⟨_, h2⟩, h3⟩
  unfold Builder.push Builder.take
  rw [hk]
  exact h1

theorem push_opening (h : Represents b (f :: fs) .missing) (hc : tok.piece? = some .opening) :
    ∃ b', b.push tok = (b', none) ∧
      (∃ id, Represents b' (.group id b.flags :: f :: fs) .missing) ∧ b'.flags = {} := by
  obtain ⟨hk, ho⟩ := Token.piece?_eq_some_iff.mp hc
  obtain ⟨b', h1, h2, h3, -⟩ := (h.stop tok.stop).openGroup tok
  refine ⟨b', ?_, ⟨_, h2⟩, h3⟩
  simp only [Builder.push, Builder.take, hk, ho, if_true]
  exact h1

theorem push_closing (h : Represents b (gs ++ f :: fs) p) {x : Formula}
    (hp : p.formula? = some x)
    (hgs : ∀ g ∈ gs, g.isGroup = false) (hf : f.isGroup = true) (hfs : fs ≠ [])
    (hc : tok.piece? = some .closing) :
    ∃ b', b.push tok = (b', none) ∧ Represents b' fs (f.fill (plug p gs)) ∧
      b'.flags = b.flags := by
  obtain ⟨hk, ho⟩ := Token.piece?_eq_some_iff.mp hc
  obtain ⟨i, hi⟩ := Part.exists_id?_of_formula? hp
  obtain ⟨b', h1, h2, h3, -⟩ := (h.stop tok.stop).closeGroup hi hgs hf hfs tok
  refine ⟨b', ?_, h2, h3⟩
  simp only [Builder.push, Builder.take, hk, ho]
  exact h1

theorem push_binary (h : Represents b (gs ++ f :: fs) p) {x : Formula}
    (hp : p.formula? = some x) (hb : b.flags = {}) {op : Operator} (hop : op.isBinary = true)
    (hgs : ∀ g ∈ gs, g.binds op = true) (hf : f.binds op = false)
    (hc : tok.piece? = some (.operator op)) :
    ∃ b', b.push tok = (b', none) ∧
      (∃ id, Represents b' (.operator id op (plug p gs) :: f :: fs) .missing) ∧ b'.flags = {} := by
  obtain ⟨hk, ho⟩ := Token.piece?_eq_some_iff.mp hc
  obtain ⟨i, hi⟩ := Part.exists_id?_of_formula? hp
  obtain ⟨b', h1, h2, h3, -⟩ := (h.stop tok.stop).binary hi
    (Builder.hasPending_eq_false_iff.mpr hb) hgs hf tok
  refine ⟨b', ?_, ⟨_, h2⟩, h3.trans hb⟩
  have hu : op.isUnary = false := by simpa [Operator.isBinary] using hop
  simp only [Builder.push, Builder.take, hk, ho, hu]
  exact h1

theorem push_unary (h : Represents b fs p) (hb : b.flags = {}) {op : Operator} {f : Flags}
    (hu : Sign [.operator op] f) (hc : tok.piece? = some (.operator op)) :
    ∃ b', b.push tok = (b', none) ∧ Represents b' fs p ∧ b'.flags = f := by
  obtain ⟨hk, ho⟩ := Token.piece?_eq_some_iff.mp hc
  obtain ⟨hm, hn⟩ : b.minus = false ∧ b.complement = false := by simpa [Builder.flags] using hb
  refine ⟨{ b with stop := tok.stop, minus := f.minus, complement := f.complement }, ?_,
    ⟨h.holds, h.current, h.depth, h.base, h.root⟩, rfl⟩
  unfold Builder.push Builder.take
  rw [hk]
  cases hu with
  | minus => simp [ho, Operator.isUnary, Operator.level, Operator.code, Builder.unary,
      Builder.hasPending, hm, hn, Builder.done]
  | complement => simp [ho, Operator.isUnary, Operator.level, Operator.code, Builder.unary,
      Builder.hasPending, hm, hn, Builder.done]

theorem steady (fs : List Frame) (p : Part) (f : Flags) :
    Builder.Steady (fun b => Represents b fs p ∧ b.flags = f) :=
  fun _ n h => ⟨h.1.stop n, h.2⟩

theorem pushAll_sign (h : Represents b fs p) (hb : b.flags = {}) {u : List Piece} {f : Flags}
    (hu : Sign u f) {toks : List Token} (ht : pieces? toks = some u) :
    ∃ b', b.pushAll (toks.map .ok) = .ok b' ∧ Represents b' fs p ∧ b'.flags = f := by
  cases hu with
  | plain => exact Builder.pushAll_nil_pieces (steady fs p {}) ht ⟨h, hb⟩
  | minus =>
    exact Builder.pushAll_singleton (steady fs p _) ht (fun _ hc => h.push_unary hb .minus hc)
  | complement =>
    exact Builder.pushAll_singleton (steady fs p _) ht (fun _ hc => h.push_unary hb .complement hc)

end Represents

namespace Frame

theorem binds_of_from {op : Operator} {f : Frame} (h : f.From op.tier) : f.binds op = true := by
  cases f with
  | group id fl => exact h.elim
  | operator id o l => exact decide_eq_true ((op.tier_le_iff o).mp h)

theorem binds_of_below {op : Operator} {f : Frame} (h : f.Below op.tier) :
    f.binds op = false := by
  cases f with
  | group id fl => rfl
  | operator id o l =>
    exact decide_eq_false (mt (op.tier_le_iff o).mpr (Nat.not_le_of_lt h))

theorem isGroup_of_from {k : Nat} {f : Frame} (h : f.From k) : f.isGroup = false := by
  cases f with
  | group id fl => exact h.elim
  | operator id o l => rfl

theorem From.mono {j k : Nat} {f : Frame} (h : f.From k) (hj : j ≤ k) : f.From j := by
  cases f with
  | group id fl => exact h
  | operator id o l => exact Nat.le_trans hj h

theorem Below.mono {j k : Nat} {f : Frame} (h : f.Below j) (hj : j ≤ k) : f.Below k := by
  cases f with
  | group id fl => trivial
  | operator id o l => exact Nat.lt_of_lt_of_le h hj

end Frame

/-- The builder follows a derivation: from a free place below a looser frame it ends up with the
derived formula, cut at the operators that later tokens may still take over. -/
theorem Derives.runs {k : Nat} {ps : List Piece} {x : Formula} (h : Derives k ps x)
    {toks : List Token} (ht : pieces? toks = some ps) {b : Builder} {f : Frame} {fs : List Frame}
    (hrep : Represents b (f :: fs) .missing) (hb : b.flags = {}) (hf : f.Below k) :
    ∃ b' gs p, b.pushAll (toks.map .ok) = .ok b' ∧ Represents b' (gs ++ f :: fs) p ∧
      b'.flags = {} ∧ (∀ g ∈ gs, g.From k) ∧ (∃ y, p.formula? = some y) ∧
      (plug p gs).formula? = some x := by
  induction h generalizing toks b f fs with
  | @operand u fl hu a =>
    obtain ⟨ts, us, rfl, h1, h2⟩ := pieces?_append ht
    obtain ⟨b1, hb1, hrep1, hflags1⟩ := hrep.pushAll_sign hb hu h1
    have hQ : Builder.Steady fun b =>
        (∃ id, Represents b (f :: fs) (.leaf id fl a)) ∧ b.flags = {} :=
      fun _ n h => ⟨⟨_, h.1.choose_spec.stop n⟩, h.2⟩
    obtain ⟨b2, hb2, ⟨id, hrep2⟩, hflags2⟩ := Builder.pushAll_singleton hQ h2
      (fun _ hc => hflags1 ▸ hrep1.push_operand hc)
    refine ⟨b2, [], _, ?_, hrep2, hflags2, by simp, ⟨_, rfl⟩, rfl⟩
    rw [List.map_append, Builder.pushAll_append hb1, hb2]
  | @brackets u ps fl x hu hd ih =>
    obtain ⟨ts, us, rfl, h1, h2⟩ := pieces?_append ht
    rw [← List.singleton_append] at h2
    obtain ⟨os, vs, rfl, h3, h4⟩ := pieces?_append h2
    obtain ⟨is, cs, rfl, h5, h6⟩ := pieces?_append h4
    obtain ⟨b1, hb1, hrep1, hflags1⟩ := hrep.pushAll_sign hb hu h1
    have hQ : Builder.Steady fun b =>
        (∃ id, Represents b (.group id fl :: f :: fs) .missing) ∧ b.flags = {} :=
      fun _ n h => ⟨⟨_, h.1.choose_spec.stop n⟩, h.2⟩
    obtain ⟨b2, hb2, ⟨id, hrep2⟩, hflags2⟩ := Builder.pushAll_singleton hQ h3
      (fun _ hc => hflags1 ▸ hrep1.push_opening hc)
    obtain ⟨b3, gs, p, hb3, hrep3, hflags3, hgs, ⟨y, hy⟩, hx⟩ := ih h5 hrep2 hflags2 trivial
    obtain ⟨b4, hb4, hrep4, hflags4⟩ := Builder.pushAll_singleton
      (Represents.steady (f :: fs) (.group id fl (plug p gs)) {}) h6 (fun _ hc =>
        hflags3 ▸ hrep3.push_closing hy (fun g hg => Frame.isGroup_of_from (hgs g hg)) rfl
          (List.cons_ne_nil f fs) hc)
    have hformula : (Part.group id fl (plug p gs)).formula? = some (.group fl x) := by
      unfold Part.formula?
      rw [hx]
      rfl
    refine ⟨b4, [], _, ?_, hrep4, hflags4, by simp, ⟨_, hformula⟩, hformula⟩
    simp only [List.map_append, Builder.pushAll_append hb1, Builder.pushAll_append hb2,
      Builder.pushAll_append hb3, hb4]
  | tighter hd ih =>
    obtain ⟨b', gs, p, h1, h2, h3, h4, h5⟩ := ih ht hrep hb (hf.mono (Nat.le_succ _))
    exact ⟨b', gs, p, h1, h2, h3, fun g hg => (h4 g hg).mono (Nat.le_succ _), h5⟩
  | @chain ps qs op x y hop hl hr ihl ihr =>
    obtain ⟨ts, us, rfl, h1, h2⟩ := pieces?_append ht
    rw [← List.singleton_append] at h2
    obtain ⟨os, vs, rfl, h3, h4⟩ := pieces?_append h2
    obtain ⟨b1, gs, p, hb1, hrep1, hflags1, hgs, ⟨z, hz⟩, hx⟩ := ihl h1 hrep hb hf
    have hQ : Builder.Steady fun b =>
        (∃ id, Represents b (.operator id op (plug p gs) :: f :: fs) .missing) ∧ b.flags = {} :=
      fun _ n h => ⟨⟨_, h.1.choose_spec.stop n⟩, h.2⟩
    obtain ⟨b2, hb2, ⟨id, hrep2⟩, hflags2⟩ := Builder.pushAll_singleton hQ h3
      (fun _ hc => hrep1.push_binary hz hflags1 hop (fun g hg => Frame.binds_of_from (hgs g hg))
        (Frame.binds_of_below hf) hc)
    obtain ⟨b3, gs', q, hb3, hrep3, hflags3, hgs', hq, hy⟩ :=
      ihr h4 hrep2 hflags2 (Nat.lt_succ_self op.tier)
    refine ⟨b3, gs' ++ [.operator id op (plug p gs)], q, ?_, ?_, hflags3, ?_, hq, ?_⟩
    · simp only [List.map_append, Builder.pushAll_append hb1, Builder.pushAll_append hb2, hb3]
    · rwa [List.append_assoc]
    · intro g hg
      rcases List.mem_append.mp hg with hg | hg
      · exact (hgs' g hg).mono (Nat.le_succ _)
      · rw [List.mem_singleton.mp hg]
        exact Nat.le_refl op.tier
    · rw [plug_append]
      show (Part.binary id op (plug p gs) (plug q gs')).formula? = _
      unfold Part.formula?
      rw [hx, hy]

/-! ## accepted inputs -/

namespace Tree

theorem exists_ofTokens {toks : List Token} {ps : List Piece} (ht : pieces? toks = some ps)
    {x : Formula} (h : Derives 0 ps x) :
    ∃ t, ofTokens toks = .ok t ∧ t.formula? = some x := by
  obtain ⟨b, gs, p, hb, hrep, hflags, hgs, -, hx⟩ := h.runs ht .start rfl trivial
  have hq : plug p (gs ++ [.group 0 {}]) = .group 0 {} (plug p gs) := plug_append ..
  have hdepth : b.depth = 0 := by
    have hcount := hrep.depth
    rw [List.countP_append, List.countP_eq_zero.mpr (fun g hg => by
      rw [Frame.isGroup_of_from (hgs g hg)]
      exact Bool.false_ne_true)] at hcount
    exact (Nat.succ.inj ((Nat.zero_add _).symm.trans hcount)).symm
  obtain ⟨t, hfin, hshow, -⟩ :=
    hrep.finish hdepth (Builder.hasPending_eq_false_iff.mpr hflags) hq hx
  refine ⟨t, ?_, hshow.shows.formula?_eq.trans hx⟩
  unfold ofTokens
  rw [hb]
  exact hfin

theorem derives_of_ofTokens {toks : List Token} {t : Tree} (h : ofTokens toks = .ok t) :
    ∃ ps q x, pieces? toks = some ps ∧ t.Encloses q ∧ t.size = q.size + 1 ∧
      q.formula? = some x ∧ Derives 0 ps x := by
  cases hb : Builder.pushAll {} (toks.map .ok) with
  | error e =>
    rw [ofTokens, hb] at h
    cases h
  | ok b =>
    rw [ofTokens, hb] at h
    obtain ⟨ps, hps, htracks⟩ := Tracks.start.pushAll hb
    obtain ⟨q, x, hshow, hsize, hx, hd⟩ := htracks.finish h
    exact ⟨ps, q, x, hps, hshow, hsize, hx, hd⟩

/-- A builder accepts exactly the sentences, and its tree has the formula of the reference grammar,
which is the only one that this grammar gives to the sentence. -/
theorem ofTokens_ok_iff_sentence (toks : List Token) :
    ((∃ t, ofTokens toks = .ok t) ↔ ∃ ps, pieces? toks = some ps ∧ Sentence ps) ∧
      ∀ t, ofTokens toks = .ok t →
        ∃ ps x, pieces? toks = some ps ∧ t.formula? = some x ∧ ∀ y, Derives 0 ps y ↔ y = x := by
  constructor
  · constructor
    · rintro ⟨t, ht⟩
      obtain ⟨ps, q, x, hps, -, -, -, hd⟩ := derives_of_ofTokens ht
      exact ⟨ps, hps, hd.sentence⟩
    · rintro ⟨ps, hps, hs⟩
      obtain ⟨x, hx⟩ := hs.exists_derives
      obtain ⟨t, ht, -⟩ := exists_ofTokens hps hx
      exact ⟨t, ht⟩
  · intro t ht
    obtain ⟨ps, q, x, hps, hshow, -, hx, hd⟩ := derives_of_ofTokens ht
    have htx : t.formula? = some x := hshow.shows.formula?_eq.trans hx
    refine ⟨ps, x, hps, htx, fun y => ⟨fun hy => ?_, fun hy => hy ▸ hd⟩⟩
    -- any other derivation would make the builder end with its own formula
    obtain ⟨t', ht', hty⟩ := exists_ofTokens hps hy
    cases ht.symm.trans ht'
    exact Option.some.inj (hty.symm.trans htx)

theorem ofTokens_mixed_brackets :
    ∃ t, ofTokens [⟨.term, "a", 0⟩, ⟨.whitespace, " ", 1⟩, ⟨.operator, "*", 2⟩,
        ⟨.operator, "~", 3⟩, ⟨.bracket, "[", 4⟩, ⟨.term, "0x1f", 5⟩, ⟨.operator, "-", 9⟩,
        ⟨.term, "b", 10⟩, ⟨.bracket, ")", 11⟩] = .ok t ∧
      t.formula? = some (.binary {} .mul (.leaf {} (.name "a"))
        (.group { complement := true }
          (.binary {} .sub (.leaf {} (.constant 31)) (.leaf {} (.name "b"))))) := by
  have hd : Derives 0 [.operand (.name "a"), .operator .mul, .operator .bitNot, .opening,
      .operand (.constant 31), .operator .sub, .operand (.name "b"), .closing]
      (.binary {} .mul (.leaf {} (.name "a")) (.group { complement := true }
        (.binary {} .sub (.leaf {} (.constant 31)) (.leaf {} (.name "b"))))) :=
    (@Derives.chain _ _ .mul _ _ rfl (.tighter (.operand .plain _))
      (.brackets .complement ((@Derives.chain _ _ .sub _ _ rfl
        (.tighter (.tighter (.operand .plain _))) (.tighter (.operand .plain _))).mono
          (Nat.zero_le 4)))).mono (Nat.zero_le 5)
  obtain ⟨hiff, hformula⟩ := ofTokens_ok_iff_sentence [⟨.term, "a", 0⟩, ⟨.whitespace, " ", 1⟩,
    ⟨.operator, "*", 2⟩, ⟨.operator, "~", 3⟩, ⟨.bracket, "[", 4⟩, ⟨.term, "0x1f", 5⟩,
    ⟨.operator, "-", 9⟩, ⟨.term, "b", 10⟩, ⟨.bracket, ")", 11⟩]
  obtain ⟨t, ht⟩ := hiff.mpr ⟨_, rfl, hd.sentence⟩
  obtain ⟨ps, x, hps, hx, huniq⟩ := hformula t ht
  refine ⟨t, ht, ?_⟩
  cases hps
  rw [hx, (huniq _).mp hd]

end Tree

end WordExpr

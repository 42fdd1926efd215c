import WordExpr.Proofs.Evaluation.Reading
import WordExpr.Proofs.Spelling.Rendering

/-!
# What the rendering of any tree says

A tree need not have the brackets that its text needs, and its nodes may have flags that the grammar
has no place for. `Formula.rendered` is the formula that the rendering says instead: one more group
around an operator where it needs brackets or has a flag, and one more around the negation where
both flags stand together. It has the atoms, the value and the zero divisors of the formula that is
rendered, and the grammar derives it from the pieces that are written (`Tree.Reads.exists_derives`).
-/

namespace WordExpr

open Text

/-- of two flags, the complement stands on a group of its own around the negation -/
def Flags.rendered (f : Flags) (mk : Flags → Formula) : Formula :=
  if f.minus && f.complement then .group { complement := true } (mk { minus := true }) else mk f

/-- what the rendering of a formula at a place is read as -/
def Formula.rendered (place : Place) : Formula → Formula
  | leaf f a => f.rendered (.leaf · a)
  | group f x => f.rendered (.group · (x.rendered none))
  | binary f op x y =>
    let body := .binary {} op (x.rendered (some (op, false))) (y.rendered (some (op, true)))
    if f = {} ∧ bracketed op place = false then body else f.rendered (.group · body)

/-! ## nothing else changes -/

section Meaning

variable {f : Flags} {mk : Flags → Formula} {r : Registry} {n : Nat} {P : Atom → Prop}

theorem Flags.value_rendered {v : BitVec n} (h : ∀ f, (mk f).value r n = f.act v) :
    (f.rendered mk).value r n = f.act v := by
  unfold rendered
  split
  · next hf =>
    obtain ⟨m, c⟩ := f
    obtain ⟨rfl, rfl⟩ : m = true ∧ c = true := Bool.and_eq_true_iff.mp hf
    rw [Formula.value, h]
    rfl
  · exact h f

theorem Flags.dividesByZero_rendered {b : Bool} (h : ∀ f, (mk f).dividesByZero r n = b) :
    (f.rendered mk).dividesByZero r n = b := by
  unfold rendered
  split
  · exact h _
  · exact h f

theorem Flags.every_rendered {p : Prop} (h : ∀ f, (mk f).Every P ↔ p) :
    (f.rendered mk).Every P ↔ p := by
  unfold rendered
  split
  · exact h _
  · exact h f

namespace Formula

theorem value_rendered (x : Formula) (place : Place) :
    (x.rendered place).value r n = x.value r n := by
  induction x generalizing place with
  | leaf f a => exact Flags.value_rendered (fun _ => rfl)
  | group f x ih => exact Flags.value_rendered (fun _ => by rw [value, ih])
  | binary f op x y ihx ihy =>
    unfold rendered
    split
    · next hf => rw [hf.1, value, ihx, ihy, value]
    · refine Flags.value_rendered (fun _ => ?_)
      rw [value, value, ihx, ihy]
      rfl

theorem dividesByZero_rendered (x : Formula) (place : Place) :
    (x.rendered place).dividesByZero r n = x.dividesByZero r n := by
  induction x generalizing place with
  | leaf f a => exact Flags.dividesByZero_rendered (fun _ => rfl)
  | group f x ih => exact Flags.dividesByZero_rendered (fun _ => ih none)
  | binary f op x y ihx ihy =>
    have hbody : (binary {} op (x.rendered (some (op, false)))
        (y.rendered (some (op, true)))).dividesByZero r n =
          (binary f op x y).dividesByZero r n := by
      rw [dividesByZero, ihx, ihy, value_rendered, dividesByZero]
    unfold rendered
    split
    · exact hbody
    · exact Flags.dividesByZero_rendered (fun _ => hbody)

theorem every_rendered {x : Formula} {place : Place} : (x.rendered place).Every P ↔ x.Every P := by
  induction x generalizing place with
  | leaf f a => exact Flags.every_rendered (fun _ => Iff.rfl)
  | group f x ih => exact Flags.every_rendered (fun _ => ih)
  | binary f op x y ihx ihy =>
    unfold rendered
    split
    · exact and_congr ihx ihy
    · exact Flags.every_rendered (fun _ => and_congr ihx ihy)

end Formula

end Meaning

/-! ## flags and brackets -/

theorem inBrackets_spell (σ : Atom → List Char) (ps : List Piece) :
    inBrackets (spell σ ps) = spell σ (.opening :: (ps ++ [.closing])) := by
  rw [spell_cons, spell_append, spell_singleton]
  rfl

/-- a text that the grammar can put a sign before, with the flags of a node -/
theorem exists_derives_withFlags {core : List Piece} {mk : Flags → Formula}
    (h : ∀ {u f}, Sign u f → Derives 6 (u ++ core) (mk f)) (n : Node) :
    ∃ ps, Derives 6 ps (n.flags.rendered mk) ∧
      ∀ σ, withFlags n (spell σ core) (spell σ core) = spell σ ps := by
  have hone {u : List Piece} {f : Flags} (hu : Sign u f) (hn : n.flags = f) :
      ∀ σ, withFlags n (spell σ core) (spell σ core) = spell σ (u ++ core) :=
    fun σ => (hu.withFlags_eq hn _).trans (spell_append ..).symm
  cases hm : n.minus with
  | false =>
    cases hc : n.complement with
    | false =>
      have hn : n.flags = {} := by rw [Node.flags, hm, hc]
      exact ⟨_, hn ▸ h .plain, hone .plain hn⟩
    | true =>
      have hn : n.flags = { complement := true } := by rw [Node.flags, hm, hc]
      exact ⟨_, hn ▸ h .complement, hone .complement hn⟩
  | true =>
    cases hc : n.complement with
    | false =>
      have hn : n.flags = { minus := true } := by rw [Node.flags, hm, hc]
      exact ⟨_, hn ▸ h .minus, hone .minus hn⟩
    | true =>
      have hn : n.flags = ⟨true, true⟩ := by rw [Node.flags, hm, hc]
      have hd := Derives.brackets .complement ((h .minus).mono (Nat.zero_le 6))
      rw [hn]
      refine ⟨_, hd, fun σ => ?_⟩
      rw [spell_append, ← inBrackets_spell, spell_append, withFlags, hm, hc]
      rfl

theorem withFlags_of_flags_ne {n : Node} (h : n.flags ≠ {}) (plain operand : List Char) :
    withFlags n plain operand = withFlags n operand operand := by
  unfold withFlags
  split
  · next hm hc => exact absurd (by rw [Node.flags, hm, hc]) h
  · rfl
  · rfl
  · rfl

/-- the text of an operation, with the flags of its node and the brackets that its place asks for -/
theorem exists_derives_operator {op : Operator} {body : List Piece} {z : Formula}
    (h : Derives op.tier body z) (n : Node) {place : Place} (hp : place.Fits 6) :
    ∃ k ps, place.Fits k ∧
      Derives k ps (if n.flags = {} ∧ bracketed op place = false then z
        else n.flags.rendered (.group · z)) ∧
      ∀ σ, withFlags n (if bracketed op place then inBrackets (spell σ body) else spell σ body)
        (inBrackets (spell σ body)) = spell σ ps := by
  split
  · next hbare =>
    -- bare, the operator fits the place by its own level
    refine ⟨op.tier, body, bracketed_eq_false_iff.mp hbare.2, h, fun σ => ?_⟩
    rw [withFlags_of_flags_eq hbare.1, hbare.2, if_neg Bool.false_ne_true]
  · next hbare =>
    obtain ⟨ps, hd, hps⟩ := exists_derives_withFlags
      (fun hu => .brackets hu (h.mono (Nat.zero_le _))) n
    refine ⟨6, ps, hp, hd, fun σ => ?_⟩
    rw [← hps, ← inBrackets_spell]
    -- without flags it is the place that asks for brackets; with one they stand anyway
    by_cases hf : n.flags = {}
    · have hb : bracketed op place = true := by
        rw [← Bool.not_eq_false]
        exact fun hb => hbare ⟨hf, hb⟩
      rw [hb, if_pos rfl]
    · exact withFlags_of_flags_ne hf ..

/-! ## along a reading -/

/-- every operator is a binary one -/
def Formula.Binary : Formula → Prop
  | leaf _ _ => True
  | group _ x => x.Binary
  | binary _ op x y => op.isBinary = true ∧ x.Binary ∧ y.Binary

namespace Tree.Reads

variable {t : Tree} {id : NodeId} {x : Formula}

theorem binary_of_sound {r : Registry} (h : t.Reads id x)
    (hs : ∀ j, t.Reaches id j → (t.node j).Sound r) : x.Binary := by
  induction h with
  | leaf => trivial
  | group _ hl h ih => exact ih (fun j hj => hs j (.head (child_left hl) hj))
  | @binary id c d op x y hsym hl hr h h' ih ih' =>
    refine ⟨?_, ih (fun j hj => hs j (.head (child_left hl) hj)),
      ih' (fun j hj => hs j (.head (child_right hsym hr) hj))⟩
    cases hs id .refl with
    | leaf _ hl' => cases hl.symm.trans hl'
    | group hsym' => cases hsym.symm.trans hsym'
    | binary hsym' hop =>
      cases hsym.symm.trans hsym'
      exact hop

/-- The rendering of an arena that reads as a formula spells out a derivation: one that fits the
place where it stands. -/
theorem exists_derives (h : t.Reads id x) (hx : x.Binary) {fuel : Nat} (hfuel : x.height < fuel)
    {place : Place} (hp : place.Fits 6) : ∃ k ps, place.Fits k ∧ Derives k ps (x.rendered place) ∧
      ∀ names, (t.outlineFrom fuel (some id)).render names place =
        spell (Atom.text names) ps := by
  induction h generalizing fuel place with
  | @leaf id a hs hl hr =>
    obtain ⟨fuel, rfl⟩ := Nat.exists_eq_add_one_of_ne_zero (Nat.ne_zero_of_lt hfuel)
    obtain ⟨ps, hd, hps⟩ := exists_derives_withFlags (fun hu => .operand hu a) (t.node id)
    refine ⟨6, ps, hp, hd, fun names => ?_⟩
    rw [outlineFrom, Outline.render_leaf hs, ← hps, spell_singleton]
    rfl
  | @group id c x hs hl h ih =>
    obtain ⟨fuel, rfl⟩ := Nat.exists_eq_add_one_of_ne_zero (Nat.ne_zero_of_lt hfuel)
    obtain ⟨k, qs, -, hq, hqs⟩ :=
      ih hx (Nat.lt_of_succ_lt_succ hfuel) (show Place.Fits 6 none from trivial)
    obtain ⟨ps, hd, hps⟩ := exists_derives_withFlags
      (fun hu => .brackets hu (hq.mono (Nat.zero_le k))) (t.node id)
    refine ⟨6, ps, hp, hd, fun names => ?_⟩
    rw [outlineFrom, hl, Outline.render, hs, ← hps, ← inBrackets_spell, ← hqs]
  | @binary id c d op x y hs hl hr h h' ih ih' =>
    obtain ⟨fuel, rfl⟩ := Nat.exists_eq_add_one_of_ne_zero (Nat.ne_zero_of_lt hfuel)
    obtain ⟨hop, hx, hy⟩ := hx
    have hmax : max x.height y.height < fuel := Nat.lt_of_succ_lt_succ hfuel
    have htier : op.tier < 6 := op.tier_lt_iff.mpr hop
    obtain ⟨j, ls, hj, hdl, hls⟩ := ih hx (Nat.lt_of_le_of_lt (Nat.le_max_left ..) hmax)
      (show Place.Fits 6 (some (op, false)) from Nat.le_of_lt htier)
    obtain ⟨j', rs, hj', hdr, hrs⟩ := ih' hy (Nat.lt_of_le_of_lt (Nat.le_max_right ..) hmax)
      (show Place.Fits 6 (some (op, true)) from htier)
    have hbody := Derives.chain hop (hdl.mono hj) (hdr.mono hj')
    have hspell (names : VarId → Option String) :
        (t.outlineFrom fuel (some c)).render names (some (op, false)) ++
          op.char :: (t.outlineFrom fuel (some d)).render names (some (op, true)) =
            spell (Atom.text names) (ls ++ .operator op :: rs) := by
      rw [hls, hrs, spell_append, spell_cons]
      rfl
    obtain ⟨k, ps, hfit, hd, hps⟩ := exists_derives_operator hbody (t.node id) hp
    refine ⟨k, ps, hfit, hd, fun names => ?_⟩
    rw [outlineFrom, hl, hr, Outline.render, hs, ← hps, ← hspell]

end Tree.Reads

end WordExpr

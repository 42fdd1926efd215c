import WordExpr.Proofs.Relabel
import WordExpr.Proofs.Spelling.Text
import WordExpr.Tree.Render

/-!
# Rendering a derived formula

The rendering of a formula that the reference grammar derives writes the pieces that it was derived
from, one after the other: no brackets are added and none are lost (`Derives.render_eq`).
-/

namespace WordExpr

open Text

/-- how a rendering writes an operand -/
def Atom.text (names : VarId → Option String) : Atom → List Char
  | .name text => text.toList
  | .constant v => decimal v.toNat
  | .variable id => Outline.variableName names id

/-! ## what an outline with a formula looks like -/

namespace Outline

variable {o : Outline} {f : Flags} {x y : Formula}

theorem of_formula?_leaf {a : Atom} (h : o.formula? = some (.leaf f a)) :
    ∃ id n, o = .node id n .empty .empty ∧ n.symbol = some a.symbol ∧ n.flags = f := by
  cases o with
  | empty => cases h
  | node id n l r =>
    rw [formula?] at h
    split at h
    · split at h
      · obtain ⟨y, -, hy⟩ := Option.map_eq_some_iff.mp h
        cases hy
      · cases h
    · split at h <;> cases h
    · next s hs =>
      split at h
      · next he =>
        obtain ⟨b, hb, hba⟩ := Option.map_eq_some_iff.mp h
        cases hba
        rw [Bool.and_eq_true] at he
        have hsym : a.symbol = _ := Symbol.symbol_of_atom? hb
        cases l with
        | node => exact absurd he.1 Bool.false_ne_true
        | empty =>
          cases r with
          | node => exact absurd he.2 Bool.false_ne_true
          | empty => exact ⟨id, n, rfl, by rw [hs, hsym], rfl⟩
      · cases h

theorem of_formula?_group (h : o.formula? = some (.group f x)) :
    ∃ id n l r, o = .node id n l r ∧ n.symbol = none ∧ n.flags = f ∧ l.formula? = some x := by
  cases o with
  | empty => cases h
  | node id n l r =>
    rw [formula?] at h
    split at h
    · next hs =>
      split at h
      · obtain ⟨y, hy, he⟩ := Option.map_eq_some_iff.mp h
        cases he
        exact ⟨id, n, l, r, rfl, hs, rfl, hy⟩
      · cases h
    · split at h <;> cases h
    · split at h
      · obtain ⟨b, -, hb⟩ := Option.map_eq_some_iff.mp h
        cases hb
      · cases h

theorem of_formula?_binary {op : Operator} (h : o.formula? = some (.binary f op x y)) :
    ∃ id n l r, o = .node id n l r ∧ n.symbol = some (.operator op) ∧ n.flags = f ∧
      l.formula? = some x ∧ r.formula? = some y := by
  cases o with
  | empty => cases h
  | node id n l r =>
    rw [formula?] at h
    split at h
    · split at h
      · obtain ⟨y, -, hy⟩ := Option.map_eq_some_iff.mp h
        cases hy
      · cases h
    · next op' hs =>
      split at h
      · next a b ha hb =>
        cases h
        exact ⟨id, n, l, r, rfl, hs, rfl, ha, hb⟩
      · cases h
    · split at h
      · obtain ⟨b, -, hb⟩ := Option.map_eq_some_iff.mp h
        cases hb
      · cases h

end Outline

/-! ## places -/

/-- a place where operators of this level and above need no brackets -/
def Place.Fits (k : Nat) : Place → Prop
  | none => True
  | some (above, onRight) => above.tier + (if onRight then 1 else 0) ≤ k

theorem Place.Fits.mono {j k : Nat} {place : Place} (h : place.Fits j) (hj : j ≤ k) :
    place.Fits k := by
  cases place with
  | none => trivial
  | some p => exact Nat.le_trans h hj

/-- brackets stand exactly where an operator does not fit -/
theorem bracketed_eq_false_iff {op : Operator} {place : Place} :
    bracketed op place = false ↔ place.Fits op.tier := by
  cases place with
  | none => exact iff_of_true rfl trivial
  | some p =>
    obtain ⟨above, onRight⟩ := p
    have hle : above.tier ≤ op.tier ↔ above.level ≤ op.level := above.tier_le_iff op
    have hle' : op.tier ≤ above.tier ↔ op.level ≤ above.level := op.tier_le_iff above
    rw [bracketed, Operator.compareBinding]
    show _ ↔ above.tier + (if onRight then 1 else 0) ≤ op.tier
    cases hcmp : compare op.level above.level with
    | lt =>
      have hlt := Nat.compare_eq_lt.mp hcmp
      exact iff_of_false Bool.noConfusion (by omega)
    | eq =>
      have heq := Nat.compare_eq_eq.mp hcmp
      cases onRight with
      | false => exact iff_of_true rfl (hle.mpr (Nat.le_of_eq heq.symm))
      | true => exact iff_of_false Bool.noConfusion (Nat.not_lt_of_le (hle'.mpr (Nat.le_of_eq heq)))
    | gt =>
      have hgt := Nat.compare_eq_gt.mp hcmp
      refine iff_of_true rfl ?_
      split <;> omega

/-! ## along a derivation -/

variable {names : VarId → Option String} {σ : Atom → List Char}

/-- one flag, or none, is its sign in front -/
theorem Sign.withFlags_eq {u : List Piece} {f : Flags} (h : Sign u f) {n : Node}
    (hn : n.flags = f) (body : List Char) : withFlags n body body = spell σ u ++ body := by
  have hm : n.minus = f.minus := by rw [← hn]; rfl
  have hc : n.complement = f.complement := by rw [← hn]; rfl
  unfold withFlags
  rw [hm, hc]
  cases h with
  | plain => rfl
  | minus => rfl
  | complement => rfl

theorem withFlags_of_flags_eq {n : Node} (h : n.flags = {}) (plain operand : List Char) :
    withFlags n plain operand = plain := by
  have hm : n.minus = false := congrArg Flags.minus h
  have hc : n.complement = false := congrArg Flags.complement h
  rw [withFlags, hm, hc]

theorem Outline.render_leaf {id : NodeId} {n : Node} {a : Atom} {l r : Outline}
    (hs : n.symbol = some a.symbol) (place : Place) :
    (Outline.node id n l r).render names place =
      withFlags n (a.text names) (a.text names) := by
  unfold render
  rw [hs]
  cases a <;> rfl

theorem Derives.render_eq {k : Nat} {ps : List Piece} {x : Formula} (h : Derives k ps x)
    {g : Atom → Atom} {o : Outline} (ho : o.formula? = some (x.relabel g)) {place : Place}
    (hp : place.Fits k) : o.render names place = spell (fun a => (g a).text names) ps := by
  induction h generalizing o place with
  | @operand u f hu a =>
    obtain ⟨id, n, rfl, hs, hf⟩ := Outline.of_formula?_leaf ho
    rw [Outline.render_leaf hs, hu.withFlags_eq hf, spell_append, spell_singleton]
    rfl
  | @brackets u ps f x hu h ih =>
    obtain ⟨id, n, l, r, rfl, hs, hf, hl⟩ := Outline.of_formula?_group ho
    have hinner : l.render names none = _ := ih hl trivial
    unfold Outline.render
    rw [hs]
    show withFlags n (inBrackets (l.render names none)) (inBrackets (l.render names none)) = _
    rw [hinner, hu.withFlags_eq hf, ← List.append_nil (spell _ (u ++ _)), spell_brackets]
    rfl
  | tighter h ih => exact ih ho (hp.mono (Nat.le_succ _))
  | @chain ps qs op x y hop hl' hr' ihl ihr =>
    obtain ⟨id, n, l, r, rfl, hs, hf, hl, hr⟩ := Outline.of_formula?_binary ho
    have hleft : l.render names (some (op, false)) = _ := ihl hl (Nat.le_refl _)
    have hright : r.render names (some (op, true)) = _ := ihr hr (Nat.le_refl _)
    unfold Outline.render
    rw [hs]
    show withFlags n (if bracketed op place then inBrackets _ else
      l.render names (some (op, false)) ++ op.char :: r.render names (some (op, true))) _ = _
    rw [withFlags_of_flags_eq hf, bracketed_eq_false_iff.mpr hp, hleft, hright,
      ← List.append_nil (spell _ (ps ++ _)), spell_binary, List.append_nil]
    rfl

end WordExpr

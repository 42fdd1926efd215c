import WordExpr.Proofs.Evaluation.Value
import WordExpr.Proofs.Relabel

/-!
# What a formula takes from a registry

At a width of `n` bits an atom counts only by its residue modulo `2 ^ n` (`Registry.residue`). So a
formula keeps its outcome with other atoms and under another registry, as long as the atoms
have the same residues there (`Formula.outcome_relabel`), and so do the trees that read as the two
(`Tree.Reads.evaluate_relabel`).
-/

namespace WordExpr

/-- 0 for an atom without a word -/
def Registry.residue (r : Registry) (n : Nat) (a : Atom) : BitVec n :=
  .ofNat n ((r.word? a).getD 0).toNat

/-- cells count up to multiples of `2 ^ bits` -/
theorem Registry.residue_reduce (r : Registry) (w : Width) (cells : List UInt64) (a : Atom) :
    ({ r with cells := cells.map w.reduce } : Registry).residue w.bits a =
      ({ r with cells } : Registry).residue w.bits a := by
  have hcell (id : VarId) : BitVec.ofNat w.bits (((cells.map w.reduce)[id]?).getD 0).toNat =
      .ofNat w.bits ((cells[id]?).getD 0).toNat := by
    rw [List.getElem?_map]
    cases cells[id]? with
    | none => rfl
    | some c =>
      show BitVec.ofNat w.bits (w.reduce c).toNat = .ofNat w.bits c.toNat
      rw [← w.word_eq_ofNat, ← w.word_eq_ofNat, w.word_reduce]
  cases a with
  | constant v => rfl
  | «variable» id => exact hcell id
  | name text =>
    show BitVec.ofNat w.bits (((r.lookup text).bind ((cells.map w.reduce)[·]?)).getD 0).toNat =
      .ofNat w.bits (((r.lookup text).bind (cells[·]?)).getD 0).toNat
    cases r.lookup text with
    | none => rfl
    | some id => exact hcell id

namespace Formula

variable {r r' : Registry} {g : Atom → Atom} {x : Formula} {n : Nat}

theorem value_relabel (h : x.Every (fun a => r'.residue n (g a) = r.residue n a)) :
    (x.relabel g).value r' n = x.value r n := by
  induction x with
  | leaf f a => exact congrArg f.act h
  | group f x ih => rw [relabel, value, ih h, value]
  | binary f op x y ihx ihy => rw [relabel, value, ihx h.1, ihy h.2, value]

theorem dividesByZero_relabel (h : x.Every (fun a => r'.residue n (g a) = r.residue n a)) :
    (x.relabel g).dividesByZero r' n = x.dividesByZero r n := by
  induction x with
  | leaf f a => rfl
  | group f x ih => exact ih h
  | binary f op x y ihx ihy =>
    rw [relabel, dividesByZero, ihx h.1, ihy h.2, value_relabel h.2, dividesByZero]

theorem outcome_relabel {w : Width}
    (h : x.Every (fun a => r'.residue w.bits (g a) = r.residue w.bits a)) :
    (x.relabel g).outcome r' w = x.outcome r w := by
  rw [outcome, dividesByZero_relabel h, value_relabel h, outcome]

theorem relabel_id (x : Formula) : x.relabel id = x := by
  induction x with
  | leaf f a => rfl
  | group f x ih => rw [relabel, ih]
  | binary f op x y ihx ihy => rw [relabel, ihx, ihy]

end Formula

/-- two trees of the same shape, whose leaves have the same residues -/
theorem Tree.Reads.evaluate_relabel {t t' : Tree} {x : Formula} {g : Atom → Atom}
    {r r' : Registry} (h : t.Reads t.root x) (h' : t'.Reads t'.root (x.relabel g))
    (hreg : x.Registered r) (hreg' : (x.relabel g).Registered r') {w : Width}
    (hres : x.Every (fun a => r'.residue w.bits (g a) = r.residue w.bits a)) :
    ∃ o, t.evaluate r w = .ok o ∧ t'.evaluate r' w = .ok o :=
  ⟨x.outcome r w, h.evaluate hreg w, by rw [h'.evaluate hreg' w, Formula.outcome_relabel hres]⟩

end WordExpr

import WordExpr.Proofs.Registry.Operations
import WordExpr.Proofs.Table.Limit

/-!
# What is done to an accepted expression

An `Expression.Action` works on the registry of an expression, takes one step of the odometer, or
evaluates or enumerates the expression, successfully or not. `Expression.after e acts` is `e` after
the actions `acts`, one after the other.

* `Atom.Within n a`            `a` is a constant or has a number below `n`: it has a word wherever
                               there are `n` cells, whatever the variables are called;
* `Expression.Continues e e'`  `e'` has the tree of `e` and a registry that is reached, with all
                               variables of `e`. Every action keeps this (`Continues.perform`).

So nothing that is done to an accepted expression takes a word from its leaves
(`Expression.evaluate_after`).
-/

namespace WordExpr

/-! ## atoms that need no names -/

def Atom.Within (n : Nat) : Atom → Prop
  | .constant _ => True
  | .variable id => id < n
  | .name _ => False

namespace Atom

variable {a : Atom} {n : Nat} {r r' : Registry}

theorem within_of_word? (h : ∃ v, r.word? a = some v) (hindex : r.index = [])
    (hn : r.cells.length = n) : a.Within n := by
  obtain ⟨v, hv⟩ := h
  cases a with
  | constant c => trivial
  | «variable» id =>
    obtain ⟨hid, -⟩ := List.getElem?_eq_some_iff.mp hv
    exact hn ▸ hid
  | name text =>
    have hnone : r.lookup text = none := by
      rw [Registry.lookup, hindex]
      rfl
    rw [Registry.word?, hnone] at hv
    cases hv

namespace Within

theorem exists_word (h : a.Within n) (hr : n ≤ r.cells.length) : ∃ v, r.word? a = some v := by
  cases a with
  | constant c => exact ⟨c, rfl⟩
  | «variable» id => exact ⟨_, List.getElem?_eq_getElem (Nat.lt_of_lt_of_le h hr)⟩
  | name text => exact False.elim h

theorem word?_congr (h : a.Within n) (hcells : r.cells = r'.cells) : r.word? a = r'.word? a := by
  cases a with
  | constant c => rfl
  | «variable» id => exact congrArg (·[id]?) hcells
  | name text => exact False.elim h

end Within

end Atom

namespace Expression

theorem exists_within {raw : String} {e : Expression} (h : parse raw = .ok e) :
    ∃ x, e.tree.Reads e.tree.root x ∧ x.Every (Atom.Within e.registry.size) := by
  obtain ⟨x, hx, hreg⟩ := exists_reads h
  have hlen := List.length_replicate (n := e.registry.size) (a := (0 : UInt64))
  exact ⟨x, hx, (hreg { cells := .replicate e.registry.size 0 } hlen).imp
    (fun a ha => a.within_of_word? ha rfl hlen)⟩

end Expression

/-! ## actions -/

/-- An odometer step may be to any radix, and an enumeration may be into any sink. Copies share
nothing, so that it makes no difference to go on with one. -/
inductive Expression.Action where
  | onRegistry (op : Registry.Operation)
  | advance (radix : UInt64)
  | copy
  | evaluate (w : Width)
  | fingerprint (w : Width) (s : Sink)

namespace Expression

/-- the expression afterwards, whatever the result is -/
def perform (e : Expression) : Action → Expression
  | .onRegistry op => { e with registry := e.registry.perform op }
  | .advance radix => e.withCells (WordExpr.advance radix e.registry.cells).2
  | .copy => e
  | .evaluate _ => e
  | .fingerprint w s => { e with registry := (e.fingerprint w s).registry }

def after (e : Expression) (acts : List Action) : Expression := acts.foldl perform e

theorem after_append (e : Expression) (acts acts' : List Action) :
    e.after (acts ++ acts') = (e.after acts).after acts' :=
  List.foldl_append ..

end Expression

/-! ## cells only -/

namespace Tabulation

variable (t : Tree) (w : Width) (r : Registry) (s : Sink)

theorem registry_finishLine (c : Collector) : (finishLine c r s).registry = r := by
  unfold finishLine
  split <;> rfl

theorem exists_cells_rowsFrom (rows : Nat) (c : Collector) :
    ∃ cells, cells.length = r.cells.length ∧
      (rowsFrom t w rows c r s).registry = { r with cells } := by
  induction rows generalizing r s c with
  | zero => exact ⟨r.cells, rfl, registry_finishLine r s c⟩
  | succ rows ih =>
    unfold rowsFrom
    split
    · exact ⟨r.cells, rfl, rfl⟩
    split
    · exact ⟨r.cells, rfl, rfl⟩
    next c' s' _ =>
    have hlen : (r.advance w).2.cells.length = r.cells.length := length_advance w.radix r.cells
    split
    · next r' hadvance =>
      have hr' : r' = (r.advance w).2 := by rw [hadvance]
      obtain ⟨cells, hcells, hrows⟩ := ih r' s' c'
      rw [hrows, hr']
      exact ⟨cells, by rw [hcells, hr', hlen], rfl⟩
    · next r' hadvance =>
      have hr' : r' = (r.advance w).2 := by rw [hadvance]
      rw [registry_finishLine, hr']
      exact ⟨_, hlen, rfl⟩

theorem registry_constant : (constant t w r s).registry = r := by
  unfold constant
  split
  · rfl
  · split
    · rfl
    · exact registry_finishLine ..

end Tabulation

/-- an enumeration writes to the cells, and to nothing else of a registry -/
theorem exists_cells_tabulate (t : Tree) (r : Registry) (w : Width) (s : Sink) :
    ∃ cells, cells.length = r.cells.length ∧ (tabulate t r w s).registry = { r with cells } := by
  have hreset : r.reset.cells.length = r.cells.length := List.length_map ..
  unfold tabulate
  split
  · exact ⟨r.cells, rfl, rfl⟩
  · dsimp only
    split
    · rw [Tabulation.registry_constant]
      exact ⟨_, hreset, rfl⟩
    · next rows _ _ =>
      obtain ⟨cells, hcells, hrows⟩ := Tabulation.exists_cells_rowsFrom t w r.reset s rows {}
      rw [hrows]
      exact ⟨cells, hcells.trans hreset, rfl⟩

namespace Registry

/-- one more place of `ys` overwritten by what `xs` has there -/
theorem set_take_append_drop {xs ys : List UInt64} (hlen : xs.length = ys.length) {n : Nat}
    (hn : n < xs.length) :
    (xs.take n ++ ys.drop n).set n xs[n] = xs.take (n + 1) ++ ys.drop (n + 1) := by
  have htake : (xs.take n).length = n := List.length_take_of_le (Nat.le_of_lt hn)
  rw [List.set_append_right n xs[n] (Nat.le_of_eq htake), htake, Nat.sub_self,
    List.drop_eq_getElem_cons (hlen ▸ hn), List.set_cons_zero,
    List.take_succ_eq_append_getElem hn, List.append_assoc]
  rfl

/-- whatever is written to the cells, it might have been written one cell after the other -/
theorem Reached.withCells {r : Registry} (h : r.Reached) {cells : List UInt64}
    (hcells : cells.length = r.cells.length) : Reached { r with cells } := by
  have hprefix (n : Nat) (hn : n ≤ cells.length) :
      Reached { r with cells := cells.take n ++ r.cells.drop n } := by
    induction n with
    | zero => exact h
    | succ n ih =>
      have hstep := (ih (Nat.le_of_succ_le hn)).setValue n cells[n]
      rw [Registry.setValue, set_take_append_drop hcells hn] at hstep
      exact hstep
  have hall := hprefix cells.length (Nat.le_refl _)
  rw [List.take_length, hcells, List.drop_length, List.append_nil] at hall
  exact hall

theorem size_le_intern (r : Registry) (name : String) : r.size ≤ (r.intern name).2.size := by
  cases hn : r.lookup name with
  | some id =>
    rw [intern_of_some hn]
    exact Nat.le_of_eq (List.length_modify ..).symm
  | none =>
    rw [intern_of_none hn]
    show r.vars.length ≤ (r.vars ++ [_]).length
    rw [List.length_append]
    exact Nat.le_add_right ..

theorem size_le_perform (r : Registry) (op : Operation) : r.size ≤ (r.perform op).size := by
  cases op with
  | intern name => exact r.size_le_intern name
  | canonicalize => exact Nat.le_of_eq r.size_canonicalize.symm
  | setValue id v => exact Nat.le_refl _
  | reset => exact Nat.le_refl _

end Registry

/-! ## what every action keeps -/

namespace Expression

variable {raw : String} {e e' : Expression}

structure Continues (e e' : Expression) : Prop where
  tree : e'.tree = e.tree
  reached : e'.registry.Reached
  size : e.registry.size ≤ e'.registry.size

namespace Continues

theorem refl (h : e.registry.Reached) : e.Continues e := ⟨rfl, h, Nat.le_refl _⟩

theorem start (h : parse raw = .ok e) : e.Continues e := by
  obtain ⟨-, -, t, -, rfl⟩ := parse_eq_ok_iff.mp h
  exact .refl t.reached_consolidate

theorem withCells (hc : e.Continues e') {cells : List UInt64}
    (hcells : cells.length = e'.registry.cells.length) : e.Continues (e'.withCells cells) :=
  ⟨hc.tree, hc.reached.withCells hcells, hc.size⟩

theorem perform (hc : e.Continues e') (act : Action) : e.Continues (e'.perform act) := by
  cases act with
  | onRegistry op =>
    exact ⟨hc.tree, hc.reached.perform op, Nat.le_trans hc.size (e'.registry.size_le_perform op)⟩
  | advance radix => exact hc.withCells (length_advance radix e'.registry.cells)
  | copy => exact hc
  | evaluate w => exact hc
  | fingerprint w s =>
    obtain ⟨cells, hcells, hreg⟩ := exists_cells_tabulate e'.tree e'.registry w s
    have hperform : e'.perform (.fingerprint w s) = e'.withCells cells :=
      congrArg (fun r => { e' with registry := r }) hreg
    rw [hperform]
    exact hc.withCells hcells

theorem after (h : parse raw = .ok e) (acts : List Action) : e.Continues (e.after acts) := by
  induction acts using List.reverseRecOn with
  | nil => exact .start h
  | append_singleton acts act ih =>
    rw [after_append]
    exact ih.perform act

/-! ## what follows for evaluations and enumerations -/

theorem exists_evaluate (hc : e.Continues e') (h : parse raw = .ok e) {r : Registry}
    (hr : r.cells.length = e'.registry.size) (w : Width) :
    ∃ o, e'.tree.evaluate r w = .ok o := by
  obtain ⟨x, hx, hwithin⟩ := exists_within h
  have hreg : x.Registered r :=
    hwithin.imp (fun a ha => ha.exists_word (Nat.le_trans hc.size (Nat.le_of_eq hr.symm)))
  rw [hc.tree]
  exact ⟨_, hx.evaluate hreg w⟩

theorem exists_lists (hc : e.Continues e') (h : parse raw = .ok e) (w : Width) :
    ∃ os, e'.Lists w os := by
  obtain ⟨os, hlen, heval⟩ := exists_outcomes (n := (2 ^ w.bits) ^ e'.registry.size)
    (fun k _ => hc.exists_evaluate h (r := e'.registry.assign w k) (length_assignment w _ k) w)
  exact ⟨os, hlen, heval⟩

end Continues

/-- **Nothing breaks an accepted expression.** Whatever is done to it, it has an outcome at every
width, and its enumeration fails only where there are too many assignments or where the sink is
full. -/
theorem evaluate_after (h : parse raw = .ok e) (acts : List Action) (w : Width) :
    (∃ o, (e.after acts).evaluate w = .ok o) ∧
      ∀ s err, ((e.after acts).fingerprint w s).result = .error err →
        err = .tooManyCombinations w.bits (e.after acts).registry.size ∨ err = .sinkFull := by
  have hc := Continues.after h acts
  constructor
  · obtain ⟨o, ho⟩ := hc.exists_evaluate h hc.reached.length_cells w
    exact ⟨o, congrArg _ ho⟩
  · intro s err herr
    by_cases hw : w.bits * (e.after acts).registry.size < 64
    · obtain ⟨os, hos⟩ := hc.exists_lists h w
      rw [hos.fingerprint_eq_ofOutcomes hc.reached.length_cells hw s] at herr
      exact .inr (Tabulation.eq_sinkFull_of_ofOutcomes herr)
    · rw [fingerprint_eq_tooMany (Nat.not_lt.mp hw)] at herr
      exact .inl (Except.error.inj herr).symm

/-- an enumeration that a full sink has ended, and a new variable -/
theorem evaluate_after_interrupted : ∃ e acts, parse "x/y" = .ok e ∧
    acts = [.fingerprint .single (.limited 3), .onRegistry (.intern "z"),
      .onRegistry (.setValue 2 41), .advance 2] ∧
    ∃ o, (e.after acts).evaluate .single = .ok o := by
  have hrun : (parse "x/y").toOption.isSome = true := by decide +kernel
  obtain ⟨e, he⟩ := Option.isSome_iff_exists.mp hrun
  have h := eq_ok_of_toOption he
  exact ⟨e, _, h, rfl, (evaluate_after h _ .single).1⟩

end Expression

end WordExpr

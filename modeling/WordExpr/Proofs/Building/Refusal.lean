import WordExpr.Proofs.Building.Invariant

/-!
# Tokens that are refused

A refused token leaves the tree below node 0 alone, and the cursor with it.

* `Builder.Refused b b' e`      what any builder is left with: at most one node more, and no flags
                                where there was no place for an operand;
* `Builder.refused_push`        this holds of every token, one kind after the other;
* `Builder.Undisturbed b b' e`  what it means for the nodes that paths from node 0 lead to. As a
                                builder that stands has all of them in its arena, none leads to the
                                new node (`Builder.pushEach_undisturbed`).
-/

namespace WordExpr

/-! ## a node that nothing leads to -/

namespace Tree

variable {t : Tree} {place : Option NodeId}

/-- no path that stays in the arena notices a new node -/
theorem follow_alloc (h : ∀ path i, t.follow path place = some i → i < t.size) (n : Node)
    (path : List Side) : (t.alloc n).2.follow path place = t.follow path place := by
  induction path generalizing place with
  | nil => rfl
  | cons side path ih =>
    cases place with
    | none => rw [follow_none, follow_none]
    | some id =>
      show (t.alloc n).2.follow path (((t.alloc n).2.node id).child side) = _
      rw [t.node_alloc_of_lt n (h [] id rfl)]
      exact ih fun path i hp => h (side :: path) i hp

end Tree

namespace Builder

/-! ## one token -/

structure Refused (b b' : Builder) (e : ParseError) : Prop where
  tree : b'.tree = b.tree ∨ ∃ n, b'.tree = (b.tree.alloc n).2
  current : b'.current = b.current
  depth : b'.depth = b.depth
  flags : b'.flags = b.flags ∨
    b'.flags = {} ∧ ∃ text offset, e = .structural .noFreeSlot text offset

variable {b b' : Builder} {tok : Token} {e : ParseError}

/-- what is done is not refused -/
theorem done_ne (b : Builder) : b.done ≠ (b', some e) := fun h => nomatch congrArg Prod.snd h

namespace Refused

theorem refl (b : Builder) (e : ParseError) : Refused b b e := ⟨.inl rfl, rfl, rfl, .inl rfl⟩

theorem of_refuse {why : Fault} (h : b.refuse tok why = (b', some e)) : Refused b b' e := by
  cases h
  exact .refl b _

/-- a new operand takes the flags along, also where there is no place for it -/
theorem allocFlagged (b : Builder) (n : Node) (text : String) (offset : Nat) :
    Refused b (b.allocFlagged n).2 (.structural .noFreeSlot text offset) :=
  ⟨.inr ⟨_, rfl⟩, rfl, rfl, .inr ⟨rfl, text, offset, rfl⟩⟩

end Refused

theorem attach_refused {operand : NodeId} (h : b.attach tok operand = (b', some e)) :
    b' = b ∧ e = .structural .noFreeSlot tok.text tok.offset := by
  unfold attach at h
  dsimp only at h
  split at h
  · exact absurd h (done_ne _)
  · split at h
    · exact absurd h (done_ne _)
    · cases h
      exact ⟨rfl, rfl⟩

theorem refused_term (h : b.term tok = (b', some e)) : Refused b b' e := by
  unfold term at h
  cases hs : Symbol.ofTerm tok.text with
  | error why =>
    rw [hs] at h
    cases h
    exact .refl b _
  | ok s =>
    rw [hs] at h
    obtain ⟨rfl, rfl⟩ := attach_refused h
    exact .allocFlagged b _ _ _

theorem refused_openGroup (h : b.openGroup tok = (b', some e)) : Refused b b' e := by
  cases hattach : (b.allocFlagged .group).2.attach tok b.tree.size with
  | mk b₁ e₁ =>
    rw [openGroup_of_attach hattach] at h
    cases e₁ with
    | none => exact absurd h (done_ne _)
    | some e₁ =>
      cases h
      obtain ⟨rfl, rfl⟩ := attach_refused hattach
      exact .allocFlagged b _ _ _

theorem refused_unary {op : Operator} (h : b.unary tok op = (b', some e)) : Refused b b' e := by
  unfold unary at h
  split at h
  · exact .of_refuse h
  · split at h
    · exact absurd h (done_ne _)
    · exact absurd h (done_ne _)

/-- the new operator is there before its place is looked for -/
theorem refused_looserOperator {op : Operator} (h : b.looserOperator tok op = (b', some e)) :
    Refused b b' e := by
  unfold looserOperator at h
  dsimp only at h
  split at h
  · cases h
    exact ⟨.inr ⟨_, rfl⟩, rfl, rfl, .inl rfl⟩
  · exact absurd h (done_ne _)

theorem refused_binary {op : Operator} (h : b.binary tok op = (b', some e)) :
    Refused b b' e := by
  unfold binary at h
  dsimp only at h
  split at h
  · exact .of_refuse h
  · split at h
    · split at h
      · exact .of_refuse h
      · exact absurd h (done_ne _)
    · split at h
      · exact .of_refuse h
      · split at h
        · exact refused_looserOperator h
        · exact absurd h (done_ne _)

theorem refused_closeGroup (h : b.closeGroup tok = (b', some e)) : Refused b b' e := by
  unfold closeGroup at h
  dsimp only at h
  split at h
  · exact .of_refuse h
  · split at h
    · exact .of_refuse h
    · split at h
      · exact .of_refuse h
      · split at h
        · exact .of_refuse h
        · exact .of_refuse h
        · exact absurd h (done_ne _)

theorem refused_push (h : b.push tok = (b', some e)) : Refused b b' e := by
  suffices hr : Refused { b with stop := tok.stop } b' e from
    ⟨hr.tree, hr.current, hr.depth, hr.flags⟩
  unfold push take at h
  split at h
  · exact refused_term h
  · split at h
    · exact .of_refuse h
    · split at h
      · exact refused_unary h
      · exact refused_binary h
  · split at h
    · exact refused_openGroup h
    · exact refused_closeGroup h
  · exact absurd h (done_ne _)

/-! ## below node 0 -/

/-- what a refused token leaves of the nodes that paths from node 0 lead to -/
structure Undisturbed (b b' : Builder) (e : ParseError) : Prop where
  paths : ∀ path, b'.tree.follow path (some 0) = b.tree.follow path (some 0)
  nodes : ∀ path i, b.tree.follow path (some 0) = some i → b'.tree.node i = b.tree.node i
  current : b'.current = b.current
  depth : b'.depth = b.depth
  size : b'.tree.size = b.tree.size ∨ b'.tree.size = b.tree.size + 1 ∧
    ∀ path, b'.tree.follow path (some 0) ≠ some b.tree.size
  flags : b'.flags = b.flags ∨
    b'.flags = {} ∧ ∃ text offset, e = .structural .noFreeSlot text offset

theorem Stands.inside (h : b.Stands) {path : List Side} {i : NodeId}
    (hp : b.tree.follow path (some 0) = some i) : i < b.tree.size := by
  obtain ⟨fs, p, h, -⟩ := h.exists_represents
  exact h.shows.spans.treelike.inside path i (h.root ▸ hp)

theorem Stands.undisturbed (h : b.Stands) (hr : Refused b b' e) : b.Undisturbed b' e := by
  rcases hr.tree with ht | ⟨n, ht⟩
  · exact ⟨fun _ => ht ▸ rfl, fun _ _ _ => ht ▸ rfl, hr.current, hr.depth, .inl (ht ▸ rfl),
      hr.flags⟩
  · have hpaths : ∀ path, b'.tree.follow path (some 0) = b.tree.follow path (some 0) :=
      ht ▸ Tree.follow_alloc (fun _ _ => h.inside) n
    refine ⟨hpaths, fun path i hp => ?_, hr.current, hr.depth, .inr ⟨?_, fun path hp => ?_⟩,
      hr.flags⟩
    · rw [ht, b.tree.node_alloc_of_lt n (h.inside hp)]
    · rw [ht, Tree.size_alloc]
    · exact Nat.lt_irrefl _ (h.inside ((hpaths path).symm.trans hp))

/-- **A refused token does not disturb the tree.** After any tokens, taken or refused, a token that
is refused leaves all that node 0 leads to as it was, and the cursor and the open brackets; the
arena has at most one node more, to which nothing leads, and the waiting flags are kept, or dropped
where there was no place for an operand. -/
theorem pushEach_undisturbed (toks : List Token)
    (h : (pushEach toks).push tok = (b', some e)) : (pushEach toks).Undisturbed b' e :=
  (stands_pushEach toks).undisturbed (refused_push h)

/-- The complement behind a complete operand is lost with the term it was meant for. -/
theorem pushEach_undisturbed_flagged :
    let b := pushEach [⟨.term, "a", 0⟩, ⟨.operator, "~", 1⟩]
    ∃ b' e, b.push ⟨.term, "b", 2⟩ = (b', some e) ∧ b.Undisturbed b' e ∧
      b.flags = ⟨false, true⟩ ∧ b'.flags = {} ∧ b'.tree.size = b.tree.size + 1 := by
  intro b
  have h : b.push ⟨.term, "b", 2⟩ =
      ((b.push ⟨.term, "b", 2⟩).1, some (.structural .noFreeSlot "b" 2)) := rfl
  exact ⟨_, _, h, pushEach_undisturbed _ h, rfl, rfl, rfl⟩

end Builder

end WordExpr

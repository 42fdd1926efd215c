import Mathlib.Logic.Relation
import WordExpr.Proofs.Respelling
import WordExpr.Proofs.WellFormed.Verdict

/-!
# Spacing does not count

Whitespace may be taken out of an accepted text wherever it is, and put in wherever it does not part
two characters that belong together.

* `Clings a b`       two characters of terms side by side are of one word, and two equal shift
                     characters are one shift;
* `Respaced cs cs'`  one whitespace character less, or one more that parts no such two characters.

The normal spelling of a text is respaced with it (`exists_normalizeFrom`), since an accepted text
has no whitespace between characters that cling to each other (`State.read_of_clings`). Elsewhere
the automaton goes on in the same way behind whitespace (`State.foldl_read_whitespace`), unless
there is a unary operator behind a word, which the text without its whitespace does not get away
with. `Expression.parse_respaced` is what follows for any number of whitespace characters.
-/

namespace WordExpr

/-! ## one whitespace character -/

def Clings (a b : Char) : Prop :=
  (isTermChar a = true ∧ isTermChar b = true) ∨ (isShift a = true ∧ a = b)

instance (a b : Char) : Decidable (Clings a b) :=
  inferInstanceAs (Decidable ((isTermChar a = true ∧ isTermChar b = true) ∨
    (isShift a = true ∧ a = b)))

/-- a word or a shift goes on from `u` to `v` -/
def Fused (u v : List Char) : Prop := ∃ a ∈ u.getLast?, ∃ b ∈ v.head?, Clings a b

theorem fused_iff_clings {u v : List Char} {a b : Char} (ha : u.getLast? = some a)
    (hb : v.head? = some b) : Fused u v ↔ Clings a b := by
  constructor
  · rintro ⟨a', ha', b', hb', hab⟩
    cases ha.symm.trans ha'
    cases hb.symm.trans hb'
    exact hab
  · intro hab
    exact ⟨a, ha, b, hb, hab⟩

inductive Respaced : List Char → List Char → Prop where
  | delete {c : Char} (hc : isWhitespace c = true) (u v : List Char) :
    Respaced (u ++ c :: v) (u ++ v)
  | insert {c : Char} (hc : isWhitespace c = true) {u v : List Char} (huv : ¬ Fused u v) :
    Respaced (u ++ v) (u ++ c :: v)

namespace Clings

variable {a b : Char}

theorem left (h : Clings a b) : Clings a a := by
  rcases h with ⟨ha, -⟩ | ⟨ha, -⟩
  · exact .inl ⟨ha, ha⟩
  · exact .inr ⟨ha, rfl⟩

theorem right (h : Clings a b) : Clings b b := by
  rcases h with ⟨-, hb⟩ | ⟨ha, rfl⟩
  · exact .inl ⟨hb, hb⟩
  · exact .inr ⟨ha, rfl⟩

theorem of_isShift (h : isShift a = true) : Clings a a := .inr ⟨h, rfl⟩

end Clings

theorem CharClass.of?_of_isShift {c : Char} (h : isShift c = true) :
    of? c = some .binaryOperator := by
  rcases Bool.or_eq_true_iff.mp h with h | h
  · rw [beq_iff_eq.mp h]
    decide
  · rw [beq_iff_eq.mp h]
    decide

/-! ## the normal spelling -/

/-- what a character that is kept becomes -/
def signed (kept : Option Char) (c : Char) : Char :=
  if c == '-' && opensOperand kept then negation else c

/-- no sign is changed that clings to anything -/
theorem signed_eq_iff {a : Char} (ha : Clings a a) (kept : Option Char) (c : Char) :
    signed kept c = a ↔ c = a := by
  unfold signed
  split
  · next hc =>
    obtain rfl := beq_iff_eq.mp (Bool.and_eq_true_iff.mp hc).1
    refine iff_of_false ?_ ?_
    · rintro rfl
      exact absurd ha (by decide)
    · rintro rfl
      exact absurd ha (by decide)
  · rfl

section

variable {c : Char} {seen kept : Option Char}

theorem normalizeFrom_whitespace (hc : isWhitespace c = true) (cs : List Char) :
    normalizeFrom seen kept (c :: cs) = c :: normalizeFrom (some c) kept cs := by
  rw [normalizeFrom, if_pos hc]

theorem normalizeFrom_merged (hc : isWhitespace c = false) (hshift : isShift (signed kept c) = true)
    (hseen : seen = some (signed kept c)) (cs : List Char) :
    normalizeFrom seen kept (c :: cs) = normalizeFrom seen kept cs := by
  rw [normalizeFrom, if_neg (by rw [hc]; exact Bool.false_ne_true)]
  exact if_pos (Bool.and_eq_true_iff.mpr ⟨hshift, beq_iff_eq.mpr hseen⟩)

theorem normalizeFrom_kept (hc : isWhitespace c = false)
    (h : isShift (signed kept c) = true → seen ≠ some (signed kept c)) (cs : List Char) :
    normalizeFrom seen kept (c :: cs) =
      signed kept c :: normalizeFrom (some (signed kept c)) (some (signed kept c)) cs := by
  rw [normalizeFrom, if_neg (by rw [hc]; exact Bool.false_ne_true)]
  refine if_neg ?_
  intro hand
  obtain ⟨hshift, hseen⟩ := Bool.and_eq_true_iff.mp hand
  exact h hshift (beq_iff_eq.mp hseen)

/-- a shift behind whitespace is a new one -/
theorem ne_of_isShift (hc : isWhitespace c = true) {d : Char} (hd : isShift d = true) :
    some c ≠ some d := by
  rintro h
  cases h
  have hno : isWhitespace c = false :=
    CharClass.holds_eq_false (j := .whitespace) (CharClass.of?_of_isShift hd) (by decide)
  rw [hc] at hno
  cases hno

/-- characters that cling stay where they are -/
theorem head?_normalizeFrom (hc : isWhitespace c = true) {a : Char} (ha : Clings a a)
    (v : List Char) : (normalizeFrom (some c) kept v).head? = some a ↔ v.head? = some a := by
  cases v with
  | nil => rfl
  | cons d v =>
    cases hd : isWhitespace d with
    | true =>
      rw [normalizeFrom_whitespace hd]
      rfl
    | false =>
      rw [normalizeFrom_kept hd (ne_of_isShift hc)]
      show some _ = some a ↔ some d = some a
      rw [Option.some.injEq, Option.some.injEq, signed_eq_iff ha]

end

/-- `p` is the normal spelling of the beginning `u` of a text, whatever comes behind it -/
structure Opens (u p : List Char) (kept : Option Char) : Prop where
  append : ∀ v, normalizeFrom none none (u ++ v) = p ++ normalizeFrom p.getLast? kept v
  last : ∀ a, Clings a a → (p.getLast? = some a ↔ u.getLast? = some a)

theorem exists_opens (u : List Char) : ∃ p kept, Opens u p kept := by
  induction u using List.reverseRecOn with
  | nil => exact ⟨[], none, fun v => rfl, fun a _ => Iff.rfl⟩
  | append_singleton u c ih =>
    obtain ⟨p, kept, hopens⟩ := ih
    have happend (v : List Char) : normalizeFrom none none (u ++ [c] ++ v) =
        p ++ normalizeFrom p.getLast? kept (c :: v) := by
      rw [List.append_assoc]
      exact hopens.append (c :: v)
    cases hc : isWhitespace c with
    | true =>
      refine ⟨p ++ [c], kept, fun v => ?_, fun a _ => ?_⟩
      · rw [happend, normalizeFrom_whitespace hc, List.getLast?_concat, List.append_assoc]
        rfl
      · rw [List.getLast?_concat, List.getLast?_concat]
    | false =>
      by_cases hmerged : isShift (signed kept c) = true ∧ p.getLast? = some (signed kept c)
      · obtain ⟨hshift, hlast⟩ := hmerged
        refine ⟨p, kept, fun v => ?_, fun a ha => ?_⟩
        · rw [happend, normalizeFrom_merged hc hshift hlast]
        · rw [hlast, List.getLast?_concat, Option.some.injEq, Option.some.injEq, signed_eq_iff ha]
      · refine ⟨p ++ [signed kept c], some (signed kept c), fun v => ?_, fun a ha => ?_⟩
        · rw [happend, normalizeFrom_kept hc (not_and.mp hmerged), List.getLast?_concat,
            List.append_assoc]
          rfl
        · rw [List.getLast?_concat, List.getLast?_concat, Option.some.injEq, Option.some.injEq,
            signed_eq_iff ha]

/-- Whitespace stays where it is in the normal spelling, with the same on its sides. Without it
there is nothing but what is on its sides, unless these are fused then. -/
theorem exists_normalizeFrom {c : Char} (hc : isWhitespace c = true) (u v : List Char) :
    ∃ p q, normalizeFrom none none (u ++ c :: v) = p ++ c :: q ∧ (Fused p q ↔ Fused u v) ∧
      (¬ Fused u v → normalizeFrom none none (u ++ v) = p ++ q) := by
  obtain ⟨p, kept, hopens⟩ := exists_opens u
  have hfused : Fused p (normalizeFrom (some c) kept v) ↔ Fused u v := by
    constructor
    · rintro ⟨a, ha, b, hb, hab⟩
      exact ⟨a, (hopens.last a hab.left).mp ha, b, (head?_normalizeFrom hc hab.right v).mp hb, hab⟩
    · rintro ⟨a, ha, b, hb, hab⟩
      exact ⟨a, (hopens.last a hab.left).mpr ha, b, (head?_normalizeFrom hc hab.right v).mpr hb,
        hab⟩
  refine ⟨p, normalizeFrom (some c) kept v, ?_, hfused, fun huv => ?_⟩
  · rw [hopens.append, normalizeFrom_whitespace hc]
  · rw [hopens.append]
    congr 1
    cases v with
    | nil => rfl
    | cons d v =>
      cases hd : isWhitespace d with
      | true => rw [normalizeFrom_whitespace hd, normalizeFrom_whitespace hd]
      | false =>
        have hnew : isShift (signed kept d) = true → p.getLast? ≠ some (signed kept d) := by
          intro hshift hlast
          have hself := Clings.of_isShift hshift
          have hdeq : d = signed kept d := (signed_eq_iff hself kept d).mp rfl
          exact huv ⟨_, (hopens.last _ hself).mp hlast, d, rfl, .inr ⟨hshift, hdeq.symm⟩⟩
        rw [normalizeFrom_kept hd hnew, normalizeFrom_kept hd (ne_of_isShift hc)]

/-! ## the automaton -/

namespace State

variable {c : Char} {s : State}

theorem read_whitespace (hc : isWhitespace c = true) (s : State) :
    s.read c = s.step .whitespace :=
  read_of_class ((CharClass.of?_eq_some_iff (k := .whitespace)).mpr hc) s

/-- whitespace between characters that cling is found out at the second one -/
theorem read_of_clings {a b : Char} (hab : Clings a b) (hc : isWhitespace c = true) (s : State) :
    ((s.read a).read c).read b = refused := by
  rw [read_whitespace hc]
  rcases hab with ⟨ha, hb⟩ | ⟨ha, rfl⟩
  · rw [read_of_class (CharClass.of?_of_isTermChar ha),
      read_of_class (CharClass.of?_of_isTermChar hb)]
    cases s <;> rfl
  · have hclass := CharClass.of?_of_isShift ha
    rw [read_of_class hclass, read_of_class hclass]
    cases s <;> rfl

theorem not_fused {p q : List Char} (hc : isWhitespace c = true)
    (h : (p ++ c :: q).foldl read s ≠ refused) : ¬ Fused p q := by
  rintro ⟨a, ha, b, hb, hab⟩
  obtain ⟨p, rfl⟩ := List.getLast?_eq_some_iff.mp ha
  obtain ⟨q, rfl⟩ := List.head?_eq_some_iff.mp hb
  rw [List.foldl_append, List.foldl_append] at h
  exact ne_refused_of_foldl_read (s := (((p.foldl read s).read a).read c).read b) h
    (read_of_clings hab hc _)

/-- behind a word, whitespace makes a difference to words and to unary operators only -/
theorem read_termEnded {b : Char} (hb : isTermChar b = false) (h : term.read b ≠ refused) :
    termEnded.read b = term.read b := by
  unfold read at h ⊢
  cases hk : CharClass.of? b with
  | none => rfl
  | some k =>
    rw [hk] at h
    cases k with
    | term =>
      have hterm : isTermChar b = true := CharClass.of?_eq_some_iff.mp hk
      rw [hb] at hterm
      cases hterm
    | unaryOperator => exact absurd rfl h
    | binaryOperator | opening | closing | whitespace => rfl

theorem foldl_read_whitespace (hc : isWhitespace c = true) {q : List Char}
    (hq : s = term → ∀ b ∈ q.head?, isTermChar b = false ∧ term.read b ≠ refused) :
    q.foldl read (s.read c) = refused ↔ q.foldl read s = refused := by
  rw [read_whitespace hc]
  by_cases hs : s = term
  · subst hs
    cases q with
    | nil => exact iff_of_false (nomatch ·) (nomatch ·)
    | cons b q =>
      obtain ⟨hb, hread⟩ := hq rfl b rfl
      rw [List.foldl_cons, List.foldl_cons]
      show q.foldl read (termEnded.read b) = _ ↔ _
      rw [read_termEnded hb hread]
  · have hstep : s.step .whitespace = s := by
      cases s <;> first | rfl | exact absurd rfl hs
    rw [hstep]

/-- what is right behind a word is taken also where the text has lost its whitespace -/
theorem read_head_ne_refused {p q : List Char} (hp : p.foldl read .start = term)
    (h : (withoutWhitespace (p ++ q)).foldl read .start ≠ refused) :
    ∀ b ∈ q.head?, term.read b ≠ refused := by
  intro b hb
  cases hwhite : isWhitespace b with
  | true =>
    rw [read_whitespace hwhite]
    exact fun hr => nomatch hr
  | false =>
    obtain ⟨q, rfl⟩ := List.head?_eq_some_iff.mp hb
    obtain ⟨a, ha, hterm⟩ := (foldl_read_eq_term_iff (by rw [hp]; exact nofun)).mp hp
    obtain ⟨p, rfl⟩ := List.getLast?_eq_some_iff.mp ha
    have hword : withoutWhitespace (p ++ [a]) = withoutWhitespace p ++ [a] := by
      rw [withoutWhitespace_append, withoutWhitespace_of_isWord ⟨List.cons_ne_nil _ _,
        List.forall_mem_singleton.mpr hterm⟩]
    have hkeep : withoutWhitespace (b :: q) = b :: withoutWhitespace q :=
      List.filter_cons_of_pos (by rw [hwhite]; rfl)
    rw [withoutWhitespace_append, hword, hkeep, List.foldl_append] at h
    have hlast := (foldl_read_eq_term_iff (ne_refused_of_foldl_read h)).mpr
      ⟨a, List.getLast?_concat, hterm⟩
    rw [hlast] at h
    exact ne_refused_of_foldl_read (s := term.read b) h

theorem foldl_read_insert (hc : isWhitespace c = true) {p q : List Char} (hpq : ¬ Fused p q)
    (h : (withoutWhitespace (p ++ q)).foldl read .start ≠ refused) :
    (p ++ c :: q).foldl read .start = refused ↔ (p ++ q).foldl read .start = refused := by
  rw [List.foldl_append, List.foldl_append]
  refine foldl_read_whitespace hc fun hp b hb => ⟨?_, read_head_ne_refused hp h b hb⟩
  obtain ⟨a, ha, hterm⟩ := (foldl_read_eq_term_iff (by rw [hp]; exact nofun)).mp hp
  rw [Bool.eq_false_iff]
  intro hb'
  exact hpq ⟨a, ha, b, hb, .inl ⟨hterm, hb'⟩⟩

end State

/-! ## two texts -/

namespace Expression

variable {raw raw' : String} {e : Expression}

theorem raw_eq (h : parse raw = .ok e) : e.raw = raw := by
  obtain ⟨-, -, t, -, rfl⟩ := parse_eq_ok_iff.mp h
  rfl

/-- only what is left without whitespace counts, as long as the automaton reads all of the text -/
theorem parse_of_clean (h : parse raw = .ok e) (hclean : clean raw' = clean raw)
    (hr : (normalize raw').toList.foldl State.read .start ≠ .refused) :
    parse raw' = .ok { e with raw := raw' } := by
  obtain ⟨-, -, t, ht, rfl⟩ := parse_eq_ok_iff.mp h
  rw [← hclean] at ht ⊢
  exact parse_eq_ok_iff_ofText.mpr ⟨t, (Tree.ofText_withoutWhitespace hr t).mp ht, rfl⟩

section

variable {c : Char} {u v cs cs' : List Char}

theorem toList_normalize (cs : List Char) :
    (normalize (.ofList cs)).toList = normalizeFrom none none cs := by
  rw [normalize, String.toList_ofList, String.toList_ofList]

theorem not_fused_of_parse (hc : isWhitespace c = true)
    (h : parse (.ofList (u ++ c :: v)) = .ok e) : ¬ Fused u v := by
  obtain ⟨hv, -, -⟩ := parse_eq_ok_iff.mp h
  obtain ⟨p, q, hnormal, hfused, -⟩ := exists_normalizeFrom hc u v
  have hr := ne_refused_of_validate hv
  rw [toList_normalize, hnormal] at hr
  exact mt hfused.mpr (State.not_fused hc hr)

/-- whitespace that parts nothing is no part of the clean text, and the automaton reads on behind it
as it would without it -/
theorem clean_insert (hc : isWhitespace c = true) (huv : ¬ Fused u v) :
    clean (.ofList (u ++ c :: v)) = clean (.ofList (u ++ v)) ∧
      ((clean (.ofList (u ++ v))).toList.foldl State.read .start ≠ .refused →
        ((normalize (.ofList (u ++ c :: v))).toList.foldl State.read .start = .refused ↔
          (normalize (.ofList (u ++ v))).toList.foldl State.read .start = .refused)) := by
  obtain ⟨p, q, hnormal, hfused, hnormal'⟩ := exists_normalizeFrom hc u v
  have hdrop : withoutWhitespace (c :: q) = withoutWhitespace q :=
    List.filter_cons_of_neg (by rw [hc]; exact Bool.false_ne_true)
  unfold clean
  rw [toList_normalize, toList_normalize, hnormal, hnormal' huv, String.toList_ofList,
    withoutWhitespace_append, hdrop, ← withoutWhitespace_append]
  exact ⟨rfl, State.foldl_read_insert hc (mt hfused.mp huv)⟩

theorem parse_of_respaced (h : parse (.ofList cs) = .ok e) (hs : Respaced cs cs') :
    parse (.ofList cs') = .ok { e with raw := .ofList cs' } := by
  obtain ⟨hv, hv', -⟩ := parse_eq_ok_iff.mp h
  have hr := ne_refused_of_validate hv
  have hr' := ne_refused_of_validate hv'
  cases hs with
  | delete hc u v =>
    obtain ⟨hclean, hiff⟩ := clean_insert hc (not_fused_of_parse hc h)
    rw [hclean] at hr'
    exact parse_of_clean h hclean.symm (mt (hiff hr').mpr hr)
  | insert hc huv =>
    obtain ⟨hclean, hiff⟩ := clean_insert hc huv
    exact parse_of_clean h hclean (mt (hiff hr').mp hr)

end

/-- **Spacing does not count.** Take any whitespace out of an accepted text, and put any in that
parts neither two characters of terms nor two equal shift characters: the text is accepted with
the same clean text, the same tree and the same registry. -/
theorem parse_respaced (h : parse raw = .ok e)
    (hs : Relation.ReflTransGen Respaced raw.toList raw'.toList) :
    parse raw' = .ok { e with raw := raw' } := by
  have hall (cs : List Char) (hcs : Relation.ReflTransGen Respaced raw.toList cs) :
      parse (.ofList cs) = .ok { e with raw := .ofList cs } := by
    induction hcs with
    | refl =>
      rw [String.ofList_toList, h, ← raw_eq h]
    | tail _ hstep ih =>
      have hnext := parse_of_respaced ih hstep
      exact hnext
  have hraw := hall raw'.toList hs
  rw [String.ofList_toList] at hraw
  exact hraw

/-- the sign is one of negation with a space on either side of it, too -/
theorem parse_respaced_shift : ∃ e, parse "a <<-b" = .ok e ∧
    Relation.ReflTransGen Respaced "a <<-b".toList "a<<\t- b".toList ∧
    parse "a<<\t- b" = .ok { e with raw := "a<<\t- b" } := by
  have hrun : (parse "a <<-b").toOption.isSome = true := by decide +kernel
  obtain ⟨e, he⟩ := Option.isSome_iff_exists.mp hrun
  have h := eq_ok_of_toOption he
  have hraw : "a <<-b".toList = ['a', ' ', '<', '<', '-', 'b'] := by decide +kernel
  have hraw' : "a<<\t- b".toList = ['a', '<', '<', '\t', '-', ' ', 'b'] := by decide +kernel
  have hs : Relation.ReflTransGen Respaced "a <<-b".toList "a<<\t- b".toList := by
    have hdelete := Respaced.delete (c := ' ') (by decide) ['a'] ['<', '<', '-', 'b']
    have htab := Respaced.insert (c := '\t') (by decide) (u := ['a', '<', '<']) (v := ['-', 'b'])
      (mt (fused_iff_clings rfl rfl).mp (by decide))
    have hspace := Respaced.insert (c := ' ') (by decide) (u := ['a', '<', '<', '\t', '-'])
      (v := ['b']) (mt (fused_iff_clings rfl rfl).mp (by decide))
    rw [hraw, hraw']
    exact ((Relation.ReflTransGen.single hdelete).tail htab).tail hspace
  exact ⟨e, h, hs, parse_respaced h hs⟩

end Expression

end WordExpr

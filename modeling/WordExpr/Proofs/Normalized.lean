import WordExpr.Proofs.Spacing

/-!
# The normal spelling stays as it is

`Normalized cs` says what a normal spelling looks like: no shift character right behind the same
one, and no minus sign where an operand begins. Normalizing a text brings it into this form
(`Normalized.append_normalizeFrom`) and leaves a text of this form alone
(`Normalized.normalizeFrom_eq`).

Without its whitespace a normal spelling may be one no longer, since shifts come together (`a< <b`).
The automaton refuses such texts, so that a well-formed text has a clean spelling of normal form
(`Normalized.withoutWhitespace`). `normalize_stable` is what follows for the front end.
-/

namespace WordExpr

/-! ## normal form -/

/-- what a normal spelling may have behind `before` -/
structure MayFollow (before : List Char) (c : Char) : Prop where
  shift : isShift c = true → before.getLast? ≠ some c
  minus : c = '-' → ∃ d ∈ (withoutWhitespace before).getLast?, isBinaryOperator d = false

/-- each character is one that may follow those before it -/
def Normalized (cs : List Char) : Prop := ∀ u c, u ++ [c] <+: cs → MayFollow u c

section

variable {before cs u v : List Char} {c d : Char}

theorem opensOperand_eq_false_iff {kept : Option Char} :
    opensOperand kept = false ↔ ∃ d ∈ kept, isBinaryOperator d = false := by
  cases kept with
  | none => exact iff_of_false (fun h => nomatch h) (fun ⟨_, hd, _⟩ => nomatch hd)
  | some d => exact ⟨fun h => ⟨d, rfl, h⟩, fun ⟨_, hd, h⟩ => Option.some.inj hd ▸ h⟩

theorem withoutWhitespace_concat_whitespace (hc : isWhitespace c = true) :
    withoutWhitespace (before ++ [c]) = withoutWhitespace before := by
  rw [withoutWhitespace_append]
  simp [withoutWhitespace, hc]

theorem withoutWhitespace_concat (hc : isWhitespace c = false) :
    withoutWhitespace (before ++ [c]) = withoutWhitespace before ++ [c] := by
  rw [withoutWhitespace_append]
  simp [withoutWhitespace, hc]

theorem withoutWhitespace_idem (cs : List Char) :
    withoutWhitespace (withoutWhitespace cs) = withoutWhitespace cs := by
  simp [withoutWhitespace]

theorem exists_of_withoutWhitespace_eq (h : withoutWhitespace cs = u ++ c :: v) :
    ∃ x y, cs = x ++ c :: y ∧ withoutWhitespace x = u ∧ withoutWhitespace y = v := by
  obtain ⟨x, y, rfl, rfl, hy⟩ := List.filter_eq_append_iff.mp h
  obtain ⟨gap, y, rfl, hgap, -, rfl⟩ := List.filter_eq_cons_iff.mp hy
  refine ⟨x ++ gap, y, (List.append_assoc ..).symm, ?_, rfl⟩
  have hnil : withoutWhitespace gap = [] := List.filter_eq_nil_iff.mpr hgap
  rw [withoutWhitespace_append, hnil, List.append_nil]
  rfl

theorem isShift_of_isWhitespace (hc : isWhitespace c = true) : isShift c = false := by
  rw [Bool.eq_false_iff]
  exact fun hshift => ne_of_isShift hc hshift rfl

theorem MayFollow.of_isWhitespace (hc : isWhitespace c = true) : MayFollow before c where
  shift hshift := by
    rw [isShift_of_isWhitespace hc] at hshift
    cases hshift
  minus hminus := by
    rw [hminus] at hc
    exact absurd hc (by decide)

/-- a minus sign is left where it subtracts only -/
theorem opensOperand_of_signed {kept : Option Char} (h : signed kept c = '-') :
    opensOperand kept = false := by
  unfold signed at h
  split at h
  · exact absurd h (by decide)
  · next hno =>
    rw [Bool.eq_false_iff]
    exact fun hopens => hno (by rw [h, hopens]; rfl)

theorem signed_eq_self {kept : Option Char} (h : c = '-' → opensOperand kept = false) :
    signed kept c = c := by
  refine if_neg fun hand => ?_
  obtain ⟨hc, hopens⟩ := Bool.and_eq_true_iff.mp hand
  rw [h (beq_iff_eq.mp hc)] at hopens
  cases hopens

theorem isWhitespace_signed (hc : isWhitespace c = false) (kept : Option Char) :
    isWhitespace (signed kept c) = false := by
  unfold signed
  split
  · decide
  · exact hc

/-- whitespace between two binary operators does not make up for the operand -/
theorem State.foldl_read_gap {s : State} (hc : isShift c = true) {gap : List Char}
    (hgap : withoutWhitespace gap = []) : (gap.foldl read (s.read c)).read c = refused := by
  have hclass := CharClass.of?_of_isShift hc
  have hstays : ∀ q : State, q = operator ∨ q = refused →
      gap.foldl read q = operator ∨ gap.foldl read q = refused := by
    intro q hq
    induction gap generalizing q with
    | nil => exact hq
    | cons d gap ih =>
      obtain ⟨hd, hgap⟩ : isWhitespace d = true ∧ withoutWhitespace gap = [] := by
        simpa [withoutWhitespace] using hgap
      rw [List.foldl_cons, read_whitespace hd]
      rcases hq with rfl | rfl
      · exact ih hgap _ (.inl rfl)
      · exact ih hgap _ (.inr rfl)
  have hread : s.read c = operator ∨ s.read c = refused := by
    rw [read_of_class hclass]
    cases s <;> simp [step, beginOperand]
  rcases hstays _ hread with h | h
  · rw [h, read_of_class hclass]
    rfl
  · rw [h, read_of_class hclass]
    rfl

/-! ## normalizing -/

namespace Normalized

theorem nil : Normalized [] := by
  intro u c h
  exact absurd (List.prefix_nil.mp h) (List.append_ne_nil_of_right_ne_nil _ (List.cons_ne_nil _ _))

theorem concat (h : Normalized before) (hc : MayFollow before c) : Normalized (before ++ [c]) := by
  intro u d hd
  rcases List.prefix_concat_iff.mp hd with heq | hprefix
  · obtain ⟨rfl, hlast⟩ := List.append_inj' heq rfl
    obtain rfl := (List.cons.inj hlast).1
    exact hc
  · exact h u d hprefix

/-- `before` is what the spelling begins with, so that its end is all that counts -/
theorem append_normalizeFrom (h : Normalized before) (cs : List Char) : Normalized (before ++
    normalizeFrom before.getLast? (WordExpr.withoutWhitespace before).getLast? cs) := by
  induction cs generalizing before with
  | nil => rwa [normalizeFrom, List.append_nil]
  | cons c cs ih =>
    cases hc : isWhitespace c with
    | true =>
      have hnext := ih (h.concat (.of_isWhitespace hc))
      rw [List.getLast?_concat, withoutWhitespace_concat_whitespace hc, List.append_assoc] at hnext
      rw [normalizeFrom_whitespace hc]
      exact hnext
    | false =>
      by_cases hmerged : isShift (signed (WordExpr.withoutWhitespace before).getLast? c) = true ∧
          before.getLast? = some (signed (WordExpr.withoutWhitespace before).getLast? c)
      · rw [normalizeFrom_merged hc hmerged.1 hmerged.2]
        exact ih h
      · have hfollow : MayFollow before (signed (WordExpr.withoutWhitespace before).getLast? c) :=
          ⟨not_and.mp hmerged, fun hd => opensOperand_eq_false_iff.mp (opensOperand_of_signed hd)⟩
        have hnext := ih (h.concat hfollow)
        rw [List.getLast?_concat, withoutWhitespace_concat (isWhitespace_signed hc _),
          List.getLast?_concat, List.append_assoc] at hnext
        rw [normalizeFrom_kept hc (not_and.mp hmerged)]
        exact hnext

theorem normalizeFrom_eq (h : Normalized (before ++ cs)) :
    normalizeFrom before.getLast? (WordExpr.withoutWhitespace before).getLast? cs = cs := by
  induction cs generalizing before with
  | nil => rw [normalizeFrom]
  | cons c cs ih =>
    have hfollow : MayFollow before c := h before c (by simp)
    rw [List.append_cons] at h
    have hnext := ih h
    cases hc : isWhitespace c with
    | true =>
      rw [List.getLast?_concat, withoutWhitespace_concat_whitespace hc] at hnext
      rw [normalizeFrom_whitespace hc, hnext]
    | false =>
      have hsigned : signed (WordExpr.withoutWhitespace before).getLast? c = c :=
        signed_eq_self fun hminus => opensOperand_eq_false_iff.mpr (hfollow.minus hminus)
      rw [List.getLast?_concat, withoutWhitespace_concat hc, List.getLast?_concat] at hnext
      rw [normalizeFrom_kept hc (by rw [hsigned]; exact hfollow.shift), hsigned, hnext]

/-- taking whitespace out parts nothing that the automaton has read -/
theorem withoutWhitespace (h : Normalized cs) (hr : cs.foldl State.read .start ≠ .refused) :
    Normalized (WordExpr.withoutWhitespace cs) := by
  rintro u c ⟨v, hv⟩
  rw [List.append_assoc] at hv
  obtain ⟨x, y, rfl, rfl, -⟩ := exists_of_withoutWhitespace_eq hv.symm
  have hfollow : MayFollow x c := h x c (by simp)
  refine ⟨fun hshift hlast => ?_, fun hminus => ?_⟩
  · obtain ⟨w, hw⟩ := List.getLast?_eq_some_iff.mp hlast
    obtain ⟨x, gap, rfl, -, hgap⟩ := exists_of_withoutWhitespace_eq hw
    rw [List.foldl_append, List.foldl_cons, List.foldl_append, List.foldl_cons] at hr
    exact State.ne_refused_of_foldl_read hr (State.foldl_read_gap hshift hgap)
  · rw [withoutWhitespace_idem]
    exact hfollow.minus hminus

end Normalized

theorem filter_normalizeFrom (seen kept : Option Char) (cs : List Char) :
    (normalizeFrom seen kept cs).filter isWhitespace = cs.filter isWhitespace := by
  induction cs generalizing seen kept with
  | nil => rw [normalizeFrom]
  | cons c cs ih =>
    cases hc : isWhitespace c with
    | true =>
      rw [normalizeFrom_whitespace hc, List.filter_cons_of_pos hc, List.filter_cons_of_pos hc, ih]
    | false =>
      have hnot : ¬ isWhitespace c = true := Bool.eq_false_iff.mp hc
      by_cases hmerged : isShift (signed kept c) = true ∧ seen = some (signed kept c)
      · rw [normalizeFrom_merged hc hmerged.1 hmerged.2, ih, List.filter_cons_of_neg hnot]
      · have hnot' : ¬ isWhitespace (signed kept c) = true :=
          Bool.eq_false_iff.mp (isWhitespace_signed hc kept)
        rw [normalizeFrom_kept hc (not_and.mp hmerged), List.filter_cons_of_neg hnot',
          List.filter_cons_of_neg hnot, ih]

end

/-! ## the front end -/

section

variable {text raw : String}

theorem normalize_eq_self (h : Normalized text.toList) : normalize text = text := by
  have hnil : Normalized ([] ++ text.toList) := h
  have hsame : normalizeFrom none none text.toList = text.toList := hnil.normalizeFrom_eq
  rw [normalize, hsame, String.ofList_toList]

theorem normalized_normalize (raw : String) : Normalized (normalize raw).toList := by
  rw [normalize, String.toList_ofList]
  exact Normalized.nil.append_normalizeFrom raw.toList

theorem clean_eq_self (h : Normalized text.toList)
    (hw : withoutWhitespace text.toList = text.toList) : clean text = text := by
  rw [clean, normalize_eq_self h, hw, String.ofList_toList]

theorem normalized_clean (h : validate (normalize raw) = .ok ()) :
    Normalized (clean raw).toList := by
  rw [clean, String.toList_ofList]
  exact (normalized_normalize raw).withoutWhitespace (Expression.ne_refused_of_validate h)

theorem clean_clean (h : validate (normalize raw) = .ok ()) : clean (clean raw) = clean raw := by
  refine clean_eq_self (normalized_clean h) ?_
  rw [clean, String.toList_ofList, withoutWhitespace_idem]

theorem Expression.parse_cleaned {e : Expression} (h : parse raw = .ok e) :
    parse e.cleaned = .ok { e with raw := e.cleaned } := by
  obtain ⟨hnormal, hclean, t, -, he⟩ := parse_eq_ok_iff.mp h
  have hcleaned : e.cleaned = clean raw := by rw [he]
  apply parse_of_clean h
  · rw [hcleaned, clean_clean hnormal]
  · rw [hcleaned, normalize_eq_self (normalized_clean hnormal)]
    exact ne_refused_of_validate hclean

/-- **Normalization is stable.** A normal spelling has the whitespace of the text, no run of shift
characters and no minus sign that negates, and is its own normal spelling. The clean spelling of a
well-formed text is its own clean spelling, and that of an accepted one says the same. -/
theorem normalize_stable (raw : String) :
    normalize (normalize raw) = normalize raw ∧
      (normalize raw).toList.filter isWhitespace = raw.toList.filter isWhitespace ∧
      Normalized (normalize raw).toList ∧
      (validate (normalize raw) = .ok () → clean (clean raw) = clean raw) ∧
      ∀ e, Expression.parse raw = .ok e →
        Expression.parse e.cleaned = .ok { e with raw := e.cleaned } := by
  refine ⟨normalize_eq_self (normalized_normalize raw), ?_, normalized_normalize raw, clean_clean,
    fun e h => Expression.parse_cleaned h⟩
  rw [normalize, String.toList_ofList]
  exact filter_normalizeFrom none none raw.toList

/-- the second sign follows a shift, the third one an operand -/
theorem normalize_stable_signs : normalize "-a >>>> - b -c" = "\x60a > \x60 b -c" ∧
    validate (normalize "-a >>>> - b -c") = .ok () ∧
    clean (clean "-a >>>> - b -c") = "\x60a>\x60b-c" ∧
    ∃ e, Expression.parse "-a >>>> - b -c" = .ok e ∧
      Expression.parse e.cleaned = .ok { e with raw := e.cleaned } := by
  have hnormal : normalize "-a >>>> - b -c" = "\x60a > \x60 b -c" := by decide +kernel
  have hclean : clean "-a >>>> - b -c" = "\x60a>\x60b-c" := by decide +kernel
  have hv : validate (normalize "-a >>>> - b -c") = .ok () := by decide +kernel
  have hrun : (Expression.parse "-a >>>> - b -c").toOption.isSome = true := by decide +kernel
  obtain ⟨e, he⟩ := Option.isSome_iff_exists.mp hrun
  obtain ⟨-, -, -, htwice, hagain⟩ := normalize_stable "-a >>>> - b -c"
  have h := eq_ok_of_toOption he
  exact ⟨hnormal, hv, (htwice hv).trans hclean, e, h, hagain e h⟩

/-- shifts that whitespace has kept apart are one the second time -/
example : clean "a< <b" = "a<<b" ∧ clean (clean "a< <b") = "a<b" := by decide +kernel

end

end WordExpr

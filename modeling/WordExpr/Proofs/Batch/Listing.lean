import Mathlib.Data.List.Perm.Basic
import WordExpr.CommandLine.Run
import WordExpr.Proofs.Batch.Groups
import WordExpr.Proofs.Spelling.Words

/-!
# The listing of a batch

A grouped batch ends with a listing: an empty line, and for each group a line that starts with its
digest and one line for each member, with a tab in front. `named` reads the members back from any
text, and from a listing it reads the members of the groups one after the other (`named_listing`).
As the groups of a batch are a partition of its successes, the listing names each of them once
(`perm_named_listing`).
-/

namespace WordExpr

/-! ## lines -/

namespace Text

variable {sep c : Char} {cs xs : List Char}

theorem split_append_cons (h : sep ∉ xs) (cs : List Char) :
    split sep (xs ++ sep :: cs) = xs :: split sep cs := by
  induction xs with
  | nil =>
    rw [List.nil_append, split, if_pos (beq_self_eq_true sep)]
  | cons x xs ih =>
    rw [List.mem_cons, not_or] at h
    obtain ⟨hx, hxs⟩ := h
    rw [List.cons_append, split, if_neg (by simpa using Ne.symm hx), ih hxs]

/-- lines that all have an end are read back, with an empty one behind the last end -/
theorem split_flatMap {ls : List (List Char)} (h : ∀ l ∈ ls, sep ∉ l) :
    split sep (ls.flatMap (· ++ [sep])) = ls ++ [[]] := by
  induction ls with
  | nil => rfl
  | cons l ls ih =>
    obtain ⟨hl, hls⟩ := List.forall_mem_cons.mp h
    rw [List.flatMap_cons, List.append_assoc, List.singleton_append, split_append_cons hl, ih hls,
      List.cons_append]

theorem notMem_of_mem_split (h : xs ∈ split sep cs) : sep ∉ xs := by
  induction cs generalizing xs with
  | nil =>
    rw [List.mem_singleton.mp h]
    exact List.not_mem_nil
  | cons c cs ih =>
    unfold split at h
    by_cases hc : c = sep
    · rw [if_pos (by simpa using hc)] at h
      rcases List.mem_cons.mp h with rfl | h
      · exact List.not_mem_nil
      · exact ih h
    · rw [if_neg (by simpa using hc)] at h
      cases hs : split sep cs with
      | nil =>
        rw [hs] at h
        rw [List.mem_singleton.mp h, List.mem_singleton]
        exact Ne.symm hc
      | cons piece rest =>
        rw [hs] at h ih
        rcases List.mem_cons.mp h with rfl | h
        · rw [List.mem_cons, not_or]
          exact ⟨Ne.symm hc, ih (List.mem_cons_self ..)⟩
        · exact ih (List.mem_cons_of_mem _ h)

theorem mem_of_mem_trimChars (h : c ∈ trimChars cs) : c ∈ cs := by
  have h := (List.dropWhile_sublist isBlank).subset (List.mem_reverse.mp h)
  exact (List.dropWhile_sublist isBlank).subset (List.mem_reverse.mp h)

end Text

open Text

/-- neither a tab nor the end of a line -/
def IsPlain (cs : List Char) : Prop := ∀ c ∈ cs, c ≠ '\t' ∧ c ≠ '\n'

theorem IsPlain.append {xs ys : List Char} (hxs : IsPlain xs) (hys : IsPlain ys) :
    IsPlain (xs ++ ys) :=
  fun c hc => (List.mem_append.mp hc).elim (hxs c) (hys c)

theorem Digest.isPlain_hex (h : Digest) : IsPlain h.hex.toList := by
  have hdigit : ∀ i : Fin 16, Nat.digitChar i ≠ '\t' ∧ Nat.digitChar i ≠ '\n' := by decide
  intro c hc
  rw [hex, String.toList_ofList] at hc
  obtain ⟨x, -, hx⟩ := List.mem_flatMap.mp hc
  have hlt : x.toNat < 256 := x.toNat_lt
  rcases List.mem_cons.mp hx with rfl | hx
  · exact hdigit ⟨x.toNat / 16, by omega⟩
  · rw [List.mem_singleton.mp hx]
    exact hdigit ⟨x.toNat % 16, by omega⟩

theorem isPlain_decimal (n : Nat) : IsPlain (decimal n) := by
  intro c hc
  have hd := isDigit_of_mem_decimal hc
  refine ⟨?_, ?_⟩ <;>
  · rintro rfl
    exact absurd hd (by decide)

namespace Batch

open Shell

/-! ## reading a listing -/

def behindTab? : List Char → Option String
  | '\t' :: cs => some (String.ofList cs)
  | _ => none

/-- what stands behind the tab in the lines that start with one -/
def named (text : String) : List String := (lines text).filterMap fun line => behindTab? line.toList

theorem behindTab?_of_isPlain {cs : List Char} (h : IsPlain cs) : behindTab? cs = none := by
  unfold behindTab?
  split
  · exact absurd rfl (h '\t' (List.mem_cons_self ..)).1
  · rfl

/-! ## the lines of a listing -/

def groupHead (g : Group) : List Char :=
  g.fingerprint.digest.hex.toList ++ " (".toList ++ decimal g.members.length
    ++ " expressions)".toList

def memberChars (es : List Entry) (ids : List Nat) : List (List Char) :=
  ids.filterMap fun i => es[i]?.map fun e => '\t' :: e.raw.toList

/-- the lines of a listing without their ends -/
def listed (es : List Entry) (gs : List Group) : List (List Char) :=
  [] :: gs.flatMap fun g => groupHead g :: memberChars es g.members

variable {es : List Entry} {gs : List Group}

theorem isPlain_groupHead (g : Group) : IsPlain (groupHead g) :=
  ((g.fingerprint.digest.isPlain_hex.append (by simp [IsPlain])).append (isPlain_decimal _)).append
    (by simp [IsPlain])

theorem toList_memberLine (es : List Entry) (i : Nat) :
    (memberLine es i).toList = (memberChars es [i]).flatMap (· ++ ['\n']) := by
  unfold memberLine memberChars
  rw [List.filterMap_cons, List.filterMap_nil]
  cases es[i]? with
  | none => rfl
  | some e =>
    show ("\t" ++ e.raw ++ "\n").toList = _
    rw [String.toList_append, String.toList_append]
    exact (List.append_nil _).symm

theorem flatMap_memberLine (es : List Entry) (ids : List Nat) :
    (ids.map (memberLine es)).flatMap String.toList =
      (memberChars es ids).flatMap (· ++ ['\n']) := by
  induction ids with
  | nil => rfl
  | cons i ids ih =>
    have hcons : memberChars es (i :: ids) = memberChars es [i] ++ memberChars es ids :=
      List.filterMap_append (l := [i])
    rw [List.map_cons, List.flatMap_cons, toList_memberLine, ih, hcons, List.flatMap_append]

theorem flatMap_groupLines (es : List Entry) (g : Group) : (groupLines es g).flatMap String.toList =
    (groupHead g :: memberChars es g.members).flatMap (· ++ ['\n']) := by
  have hend : " expressions)\n".toList = " expressions)".toList ++ ['\n'] := by simp
  have hhead : (s!"{g.fingerprint.digest.hex} ({g.members.length} expressions)\n").toList =
      groupHead g ++ ['\n'] := by
    show (g.fingerprint.digest.hex ++ " (" ++ decimalText g.members.length ++
      " expressions)\n").toList = _
    rw [String.toList_append, String.toList_append, String.toList_append, hend, toList_decimalText,
      groupHead]
    simp only [List.append_assoc]
  rw [groupLines, List.flatMap_cons, flatMap_memberLine, List.flatMap_cons, hhead]

theorem toList_listing (es : List Entry) (gs : List Group) :
    (String.join (listingLines es gs)).toList = (listed es gs).flatMap (· ++ ['\n']) := by
  rw [String.toList_join, listingLines, listed, List.flatMap_cons, List.flatMap_cons,
    List.flatMap_assoc, List.flatMap_assoc]
  simp only [flatMap_groupLines]
  rfl

/-- the end of a line stands nowhere else -/
theorem notMem_listed (hes : ∀ e ∈ es, '\n' ∉ e.raw.toList) (gs : List Group) :
    ∀ l ∈ listed es gs, '\n' ∉ l := by
  refine List.forall_mem_cons.mpr ⟨List.not_mem_nil, fun l hl => ?_⟩
  obtain ⟨g, -, hl⟩ := List.mem_flatMap.mp hl
  rcases List.mem_cons.mp hl with rfl | hl
  · exact fun h => (isPlain_groupHead g '\n' h).2 rfl
  · obtain ⟨i, -, hi⟩ := List.mem_filterMap.mp hl
    obtain ⟨e, he, rfl⟩ := Option.map_eq_some_iff.mp hi
    rw [List.mem_cons, not_or]
    exact ⟨by decide, hes e (List.mem_of_getElem? he)⟩

theorem named_listing (hes : ∀ e ∈ es, '\n' ∉ e.raw.toList) (gs : List Group) :
    named (String.join (listingLines es gs)) =
      (gs.flatMap Group.members).filterMap fun i => es[i]?.map Entry.raw := by
  have hgroup : ∀ g : Group, (groupHead g :: memberChars es g.members).filterMap behindTab? =
      g.members.filterMap fun i => es[i]?.map Entry.raw := by
    intro g
    rw [List.filterMap_cons_none (behindTab?_of_isPlain (isPlain_groupHead g)), memberChars,
      List.filterMap_filterMap]
    congr 1
    funext i
    cases es[i]? with
    | none => rfl
    | some e => exact congrArg some String.ofList_toList
  have hlines : (listed es gs ++ [[]]).filterMap behindTab? =
      (gs.flatMap Group.members).filterMap fun i => es[i]?.map Entry.raw := by
    rw [List.filterMap_append, listed, List.filterMap_cons_none rfl, List.filterMap_flatMap,
      List.filterMap_flatMap]
    simp only [hgroup]
    exact List.append_nil _
  unfold named lines
  rw [toList_listing, split_flatMap (notMem_listed hes gs), List.filterMap_map, ← hlines]
  congr 1
  funext l
  exact congrArg behindTab? String.toList_ofList

/-! ## the members of all groups -/

def Entry.succeeded (e : Entry) : Bool := e.summary?.isSome

theorem filterMap_range {α β : Type} (as : List α) (f : α → Option β) :
    ((List.range as.length).filterMap fun i => as[i]?.bind f) = as.filterMap f := by
  induction as with
  | nil => rfl
  | cons a as ih =>
    rw [List.length_cons, List.range_succ_eq_map, List.filterMap_cons, List.filterMap_cons,
      List.filterMap_map, ← ih]
    rfl

theorem Grouped.perm_flatMap {s : Grouping} (h : Grouped es s) :
    (s.groups.flatMap Group.members).Perm
      ((List.range es.length).filter fun i => (summary? es i).isSome) := by
  refine (List.perm_ext_iff_of_nodup ?_ (List.nodup_range.filter _)).mpr fun i => ?_
  · exact List.nodup_flatMap.mpr ⟨fun g hg =>
      (h.partitions.increasing g hg).imp fun hij => Nat.ne_of_lt hij, h.partitions.disjoint⟩
  · rw [List.mem_flatMap, h.partitions.covers, List.mem_filter, List.mem_range,
      Option.isSome_iff_exists]
    constructor
    · rintro ⟨e, s, he, hs⟩
      have hsome := summary?_eq_some_iff.mpr ⟨e, he, hs⟩
      exact ⟨lt_length_of_summary? hsome, s, hsome⟩
    · rintro ⟨-, s, hs⟩
      obtain ⟨e, he, hes⟩ := summary?_eq_some_iff.mp hs
      exact ⟨e, s, he, hes⟩

/-- the members of all groups are the successes -/
theorem Grouped.perm_raw {s : Grouping} (h : Grouped es s) :
    ((s.groups.flatMap Group.members).filterMap fun i => es[i]?.map Entry.raw).Perm
      ((es.filter Entry.succeeded).map Entry.raw) := by
  refine (h.perm_flatMap.filterMap _).trans (List.Perm.of_eq ?_)
  calc ((List.range es.length).filter fun i => (summary? es i).isSome).filterMap
        (fun i => es[i]?.map Entry.raw)
      = (List.range es.length).filterMap fun i =>
          es[i]?.bind fun e => if e.succeeded then some e.raw else none := by
        rw [List.filterMap_filter]
        refine List.filterMap_congr fun i _ => ?_
        unfold summary? Entry.succeeded
        cases es[i]? with
        | none => rfl
        | some e => rfl
    _ = es.filterMap fun e => if e.succeeded then some e.raw else none := filterMap_range es _
    _ = (es.filter Entry.succeeded).map Entry.raw := by
        rw [← List.filterMap_eq_map, List.filterMap_filter]
        rfl

/-! ## batches as they are read -/

/-- an expression is what stands in one line -/
theorem notMem_raw_of_mem_entries {input : String} {w : Width} {e : Entry}
    (h : e ∈ entries input w) : '\n' ∉ e.raw.toList := by
  obtain ⟨⟨line, raw⟩, hline, rfl⟩ := List.mem_map.mp h
  obtain ⟨⟨text, n⟩, hn, heq⟩ := List.mem_map.mp (List.mem_filter.mp hline).1
  obtain ⟨hl, hr⟩ := Prod.mk.inj heq
  obtain ⟨cs, hcs, rfl⟩ := List.mem_map.mp (List.fst_mem_of_mem_zipIdx hn)
  show '\n' ∉ raw.toList
  rw [← hr, trim, String.toList_ofList, String.toList_ofList]
  exact fun hmem => notMem_of_mem_split hcs (mem_of_mem_trimChars hmem)

/-- the listing of a batch names every success once -/
theorem perm_named_listing (input : String) (w : Width) :
    (named (String.join (listingLines (entries input w) (groups (entries input w))))).Perm
      (((entries input w).filter Entry.succeeded).map Entry.raw) := by
  rw [named_listing fun e he => notMem_raw_of_mem_entries he]
  exact (grouped_grouping (entries input w)).perm_raw

end Batch

end WordExpr

import WordExpr.Proofs.Batch.Listing
import WordExpr.Proofs.CommandLine.Desk

/-!
# What a grouped batch prints

A run with `--batch` and `--group` makes its output ready, writes a line for each success and then
the listing of the groups, and tells about it (`Desk.run_grouped`). On a full device it fails, and
tells of the groups only where all lines could be held back (`Desk.run_grouped_full`).

`groups_partition`: the groups of a batch are a partition of its successes, so what is printed of
them names each success once.
-/

namespace WordExpr

/-! ## grouped runs -/

namespace Batch

/-- what a batch writes before its listing -/
def successText (es : List Entry) : String := String.join (es.filterMap Shell.successLine?)

def listingText (es : List Entry) : String := String.join (Shell.listingLines es (groups es))

/-- a listing begins with an empty line -/
theorem size_listingText_pos (es : List Entry) : 0 < (listingText es).toUTF8.size := by
  unfold listingText Shell.listingLines
  rw [String.join_cons]
  exact Nat.lt_of_lt_of_eq (Nat.add_pos_left (by decide) _) ByteArray.size_append.symm

/-- the messages of a batch before it writes -/
def announced (es : List Entry) (c : Config) (d : Desk) : Desk :=
  (d.tell c .info [Shell.batchNews es c.width]).tell c .warn (es.filterMap Shell.failureLine?)

/-- all messages of a grouped batch -/
def told (es : List Entry) (c : Config) (d : Desk) : Desk :=
  ((announced es c d).tell c .info [Shell.groupsNews (groups es)]).tell c .warn
    (Shell.failedNews es)

end Batch

namespace Desk

variable {machine : Machine} {c : Config} {es : List Batch.Entry}

theorem run_putListing {d d' : Desk} {held held' : ByteArray}
    (h : ((shell machine).putAll c.output held
      (Shell.listingLines es (Batch.groups es))).run.run d = (.ok held', d')) :
      ((shell machine).putListing c es held).run.run d =
        (.ok held', d'.tell c .info [Shell.groupsNews (Batch.groups es)]) := by
  unfold Shell.putListing
  rw [run_bind_of_ok h, run_bind_of_ok (run_lift (run_tell d' c .info machine _))]
  rfl

theorem run_writeBatch (ht : Takes (machine.locateOutput c.output)) (d : Desk)
    (es : List Batch.Entry) :
    ((shell machine).writeBatch c es true).run.run d = (.ok (),
      ((d.wrote (machine.locateOutput c.output)
        (Batch.successText es ++ Batch.listingText es).toUTF8).tell c .info
          [Shell.groupsNews (Batch.groups es)]).tell c .warn (Shell.failedNews es)) := by
  obtain ⟨held₁, d₁, hlines, h₁⟩ := run_putAll ht d .empty (es.filterMap Shell.successLine?)
  obtain ⟨held₂, d₂, hlisting, h₂⟩ :=
    run_putAll ht d₁ held₁ (Shell.listingLines es (Batch.groups es))
  have htext : d₂.wrote (machine.locateOutput c.output) held₂ =
      d.wrote (machine.locateOutput c.output)
        (Batch.successText es ++ Batch.listingText es).toUTF8 := by
    rw [h₂, ← wrote_wrote, h₁, wrote_wrote, ByteArray.empty_append]
    rfl
  unfold Shell.writeBatch
  rw [run_bind_of_ok hlines, if_pos rfl, run_bind_of_ok (run_putListing hlisting),
    run_bind_of_ok (run_write_of_takes ht _ held₂), wrote_tell, htext]
  exact run_lift (run_tellAll ..)

theorem run_putListing_of_error {d d' : Desk} {held : ByteArray} {why : String}
    (h : ((shell machine).putAll c.output held
      (Shell.listingLines es (Batch.groups es))).run.run d = (.error why, d')) :
      ((shell machine).putListing c es held).run.run d = (.error why, d') := by
  unfold Shell.putListing
  exact run_bind_of_error h _

/-- on a full device the groups are told of only if all lines are still held back -/
theorem run_writeBatch_full (hfull : machine.locateOutput c.output = .device .full) (d : Desk)
    (es : List Batch.Entry) :
    ((shell machine).writeBatch c es true).run.run d = (.error (machine.wording .full),
      if (Batch.successText es ++ Batch.listingText es).toUTF8.size ≤ Shell.bufferSize then
        d.tell c .info [Shell.groupsNews (Batch.groups es)] else d) := by
  have hsize : (Batch.successText es ++ Batch.listingText es).toUTF8.size =
      (Batch.successText es).toUTF8.size + (Batch.listingText es).toUTF8.size :=
    ByteArray.size_append
  have hsuccess : .empty ++ (String.join (es.filterMap Shell.successLine?)).toUTF8 =
      (Batch.successText es).toUTF8 := ByteArray.empty_append
  have hall : (Batch.successText es).toUTF8 ++
      (String.join (Shell.listingLines es (Batch.groups es))).toUTF8 =
        (Batch.successText es ++ Batch.listingText es).toUTF8 := rfl
  have hlines := run_putAll_full hfull d (Nat.zero_le _) hsuccess
  unfold Shell.writeBatch
  by_cases hfits : (Batch.successText es).toUTF8.size ≤ Shell.bufferSize
  · have hlisting := run_putAll_full hfull d hfits hall
    rw [if_pos hfits] at hlines
    rw [run_bind_of_ok hlines, if_pos rfl]
    split
    · next hheld =>
      rw [if_pos hheld] at hlisting
      have hpos := Batch.size_listingText_pos es
      rw [run_bind_of_ok (run_putListing hlisting)]
      exact run_bind_of_error (run_write_full hfull _ (by omega)) _
    · next hover =>
      rw [if_neg hover] at hlisting
      exact run_bind_of_error (run_putListing_of_error hlisting) _
  · rw [if_neg hfits] at hlines
    rw [if_neg (by omega)]
    exact run_bind_of_error hlines _

theorem perform_batch {o : Options} {path : String} (hb : o.batch = some path) :
    (shell machine).perform c o = (shell machine).runBatch c path o.group := by
  unfold Shell.perform
  rw [hb]

/-- what comes before the lines of a batch -/
theorem run_runBatch {path input : String} {opened d : Desk}
    (hread : ((shell machine).source path).run.run d = (.ok input, d))
    (hready : d.ready (machine.locateOutput c.output) = (.ok (), opened)) (grouped : Bool) :
    ((shell machine).runBatch c path grouped).run.run d =
      ((shell machine).writeBatch c (Batch.entries input c.width) grouped).run.run
        (Batch.announced (Batch.entries input c.width) c opened) := by
  generalize hes : Batch.entries input c.width = es
  have hopen : (Batch.announced es c d).ready (machine.locateOutput c.output) =
      (.ok (), Batch.announced es c opened) := by
    unfold Batch.announced
    rw [ready_tell, ready_tell, hready]
  unfold Shell.runBatch
  rw [run_bind_of_ok hread, hes, run_bind_of_ok (run_lift (run_tell d c .info machine _)),
    run_bind_of_ok (run_lift (run_tellAll _ c .warn machine _))]
  exact run_bind_of_ok (run_ready hopen) _

section

variable {args : List String} {o : Options} {path input : String} {d : Desk}
  (ho : Options.ofArgs args = .ok o) (hb : o.batch = some path) (hg : o.group = true)
  (hc : o.config = .ok c) (hread : ((shell machine).source path).run.run d = (.ok input, d))
include ho hb hg hc hread

/-- what a grouped run leaves on a desk -/
theorem run_grouped {opened : Desk}
    (hready : d.ready (machine.locateOutput c.output) = (.ok (), opened))
    (ht : Takes (machine.locateOutput c.output)) :
    ((shell machine).run args).run d = (.success,
      (Batch.told (Batch.entries input c.width) c (opened.wrote (machine.locateOutput c.output)
        (Batch.successText (Batch.entries input c.width) ++
          Batch.listingText (Batch.entries input c.width)).toUTF8)).tell c .info
            ["Done in 0.000 s"]) := by
  rw [Shell.run_of_options ho]
  refine run_runOptions_of_ok hc ?_
  rw [perform_batch hb, hg, run_runBatch hread hready, run_writeBatch ht]
  unfold Batch.announced
  rw [wrote_tell, wrote_tell]
  rfl

theorem run_grouped_full (hfull : machine.locateOutput c.output = .device .full) :
    ((shell machine).run args).run d = (.failure, complain
      (if (Batch.successText (Batch.entries input c.width) ++
          Batch.listingText (Batch.entries input c.width)).toUTF8.size ≤ Shell.bufferSize then
        (Batch.announced (Batch.entries input c.width) c d).tell c .info
          [Shell.groupsNews (Batch.groups (Batch.entries input c.width))]
      else Batch.announced (Batch.entries input c.width) c d) (machine.wording .full)) := by
  have hready : d.ready (machine.locateOutput c.output) = (.ok (), d) := by
    rw [hfull]
    rfl
  rw [Shell.run_of_options ho]
  refine run_runOptions_of_error hc ?_
  rw [perform_batch hb, hg, run_runBatch hread hready, run_writeBatch_full hfull]

end

end Desk

/-! ## what is printed -/

namespace Batch

theorem holds_told (es : List Entry) (c : Config) (d : Desk) (l : Location) :
    (told es c d).holds l = d.holds l := by
  unfold told announced
  rw [Desk.holds_tell, Desk.holds_tell, Desk.holds_tell, Desk.holds_tell]

/-- **Groups are a partition of the successes.** The index of the groups is in step with them.
Their members are the places of the entries that succeeded, in increasing order within a group and
by first members among the groups; two of them are together exactly if their digests are equal, and
a group has the fingerprint of its first member. So what a grouped run leaves in its output, behind
a line for each success, is a listing that names every success once. -/
theorem groups_partition :
    (∀ es, (grouping es).InStep ∧ Partitions es (groups es)) ∧
    ∀ (machine : Machine) (d : Desk) (args : List String) (o : Options) (path input : String)
      (c : Config) (before : ByteArray), Options.ofArgs args = .ok o → o.batch = some path →
      o.group = true → o.config = .ok c →
      ((Desk.shell machine).source path).run.run d = (.ok input, d) →
      (d.ready (machine.locateOutput c.output)).2.holds (machine.locateOutput c.output) =
        some before →
      ∃ listing d', ((Desk.shell machine).run args).run d = (.success, d') ∧
        d'.holds (machine.locateOutput c.output) =
          some (before ++ (successText (entries input c.width) ++ listing).toUTF8) ∧
        (named listing).Perm (((entries input c.width).filter Entry.succeeded).map Entry.raw) := by
  refine ⟨fun es => ⟨(grouped_grouping es).inStep, (grouped_grouping es).partitions⟩, ?_⟩
  intro machine d args o path input c before ho hb hg hc hread hbefore
  have hrun := Desk.run_grouped ho hb hg hc hread (Desk.ready_of_holds hbefore)
    (Desk.takes_of_holds hbefore)
  refine ⟨listingText (entries input c.width), _, hrun, ?_, perm_named_listing input c.width⟩
  rw [Desk.holds_tell, holds_told, Desk.holds_wrote hbefore]

/-- two sums and a conjunction of bits, and a line that is not accepted -/
theorem groups_partition_sums : ∃ listing d',
    (Desk.shell.run ["--batch", "-", "--group"]).run { stdin := "a+b\n)\nb+a\na&b\n" } =
      (.success, d') ∧
    d'.stdout = (successText (entries "a+b\n)\nb+a\na&b\n" .single) ++ listing).toUTF8 ∧
    (named listing).Perm ["a+b", "b+a", "a&b"] := by
  have hraw : ((entries "a+b\n)\nb+a\na&b\n" .single).filter Entry.succeeded).map Entry.raw =
      ["a+b", "b+a", "a&b"] := by
    decide +kernel
  obtain ⟨listing, d', hrun, hholds, hperm⟩ := groups_partition.2 {}
    { stdin := "a+b\n)\nb+a\na&b\n" } ["--batch", "-", "--group"]
    { batch := some "-", group := true } "-" "a+b\n)\nb+a\na&b\n" ⟨.single, .stdout, .normal⟩
    .empty rfl rfl rfl rfl rfl rfl
  rw [ByteArray.empty_append] at hholds
  exact ⟨listing, d', hrun, Option.some.inj hholds, hraw ▸ hperm⟩

-- a failure between successes, the first and the last of which have one digest
example :
    let success (a : UInt32) : Entry := ⟨1, "x", .ok ⟨"a", 1, 1, ⟨⟨a, 0, 0, 0⟩, 2, 0⟩⟩⟩
    let failure : Entry := ⟨2, ")", .error (.unsupportedWidth 0)⟩
    (groups [success 1, failure, success 2, success 1]).map Group.members = [[0, 3], [2]] := by
  decide

end Batch

end WordExpr

import WordExpr.CommandLine.Run

/-!
# Runs on a desk

What the effects of a shell do to a desk, for any machine:

* `lookup_setFile`      a file that is written holds what was written, the others what they held;
* `tell`                messages, which change nothing but the log;
* `run_bind_of_ok`      the steps of a run that succeed, one after the other;
* `wrote`               bytes that went to an output. What is held back for it plays no part: `put`
                        comes to the same as writing at once (`run_put`).
-/

namespace WordExpr

section

variable {m : Type → Type} [Monad m] {args : List String} {o : Options} {c : Config}

theorem Shell.run_of_options (ho : Options.ofArgs args = .ok o) (sh : Shell m) :
    sh.run args = sh.runOptions o := by
  unfold run
  rw [ho]

theorem Shell.runOptions_of_config (hc : o.config = .ok c) (sh : Shell m) : sh.runOptions o = (do
      match ← (sh.perform c o).run with
      | .error text => sh.fail text
      | .ok () =>
        sh.tell c .info s!"Done in {← sh.elapsed} s"
        pure .success) := by
  unfold runOptions
  split
  · next why h => cases hc.symm.trans h
  · next c' h =>
    cases hc.symm.trans h
    rfl

end

namespace Desk

/-! ## files -/

theorem lookup_setFile (name other : String) (bytes : ByteArray)
    (files : List (String × ByteArray)) : (setFile name bytes files).lookup other =
      if other = name then some bytes else files.lookup other := by
  have hcons (n : String) (b : ByteArray) (fs : List (String × ByteArray)) :
      ((n, b) :: fs).lookup other = if other = n then some b else fs.lookup other := by
    rw [List.lookup_cons]
    by_cases h : other = n
    · rw [beq_iff_eq.mpr h, if_pos h]
    · rw [beq_eq_false_iff_ne.mpr h, if_neg h]
  induction files with
  | nil => exact hcons name bytes []
  | cons f fs ih =>
    obtain ⟨n, b⟩ := f
    unfold setFile
    split
    · next hn =>
      rw [hcons, hcons, hn]
      split
      · rfl
      · rfl
    · next hn =>
      rw [hcons, hcons, ih]
      split
      · next h => rw [if_neg (h ▸ hn)]
      · rfl

theorem setFile_setFile (name : String) (bytes bytes' : ByteArray)
    (files : List (String × ByteArray)) :
    setFile name bytes (setFile name bytes' files) = setFile name bytes files := by
  induction files with
  | nil => simp [setFile]
  | cons f fs ih =>
    by_cases hf : f.1 = name
    · simp [setFile, hf]
    · simp [setFile, hf, ih]

theorem file?_empty (d : Desk) (name other : String) :
    (d.empty name).file? other = if other = name then some .empty else d.file? other :=
  lookup_setFile name other .empty d.files

theorem append_empty (d : Desk) (name : String) :
    (d.empty name).append name .empty = d.empty name := by
  unfold append
  rw [file?_empty, if_pos rfl]
  simp [empty, setFile_setFile]

/-! ## messages -/

def complain (d : Desk) (text : String) : Desk := { d with complaints := d.complaints ++ [text] }

/-- with more messages, if they are shown -/
def tell (d : Desk) (c : Config) (level : Level) (texts : List String) : Desk :=
  { d with log := d.log ++ if c.verbosity.shows level then texts.map (level, ·) else [] }

section

variable (d : Desk) (c : Config) (level : Level) (machine : Machine)

theorem tell_nil : d.tell c level [] = d := by simp [tell]

theorem tell_tell (texts texts' : List String) :
    (d.tell c level texts).tell c level texts' = d.tell c level (texts ++ texts') := by
  unfold tell
  split
  · simp
  · simp

theorem file?_tell (texts : List String) (name : String) :
    (d.tell c level texts).file? name = d.file? name := rfl

theorem ready_tell (texts : List String) (l : Location) : (d.tell c level texts).ready l =
    ((d.ready l).1, (d.ready l).2.tell c level texts) := by
  cases l <;> rfl

theorem run_fail (text : String) :
    ((shell machine).fail text).run d = (.failure, d.complain text) := rfl

theorem run_tell (text : String) :
    ((shell machine).tell c level text).run d = ((), d.tell c level [text]) := by
  unfold Shell.tell tell
  split
  · rfl
  · rw [List.append_nil]
    rfl

theorem run_tellAll (texts : List String) :
    ((shell machine).tellAll c level texts).run d = ((), d.tell c level texts) := by
  induction texts generalizing d with
  | nil => exact congrArg (Prod.mk ()) (d.tell_nil c level).symm
  | cons text texts ih =>
    show ((shell machine).tell c level text >>= fun _ =>
      (shell machine).tellAll c level texts).run d = _
    rw [StateT.run_bind, run_tell]
    show ((shell machine).tellAll c level texts).run (d.tell c level [text]) = _
    rw [ih, tell_tell]
    rfl

end

/-! ## one step after the other -/

section

variable {α β : Type} {x : ExceptT String (StateM Desk) α} {d d' : Desk} {a : α} {why : String}

theorem run_bind_of_ok (h : x.run.run d = (.ok a, d'))
    (f : α → ExceptT String (StateM Desk) β) : (x >>= f).run.run d = (f a).run.run d' := by
  rw [ExceptT.run_bind, StateT.run_bind, h]
  rfl

theorem run_bind_of_error (h : x.run.run d = (.error why, d'))
    (f : α → ExceptT String (StateM Desk) β) : (x >>= f).run.run d = (.error why, d') := by
  rw [ExceptT.run_bind, StateT.run_bind, h]
  rfl

/-- what cannot fail -/
theorem run_lift {y : StateM Desk α} (h : y.run d = (a, d')) :
    (liftM y : ExceptT String (StateM Desk) α).run.run d = (.ok a, d') := by
  show (Except.ok <$> y).run d = _
  rw [StateT.run_map, h]
  rfl

theorem run_try {x : ExceptT String (StateM Desk) Unit} {r : Except String Unit}
    (h : x.run.run d = (r, d')) :
    (tryCatch x fun _ => pure ()).run.run d = (.ok (), d') := by
  rw [ExceptT.run_tryCatch, StateT.run_bind, h]
  cases r with
  | ok _ => rfl
  | error _ => rfl

variable {machine : Machine} {out : Output} {r : Except Trouble Unit}

theorem run_ready (h : d.ready (machine.locateOutput out) = (r, d')) :
    ((shell machine).ready out).run.run d = (r.mapError machine.wording, d') := by
  show (Except.mapError _ (d.ready _).1, (d.ready _).2) = _
  rw [h]

end

/-! ## whole runs -/

section

variable {machine : Machine} {o : Options} {c : Config} {d d' : Desk}

theorem run_runOptions_of_ok (hc : o.config = .ok c)
    (h : ((shell machine).perform c o).run.run d = (.ok (), d')) :
    ((shell machine).runOptions o).run d = (.success, d'.tell c .info ["Done in 0.000 s"]) := by
  rw [Shell.runOptions_of_config hc, StateT.run_bind, h]
  show ((shell machine).tell c .info "Done in 0.000 s" >>= fun _ => pure Ending.success).run d' = _
  rw [StateT.run_bind, run_tell]
  rfl

theorem run_runOptions_of_error {why : String} (hc : o.config = .ok c)
    (h : ((shell machine).perform c o).run.run d = (.error why, d')) :
    ((shell machine).runOptions o).run d = (.failure, d'.complain why) := by
  rw [Shell.runOptions_of_config hc, StateT.run_bind, h]
  rfl

end

/-! ## output -/

/-- what is left of a desk when bytes went to an output -/
def wrote (d : Desk) (l : Location) (bytes : ByteArray) : Desk := (d.write bytes l).2

/-- no write fails -/
def Takes (l : Location) : Prop := ∀ (d : Desk) (bytes : ByteArray), (d.write bytes l).1 = .ok ()

section

variable (d : Desk) (l : Location) (bytes bytes' : ByteArray)

theorem append_append (name : String) :
    (d.append name bytes).append name bytes' = d.append name (bytes ++ bytes') := by
  have hfile : (d.append name bytes).file? name = some ((d.file? name).getD .empty ++ bytes) := by
    rw [append, file?, lookup_setFile, if_pos rfl]
  unfold append at hfile ⊢
  rw [hfile, Option.getD_some, setFile_setFile, ByteArray.append_assoc]

theorem wrote_wrote : (d.wrote l bytes).wrote l bytes' = d.wrote l (bytes ++ bytes') := by
  cases l with
  | file name => exact d.append_append bytes bytes' name
  | device v =>
    cases v with
    | stdout => simp [wrote, write, ByteArray.append_assoc]
    | stdin | stderr | null | full => rfl
  | outside | nowhere => rfl

theorem wrote_wrote_empty : (d.wrote l bytes).wrote l .empty = d.wrote l bytes := by
  rw [wrote_wrote, ByteArray.append_empty]

theorem wrote_empty_of_ready : (d.ready l).2.wrote l .empty = (d.ready l).2 := by
  cases l with
  | file name => exact d.append_empty name
  | device v =>
    cases v with
    | stdout => simp [ready, wrote, write]
    | stdin | stderr | null | full => rfl
  | outside | nowhere => rfl

theorem wrote_tell (c : Config) (level : Level) (texts : List String) :
    (d.tell c level texts).wrote l bytes = (d.wrote l bytes).tell c level texts := by
  cases l with
  | device v => cases v <;> rfl
  | file | outside | nowhere => rfl

theorem run_write (machine : Machine) (out : Output) :
    ((shell machine).write out bytes).run.run d =
      ((d.write bytes (machine.locateOutput out)).1.mapError machine.wording,
        d.wrote (machine.locateOutput out) bytes) := rfl

end

section

variable {machine : Machine} {out : Output} (ht : Takes (machine.locateOutput out)) (d : Desk)
include ht

theorem run_write_of_takes (bytes : ByteArray) : ((shell machine).write out bytes).run.run d =
    (.ok (), d.wrote (machine.locateOutput out) bytes) := by
  rw [run_write, ht]
  rfl

theorem run_put (held bytes : ByteArray) :
    ∃ held' d', ((shell machine).put out held bytes).run.run d = (.ok held', d') ∧
      d'.wrote (machine.locateOutput out) held' =
        d.wrote (machine.locateOutput out) (held ++ bytes) := by
  unfold Shell.put
  split
  · exact ⟨held ++ bytes, d, rfl, rfl⟩
  · exact ⟨.empty, _, run_bind_of_ok (run_write_of_takes ht d _) _, d.wrote_wrote_empty _ _⟩

theorem run_putAll (held : ByteArray) (texts : List String) :
    ∃ held' d', ((shell machine).putAll out held texts).run.run d = (.ok held', d') ∧
      d'.wrote (machine.locateOutput out) held' =
        d.wrote (machine.locateOutput out) (held ++ (String.join texts).toUTF8) := by
  induction texts generalizing held d with
  | nil => exact ⟨held, d, rfl, congrArg _ ByteArray.append_empty.symm⟩
  | cons text texts ih =>
    obtain ⟨held₁, d₁, hput, h₁⟩ := run_put ht d held text.toUTF8
    obtain ⟨held₂, d₂, hall, h₂⟩ := ih d₁ held₁
    refine ⟨held₂, d₂, ?_, ?_⟩
    · rw [Shell.putAll, List.foldlM_cons, run_bind_of_ok hput]
      exact hall
    · rw [h₂, ← wrote_wrote, h₁, wrote_wrote, ByteArray.append_assoc, String.join_cons]
      rfl

end

section

variable {machine : Machine} {out : Output} {held : ByteArray}
  (hfull : machine.locateOutput out = .device .full) (d : Desk)
include hfull

theorem run_write_full {bytes : ByteArray} (hb : 0 < bytes.size) :
    ((shell machine).write out bytes).run.run d = (.error (machine.wording .full), d) := by
  have hempty : ¬bytes.isEmpty = true := by
    rw [ByteArray.isEmpty, beq_iff_eq]
    exact Nat.ne_of_gt hb
  rw [run_write, hfull, write, if_neg hempty]
  rfl

theorem run_put_full (held bytes : ByteArray) : ((shell machine).put out held bytes).run.run d =
    (if held.size + bytes.size ≤ Shell.bufferSize then .ok (held ++ bytes)
      else .error (machine.wording .full), d) := by
  unfold Shell.put
  by_cases h : held.size + bytes.size ≤ Shell.bufferSize
  · rw [if_pos h, if_pos h]
    rfl
  · rw [if_neg h, if_neg h]
    exact run_bind_of_error (run_write_full hfull d (by rw [ByteArray.size_append]; omega)) _

/-- a full device is found out as soon as there is more than is held back -/
theorem run_putAll_full {texts : List String} {bytes : ByteArray}
    (hheld : held.size ≤ Shell.bufferSize) (h : held ++ (String.join texts).toUTF8 = bytes) :
    ((shell machine).putAll out held texts).run.run d = (if bytes.size ≤ Shell.bufferSize then
      .ok bytes else .error (machine.wording .full), d) := by
  induction texts generalizing held with
  | nil =>
    have hnil : held = bytes := ByteArray.append_empty.symm.trans h
    rw [← hnil, if_pos hheld]
    rfl
  | cons text texts ih =>
    have hcons : held ++ text.toUTF8 ++ (String.join texts).toUTF8 = bytes := by
      rw [← h, String.join_cons, ByteArray.append_assoc]
      rfl
    rw [Shell.putAll, List.foldlM_cons]
    have hput := run_put_full hfull d held text.toUTF8
    by_cases hfits : held.size + text.toUTF8.size ≤ Shell.bufferSize
    · rw [if_pos hfits] at hput
      rw [run_bind_of_ok hput]
      exact ih (by rwa [ByteArray.size_append]) hcons
    · have hbytes : ¬bytes.size ≤ Shell.bufferSize := by
        rw [← hcons, ByteArray.size_append, ByteArray.size_append]
        omega
      rw [if_neg hfits] at hput
      rw [run_bind_of_error hput, if_neg hbytes]

end

/-! ## what an output holds -/

/-- nothing where what was written is out of sight -/
def holds (d : Desk) : Location → Option ByteArray
  | .file name => d.file? name
  | .device .stdout => some d.stdout
  | .device _ | .outside | .nowhere _ => none

variable {d : Desk} {l : Location} {bs : ByteArray}

theorem takes_of_holds (h : d.holds l = some bs) : Takes l := by
  intro d' bytes
  cases l with
  | file name => rfl
  | device v =>
    cases v with
    | stdout => rfl
    | stdin | stderr | null | full => cases h
  | outside | nowhere => cases h

/-- an output that holds something has been opened -/
theorem ready_of_holds (h : (d.ready l).2.holds l = some bs) :
    d.ready l = (.ok (), (d.ready l).2) := by
  cases l with
  | file | device | outside => rfl
  | nowhere => cases h

theorem holds_wrote (h : d.holds l = some bs) (bytes : ByteArray) :
    (d.wrote l bytes).holds l = some (bs ++ bytes) := by
  cases l with
  | file name =>
    show (d.append name bytes).file? name = _
    rw [append, file?, lookup_setFile, if_pos rfl, show d.file? name = some bs from h]
    rfl
  | device v =>
    cases v with
    | stdout => exact congrArg (fun b => some (b ++ bytes)) (Option.some.inj h)
    | stdin | stderr | null | full => cases h
  | outside | nowhere => cases h

theorem holds_tell (d : Desk) (c : Config) (level : Level) (texts : List String) (l : Location) :
    (d.tell c level texts).holds l = d.holds l := by
  cases l with
  | device v => cases v <;> rfl
  | file | outside | nowhere => rfl

end Desk

end WordExpr

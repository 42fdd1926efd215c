import WordExpr.Proofs.Accepted
import WordExpr.Proofs.CommandLine.Desk
import WordExpr.Proofs.Table.Line

/-!
# Runs that are refused

A run of one expression is refused for one of four reasons: its width is not supported, it has no
expression, its expression is not accepted, or its table would be too large. What a shell is asked
to do for such a run is the same for all shells:

* `Options.Unfit`   the first three reasons, each with its complaint. Nothing is done but to
                    complain (`Shell.runOptions_unfit`);
* `Options.Fit`     none of the three (`Options.exists_fit_iff`). It is the table that looks at its
                    size, and so the output has been made ready before
                    (`Shell.runSingle_oversized`).

`Desk.run_refused` says what both come to on a desk, where a file that is made ready loses what it
held.
-/

namespace WordExpr

/-! ## what is known of the options -/

namespace Options

/-- the expression as it was given -/
def text (o : Options) : String := " ".intercalate o.words

/-- no table is begun, whatever its size would be, with the complaint about it -/
inductive Unfit (o : Options) : String → Prop where
  | width {why : Error} (h : o.config = .error why) : Unfit o why.message
  | blank {c : Config} (hc : o.config = .ok c) (h : Text.trim o.text = "") :
    Unfit o "no expression given (pass EXPR or --batch FILE)"
  | malformed {c : Config} {why : Error} (hc : o.config = .ok c) (hw : Text.trim o.text ≠ "")
    (h : Expression.parse o.text = .error why) :
    Unfit o s!"Failed to parse {Text.quote o.text}: {why.message}"

structure Fit (o : Options) (c : Config) (e : Expression) : Prop where
  config : o.config = .ok c
  given : Text.trim o.text ≠ ""
  parsed : Expression.parse o.text = .ok e

theorem output_eq_of_config {o : Options} {c : Config} (h : o.config = .ok c) :
    c.output = o.output.getD .stdout := by
  unfold config Config.of at h
  cases hw : widthOf (o.bits.getD Width.single.bits) with
  | error why =>
    rw [hw] at h
    cases h
  | ok w =>
    rw [hw] at h
    cases h
    rfl

theorem Fit.not_unfit {o : Options} {c : Config} {e : Expression} (h : o.Fit c e) (text : String) :
    ¬o.Unfit text := by
  intro hunfit
  cases hunfit with
  | width hwidth => cases h.config.symm.trans hwidth
  | blank _ hblank => exact h.given hblank
  | malformed _ _ hparse => cases h.parsed.symm.trans hparse

theorem exists_fit_iff {o : Options} : (∃ c e, o.Fit c e) ↔ ∀ text, ¬o.Unfit text := by
  constructor
  · rintro ⟨c, e, h⟩
    exact h.not_unfit
  · intro h
    cases hc : o.config with
    | error why => exact absurd (.width hc) (h _)
    | ok c =>
      have hw : Text.trim o.text ≠ "" := fun hw => h _ (.blank hc hw)
      cases he : Expression.parse o.text with
      | error why => exact absurd (.malformed hc hw he) (h _)
      | ok e => exact ⟨c, e, hc, hw, he⟩

end Options

/-! ## what a shell is asked to do -/

namespace Shell

variable {m : Type → Type} [Monad m] {sh : Shell m} {o : Options} {c : Config} {e : Expression}

theorem perform_single (hb : o.batch = none) : sh.perform c o = sh.runSingle c o.text := by
  unfold perform
  rw [hb]
  rfl

variable [LawfulMonad m]

/-- a refusal is complained of, and that is all -/
theorem runOptions_of_throw {text : String} (hb : o.batch = none) (hc : o.config = .ok c)
    (h : sh.runSingle c o.text = throw text) : sh.runOptions o = sh.fail text := by
  rw [runOptions_of_config hc, perform_single hb, h, ExceptT.run_throw, pure_bind]

theorem runOptions_unfit {text : String} (hb : o.batch = none) (h : o.Unfit text) :
    sh.runOptions o = sh.fail text := by
  cases h with
  | width h =>
    unfold runOptions
    rw [h]
  | blank hc h => exact runOptions_of_throw hb hc (if_pos h)
  | malformed hc hw h =>
    refine runOptions_of_throw hb hc ?_
    unfold runSingle
    rw [if_neg hw, h]

theorem runTable_oversized (hn : 63 < c.width.bits * e.registry.size) :
    sh.runTable c e = (do
      try sh.write c.output .empty catch _ => pure ()
      throw (Error.tooManyCombinations c.width.bits e.registry.size).message) := by
  have hput : (sh.put c.output .empty .empty).adapt (s!"I/O error: {·}") = pure .empty := by
    unfold put
    rw [if_pos (by decide), ByteArray.append_empty]
    exact map_pure _ _
  unfold runTable
  rw [Expression.fingerprint_eq_tooMany hn]
  show (sh.put c.output .empty .empty).adapt _ >>= _ = _
  rw [hput, pure_bind]

theorem runSingle_oversized (h : o.Fit c e) (hn : 63 < c.width.bits * e.registry.size) :
    sh.runSingle c o.text = (do
      sh.tellAll c .info (report e c)
      sh.ready c.output
      try sh.write c.output .empty catch _ => pure ()
      throw (Error.tooManyCombinations c.width.bits e.registry.size).message) := by
  unfold runSingle
  rw [if_neg h.given, h.parsed]
  simp only [runTable_oversized hn]

end Shell

/-! ## what that does to a desk -/

namespace Desk

variable {machine : Machine}

theorem run_oversized {d d' : Desk} {o : Options} {c : Config} {e : Expression}
    {opened : Except Trouble Unit} {text : String} (hb : o.batch = none) (h : o.Fit c e)
    (hn : 63 < c.width.bits * e.registry.size)
    (htext : text = match opened with
      | .ok () => (Error.tooManyCombinations c.width.bits e.registry.size).message
      | .error why => machine.wording why)
    (hready : (d.tell c .info (Shell.report e c)).ready (machine.locateOutput c.output) =
      (opened, d')) :
    ((shell machine).runOptions o).run d = (.failure, d'.complain text) := by
  refine run_runOptions_of_error h.config ?_
  rw [Shell.perform_single hb, Shell.runSingle_oversized h hn,
    run_bind_of_ok (run_lift (run_tellAll d c .info machine _)), htext]
  cases opened with
  | error why => exact run_bind_of_error (run_ready hready) _
  | ok _ =>
    -- what is held goes out before the complaint, and that is nothing
    have hsame := (d.tell c .info (Shell.report e c)).wrote_empty_of_ready
      (machine.locateOutput c.output)
    rw [hready] at hsame
    rw [run_bind_of_ok (run_ready hready),
      run_bind_of_ok (run_try (run_write d' .empty machine c.output))]
    exact congrArg (Prod.mk _) hsame

/-- **Three refusals leave the output alone, the fourth does not.** A run of one expression with an
unsupported width, without an expression or with one that is not accepted complains and does nothing
else, so that the file it was to write is as before. Where the table would be too large, the run has
told about the expression and made its output ready before it complains: a file that can be opened
is there afterwards and holds nothing, whatever it held before. -/
theorem run_refused {args : List String} {o : Options} {path : String}
    (ho : Options.ofArgs args = .ok o) (hb : o.batch = none)
    (hout : o.output = some (.file path)) (machine : Machine) (d : Desk) :
    (∀ text, o.Unfit text → ((shell machine).run args).run d = (.failure, d.complain text)) ∧
    ∀ c e, o.Fit c e → 63 < c.width.bits * e.registry.size → ∃ opened ready text,
      (d.tell c .info (Shell.report e c)).ready (machine.locate path) = (opened, ready) ∧
      text = (match opened with
        | .ok () => (Error.tooManyCombinations c.width.bits e.registry.size).message
        | .error why => machine.wording why) ∧
      ((shell machine).run args).run d = (.failure, ready.complain text) ∧
      ∀ name, machine.locate path = .file name → opened = .ok () ∧ ∀ other,
        (ready.complain text).file? other =
          if other = name then some .empty else d.file? other := by
  rw [Shell.run_of_options ho]
  constructor
  · intro text h
    rw [Shell.runOptions_unfit hb h, run_fail]
  · intro c e h hn
    have houtput : machine.locateOutput c.output = machine.locate path := by
      rw [Options.output_eq_of_config h.config, hout]
      rfl
    cases hready : (d.tell c .info (Shell.report e c)).ready (machine.locate path) with
    | mk opened ready =>
      have hopen := hready
      rw [← houtput] at hopen
      refine ⟨opened, ready, _, rfl, rfl, run_oversized hb h hn rfl hopen, ?_⟩
      intro name hname
      rw [hname] at hready
      cases hready
      refine ⟨rfl, fun other => ?_⟩
      show ((d.tell c .info (Shell.report e c)).empty name).file? other = _
      rw [file?_empty, file?_tell]

/-- the digest of an earlier run outlives a width of 33 bits, and not two variables of 32 bits -/
theorem run_refused_sum : ∃ d kept lost : Desk,
    d = { files := [("out", "0cc175b9c0f1b6a831c399e269772661\n".toUTF8)] } ∧
    (shell.run ["-b", "33", "-o", "out", "a+b"]).run d = (.failure, kept) ∧
    kept.file? "out" = d.file? "out" ∧
    (shell.run ["-b", "32", "-o", "out", "a+b"]).run d = (.failure, lost) ∧
    lost.file? "out" = some .empty ∧ d.file? "out" ≠ some .empty := by
  have hwide : Options.ofArgs ["-b", "33", "-o", "out", "a+b"] =
      .ok { words := ["a+b"], bits := some 33, output := some (.file "out") } :=
    eq_ok_of_toOption (by decide +kernel)
  have hlarge : Options.ofArgs ["-b", "32", "-o", "out", "a+b"] =
      .ok { words := ["a+b"], bits := some 32, output := some (.file "out") } :=
    eq_ok_of_toOption (by decide +kernel)
  have hsize : (Expression.parse "a+b").toOption.map (·.registry.size) = some 2 := by
    decide +kernel
  obtain ⟨e, he, hn⟩ := Option.map_eq_some_iff.mp hsize
  have hfit : Options.Fit { words := ["a+b"], bits := some 32, output := some (.file "out") }
      ⟨⟨32, by decide, by decide⟩, .file "out", .normal⟩ e :=
    ⟨eq_ok_of_toOption (by decide +kernel), by decide +kernel, eq_ok_of_toOption he⟩
  have hunfit : Options.Unfit { words := ["a+b"], bits := some 33, output := some (.file "out") }
      (Error.unsupportedWidth 33).message := .width rfl
  obtain ⟨-, h⟩ := run_refused hlarge rfl rfl {}
    { files := [("out", "0cc175b9c0f1b6a831c399e269772661\n".toUTF8)] }
  obtain ⟨opened, ready, text, -, -, hrun, hfile⟩ := h _ e hfit (by rw [hn]; decide)
  obtain ⟨-, hlost⟩ := hfile "out" (by decide +kernel)
  refine ⟨_, _, _, rfl, (run_refused hwide rfl rfl {} _).1 _ hunfit, rfl, hrun, hlost "out", ?_⟩
  decide +kernel

end Desk

end WordExpr

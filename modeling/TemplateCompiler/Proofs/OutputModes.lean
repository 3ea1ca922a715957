import TemplateCompiler.Proofs.Strokes

/-! The ways to print a program. A printer adds to the text that has been printed, and what it adds
does not depend on that text; so the render function is the same text in every mode. -/
namespace TemplateCompiler.Print

variable {α β : Type}

/-- A printer's outcome with further text before all that has been printed. -/
def behind (text : String) :
    EStateM.Result Diagnostic Writer α → EStateM.Result Diagnostic Writer α
  | .ok a w => .ok a { w with code := text ++ w.code }
  | .error d w => .error d { w with code := text ++ w.code }

/-- The printer only appends: text that stood before the printed text stays there and changes
nothing else, not even the level. -/
def Appends (m : PrintM α) : Prop :=
  ∀ text code level, m ⟨text ++ code, level⟩ = behind text (m ⟨code, level⟩)

theorem Appends.bind {m : PrintM α} {f : α → PrintM β} (hm : Appends m)
    (hf : ∀ a, Appends (f a)) : Appends (m >>= f) := by
  intro text code level
  rw [step_bind, step_bind, hm]
  cases m ⟨code, level⟩ with
  | ok a w => exact hf a text w.code w.level
  | error d w => rfl

theorem appends_push (s : String) : Appends (push s) := by
  intro text code level
  change EStateM.Result.ok () (Writer.mk (text ++ code ++ s) level) = _
  rw [String.append_assoc]
  rfl

private theorem appends_newline : Appends newline := fun text code level =>
  appends_push (lineBreak level) text code level

theorem appends_draw (x : Stroke) : Appends x.draw := by
  cases x with
  | newline => exact appends_newline
  | indent => exact fun text code level => appends_newline text code (level + 1)
  | deindent => exact fun text code level => appends_newline text code (level - 1)
  | refuse d => exact fun _ _ _ => rfl
  | _ => exact appends_push _

/-- Strokes only add to the text. -/
theorem appends_drawAll (xs : List Stroke) : Appends (drawAll xs) := by
  induction xs with
  | nil => exact fun _ _ _ => rfl
  | cons x xs ih => exact (appends_draw x).bind fun _ => ih

private theorem appends_renderFunction (r : Root) : Appends (renderFunction r) := by
  rw [renderFunction_draws]
  exact appends_drawAll r.strokes

def preambleText (o : OutputOptions) : String :=
  runtimeStatement o ++ helperStatement ++ "\n" ++ if o.browser then "return " else ""

private theorem preamble_run (o : OutputOptions) : preamble o {} = .ok () ⟨preambleText o, 0⟩ := by
  have hpush (code s : String) : push s ⟨code, 0⟩ = .ok () ⟨code ++ s, 0⟩ := rfl
  have hnewline (code : String) : newline ⟨code, 0⟩ = .ok () ⟨code ++ "\n", 0⟩ := rfl
  cases hb : o.browser <;> simp [preamble, preambleText, step_bind, hpush, hnewline, hb]

private theorem run_preamble_renderFunction (o : OutputOptions) (r : Root) :
    run (do preamble o; renderFunction r) = (preambleText o ++ ·) <$> run (renderFunction r) := by
  have hrun : (do preamble o; renderFunction r) {} =
      behind (preambleText o) (renderFunction r {}) := by
    rw [step_bind, preamble_run]
    simpa using appends_renderFunction r (preambleText o) "" 0
  rw [run, run, hrun]
  cases renderFunction r {} <;> rfl

/-- The text of the render function of a lowered template. -/
def functionText (r : Root) : Except Diagnostic String :=
  if !r.transformed && !r.children.isEmpty then
    .error ⟨.missingCode, some r.span, some "root was not transformed"⟩
  else run (renderFunction r)

/-- Every mode prints the same function, and differs in the preamble and where it puts it. -/
theorem program_eq (o : OutputOptions) (r : Root) :
    program o r = (fun code =>
      if o.browser || o.inline then ⟨preambleText o ++ code, ""⟩ else ⟨code, preambleText o⟩) <$>
        functionText r := by
  have hpreamble : run (preamble o) = .ok (preambleText o) := by rw [run, preamble_run]
  rw [program, functionText, run_preamble_renderFunction, hpreamble]
  split
  · rfl
  · cases run (renderFunction r) <;> split <;> rfl

/-- The module build, the inline build and the browser build of a root all fail, and in the same
way, or all succeed. The text of the inline build is the preamble and the code of the module build;
the text of the browser build is the browser's preamble, which returns what follows, and the same
code. -/
theorem builds_agree (r : Root) (module global : String) :
    let build browser inline :=
      program { browser, inline, runtimeModule := module, runtimeGlobal := global } r
    (∃ d, build false false = .error d ∧ build false true = .error d ∧
      ∀ inline, build true inline = .error d) ∨
    ∃ code preamble, build false false = .ok ⟨code, preamble⟩ ∧
      preamble = "import * as _ChibiVue from '" ++ module ++ "'\n" ++ helperStatement ++ "\n" ∧
      build false true = .ok ⟨preamble ++ code, ""⟩ ∧
      ∀ inline, build true inline = .ok
        ⟨"const _ChibiVue = " ++ global ++ "\n" ++ helperStatement ++ "\nreturn " ++ code, ""⟩ := by
  intro build
  simp only [build, program_eq]
  cases functionText r with
  | error d => exact .inl ⟨d, rfl, rfl, fun _ => rfl⟩
  | ok code =>
    -- what is left are the two texts of the preamble
    refine .inr ⟨code, _, rfl, ?_, rfl, fun inline =>
      congrArg (fun text => Except.ok (Program.mk text "")) ?_⟩ <;>
      simp [preambleText, runtimeStatement, runtimeName, String.append_assoc]

end TemplateCompiler.Print

import TemplateCompiler.Compile
import TemplateCompiler.Proofs.ModelTargets
import TemplateCompiler.Proofs.PropKeys

/-! Which directives get through. An element that becomes a virtual node has its directives checked
after they have been processed; here the checks are told from the directives as they stand in the
template. Nothing is checked on a template element, nor in the expression of a bound object. -/
namespace TemplateCompiler

namespace Directive

/-- Whether the directive says what its kind has to say: a bound prop has an expression that is not
blank, a two-way binding one that can be assigned to. -/
def isValid (d : Directive) : Bool :=
  if d.name == "bind" then d.exp.any fun exp => !exp.isBlank
  else if d.name == "model" then d.exp.any fun exp => Text.isMemberPath (Lowering.modelTarget exp)
  else true

/-- Whether the directive binds an object as a whole. -/
def bindsObject (d : Directive) : Bool := d.name == "bind" && d.arg.isNone && d.exp.isSome

/-- Whether the directive is a two-way binding to a variable that is read through `unref`, or to a
member of one. -/
def assignsUnref (o : LoweringOptions) (s : Scope) (d : Directive) : Bool :=
  d.name == "model" && d.exp.any fun
    | .simple e => e.startsFromUnref o s
    | .compound _ => false

end Directive

namespace Lowering

variable {o : LoweringOptions} {s : Scope}

private theorem isBlank_processed {exp exp' : Expression}
    (h : Answer.expression o s exp = .ok exp') :
    exp'.isBlank = exp.isBlank := by
  cases exp with
  | simple e =>
    obtain ⟨e', he', rfl⟩ := except_map_ok.mp h
    change Text.isAllBlank e'.content = Text.isAllBlank e.content
    rcases simple_ok he' with ⟨-, constancy, rfl⟩ | ⟨-, -, r, hr, rfl⟩
    · rfl
    · exact Expression.isAllBlank_resolved hr
  | compound c =>
    obtain ⟨parts, -, h⟩ := except_bind_ok.mp h
    cases h
    rfl

/-- What a two-way binding assigns to can be assigned to once it has been processed if it could be
before and is not read through `unref`. -/
private theorem isMemberPath_modelTarget {d : Directive} (hn : d.name = "model")
    {exp exp' : Expression}
    (hexp : d.exp = some exp) (h : Answer.expression o s exp = .ok exp') :
    Text.isMemberPath (modelTarget exp') =
      (Text.isMemberPath (modelTarget exp) && !d.assignsUnref o s) := by
  cases exp with
  | simple e =>
    obtain ⟨e', he', rfl⟩ := except_map_ok.mp h
    have hunref : d.assignsUnref o s = e.startsFromUnref o s := by
      simp [Directive.assignsUnref, hn, hexp]
    rw [modelTarget, modelTarget, hunref]
    cases hpath : Text.isMemberPath e.content with
    | true => rw [isMemberPath_processed hpath he', Bool.true_and]
    | false =>
      rw [Bool.false_and]
      refine Bool.eq_false_iff.mpr fun hpath' => ?_
      rw [isMemberPath_of_processed he' hpath'] at hpath
      cases hpath
  | compound c =>
    obtain ⟨parts, -, h⟩ := except_bind_ok.mp h
    cases h
    simp [modelTarget, Directive.assignsUnref, hexp]

private theorem modelRefusal?_eq_none_iff {e : Element} {d : Directive} {exp : Expression}
    (hk : e.kind ≠ .template) (hexp : d.exp = some exp) :
    modelRefusal? e d = none ↔ Text.isMemberPath (modelTarget exp) = true := by
  refine ⟨isMemberPath_of_accepted hexp, fun hpath => ?_⟩
  simp [modelRefusal?, hexp, Text.not_allBlank_of_memberPath hpath, hpath, hk]

private theorem directive_exps {d d' : Directive} (h : Answer.directive o s d = .ok d')
    (hn : d.name ≠ "on") : d.exp = none ∧ d'.exp = none ∨
      ∃ exp exp', d.exp = some exp ∧ d'.exp = some exp' ∧
        Answer.expression o s exp = .ok exp' := by
  have hexp := (directive_ok h).2.2.1 hn
  cases hd : d.exp with
  | none =>
    rw [hd] at hexp
    exact .inl ⟨rfl, (Except.ok.inj hexp).symm⟩
  | some exp =>
    rw [hd] at hexp
    obtain ⟨exp', hprocessed, hexp'⟩ := except_map_ok.mp hexp
    exact .inr ⟨exp, exp', rfl, hexp', hprocessed⟩

/-- On an element that is no template element, a processed directive is accepted if it binds an
object, or if it was valid and does not assign to what is read through `unref`. -/
private theorem directiveRefusal?_eq_none_iff {e : Element} {d d' : Directive}
    (hk : e.kind ≠ .template)
    (hd : Answer.directive o s d = .ok d') :
    directiveRefusal? e d' = none ↔
      d.bindsObject = true ∨ d.isValid = true ∧ d.assignsUnref o s = false := by
  obtain ⟨hname, -, -, harg⟩ := directive_ok hd
  have harg := isSome_optionMapM harg
  by_cases hbind : d.name = "bind"
  · have hunref : d.assignsUnref o s = false := by simp [Directive.assignsUnref, hbind]
    rw [hunref]
    rcases directive_exps hd (by rw [hbind]; decide) with
      ⟨hexp, hexp'⟩ | ⟨exp, exp', hexp, hexp', hprocessed⟩
    · simp [directiveRefusal?, Directive.bindsObject, Directive.isValid, hname, hbind, hexp, hexp']
    · have hblank := isBlank_processed hprocessed
      cases hobject : d.arg <;>
        simp [directiveRefusal?, Directive.bindsObject, Directive.isValid, hname, hbind, hexp,
          hexp', harg, hobject, hblank]
  · by_cases hmodel : d.name = "model"
    · have hobject : d.bindsObject = false := by simp [Directive.bindsObject, hmodel]
      have hrefusal : directiveRefusal? e d' = modelRefusal? e d' := by
        simp [directiveRefusal?, hname, hmodel]
      rw [hobject, hrefusal]
      rcases directive_exps hd (by rw [hmodel]; decide) with
        ⟨hexp, hexp'⟩ | ⟨exp, exp', hexp, hexp', hprocessed⟩
      · simp [modelRefusal?, Directive.isValid, hmodel, hexp, hexp']
      · rw [modelRefusal?_eq_none_iff hk hexp', isMemberPath_modelTarget hmodel hexp hprocessed]
        simp [Directive.isValid, hmodel, hexp]
    · have hrefusal : directiveRefusal? e d' = none := by
        unfold directiveRefusal?
        split
        · exact absurd (hname.symm.trans (by assumption)) hbind
        · exact absurd (hname.symm.trans (by assumption)) hbind
        · exact absurd (hname.symm.trans (by assumption)) hmodel
        · rfl
      simp [hrefusal, Directive.isValid, Directive.assignsUnref, hbind, hmodel]

/-- The causes for which directives other than loops are refused. -/
def directiveCauses : List Cause :=
  [.bindWithoutExpression, .modelWithoutExpression, .modelMalformed, .modelOnTemplate]

/-- In a template without code that compiles, every directive of an element that is no template
element binds an object, or is valid and does not assign to what is read through `unref`. A refusal
on account of such a directive is due to one that does neither, again on an element that is no
template element. -/
theorem compiled_directives_accepted {o : Options} {r : Root} (hr : r.isRaw true = true) :
    (∀ out, compile o r = .ok out → ∀ p ∈ r.elements, p.element.kind ≠ .template →
      ∀ d, .directive d ∈ p.element.props → d.bindsObject = true ∨
        d.isValid = true ∧ d.assignsUnref o.lowering (.of p.inner) = false) ∧
      ∀ refusal, lower o.lowering r = .error (.refused refusal) →
        refusal.cause ∈ directiveCauses →
        ∃ p ∈ r.elements, p.element.kind ≠ .template ∧ ∃ d, .directive d ∈ p.element.props ∧
          d.bindsObject = false ∧
          (d.isValid = false ∨ d.assignsUnref o.lowering (.of p.inner) = true) := by
  refine ⟨fun out h p hp hk d hd => ?_, fun refusal h hcause => ?_⟩
  · obtain ⟨lowered, hlower, -⟩ := except_bind_ok.mp h
    obtain ⟨-, c, hc, -⟩ := lower_placed hr hlower p hp
    obtain ⟨e', he', -⟩ := hc.finishes
    by_cases hn : d.name = "for"
    · exact .inr (by simp [Directive.isValid, Directive.assignsUnref, hn])
    · obtain ⟨d', hd', haccepted⟩ := he'.accepted hk hd hn
      exact (directiveRefusal?_eq_none_iff hk hd').mp haccepted
  · rcases lower_blames hr h with h | ⟨p, hp, h⟩
    · cases h
    · cases h with
      | header _ hheader =>
        rcases headerOf_cause hheader with h | h <;> simp [h, directiveCauses] at hcause
      | nested => simp [Diagnostic.of, directiveCauses] at hcause
      | @directive d d' _ hk hd hd' hrefusal =>
        refine ⟨p, hp, hk, d, hd, ?_⟩
        have hnot := mt (directiveRefusal?_eq_none_iff hk hd').mpr (by simp [hrefusal])
        simp only [not_or, not_and, Bool.not_eq_true, Bool.not_eq_false] at hnot
        refine ⟨hnot.1, ?_⟩
        cases hvalid : d.isValid with
        | false => exact .inl rfl
        | true => exact .inr (hnot.2 hvalid)

/-- The form control in a loop compiles, and its directives are accepted; where the variable may
hold a ref, the control is refused on account of its two-way binding. -/
theorem modelledRows_directives_accepted :
    (∃ out, compile {} modelledRows = .ok out ∧
      ∀ p ∈ modelledRows.elements, p.element.kind ≠ .template →
        ∀ d, .directive d ∈ p.element.props → d.bindsObject = true ∨
          d.isValid = true ∧ d.assignsUnref {} (.of p.inner) = false) ∧
      ∃ p ∈ modelledRows.elements, p.element.kind ≠ .template ∧
        ∃ d, .directive d ∈ p.element.props ∧ d.bindsObject = false ∧
          (d.isValid = false ∨ d.assignsUnref (maybeRef "form") (.of p.inner) = true) := by
  have hr : modelledRows.isRaw true = true := by decide
  have hok : (compile {} modelledRows).isOk = true := by decide +kernel
  obtain ⟨out, h⟩ := except_ok_of_isOk hok
  have herror : lower (maybeRef "form") modelledRows =
      .error (.refused ⟨.modelMalformed, some .stub, some "_unref(form)[row.id].text"⟩) :=
    except_error_of_errorOf? (by decide +kernel)
  exact ⟨⟨out, h, (compiled_directives_accepted hr).1 out h⟩,
    (compiled_directives_accepted (o := { lowering := maybeRef "form" }) hr).2 _ herror (by decide)⟩

/-- A template element with a two-way binding, around an element that binds a blank object. -/
def uncheckedDirectives : Root where
  children := [.element {
    tag := "template"
    kind := .template
    props := [.directive { name := "model", exp := some (.simple (.code "text" .stub)) }]
    children := [.element {
      tag := "div"
      props := [.directive { name := "bind", exp := some (.simple (.code " " .stub)) }] }] }]

/-- A two-way binding on a template element compiles, and so does a bound object with a blank
expression. -/
theorem uncheckedDirectives_compile : (compile {} uncheckedDirectives).isOk = true ∧
    (∃ p ∈ uncheckedDirectives.elements, p.element.kind = .template ∧
      ∃ d, .directive d ∈ p.element.props ∧ d.name = "model") ∧
    ∃ p ∈ uncheckedDirectives.elements, ∃ d, .directive d ∈ p.element.props ∧
      d.name = "bind" ∧ d.isValid = false := by
  refine ⟨by decide +kernel, ?_, ?_⟩
  · exact ⟨_, List.mem_cons_self, rfl, _, List.mem_cons_self, rfl⟩
  · refine ⟨_, List.mem_cons_of_mem _ List.mem_cons_self, _, List.mem_cons_self, rfl, ?_⟩
    decide

end Lowering

end TemplateCompiler

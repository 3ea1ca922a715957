import TemplateCompiler.Proofs.PathResolution
import TemplateCompiler.Proofs.Refusals

/-! Targets of two-way bindings. A target that is a member path is refused for what its names
resolve to: a call of `unref` cannot be assigned to. -/
namespace TemplateCompiler

/-- Whether the expression starts from a variable that the lowering reads through `unref`. -/
def Simple.startsFromUnref (o : LoweringOptions) (s : Scope) (e : Simple) : Bool :=
  o.prefixIdentifiers && !e.isStatic && Expression.readsUnref o s (Text.pathHead e.content)

namespace Lowering

variable {o : LoweringOptions} {s : Scope} {names : List String}

/-- A processed member path is one still, unless it starts from a variable read through
`unref`. -/
theorem isMemberPath_processed {e e' : Simple} (he : Text.isMemberPath e.content = true)
    (h : Answer.simple o s e = .ok e') :
    Text.isMemberPath e'.content = !e.startsFromUnref o s := by
  rcases simple_ok h with ⟨hkept, constancy, rfl⟩ | ⟨hstatic, hprefix, r, hr, rfl⟩
  · rw [Text.not_allBlank_of_memberPath he] at hkept
    have hstarts : e.startsFromUnref o s = false := by
      rcases hkept with hstatic | hblank | hprefix
      · simp [Simple.startsFromUnref, hstatic]
      · cases hblank
      · simp [Simple.startsFromUnref, hprefix]
    rw [hstarts]
    exact he
  · rw [Simple.startsFromUnref, hprefix, hstatic, Expression.isMemberPath_resolved he hr]
    rfl

/-- Processing makes no member path out of an expression that is none. -/
theorem isMemberPath_of_processed {e e' : Simple} (h : Answer.simple o s e = .ok e')
    (he : Text.isMemberPath e'.content = true) : Text.isMemberPath e.content = true := by
  rcases simple_ok h with ⟨-, constancy, rfl⟩ | ⟨-, -, r, hr, rfl⟩
  · exact he
  · exact Expression.isMemberPath_of_resolved hr he

private theorem directiveRefusal?_malformed {e : Element} {d : Directive} {r : Diagnostic}
    (h : directiveRefusal? e d = some r) (hr : r.cause = .modelMalformed) :
    d.name = "model" ∧ ∃ exp, d.exp = some exp ∧ Text.isMemberPath (modelTarget exp) = false ∧
      r = ⟨.modelMalformed, some exp.span, some (modelTarget exp)⟩ := by
  unfold directiveRefusal? at h
  split at h
  · cases h
    cases hr
  · split at h
    · cases h
      cases hr
    · cases h
  · rename_i hn
    unfold modelRefusal? at h
    split at h
    · cases h
      cases hr
    · rename_i exp hexp
      dsimp only at h
      split at h
      · cases h
        cases hr
      · split at h
        · rename_i hpath
          cases h
          exact ⟨hn, exp, hexp, by simpa using hpath, rfl⟩
        · split at h
          · cases h
            cases hr
          · cases h
  · cases h

/-- A target that is not refused is a member path. -/
theorem isMemberPath_of_accepted {e : Element} {d : Directive} {exp : Expression}
    (hexp : d.exp = some exp) (h : modelRefusal? e d = none) :
    Text.isMemberPath (modelTarget exp) = true := by
  unfold modelRefusal? at h
  rw [hexp] at h
  dsimp only at h
  split at h
  · cases h
  · split at h
    · cases h
    · rename_i hpath
      simpa using hpath

private theorem directive_exp {d d' : Directive} (h : Answer.directive o s d = .ok d')
    (hn : d.name = "model") {exp' : Expression} (hexp' : d'.exp = some exp') :
    ∃ exp, d.exp = some exp ∧ Answer.expression o s exp = .ok exp' := by
  obtain ⟨-, -, hexp, -⟩ := directive_ok h
  exact optionMapM_ok (hexp (by rw [hn]; decide)) hexp'

private theorem Finishes.isMemberPath {e e' : Element} (h : Finishes o names e e')
    (hk : e.kind ≠ .template) {m : Directive} (hm : .directive m ∈ e.props)
    (hn : m.name = "model") {exp : Expression} (hexp : m.exp = some exp) :
    ∃ exp', Answer.expression o (.of names) exp = .ok exp' ∧
      Text.isMemberPath (modelTarget exp') = true := by
  obtain ⟨m', hm', haccepted⟩ := h.accepted hk hm (by rw [hn]; decide)
  obtain ⟨hname, -, hexp', -⟩ := directive_ok hm'
  have hexp' := hexp' (by rw [hn]; decide)
  rw [hexp] at hexp'
  obtain ⟨exp', hprocessed, hexp'⟩ := except_map_ok.mp hexp'
  refine ⟨exp', hprocessed, isMemberPath_of_accepted (e := e) hexp' ?_⟩
  simpa [directiveRefusal?, hname.trans hn] using haccepted

/-- If a template without code is refused on account of a malformed two-way binding, the binding
is on an element that is not a template element, and its target, once processed, is no member path.
If the target was a simple member path in the template, it starts from a variable read through
`unref`; and no template with such a target is ever lowered. -/
theorem malformed_model_reads_unref {r : Root} (hr : r.isRaw true = true) :
    (∀ d, lower o r = .error (.refused d) → d.cause = .modelMalformed →
      ∃ p ∈ r.elements, p.element.kind ≠ .template ∧ ∃ m exp exp', .directive m ∈ p.element.props ∧
        m.name = "model" ∧ m.exp = some exp ∧ Answer.expression o (.of p.inner) exp = .ok exp' ∧
        d = ⟨.modelMalformed, some exp'.span, some (modelTarget exp')⟩ ∧
        Text.isMemberPath (modelTarget exp') = false ∧
        ∀ e, exp = .simple e → Text.isMemberPath e.content = true →
          e.startsFromUnref o (.of p.inner) = true) ∧
      ∀ p ∈ r.elements, p.element.kind ≠ .template → ∀ m e, .directive m ∈ p.element.props →
        m.name = "model" → m.exp = some (.simple e) → Text.isMemberPath e.content = true →
        e.startsFromUnref o (.of p.inner) = true → ∀ r', lower o r ≠ .ok r' := by
  refine ⟨fun d h hd => ?_, fun p hp hk m e hm hn hexp he hunref r' h => ?_⟩
  · rcases lower_blames hr h with h | ⟨p, hp, h⟩
    · cases h
    · cases h with
      | header _ hheader =>
        rcases headerOf_cause hheader with hcause | hcause <;> rw [hcause] at hd <;> cases hd
      | nested => cases hd
      | @directive m m' _ hk hm hm' hrefusal =>
        obtain ⟨hn, exp', hexp', hpath, rfl⟩ := directiveRefusal?_malformed hrefusal hd
        rw [(directive_ok hm').1] at hn
        obtain ⟨exp, hexp, hprocessed⟩ := directive_exp hm' hn hexp'
        refine ⟨p, hp, hk, m, exp, exp', hm, hn, hexp, hprocessed, rfl, hpath, ?_⟩
        rintro e rfl he
        obtain ⟨e', he', rfl⟩ := except_map_ok.mp hprocessed
        rw [modelTarget, isMemberPath_processed he he'] at hpath
        simpa using hpath
  · obtain ⟨-, c, hc, -⟩ := lower_placed hr h p hp
    obtain ⟨e', he', -⟩ := hc.finishes
    obtain ⟨exp', hprocessed, hpath⟩ := he'.isMemberPath hk hm hn hexp
    obtain ⟨e₁, he₁, rfl⟩ := except_map_ok.mp hprocessed
    rw [modelTarget, isMemberPath_processed he he₁, hunref] at hpath
    cases hpath

/-- Options under which the name is a variable of the setup code that may hold a ref. -/
def maybeRef (name : String) : LoweringOptions :=
  { inline := true, bindings := some ⟨[(name, .setupLet)]⟩ }

/-- A form control in a loop whose value is a member of a variable. -/
def modelledRows : Root where
  children := [.element {
    tag := "input"
    props := [
      .directive { name := "for", exp := some (.simple (.code "row in rows" .stub)) },
      .directive { name := "model", exp := some (.simple (.code "form[row.id].text" .stub)) }] }]

theorem modelledRows_never_lowered : modelledRows.isRaw true = true ∧
    ∀ r', lower (maybeRef "form") modelledRows ≠ .ok r' := by
  have hr : modelledRows.isRaw true = true := by decide
  refine ⟨hr, (malformed_model_reads_unref hr).2 _ List.mem_cons_self (by decide) _ _
    (List.mem_cons_of_mem _ List.mem_cons_self) rfl rfl ?_ ?_⟩
  · decide +kernel
  · decide +kernel

/-- A form control with a variable for its value. -/
def modelledVariable : Root where
  children := [.element {
    tag := "input"
    props := [.directive { name := "model", exp := some (.simple (.code "message" .stub)) }] }]

/-- A variable cannot be the target of a two-way binding where it is read through `unref`. -/
theorem modelledVariable_refused : Text.isMemberPath "message" = true ∧
    lower (maybeRef "message") modelledVariable =
      .error (.refused ⟨.modelMalformed, some .stub, some "_unref(message)"⟩) :=
  ⟨by decide +kernel, except_error_of_errorOf? (by decide +kernel)⟩

end Lowering

end TemplateCompiler

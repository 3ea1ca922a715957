import TemplateCompiler.Proofs.Rendering

/-! Why a template is refused. Every refusal is due to one element: to the header of its loop, to
one of its directives, or to a second loop directive. -/
namespace TemplateCompiler.Lowering

variable {o : LoweringOptions} {s : Scope} {names : List String} {f : Fault}

/-- Why a directive is refused once its expressions have been processed, if it is. -/
def directiveRefusal? (e : Element) (d : Directive) : Option Diagnostic :=
  match d.name, d.exp with
  | "bind", none => some (.of .bindWithoutExpression d.span)
  | "bind", some exp =>
    if d.arg.isSome && exp.isBlank then some (.of .bindWithoutExpression d.span) else none
  | "model", _ => modelRefusal? e d
  | _, _ => none

/-- The faults that an element gives rise to itself, leaving its children aside. -/
inductive Placed.Blames (o : LoweringOptions) (p : Placed) : Fault → Prop
  /-- The header of a loop cannot be read. -/
  | header {d : Directive} {r : Diagnostic} (hd : d ∈ loopDirectives p.element.props)
      (hr : headerOf d = .error r) : Blames o p (.refused r)
  /-- A loop has a loop for its body. -/
  | nested (hd : 2 ≤ (loopDirectives p.element.props).length) :
      Blames o p (.refused (.of .missingCode p.element.span))
  /-- A directive, processed with the names declared inside the element, is refused. -/
  | directive {d d' : Directive} {r : Diagnostic} (hk : p.element.kind ≠ .template)
      (hd : .directive d ∈ p.element.props) (hp : Answer.directive o (.of p.inner) d = .ok d')
      (hr : directiveRefusal? p.element d' = some r) : Blames o p (.refused r)

private theorem simple_error {e : Simple} (h : Answer.simple o s e = .error f) :
    f = .splitCharacter := by
  unfold Answer.simple at h
  split at h
  · cases h
    rfl
  · cases h

private theorem expression_error {e : Expression} (h : Answer.expression o s e = .error f) :
    f = .splitCharacter := by
  cases e with
  | simple e => exact simple_error (except_map_error.mp h)
  | compound c =>
    rcases except_bind_error.mp h with h | ⟨parts, -, h⟩
    · obtain ⟨p, -, h⟩ := listMapM_error h
      cases p with
      | simple e => exact simple_error (except_map_error.mp h)
      | _ => cases h
    · cases h

private theorem argument_error {a : Expression} (h : Answer.argument o s a = .error f) :
    f = .splitCharacter := by
  unfold Answer.argument at h
  split at h
  · cases h
  · exact expression_error h

private theorem directive_error {d : Directive} (h : Answer.directive o s d = .error f) :
    f = .splitCharacter := by
  have harg {exp : Option Expression} (h : (do
      let arg ← d.arg.mapM (Answer.argument o s)
      return { d with exp, arg } : Except Fault Directive) = .error f) : f = .splitCharacter := by
    rcases except_bind_error.mp h with h | ⟨arg, -, h⟩
    · obtain ⟨a, -, h⟩ := optionMapM_error h
      exact argument_error h
    · cases h
  unfold Answer.directive at h
  dsimp only at h
  split at h
  · exact harg h
  · rcases except_bind_error.mp h with h | ⟨exp, -, h⟩
    · obtain ⟨e, -, h⟩ := optionMapM_error h
      exact expression_error h
    · exact harg h

private theorem prop_error {p : ElementProp} (h : Answer.prop o s p = .error f) :
    f = .splitCharacter := by
  cases p with
  | plain a => cases h
  | directive d =>
    rw [Answer.prop] at h
    split at h
    · cases h
    · exact directive_error (except_map_error.mp h)

private theorem listened_error {e : Element} {d : Directive}
    (h : Answer.listened o s e d = .error f) :
    f = .splitCharacter := by
  unfold Answer.listened at h
  split at h
  · cases h
  · rcases except_bind_error.mp h with h | ⟨value, -, h⟩
    · unfold Answer.handler at h
      split at h
      · split at h
        · cases h
        · rcases except_bind_error.mp h with h | ⟨e', -, h⟩
          · exact simple_error h
          · cases h
      · cases h
      · cases h
    · cases h

private theorem contribution_error {e : Element} {d : Directive}
    (harg : d.name = "bind" → d.arg.isSome = true)
    (h : Answer.contribution o s e d = .error f) :
    f = .splitCharacter ∨ ∃ r, directiveRefusal? e d = some r ∧ f = .refused r := by
  unfold Answer.contribution at h
  split at h
  · rename_i hn
    unfold Answer.bound at h
    split at h
    · rename_i hexp
      cases h
      exact .inr ⟨_, by simp [directiveRefusal?, hn, hexp], rfl⟩
    · rename_i exp hexp
      split at h
      · rename_i hblank
        cases h
        exact .inr ⟨_, by simp [directiveRefusal?, hn, hexp, harg hn, hblank], rfl⟩
      · split at h <;> cases h
  · exact .inl (listened_error h)
  · rename_i hn
    unfold Answer.modelled at h
    split at h
    · rename_i r hr
      cases h
      exact .inr ⟨r, by simp [directiveRefusal?, hn, hr], rfl⟩
    · cases h
    · cases h
  · cases h

private theorem addProp_error {e : Element} {b : PropsBuilder} {p : ElementProp}
    (h : Answer.addProp o s e b p = .error f) : f = .splitCharacter ∨
      ∃ d r, p = .directive d ∧ directiveRefusal? e d = some r ∧ f = .refused r := by
  cases p with
  | plain a => cases h
  | directive d =>
    rw [Answer.addProp] at h
    split at h
    · cases h
    · split at h
      · rename_i hbind
        simp only [Bool.and_eq_true, beq_iff_eq] at hbind
        split at h
        · rename_i hexp
          cases h
          exact .inr ⟨d, _, rfl, by simp [directiveRefusal?, hbind, hexp], rfl⟩
        · cases h
      · rename_i hbind
        have harg (hn : d.name = "bind") : d.arg.isSome = true := by
          cases harg : d.arg <;> simp_all
        rcases contribution_error harg (except_map_error.mp h) with h | ⟨r, hr, rfl⟩
        · exact .inl h
        · exact .inr ⟨d, r, rfl, hr, rfl⟩

private theorem contribution_accepted {e : Element} {d : Directive} {c : Contribution}
    (h : Answer.contribution o s e d = .ok c) : directiveRefusal? e d = none := by
  unfold Answer.contribution at h
  split at h
  · rename_i hn
    unfold Answer.bound at h
    split at h
    · cases h
    · rename_i exp hexp
      split at h
      · cases h
      · rename_i hblank
        simp [directiveRefusal?, hn, hexp, hblank]
  · rename_i hn
    simp [directiveRefusal?, hn]
  · rename_i hn
    unfold Answer.modelled at h
    split at h
    · cases h
    all_goals
      rename_i hr _
      simp [directiveRefusal?, hn, hr]
  · rename_i hbind _ hmodel
    unfold directiveRefusal?
    split
    · exact absurd (by assumption) hbind
    · exact absurd (by assumption) hbind
    · exact absurd (by assumption) hmodel
    · rfl

private theorem addProp_accepted {e : Element} {b b' : PropsBuilder} {d : Directive}
    (h : Answer.addProp o s e b (.directive d) = .ok b') : directiveRefusal? e d = none := by
  cases adds_of_ok h with
  | object hn harg hexp => simp [directiveRefusal?, hn, harg, hexp]
  | contribution _ hr => exact contribution_accepted hr

/-- The directives of a finished element have been processed, and none of them is refused. -/
theorem Finishes.accepted {e e' : Element} (h : Finishes o names e e') (hk : e.kind ≠ .template)
    {d : Directive} (hd : .directive d ∈ e.props) (hn : d.name ≠ "for") :
    ∃ d', Answer.directive o (.of names) d = .ok d' ∧ directiveRefusal? e d' = none := by
  obtain ⟨hprops, -, he⟩ := h
  rcases finished_ok he with ⟨hk', -⟩ | ⟨-, b, hb, -⟩
  · exact absurd hk' hk
  · obtain ⟨before, after, hsplit⟩ := List.append_of_mem (mem_otherProps hd hn)
    rw [hsplit] at hprops
    obtain ⟨before', p, after', -, hp, -, rfl⟩ := listMapM_split hprops
    rw [Answer.prop, if_neg (by simpa using hn)] at hp
    obtain ⟨d', hd', rfl⟩ := except_map_ok.mp hp
    obtain ⟨b₁, b₂, hstep⟩ := foldlM_step hb (List.mem_append_right before' List.mem_cons_self)
    exact ⟨d', hd', addProp_accepted hstep⟩

private theorem finished_error {e : Element} (h : Answer.finished o s e = .error f) :
    f = .splitCharacter ∨ e.kind ≠ .template ∧
      ∃ d r, .directive d ∈ e.props ∧ directiveRefusal? e d = some r ∧ f = .refused r := by
  unfold Answer.finished at h
  split at h
  · cases h
  · rename_i hk
    rcases except_bind_error.mp h with h | ⟨b, -, h⟩
    · obtain ⟨p, hp, b, h⟩ := foldlM_error h
      rcases addProp_error h with h | ⟨d, r, rfl, hr, rfl⟩
      · exact .inl h
      · exact .inr ⟨by simpa using hk, d, r, hp, hr, rfl⟩
    · cases h

private theorem directive_of_processed {ps ps' : List ElementProp} {d' : Directive}
    (h : (otherProps ps).mapM (Answer.prop o s) = .ok ps') (hd : .directive d' ∈ ps') :
    ∃ d, .directive d ∈ otherProps ps ∧ Answer.directive o s d = .ok d' := by
  obtain ⟨p, hp, h⟩ := listMapM_ok h hd
  cases p with
  | plain a => cases h
  | directive d =>
    rw [Answer.prop, if_neg (by simpa using name_of_mem_otherProps hp)] at h
    obtain ⟨d₁, hd₁, h⟩ := except_map_ok.mp h
    cases h
    exact ⟨d, hp, hd₁⟩

private theorem plain_error {e : Element}
    (h : Scoped.plain o { e with props := otherProps e.props } names
      (Scoped.children o e.children names) = .error f) :
    f = .splitCharacter ∨ Scoped.children o e.children names = .error f ∨ e.kind ≠ .template ∧
      ∃ d d' r, .directive d ∈ e.props ∧ Answer.directive o (.of names) d = .ok d' ∧
        directiveRefusal? e d' = some r ∧ f = .refused r := by
  rcases except_bind_error.mp h with h | ⟨props, hprops, h⟩
  · obtain ⟨p, -, h⟩ := listMapM_error h
    exact .inl (prop_error h)
  · rcases except_bind_error.mp h with h | ⟨cs, -, h⟩
    · exact .inr (.inl h)
    · rcases except_bind_error.mp h with h | ⟨e', -, h⟩
      · rcases finished_error h with h | ⟨hk, d', r, hd', hr, rfl⟩
        · exact .inl h
        · obtain ⟨d, hd, hp⟩ := directive_of_processed hprops hd'
          exact .inr (.inr ⟨hk, d, d', r, mem_of_mem_otherProps hd, hp, hr, rfl⟩)
      · cases h

/-- The faults of the loops around a body. If there is only one, the body is an element with a
virtual node, and no code is missing. -/
private theorem wrap_error {e : Element} {body : List String → Except Fault Child}
    (hbody : ∀ names c, body names = .ok c →
      ∃ e', c = .element e' ∧ (Answer.body e').isSome = true)
    {ds : List Directive} (h : Scoped.wrap o e body ds names = .error f) :
    f = .splitCharacter ∨ (∃ d ∈ ds, ∃ r, headerOf d = .error r ∧ f = .refused r) ∨
      2 ≤ ds.length ∧ f = .refused (.of .missingCode e.span) ∨
      body (names ++ aliasesOf ds) = .error f := by
  induction ds generalizing names with
  | nil =>
    rw [aliasesOf, List.append_nil]
    exact .inr (.inr (.inr h))
  | cons d ds ih =>
    rw [Scoped.wrap] at h
    cases hparts : headerOf d with
    | error r =>
      rw [hparts] at h
      cases h
      exact .inr (.inl ⟨d, List.mem_cons_self, r, hparts, rfl⟩)
    | ok parts =>
      rw [hparts] at h
      rw [aliasesOf_cons_ok hparts, ← List.append_assoc]
      rcases except_bind_error.mp h with h | ⟨source, -, h⟩
      · exact .inl (simple_error h)
      · rcases except_bind_error.mp h with h | ⟨inner, hinner, h⟩
        · rw [aliasNames_loopOver] at h
          rcases ih h with h | ⟨d', hd', h⟩ | ⟨hlen, h⟩ | h
          · exact .inl h
          · exact .inr (.inl ⟨d', List.mem_cons_of_mem _ hd', h⟩)
          · exact .inr (.inr (.inl ⟨Nat.le_succ_of_le hlen, h⟩))
          · exact .inr (.inr (.inr h))
        · rcases except_bind_error.mp h with h | ⟨l', -, h⟩
          · cases ds with
            | nil =>
              obtain ⟨e', rfl, he'⟩ := hbody _ _ hinner
              obtain ⟨b, hb⟩ := Option.isSome_iff_exists.mp he'
              simp only [Answer.finishedLoop, hb] at h
              cases h
            | cons d' ds =>
              obtain ⟨_, _, _, l, _, _, _, _, rfl⟩ := wrap_ok hinner
              cases h
              exact .inr (.inr (.inl ⟨by simp, rfl⟩))
          · cases h

private theorem children_error {cs : List Child}
    (hc : ∀ c ∈ cs, Scoped.child o c names = .error f →
      f = .splitCharacter ∨ ∃ p ∈ childElements c names, p.Blames o f)
    (h : Scoped.children o cs names = .error f) :
    f = .splitCharacter ∨ ∃ p ∈ childrenElements cs names, p.Blames o f := by
  rw [Scoped.children_eq] at h
  rw [childrenElements_eq]
  obtain ⟨c, hmem, h⟩ := listMapM_error h
  refine (hc c hmem h).imp_right ?_
  rintro ⟨p, hp, hb⟩
  exact ⟨p, List.mem_flatMap.mpr ⟨c, hmem, hp⟩, hb⟩

private theorem child_error (c : Child) (h : Scoped.child o c names = .error f) :
    f = .splitCharacter ∨ ∃ p ∈ childElements c names, p.Blames o f := by
  induction c using Child.induction generalizing names with
  | element e ih =>
    rw [Scoped.child, Scoped.element_eq] at h
    rw [childElements, elementElements_eq]
    have hbody (names : List String) (c : Child)
        (h : Scoped.plain o { e with props := otherProps e.props } names
          (Scoped.children o e.children names) = .ok c) :
        ∃ e', c = .element e' ∧ (Answer.body e').isSome = true := by
      obtain ⟨e', he', rfl⟩ := plain_ok h
      exact ⟨e', rfl, he'.body⟩
    rcases wrap_error hbody h with h | ⟨d, hd, r, hr, rfl⟩ | ⟨hlen, rfl⟩ | h
    · exact .inl h
    · exact .inr ⟨_, List.mem_cons_self, .header hd hr⟩
    · exact .inr ⟨_, List.mem_cons_self, .nested hlen⟩
    · rcases plain_error h with h | h | ⟨hk, d, d', r, hd, hp, hr, rfl⟩
      · exact .inl h
      · refine (children_error (fun c hc h => ih c hc h) h).imp_right ?_
        rintro ⟨p, hp, hb⟩
        exact ⟨p, List.mem_cons_of_mem _ hp, hb⟩
      · exact .inr ⟨_, List.mem_cons_self, .directive hk hd hp hr⟩
  | interpolation i =>
    rw [Scoped.child] at h
    rcases except_bind_error.mp h with h | ⟨content, -, h⟩
    · exact .inl (expression_error h)
    · cases h
  | loop l ih =>
    rw [Scoped.child, Scoped.loop_eq] at h
    rw [childElements, loopElements_eq]
    rcases except_bind_error.mp h with h | ⟨cs', -, h⟩
    · exact children_error (fun c hc h => ih c hc h) h
    · cases h
  | _ =>
    rw [Scoped.child] at h
    cases h

/-- A template is refused on account of one of its elements. -/
theorem lower_blames {r : Root} (hr : r.isRaw true = true) (h : lower o r = .error f) :
    f = .splitCharacter ∨ ∃ p ∈ r.elements, p.Blames o f := by
  simp only [Root.isRaw, Bool.and_eq_true] at hr
  have hcode := code_lower o r
  rw [h] at hcode
  have hscoped := except_map_error.mp hcode.symm
  rcases except_bind_error.mp hscoped with h | ⟨cs, hcs, h⟩
  · exact children_error (fun c _ h => child_error c h) h
  · obtain ⟨r', hr', -⟩ := root_chosen (r := { r with children := mergeText cs })
      (lowered_children hr.2 hcs)
    rw [hr'] at h
    cases h

/-- A loop header is refused for its lack or its form. -/
theorem headerOf_cause {d : Directive} {r : Diagnostic} (h : headerOf d = .error r) :
    r.cause = .forWithoutExpression ∨ r.cause = .forMalformed := by
  unfold headerOf at h
  split at h
  · cases h
    exact .inl rfl
  · cases h
    exact .inr rfl
  · unfold parseHeader at h
    split at h
    · cases h
      exact .inr rfl
    · cases h

private theorem modelRefusal?_cause {e : Element} {d : Directive} {r : Diagnostic}
    (hk : e.kind ≠ .template) (h : modelRefusal? e d = some r) :
    r.cause = .modelWithoutExpression ∨ r.cause = .modelMalformed := by
  unfold modelRefusal? at h
  split at h
  · cases h
    exact .inl rfl
  · dsimp only at h
    split at h
    · cases h
      exact .inl rfl
    · split at h
      · cases h
        exact .inr rfl
      · rw [if_neg (by simpa using hk)] at h
        cases h

private theorem directiveRefusal?_cause {e : Element} {d : Directive} {r : Diagnostic}
    (hk : e.kind ≠ .template) (h : directiveRefusal? e d = some r) :
    r.cause = .bindWithoutExpression ∨ r.cause = .modelWithoutExpression ∨
      r.cause = .modelMalformed := by
  unfold directiveRefusal? at h
  split at h
  · cases h
    exact .inl rfl
  · split at h
    · cases h
      exact .inl rfl
    · cases h
  · exact .inr (modelRefusal?_cause hk h)
  · cases h

/-- The causes for which a template without code is refused and that lie with the template. -/
def templateCauses : List Cause :=
  [.forWithoutExpression, .forMalformed, .bindWithoutExpression, .modelWithoutExpression,
    .modelMalformed]

private theorem Placed.Blames.cause {p : Placed} {r : Diagnostic} (h : p.Blames o (.refused r)) :
    r.cause ∈ templateCauses ∨
      r = .of .missingCode p.element.span ∧ 2 ≤ (loopDirectives p.element.props).length := by
  cases h with
  | header hd hr => rcases headerOf_cause hr with h | h <;> simp [h, templateCauses]
  | nested hd => exact .inr ⟨rfl, hd⟩
  | directive hk hd hp hr =>
    rcases directiveRefusal?_cause hk hr with h | h | h <;> simp [h, templateCauses]

private theorem Becomes.length_le {e : Element} {c : Child} (h : Becomes o names e c) :
    (loopDirectives e.props).length ≤ 1 := by
  cases h with
  | element hd => simp [hd]
  | loop hd => simp [hd]

/-- A template without code is refused for a cause that lies with it, unless one of its elements
has two loop directives: then code is found missing, and the template is never lowered. -/
theorem internal_refusal_needs_second_loop {r : Root} (hr : r.isRaw true = true) :
    lower o r ≠ .error .tooDeep ∧
      (∀ d, lower o r = .error (.refused d) → d.cause ∈ templateCauses ∨ ∃ p ∈ r.elements,
        d = .of .missingCode p.element.span ∧ 2 ≤ (loopDirectives p.element.props).length) ∧
      ∀ p ∈ r.elements, 2 ≤ (loopDirectives p.element.props).length →
        ∀ r', lower o r ≠ .ok r' := by
  refine ⟨fun h => ?_, fun d h => ?_, fun p hp hlen r' h => ?_⟩
  · rcases lower_blames hr h with h | ⟨p, -, h⟩ <;> cases h
  · rcases lower_blames hr h with h | ⟨p, hp, h⟩
    · cases h
    · rcases h.cause with h | h
      · exact .inl h
      · exact .inr ⟨p, hp, h⟩
  · obtain ⟨-, c, hc, -⟩ := lower_placed hr h p hp
    have := hc.length_le
    omega

/-- A list item with two loop directives. -/
def twiceRepeated : Root where
  children := [.element {
    tag := "li"
    props := [
      .directive { name := "for", exp := some (.simple (.code "row in rows" .stub)) },
      .directive { name := "for", exp := some (.simple (.code "cell in row" .stub)) }] }]

theorem twiceRepeated_never_lowered :
    twiceRepeated.isRaw true = true ∧ ∀ o r', lower o twiceRepeated ≠ .ok r' := by
  have hr : twiceRepeated.isRaw true = true := by decide
  refine ⟨hr, fun o => (internal_refusal_needs_second_loop hr).2.2 _ List.mem_cons_self ?_⟩
  decide

/-- The template with two loop directives on one element is refused as if the compiler had been
used wrongly. -/
theorem twiceRepeated_refused_internally :
    lower {} twiceRepeated = .error (.refused (.of .missingCode .stub)) ∧
      Cause.missingCode.isInternal = true ∧ .missingCode ∉ templateCauses :=
  ⟨except_error_of_errorOf? (by decide +kernel), rfl, by decide⟩

end TemplateCompiler.Lowering

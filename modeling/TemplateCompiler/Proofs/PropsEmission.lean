import TemplateCompiler.Proofs.Ensures
import TemplateCompiler.Proofs.Strokes

/-! What the props of an element print. A property of strokes that holds of fixed code, of
registered helpers and of the expressions of the directives holds of every stroke of the props. -/
namespace TemplateCompiler

def Fine (A : Stroke → Prop) (xs : List Stroke) : Prop := ∀ x ∈ xs, A x

variable {A : Stroke → Prop}

@[simp] theorem fine_nil : Fine A [] := List.forall_mem_nil A

@[simp] theorem fine_cons {x : Stroke} {xs : List Stroke} : Fine A (x :: xs) ↔ A x ∧ Fine A xs :=
  List.forall_mem_cons

@[simp] theorem fine_append {xs ys : List Stroke} :
    Fine A (xs ++ ys) ↔ Fine A xs ∧ Fine A ys :=
  List.forall_mem_append

/-- The property holds of all that a lowering may print with the given helpers registered, the
expressions and the text of the template apart. If the template may have compound expressions, it
holds of everything in these. -/
structure Admits (A : Stroke → Prop) (hs : HelperSet) (compounds : Bool) : Prop where
  raw : ∀ t, A (.raw t)
  literal : ∀ t, A (.literal t)
  helper : ∀ h, hs.contains h = true → A (.helper h)
  idle : A (.code (.code "() => \x7b\x7d" .stub))
  code : compounds = true → ∀ e, A (.code e)
  compound : compounds = true → ∀ c : Compound, Fine A c.strokes

/-- The property holds of the strokes of the expression. -/
def Expression.Known (A : Stroke → Prop) (compounds : Bool) : Expression → Prop
  | .simple e => e.isStatic = false → A (.code e)
  | .compound _ => compounds = true

namespace Admits
variable {hs : HelperSet} {compounds : Bool} (ha : Admits A hs compounds)
include ha

private theorem simple {e : Simple} (h : e.isStatic = false → A (.code e)) : Fine A e.strokes := by
  unfold Simple.strokes
  split
  · simp [ha.literal]
  · rename_i hs
    simp [h (Bool.eq_false_iff.mpr hs)]

/-- The strokes of a known expression are admitted. -/
theorem expression {e : Expression} (h : e.Known A compounds) : Fine A e.strokes := by
  cases e with
  | simple e =>
    rw [Expression.strokes]
    exact ha.simple h
  | compound c =>
    rw [Expression.strokes]
    exact ha.compound h c

theorem key {e : Expression} (h : e.Known A compounds) : Fine A e.keyStrokes := by
  cases e with
  | simple e =>
    simp only [Expression.keyStrokes]
    split
    · simp [ha.literal]
    · rename_i hs
      simp [ha.raw, h (Bool.eq_false_iff.mpr hs)]
  | compound c => simp [Expression.keyStrokes, ha.raw, ha.compound h c]

theorem separator (isFirst : Bool) : Fine A (separator isFirst) := by
  cases isFirst <;> simp [TemplateCompiler.separator, ha.raw]

private theorem separated {α : Type} {f : α → List Stroke} {g : Bool → List α → List Stroke}
    (hnil : ∀ b, g b [] = [])
    (hcons : ∀ b a as, g b (a :: as) = TemplateCompiler.separator b ++ f a ++ g false as)
    (b : Bool) (as : List α) : Fine A (g b as) ↔ ∀ a ∈ as, Fine A (f a) := by
  induction as generalizing b with
  | nil => simp [hnil]
  | cons a as ih => simp [hcons, ih, ha.separator]

theorem property {p : Property} :
    Fine A p.strokes ↔ Fine A p.key.keyStrokes ∧ Fine A p.value.strokes := by
  cases p
  simp [Property.strokes, ha.raw]

theorem object {x : ObjectCode} : Fine A x.strokes ↔ ∀ p ∈ x.properties, Fine A p.strokes := by
  obtain ⟨ps, span⟩ := x
  have h := ha.separated (g := propertyListStrokes) (fun b => by rw [propertyListStrokes])
    (fun b p ps => by rw [propertyListStrokes]) true ps
  cases ps with
  | nil => simp [ObjectCode.strokes, ha.raw]
  | cons p ps => simp [ObjectCode.strokes, ha.raw, h]

private theorem array {x : ArrayCode} : Fine A x.strokes ↔ ∀ i ∈ x.elements, Fine A i.strokes := by
  obtain ⟨is, span⟩ := x
  have h := ha.separated (g := itemListStrokes) (fun b => by rw [itemListStrokes])
    (fun b i is => by rw [itemListStrokes]) true is
  simp [ArrayCode.strokes, ha.raw, h]

theorem call {x : Call} :
    Fine A x.strokes ↔ Fine A x.callee.strokes ∧ ∀ a ∈ x.arguments, Fine A a.strokes := by
  obtain ⟨f, as, span⟩ := x
  have h := ha.separated (g := argumentListStrokes) (fun b => by rw [argumentListStrokes])
    (fun b a as => by rw [argumentListStrokes]) true as
  simp [Call.strokes, ha.raw, h]

theorem params {ps : List Param} (h : ∀ p ∈ ps, Fine A p.strokes) :
    Fine A (paramsStrokes (some (.many ps))) :=
  (ha.separated (g := paramListStrokes) (fun _ => rfl) (fun _ _ _ => rfl) true ps).mpr h

end Admits

namespace Lowering

open LowerM

section
variable {hs : HelperSet} {compounds : Bool} (ha : Admits A hs compounds)
include ha

private theorem fine_gather {first value : Code} (hf : Fine A first.strokes)
    (hv : Fine A value.strokes) :
    Fine A (gather first value).strokes := by
  have hpair : Fine A (Code.array { elements := [.code first, .code value] }).strokes := by
    rw [Code.strokes, ha.array]
    simp [ArrayItem.strokes, hf, hv]
  cases first with
  | array a =>
    rw [Code.strokes, ha.array] at hf
    rw [gather, Code.strokes, ha.array]
    intro i hi
    rcases List.mem_append.mp hi with hi | hi
    · exact hf i hi
    · rw [List.mem_singleton.mp hi, ArrayItem.strokes]
      exact hv
  | _ => exact hpair

private theorem fine_gatherUnder (name : String) {value : Code} (hv : Fine A value.strokes)
    {ps : List Property} (hps : ∀ p ∈ ps, Fine A p.strokes) :
    ∀ p ∈ gatherUnder name value ps, Fine A p.strokes := by
  induction ps with
  | nil => simp [gatherUnder]
  | cons p ps ih =>
    obtain ⟨hp, hps⟩ := List.forall_mem_cons.mp hps
    simp only [gatherUnder]
    split
    · refine List.forall_mem_cons.mpr ⟨?_, hps⟩
      obtain ⟨hk, hv'⟩ := ha.property.mp hp
      exact ha.property.mpr ⟨hk, fine_gather ha hv' hv⟩
    · exact List.forall_mem_cons.mpr ⟨hp, ih hps⟩

private theorem fine_addProperty {kept : List Property} {p : Property}
    (hk : ∀ q ∈ kept, Fine A q.strokes) (hp : Fine A p.strokes) :
    ∀ q ∈ addProperty kept p, Fine A q.strokes := by
  have happend : ∀ q ∈ kept ++ [p], Fine A q.strokes := by
    intro q hq
    rcases List.mem_append.mp hq with hq | hq
    · exact hk q hq
    · rw [List.mem_singleton.mp hq]
      exact hp
  unfold addProperty
  split
  · exact happend
  · split
    · split
      · exact fine_gatherUnder ha _ (ha.property.mp hp).2 hk
      · exact hk
    · exact happend

private theorem fine_mergeProperties {ps : List Property} (h : ∀ p ∈ ps, Fine A p.strokes) :
    ∀ p ∈ mergeProperties ps, Fine A p.strokes := by
  have hfold (kept : List Property) (hk : ∀ q ∈ kept, Fine A q.strokes) :
      ∀ q ∈ ps.foldl addProperty kept, Fine A q.strokes := by
    induction ps generalizing kept with
    | nil => exact hk
    | cons p ps ih =>
      obtain ⟨hp, hps⟩ := List.forall_mem_cons.mp h
      exact ih hps _ (fine_addProperty ha hk hp)
  exact hfold [] (by simp)

end

/-- The property holds of all that the directive can contribute, once its expressions have been
processed. -/
structure DirectiveKnown (A : Stroke → Prop) (compounds : Bool) (o : LoweringOptions) (s : Scope)
    (d : Directive) : Prop where
  arg : ∀ x ∈ d.arg, x.Known A compounds
  exp : d.name ≠ "on" → ∀ x ∈ d.exp, x.Known A compounds
  handler : d.name = "on" → d.arg.isSome = true →
    ∀ v, Answer.handler o s d.exp = .ok v → Fine A v.strokes
  assigned : d.name = "model" →
    ∀ x ∈ d.exp, A (.code (.code (assignment (modelTarget x)) .stub))

/-- The property holds of what has been contributed. -/
structure ContributionFine (A : Stroke → Prop) (compounds : Bool) (d : Directive)
    (c : Contribution) : Prop where
  properties : ∀ p ∈ c.properties, Fine A p.strokes
  runtime : c.runtime.isSome = true → ∀ x ∈ d.exp, x.Known A compounds

theorem known_fixed {compounds : Bool} (t : String) (span : Span) :
    (Expression.simple (.fixed t span)).Known A compounds := fun h => by cases h

section
variable {o : LoweringOptions} {s : Scope} {hs : HelperSet} {compounds : Bool}
  (ha : Admits A hs compounds)
include ha

private theorem handlerKey_fine (e : Element) {arg : Expression} (h : arg.Known A compounds) :
    Ensures o s hs (handlerKeyOf e arg) fun k => Fine A k.keyStrokes := by
  have hcomputed {p : Part} (hp : Fine A p.strokes) (hh : hs.contains .toHandlerKey = true) :
      Fine A (Expression.compound (computedKey p)).keyStrokes := by
    simp [Expression.keyStrokes, computedKey, Compound.strokes, partsStrokes, Part.strokes, ha.raw,
      ha.helper _ hh, hp]
  cases arg with
  | simple x =>
    simp only [handlerKeyOf]
    split
    · exact ensures_pure (ha.key fun h => by cases h)
    · refine Ensures.after_helper (ensures_pure (hcomputed ?_))
      rw [Part.strokes]
      exact ha.simple h
  | compound c =>
    refine Ensures.after_helper (ensures_pure (hcomputed ?_))
    rw [Part.strokes]
    exact ha.compound h c

private theorem boundKey_fine (d : Directive) {arg : Expression} (h : arg.Known A compounds) :
    Fine A (boundKey d arg).keyStrokes := by
  cases arg with
  | simple x =>
    simp only [boundKey]
    split
    · exact ha.key (known_fixed _ _)
    · simp [Expression.keyStrokes, Compound.strokes, partsStrokes, Part.strokes, emptyFallback,
        ha.raw, ha.simple h]
  | compound c => exact ha.key (e := .compound _) h

private theorem bindProp_fine {e : Element} {d : Directive} (hd : DirectiveKnown A compounds o s d)
    (hn : d.name = "bind") :
    Ensures o s hs (bindProp e d) (ContributionFine A compounds d) := by
  have hne : d.name ≠ "on" := by
    rw [hn]
    decide
  refine (gives_bound e d).ensures.imp fun c hc => ?_
  unfold Answer.bound at hc
  split at hc
  · cases hc
  · rename_i exp hexp
    split at hc
    · cases hc
    · split at hc
      · cases hc
        exact ⟨by simp, fun _ => hd.exp hne⟩
      · rename_i arg harg
        cases hc
        have hk := boundKey_fine ha d (hd.arg arg harg)
        have hv := ha.expression (hd.exp hne exp hexp)
        refine ⟨?_, fun _ => hd.exp hne⟩
        simp [ha.property, Code.strokes, hk, hv]

private theorem listen_fine {e : Element} {d : Directive} (hd : DirectiveKnown A compounds o s d)
    (hn : d.name = "on") :
    Ensures o s hs (listen e d) (ContributionFine A compounds d) := by
  unfold listen
  cases harg : d.arg with
  | none => exact ensures_pure ⟨by simp, by simp⟩
  | some arg =>
    refine (handlerKey_fine ha e (hd.arg arg harg)).bind fun key => ?_
    refine (gives_handler d.exp).ensures.bind fun value => ensures_pure fun hv hk => ?_
    have hv := hd.handler hn (by simp [harg]) value hv
    refine ⟨?_, by simp⟩
    simp [ha.property, hk, hv]

private theorem model_fine {e : Element} {d : Directive} (hd : DirectiveKnown A compounds o s d)
    (hn : d.name = "model") :
    Ensures o s hs (model e d) (ContributionFine A compounds d) := by
  have hne : d.name ≠ "on" := by
    rw [hn]
    decide
  have hkeys : Fine A (modelKeys d.arg).1.keyStrokes ∧ Fine A (modelKeys d.arg).2.keyStrokes := by
    have hfixed (t : String) : Fine A (Expression.simple (.fixed t .stub)).keyStrokes :=
      ha.key (known_fixed t .stub)
    unfold modelKeys
    split
    · rename_i x harg
      have hx := hd.arg (.simple x) harg
      split
      · exact ⟨hfixed _, hfixed _⟩
      · refine ⟨ha.key hx, ?_⟩
        simp [Expression.keyStrokes, Compound.strokes, partsStrokes, Part.strokes, ha.raw,
          ha.simple hx]
    · exact ⟨hfixed _, hfixed _⟩
  unfold model
  cases modelRefusal? e d with
  | some r => exact ensures_refuse r
  | none =>
    cases hexp : d.exp with
    | none => exact ensures_pure ⟨by simp, by simp⟩
    | some exp =>
      refine ensures_pure ⟨?_, fun _ => hd.exp hne⟩
      have hv := ha.expression (hd.exp hne exp hexp)
      have hhandler : Fine A (Simple.code (assignment (modelTarget exp)) .stub).strokes :=
        ha.simple fun _ => hd.assigned hn exp hexp
      unfold modelContribution
      split
      · simp [ha.property, Code.strokes, Expression.strokes, hkeys.2, hhandler]
      · simp [ha.property, Code.strokes, Expression.strokes, hkeys.1, hkeys.2, hv, hhandler]

private theorem contribution_fine {f : DirectiveLowering} {e : Element} {d : Directive}
    (hd : DirectiveKnown A compounds o s d) (hf : standardDirectives d.name = some f) :
    Ensures o s hs (f e d) (ContributionFine A compounds d) := by
  unfold standardDirectives at hf
  split at hf
  · rename_i hn
    cases hf
    exact bindProp_fine ha hd hn
  · rename_i hn
    cases hf
    exact listen_fine ha hd hn
  · rename_i hn
    cases hf
    exact model_fine ha hd hn
  · cases hf

end

/-- The property holds of what has been gathered. -/
structure BuilderFine (A : Stroke → Prop) (b : PropsBuilder) : Prop where
  properties : ∀ p ∈ b.properties, Fine A p.strokes
  merged : ∀ a ∈ b.merged, Fine A a.strokes
  runtime : ∀ i ∈ b.runtime, Fine A i.strokes

section
variable {o : LoweringOptions} {s : Scope} {hs : HelperSet} {compounds : Bool}
  (ha : Admits A hs compounds) {b : PropsBuilder}
include ha

private theorem segment_fine {ps : List Property} (h : ∀ p ∈ ps, Fine A p.strokes) :
    Fine A (PropsBuilder.segment ps).strokes := by
  rw [PropsBuilder.segment, Argument.strokes, Code.strokes, ha.object]
  exact fine_mergeProperties ha h

private theorem close_fine (hb : BuilderFine A b) : BuilderFine A b.close := by
  unfold PropsBuilder.close
  split
  · exact hb
  · refine ⟨by simp, ?_, hb.runtime⟩
    intro a hm
    rcases List.mem_append.mp hm with hm | hm
    · exact hb.merged a hm
    · rw [List.mem_singleton.mp hm]
      exact segment_fine ha hb.properties

private theorem addObject_fine (hb : BuilderFine A b) {exp : Expression}
    (h : exp.Known A compounds) :
    BuilderFine A (b.addObject exp) := by
  obtain ⟨hp, hm, hr⟩ := close_fine ha hb
  refine ⟨hp, ?_, hr⟩
  intro a hmem
  rcases List.mem_append.mp hmem with hmem | hmem
  · exact hm a hmem
  · rw [List.mem_singleton.mp hmem, Argument.strokes, Code.strokes]
    exact ha.expression h

private theorem addContribution_fine (hb : BuilderFine A b) {d : Directive} {c : Contribution}
    (hc : ContributionFine A compounds d c)
    (hh : ∀ h, c.runtime = some h → hs.contains h = true) :
    BuilderFine A (b.addContribution d c) := by
  refine ⟨?_, hb.merged, ?_⟩
  · exact List.forall_mem_append.mpr ⟨hb.properties, hc.properties⟩
  · refine List.forall_mem_append.mpr ⟨hb.runtime, ?_⟩
    cases hr : c.runtime with
    | none => simp
    | some h =>
      have hexp := hc.runtime (by simp [hr])
      have hh := ha.helper h (hh h hr)
      simp only [Option.map_some, Option.toList_some, List.forall_mem_singleton]
      rw [ArrayItem.strokes, Code.strokes, ha.array]
      cases hd : d.exp with
      | none => simp [ArrayItem.strokes, hh]
      | some exp =>
        have he := ha.expression (hexp exp hd)
        simp [ArrayItem.strokes, Code.strokes, hh, he]

private theorem addProp_fine (hb : BuilderFine A b) (e : Element) {p : ElementProp}
    (hp : ∀ d, p = .directive d → DirectiveKnown A compounds o s d) :
    Ensures o s hs (b.addProp standardDirectives e p) (BuilderFine A) := by
  cases p with
  | plain a =>
    refine ensures_pure ⟨?_, hb.merged, hb.runtime⟩
    refine List.forall_mem_append.mpr ⟨hb.properties, ?_⟩
    rw [List.forall_mem_singleton, attributeProperty, ha.property]
    exact ⟨ha.key (known_fixed _ _), ha.expression (known_fixed _ _)⟩
  | directive d =>
    have hd := hp d rfl
    simp only [PropsBuilder.addProp]
    split
    · exact ensures_pure hb
    · split
      · rename_i hbind
        have hne : d.name ≠ "on" := by
          intro h
          simp [h] at hbind
        cases hexp : d.exp with
        | none => exact ensures_refuse _
        | some exp => exact ensures_pure (addObject_fine ha hb (hd.exp hne exp hexp))
      · cases hf : standardDirectives d.name with
        | none => exact ensures_pure hb
        | some f =>
          refine (contribution_fine ha hd hf).bind fun c => ?_
          cases hr : c.runtime with
          | none =>
            refine ensures_pure fun hc => addContribution_fine ha hb hc fun h hh => ?_
            rw [hr] at hh
            cases hh
          | some h =>
            refine Ensures.after_helper (ensures_pure fun hh hc => ?_)
            refine addContribution_fine ha hb hc fun h' hh' => ?_
            rw [hr] at hh'
            cases hh'
            exact hh

private theorem addProps_fine (hb : BuilderFine A b) (e : Element) {ps : List ElementProp}
    (hps : ∀ d, .directive d ∈ ps → DirectiveKnown A compounds o s d) :
    Ensures o s hs (b.addProps standardDirectives e ps) (BuilderFine A) := by
  induction ps generalizing b with
  | nil => exact ensures_pure hb
  | cons p ps ih =>
    have hp := addProp_fine ha hb e fun d hd => hps d (hd ▸ List.mem_cons_self)
    refine hp.bind fun b' => ?_
    have hr : Registers (b'.addProps standardDirectives e ps) :=
      fun _ _ => ⟨_, _, gives_addProps e b' ps⟩
    exact hr.ensures_of fun hb' => ih hb' fun d hd => hps d (List.mem_cons_of_mem _ hd)

private theorem normalizeProperty_fine {p : Property} (hp : Fine A p.strokes) :
    Ensures o s hs (normalizeProperty p) fun p' => Fine A p'.strokes := by
  unfold normalizeProperty
  split
  · exact ensures_pure hp
  · rename_i h hn
    split
    · exact ensures_pure hp
    · obtain ⟨hk, hv⟩ := ha.property.mp hp
      refine Ensures.after_helper (ensures_pure fun hh => ha.property.mpr ⟨hk, ?_⟩)
      rw [Code.strokes, ha.call]
      simp [Callee.strokes, Argument.strokes, ha.helper h hh, hv]

private theorem propsCall_fine (h : Helper) {as : List Argument}
    (has : ∀ a ∈ as, Fine A a.strokes) :
    Ensures o s hs (propsCall h as) fun p => Fine A p.strokes := by
  refine Ensures.after_helper (ensures_pure fun hh => ?_)
  rw [PropsCode.strokes, ha.call]
  exact ⟨by simp [Callee.strokes, ha.helper h hh], has⟩

private theorem finish_fine (hb : BuilderFine A b) :
    Ensures o s hs b.finish fun props => ∀ p ∈ props, Fine A p.strokes := by
  have hcall (h : Helper) {as : List Argument} (has : ∀ a ∈ as, Fine A a.strokes) :
      Ensures o s hs (some <$> propsCall h as) fun props => ∀ p ∈ props, Fine A p.strokes := by
    refine Ensures.map ((propsCall_fine ha h has).imp fun p hp => ?_)
    simpa using hp
  unfold PropsBuilder.finish
  split
  · exact hcall _ (close_fine ha hb).merged
  · split
    · exact ensures_pure (by simp)
    · split
      · exact hcall _ (by simpa using segment_fine ha hb.properties)
      · have hmerged := fine_mergeProperties ha hb.properties
        refine (ensures_mapM fun p hp => normalizeProperty_fine ha (hmerged p hp)).bind fun ps => ?_
        refine ensures_pure fun hps => ?_
        simp only [Option.mem_def, Option.some.injEq, forall_eq']
        rw [PropsCode.strokes, ha.object]
        intro p hp
        obtain ⟨_, _, hfine⟩ := forall₂_exists_right hps hp
        exact hfine

/-- The property holds of the props and the runtime directives that are built. -/
theorem buildProps_fine {e : Element}
    (he : ∀ d, .directive d ∈ e.props → DirectiveKnown A compounds o s d) :
    Ensures o s hs (buildProps standardDirectives e) fun built =>
      (∀ p ∈ built.props, Fine A p.strokes) ∧ ∀ d ∈ built.directives, Fine A d.strokes := by
  have hempty : BuilderFine A {} := ⟨by simp, by simp, by simp⟩
  refine (addProps_fine ha hempty e he).bind fun b => ?_
  have hr : Registers b.finish := fun _ _ => ⟨_, _, gives_props b⟩
  have hfinish := hr.ensures_of (o := o) (s := s) fun hb => finish_fine ha hb
  refine hfinish.bind fun props => ensures_pure fun hprops hb => ⟨hprops hb, ?_⟩
  intro d hd
  simp only [Option.mem_def] at hd
  split at hd
  · cases hd
  · cases hd
    exact ha.array.mpr hb.runtime

end

end Lowering

end TemplateCompiler

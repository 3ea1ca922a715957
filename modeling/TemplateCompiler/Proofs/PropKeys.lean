import Mathlib
import TemplateCompiler.Proofs.Scoping

/-! The property `key` of a virtual node. Of the props of an element that give one, the first
counts, and no later prop takes it away again. -/
namespace TemplateCompiler

/-- Whether the prop gives a virtual node a property `key`. A two-way binding of `key` does, but
on a template element it is not looked at. -/
def ElementProp.givesKey (kind : ElementKind) : ElementProp → Bool
  | .plain a => a.name == "key"
  | .directive d => Element.bindsProp d "key" ||
      kind != .template && d.name == "model" && (d.arg.bind Expression.staticContent?) == some "key"

/-- The value of a key attribute or of a bound key. -/
def ElementProp.keyValue? : ElementProp → Option Code
  | .plain a => if a.name == "key" then some (Lowering.attributeProperty a).value else none
  | .directive d => if Element.bindsProp d "key" then d.exp.map .expression else none

/-- Whether the argument of a two-way binding stands for a name in the template. A compound one is
not looked at. -/
def Expression.namesModel : Expression → Bool
  | .simple a => a.isStatic
  | .compound _ => true

/-- Whether the names of the properties that the prop contributes stand in the template: it is
neither a bound object nor has a computed argument. -/
def ElementProp.isNamed : ElementProp → Bool
  | .plain _ => true
  | .directive d =>
    if d.name == "bind" then d.arg.any Expression.isStatic
    else if d.name == "on" then d.arg.all Expression.isStatic
    else if d.name == "model" then d.arg.all Expression.namesModel
    else true

/-- The value of the first property with the static key `key`. -/
def keyOf (ps : List Property) : Option Code :=
  (ps.find? fun p => p.staticKey? == some "key").map Property.value

/-- The object literals among the parts of the props. -/
def PropsCode.objects : PropsCode → List ObjectCode
  | .object o => [o]
  | .call c => c.arguments.filterMap fun
    | .code (.object o) => some o
    | _ => none
  | .simple _ => []

/-- The props of the virtual node hold the value under `key`. -/
def VNode.CarriesKey (v : VNode) (value : Code) : Prop :=
  ∃ props ∈ v.props, ∃ o ∈ props.objects, keyOf o.properties = some value

namespace Lowering

variable {o : LoweringOptions} {s : Scope} {value : Code}

private theorem keyOf_append (ps qs : List Property) : keyOf (ps ++ qs) = (keyOf ps).or
    (keyOf qs) := by
  rw [keyOf, List.find?_append, Option.map_or]
  rfl

private theorem keyOf_cons_of_ne {p : Property} (h : p.staticKey? ≠ some "key")
    (ps : List Property) :
    keyOf (p :: ps) = keyOf ps := by
  simp [keyOf, h]

private theorem keyOf_cons_of_eq {p : Property} (h : p.staticKey? = some "key")
    (ps : List Property) :
    keyOf (p :: ps) = some p.value := by
  simp [keyOf, h]

private theorem keyOf_gatherUnder {name : String} (hn : name ≠ "key") (v : Code)
    (ps : List Property) :
    keyOf (gatherUnder name v ps) = keyOf ps := by
  induction ps with
  | nil => rfl
  | cons p ps ih =>
    rw [gatherUnder]
    split
    · rename_i hp
      have hp : p.staticKey? = some name := by simpa using hp
      have hne : p.staticKey? ≠ some "key" := by simpa [hp] using hn
      rw [keyOf_cons_of_ne (by exact hne), keyOf_cons_of_ne hne]
    · by_cases hp : p.staticKey? = some "key"
      · rw [keyOf_cons_of_eq hp, keyOf_cons_of_eq hp]
      · rw [keyOf_cons_of_ne hp, keyOf_cons_of_ne hp, ih]

private theorem keyOf_addProperty (kept : List Property) (p : Property) :
    keyOf (addProperty kept p) = (keyOf kept).or (keyOf [p]) := by
  unfold addProperty
  split
  · exact keyOf_append kept [p]
  · rename_i name hp
    split
    · rename_i hany
      by_cases hn : name = "key"
      · -- A second key is dropped; the first is there.
        subst hn
        rw [if_neg (by decide)]
        obtain ⟨q, hq, hqk⟩ := List.any_eq_true.mp hany
        have hsome : (keyOf kept).isSome = true := by
          rw [keyOf, Option.isSome_map, List.find?_isSome]
          exact ⟨q, hq, hqk⟩
        obtain ⟨v, hv⟩ := Option.isSome_iff_exists.mp hsome
        rw [hv, Option.some_or]
      · have hp' : keyOf [p] = none := keyOf_cons_of_ne (by simpa [hp] using hn) []
        rw [hp', Option.or_none]
        split
        · exact keyOf_gatherUnder hn p.value kept
        · rfl
    · exact keyOf_append kept [p]

private theorem keyOf_mergeProperties (ps : List Property) : keyOf
    (mergeProperties ps) = keyOf ps := by
  have hfold (kept : List Property) :
      keyOf (ps.foldl addProperty kept) = (keyOf kept).or (keyOf ps) := by
    induction ps generalizing kept with
    | nil => exact (Option.or_none).symm
    | cons p ps ih =>
      rw [List.foldl_cons, ih, keyOf_addProperty, Option.or_assoc, ← keyOf_append]
      rfl
  exact hfold []

private theorem keyOf_normalized (ps : List Property) : keyOf
    (ps.map Answer.normalized) = keyOf ps := by
  have hkey (p : Property) : (Answer.normalized p).staticKey? = p.staticKey? := by
    unfold Answer.normalized
    split
    · rfl
    · split <;> rfl
  induction ps with
  | nil => rfl
  | cons p ps ih =>
    rw [List.map_cons]
    by_cases hp : p.staticKey? = some "key"
    · have hsame : Answer.normalized p = p := by simp [Answer.normalized, normalizer?, hp]
      rw [hsame, keyOf_cons_of_eq hp, keyOf_cons_of_eq hp]
    · rw [keyOf_cons_of_ne (by rw [hkey]; exact hp), keyOf_cons_of_ne hp, ih]

/-- The properties that a prop of an element contributes. -/
inductive Contributes (e : Element) : ElementProp → List Property → Prop
  | plain (a : Attribute) : Contributes e (.plain a) [attributeProperty a]
  | nothing {d : Directive} (hbind : d.name ≠ "bind") (hmodel : d.name ≠ "model")
      (hon : d.name = "on" → d.arg = none) : Contributes e (.directive d) []
  | bound {d : Directive} {arg exp : Expression} (hn : d.name = "bind") (harg : d.arg = some arg)
      (hexp : d.exp = some exp) :
      Contributes e (.directive d) [{ key := boundKey d arg, value := .expression exp }]
  | listened {d : Directive} {arg : Expression} {value : Code} (hn : d.name = "on")
      (harg : d.arg = some arg) :
      Contributes e (.directive d) [{ key := Answer.handlerKey e arg, value }]
  | modelled {d : Directive} {exp : Expression} (hn : d.name = "model") :
      Contributes e (.directive d) (modelContribution e d exp).properties

private theorem contributes_of_ok {e : Element} {d : Directive} {c : Contribution}
    (harg : d.name = "bind" → d.arg ≠ none) (h : Answer.contribution o s e d = .ok c) :
    Contributes e (.directive d) c.properties := by
  unfold Answer.contribution at h
  split at h
  · rename_i hn
    unfold Answer.bound at h
    split at h
    · cases h
    · rename_i exp hexp
      split at h
      · cases h
      · cases harg' : d.arg with
        | none => exact absurd harg' (harg hn)
        | some arg =>
          rw [harg'] at h
          cases h
          exact .bound hn harg' hexp
  · rename_i hn
    unfold Answer.listened at h
    split at h
    · rename_i harg
      cases h
      exact .nothing (by rw [hn]; decide) (by rw [hn]; decide) fun _ => harg
    · rename_i arg harg
      obtain ⟨value, -, h⟩ := except_bind_ok.mp h
      cases h
      exact .listened hn harg
  · rename_i hn
    unfold Answer.modelled at h
    split at h
    · cases h
    · cases h
      exact .modelled hn
    · -- Without an expression it has been refused.
      rename_i hr hexp
      simp [modelRefusal?, hexp] at hr
  · rename_i hbind hon hmodel
    cases h
    exact .nothing hbind hmodel fun hn => absurd hn hon

private theorem addProp_ok {e : Element} {b b' : PropsBuilder} {p : ElementProp}
    (h : Answer.addProp o s e b p = .ok b') :
    (∃ ps runtime, Contributes e p ps ∧
      b' = { b with properties := b.properties ++ ps, runtime }) ∨
      p.isNamed = false ∧ p.keyValue? = none ∧ ∃ exp, b' = b.addObject exp := by
  cases adds_of_ok h with
  | plain a => exact .inl ⟨_, _, .plain a, rfl⟩
  | @object d exp hn harg hexp =>
    refine .inr ⟨?_, ?_, exp, rfl⟩
    · simp [ElementProp.isNamed, hn, harg]
    · simp [ElementProp.keyValue?, Element.bindsProp, hn, harg]
  | contribution harg hr => exact .inl ⟨_, _, contributes_of_ok harg hr, rfl⟩

private theorem eventKey_ne (event : String) (isComponent : Bool) :
    eventKey event isComponent ≠ "key" := by
  have hon (rest : String) : "on" ++ rest ≠ "key" := by
    intro h
    have h := congrArg String.toList h
    simp at h
  unfold eventKey
  split
  · intro h
    have h := congrArg String.toList h
    simp at h
  · unfold Text.handlerKey
    split
    · decide
    · exact hon _

private theorem camelizeFrom_lower {pending : Bool} {cs : List Char}
    (h : ∀ c ∈ Text.camelizeFrom pending cs, c.isLower = true) :
    pending = false ∧ Text.camelizeFrom pending cs = cs := by
  induction cs generalizing pending with
  | nil =>
    cases pending with
    | false => exact ⟨rfl, rfl⟩
    | true => simp [Text.camelizeFrom] at h
  | cons c cs ih =>
    rw [Text.camelizeFrom] at h ⊢
    split at h
    · cases (ih h).1
    · rename_i hc
      obtain ⟨hhead, htail⟩ := List.forall_mem_cons.mp h
      rw [if_neg hc]
      cases pending with
      | false => exact ⟨rfl, congrArg _ (ih htail).2⟩
      | true =>
        rw [if_pos rfl, Char.isLower_toUpper_eq_false] at hhead
        cases hhead

private theorem eq_of_camelize {name : String} (h : Text.camelize name = "key") : name = "key" := by
  have hcs : Text.camelizeFrom false name.toList = "key".toList := by
    simpa [Text.camelize] using congrArg String.toList h
  have hname := (camelizeFrom_lower (by rw [hcs]; simp)).2
  exact String.toList_injective (hname.symm.trans hcs)

private theorem modelKeys_fst {arg : Option Expression}
    (h : (modelKeys arg).1.staticContent? = some "key") :
    arg.bind Expression.staticContent? = some "key" := by
  unfold modelKeys at h
  split at h
  · rename_i s
    split at h
    · rename_i hs
      simpa [Expression.staticContent?, Simple.fixed, hs] using h
    · rename_i hs
      simp [Expression.staticContent?, hs] at h
  · simp [Expression.staticContent?, Simple.fixed, defaultModelProp] at h

private theorem modelKeys_snd (arg : Option Expression) :
    (modelKeys arg).2.staticContent? ≠ some "key" := by
  have hname (name : String) : "onUpdate:" ++ name ≠ "key" := by
    intro h
    have h := congrArg String.toList h
    simp at h
  unfold modelKeys
  split
  · split
    · simpa [Expression.staticContent?, Simple.fixed] using hname _
    · simp [Expression.staticContent?]
  · simpa [Expression.staticContent?, Simple.fixed] using hname _

private theorem Contributes.keyOf_none {e : Element} {p : ElementProp} {ps : List Property}
    (h : Contributes e p ps) (hk : e.kind ≠ .template) (hp : p.givesKey e.kind = false) :
    keyOf ps = none := by
  cases h with
  | plain a =>
    refine keyOf_cons_of_ne ?_ []
    simpa [ElementProp.givesKey, attributeProperty, Property.staticKey?, Expression.staticContent?,
      Simple.fixed] using hp
  | nothing => rfl
  | @bound d arg exp hn harg hexp =>
    simp only [ElementProp.givesKey, Element.bindsProp, hn, harg, beq_self_eq_true, Bool.true_and,
      Option.bind_some, Bool.or_eq_false_iff, beq_eq_false_iff_ne] at hp
    refine keyOf_cons_of_ne (fun h => hp.1 ?_) []
    cases arg with
    | compound c => simp [Property.staticKey?, boundKey, Expression.staticContent?] at h
    | simple a =>
      rw [Property.staticKey?, boundKey] at h
      split at h
      · rename_i hs
        rw [Expression.staticContent?, if_pos hs]
        simp only [Expression.staticContent?, Simple.fixed, if_true, Option.some.injEq] at h
        split at h
        · exact congrArg some (eq_of_camelize h)
        · exact congrArg some h
      · simp [Expression.staticContent?] at h
  | @listened d arg value hn harg =>
    refine keyOf_cons_of_ne (fun h => ?_) []
    cases arg with
    | compound c => simp [Property.staticKey?, Answer.handlerKey, Expression.staticContent?] at h
    | simple a =>
      rw [Property.staticKey?, Answer.handlerKey] at h
      split at h
      · simp only [Expression.staticContent?, Simple.fixed, if_true, Option.some.injEq] at h
        exact eventKey_ne _ _ h
      · simp [Expression.staticContent?] at h
  | @modelled d exp hn =>
    have hfst : (modelKeys d.arg).1.staticContent? ≠ some "key" := fun h => by
      simp [ElementProp.givesKey, hn, hk, modelKeys_fst h] at hp
    have hsnd := modelKeys_snd d.arg
    unfold modelContribution
    dsimp only
    split
    · exact keyOf_cons_of_ne (by exact hsnd) []
    · exact (keyOf_cons_of_ne (by exact hfst) _).trans (keyOf_cons_of_ne (by exact hsnd) [])

private theorem Contributes.keyOf_some {e : Element} {p : ElementProp} {ps : List Property}
    (h : Contributes e p ps) (hv : p.keyValue? = some value) : keyOf ps = some value := by
  cases h with
  | plain a =>
    rw [ElementProp.keyValue?] at hv
    split at hv
    · rename_i ha
      have ha : a.name = "key" := by simpa using ha
      cases hv
      exact keyOf_cons_of_eq (by exact congrArg some ha) []
    · cases hv
  | nothing hbind => simp [ElementProp.keyValue?, Element.bindsProp, hbind] at hv
  | @bound d arg exp hn harg hexp =>
    rw [ElementProp.keyValue?] at hv
    split at hv
    · rename_i hbinds
      rw [hexp] at hv
      cases hv
      refine keyOf_cons_of_eq ?_ []
      simp only [Element.bindsProp, hn, harg, beq_self_eq_true, Bool.true_and, Option.bind_some,
        beq_iff_eq] at hbinds
      cases arg with
      | compound c => cases hbinds
      | simple a =>
        rw [Expression.staticContent?] at hbinds
        split at hbinds
        · rename_i hs
          have ha : a.content = "key" := by simpa using hbinds
          simp only [Property.staticKey?, boundKey, hs, if_true, ha]
          split <;> decide
        · cases hbinds
    · cases hv
  | listened hn => simp [ElementProp.keyValue?, Element.bindsProp, hn] at hv
  | modelled hn => simp [ElementProp.keyValue?, Element.bindsProp, hn] at hv

private theorem Contributes.isSome_keyOf {e : Element} {p : ElementProp} {ps : List Property}
    (h : Contributes e p ps) (hk : e.kind ≠ .template) :
    (keyOf ps).isSome = p.givesKey e.kind := by
  cases hp : p.givesKey e.kind with
  | false => rw [h.keyOf_none hk hp, Option.isSome_none]
  | true =>
    cases h with
    | plain a =>
      rw [ElementProp.givesKey] at hp
      have hv : (ElementProp.plain a).keyValue? = some (attributeProperty a).value := by
        rw [ElementProp.keyValue?, if_pos hp]
      rw [(Contributes.plain (e := e) a).keyOf_some hv, Option.isSome_some]
    | nothing hbind hmodel => simp [ElementProp.givesKey, Element.bindsProp, hbind, hmodel] at hp
    | @bound d arg exp hn harg hexp =>
      have hbinds : Element.bindsProp d "key" = true := by
        simpa [ElementProp.givesKey, hn] using hp
      have hv : (ElementProp.directive d).keyValue? = some (.expression exp) := by
        rw [ElementProp.keyValue?, if_pos hbinds, hexp, Option.map_some]
      rw [(Contributes.bound (e := e) hn harg hexp).keyOf_some hv, Option.isSome_some]
    | listened hn => simp [ElementProp.givesKey, Element.bindsProp, hn] at hp
    | @modelled d exp hn =>
      have harg : d.arg.bind Expression.staticContent? = some "key" := by
        simpa [ElementProp.givesKey, Element.bindsProp, hn, hk] using hp
      obtain ⟨arg, harg, hstatic⟩ := Option.bind_eq_some_iff.mp harg
      have hkey : (modelKeys d.arg).1.staticContent? = some "key" := by
        cases arg with
        | compound c => cases hstatic
        | simple a =>
          rw [Expression.staticContent?] at hstatic
          split at hstatic
          · rename_i ha
            simpa [modelKeys, harg, ha, Expression.staticContent?, Simple.fixed] using hstatic
          · cases hstatic
      rw [modelContribution, if_neg (by simp [harg])]
      rw [keyOf_cons_of_eq (by exact hkey), Option.isSome_some]

private theorem modelKeys_static (arg : Option Expression) :
    (modelKeys arg).1.staticContent?.isSome = (modelKeys arg).2.staticContent?.isSome ∧
      (modelKeys arg).2.staticContent?.isSome = arg.all Expression.namesModel := by
  rcases arg with _ | (a | c)
  · exact ⟨rfl, rfl⟩
  · cases ha : a.isStatic <;>
      simp [modelKeys, ha, Expression.staticContent?, Simple.fixed, Expression.namesModel]
  · exact ⟨rfl, rfl⟩

private theorem Contributes.all_static {e : Element} {p : ElementProp} {ps : List Property}
    (h : Contributes e p ps) : (ps.all fun q => q.staticKey?.isSome) = p.isNamed := by
  cases h with
  | plain a =>
    simp [attributeProperty, Property.staticKey?, Expression.staticContent?, Simple.fixed,
      ElementProp.isNamed]
  | @nothing d hbind hmodel hon =>
    by_cases hn : d.name = "on"
    · simp [ElementProp.isNamed, hn, hon hn]
    · simp [ElementProp.isNamed, hbind, hmodel, hn]
  | @bound d arg exp hn harg hexp =>
    cases arg with
    | compound c =>
      simp [ElementProp.isNamed, hn, harg, Expression.isStatic, Property.staticKey?, boundKey,
        Expression.staticContent?]
    | simple a =>
      cases ha : a.isStatic <;> simp [ElementProp.isNamed, hn, harg, Expression.isStatic, ha,
        Property.staticKey?, boundKey, Expression.staticContent?, Simple.fixed]
  | @listened d arg value hn harg =>
    cases arg with
    | compound c =>
      simp [ElementProp.isNamed, hn, harg, Expression.isStatic, Property.staticKey?,
        Answer.handlerKey, Expression.staticContent?]
    | simple a =>
      cases ha : a.isStatic <;> simp [ElementProp.isNamed, hn, harg, Expression.isStatic, ha,
        Property.staticKey?, Answer.handlerKey, Expression.staticContent?, Simple.fixed]
  | @modelled d exp hn =>
    obtain ⟨hvalue, hhandler⟩ := modelKeys_static d.arg
    have hnamed : (ElementProp.directive d).isNamed =
        (modelKeys d.arg).2.staticContent?.isSome := by
      rw [hhandler]
      simp [ElementProp.isNamed, hn]
    rw [hnamed]
    unfold modelContribution
    dsimp only
    split
    · simp [Property.staticKey?]
    · simp [Property.staticKey?, hvalue]

private theorem isStatic_simple {e e' : Simple} (h : Answer.simple o s e = .ok e') :
    e'.isStatic = e.isStatic := by
  rcases simple_ok h with ⟨-, constancy, rfl⟩ | ⟨-, -, r, -, rfl⟩ <;> rfl

private theorem argument_keeps {a a' : Expression} (h : Answer.argument o s a = .ok a') :
    a'.isStatic = a.isStatic ∧ a'.staticContent? = a.staticContent? := by
  unfold Answer.argument at h
  split at h
  · cases h
    exact ⟨rfl, rfl⟩
  · rename_i hs
    cases a with
    | simple x =>
      obtain ⟨x', hx', rfl⟩ := except_map_ok.mp h
      have hx : x.isStatic = false := by simpa [Expression.isStatic] using hs
      simp [Expression.isStatic, Expression.staticContent?, isStatic_simple hx', hx]
    | compound c =>
      obtain ⟨parts, -, h⟩ := except_bind_ok.mp h
      cases h
      exact ⟨rfl, rfl⟩

private theorem namesModel_processed {x y : Option Expression}
    (h : x.mapM (Answer.argument o s) = .ok y) :
    y.all Expression.namesModel = x.all Expression.namesModel := by
  rcases x with _ | (a | c)
  · cases h
    rfl
  · obtain ⟨b, hb, rfl⟩ := except_map_ok.mp h
    obtain ⟨hs, -⟩ := argument_keeps hb
    unfold Answer.argument at hb
    split at hb
    · cases hb
      rfl
    · obtain ⟨a', -, rfl⟩ := except_map_ok.mp hb
      exact hs
  · obtain ⟨b, hb, rfl⟩ := except_map_ok.mp h
    obtain ⟨parts, -, hb⟩ := except_bind_ok.mp hb
    cases hb
    rfl

/-- Processing changes the value of a prop, not what the prop is for. -/
theorem prop_keeps {p p' : ElementProp} (h : Answer.prop o s p = .ok p') (kind : ElementKind) :
    p'.givesKey kind = p.givesKey kind ∧ p'.keyValue?.isSome = p.keyValue?.isSome ∧
      p'.isNamed = p.isNamed := by
  cases p with
  | plain a =>
    cases h
    exact ⟨rfl, rfl, rfl⟩
  | directive d =>
    rw [Answer.prop] at h
    split at h
    · cases h
      exact ⟨rfl, rfl, rfl⟩
    · obtain ⟨d', hd', rfl⟩ := except_map_ok.mp h
      obtain ⟨hname, hon, hexp, harg⟩ := directive_ok hd'
      have hsome : d'.exp.isSome = d.exp.isSome := by
        by_cases hn : d.name = "on"
        · rw [hon hn]
        · exact isSome_optionMapM (hexp hn)
      have hstatic : d'.arg.bind Expression.staticContent? = d.arg.bind Expression.staticContent? ∧
          d'.arg.map Expression.isStatic = d.arg.map Expression.isStatic := by
        cases ha : d.arg with
        | none =>
          rw [ha] at harg
          cases ha' : d'.arg with
          | none => exact ⟨rfl, rfl⟩
          | some a' =>
            rw [ha'] at harg
            cases harg
        | some a =>
          rw [ha] at harg
          obtain ⟨a', ha', harg'⟩ := except_map_ok.mp harg
          obtain ⟨hs, hc⟩ := argument_keeps ha'
          simp [harg', hs, hc]
      refine ⟨?_, ?_, ?_⟩
      · simp only [ElementProp.givesKey, Element.bindsProp, hname, hstatic.1]
      · have hbinds : Element.bindsProp d' "key" = Element.bindsProp d "key" := by
          simp only [Element.bindsProp, hname, hstatic.1]
        by_cases hb : Element.bindsProp d "key" = true
        · simpa [ElementProp.keyValue?, hbinds, hb] using hsome
        · simp [ElementProp.keyValue?, hbinds, hb]
      · have hany : d'.arg.any Expression.isStatic = d.arg.any Expression.isStatic := by
          simpa [Option.any_map] using congrArg (Option.any id) hstatic.2
        have hall : d'.arg.all Expression.isStatic = d.arg.all Expression.isStatic := by
          simpa [Option.all_map] using congrArg (Option.all id) hstatic.2
        have hmodel := namesModel_processed harg
        simp only [ElementProp.isNamed, hname, hany, hall, hmodel]

/-- The value stands under `key` in the segment that is being gathered or in one before it. -/
def PropsBuilder.Carries (b : PropsBuilder) (value : Code) : Prop :=
  keyOf b.properties = some value ∨
    ∃ ps, PropsBuilder.segment ps ∈ b.merged ∧ keyOf ps = some value

/-- Whether no bound object has been read and all properties have static keys. -/
def PropsBuilder.isNamed (b : PropsBuilder) : Bool :=
  b.merged.isEmpty && b.properties.all fun p => p.staticKey?.isSome

/-- No value stands under `key`. -/
structure PropsBuilder.Keyless (b : PropsBuilder) : Prop where
  properties : keyOf b.properties = none
  merged : ∀ o, .code (.object o) ∈ b.merged → keyOf o.properties = none

private theorem PropsBuilder.Carries.close {b : PropsBuilder} (h : b.Carries value) :
    ∃ ps, PropsBuilder.segment ps ∈ b.close.merged ∧ keyOf ps = some value := by
  unfold PropsBuilder.close
  split
  · rename_i hempty
    rcases h with h | h
    · rw [List.isEmpty_iff.mp hempty] at h
      cases h
    · exact h
  · rcases h with h | ⟨ps, hps, h⟩
    · exact ⟨b.properties, List.mem_append_right _ List.mem_cons_self, h⟩
    · exact ⟨ps, List.mem_append_left _ hps, h⟩

private theorem carries_addProp {e : Element} {b b' : PropsBuilder} {p : ElementProp}
    (h : b.Carries value) (hb : Answer.addProp o s e b p = .ok b') : b'.Carries value := by
  rcases addProp_ok hb with ⟨ps, runtime, -, rfl⟩ | ⟨-, -, exp, rfl⟩
  · rcases h with h | h
    · exact .inl (by rw [keyOf_append, h, Option.some_or])
    · exact .inr h
  · obtain ⟨ps, hps, h⟩ := h.close
    exact .inr ⟨ps, List.mem_append_left _ hps, h⟩

private theorem PropsBuilder.Keyless.close {b : PropsBuilder} (h : b.Keyless) :
    b.close.Keyless := by
  unfold PropsBuilder.close
  split
  · exact h
  · refine ⟨rfl, fun o ho => ?_⟩
    rcases List.mem_append.mp ho with ho | ho
    · exact h.merged o ho
    · rw [List.mem_singleton, PropsBuilder.segment] at ho
      cases ho
      exact (keyOf_mergeProperties _).trans h.properties

private theorem keyless_addProp {e : Element} {b b' : PropsBuilder} {p : ElementProp}
    (hk : e.kind ≠ .template) (hp : p.givesKey e.kind = false) (h : b.Keyless)
    (hb : Answer.addProp o s e b p = .ok b') : b'.Keyless := by
  rcases addProp_ok hb with ⟨ps, runtime, hc, rfl⟩ | ⟨-, -, exp, rfl⟩
  · refine ⟨?_, h.merged⟩
    rw [keyOf_append, h.properties, hc.keyOf_none hk hp, Option.none_or]
  · refine ⟨h.close.properties, fun o ho => ?_⟩
    rcases List.mem_append.mp ho with ho | ho
    · exact h.close.merged o ho
    · cases List.mem_singleton.mp ho

theorem keyless_addProps {e : Element} {b : PropsBuilder} {ps : List ElementProp}
    (hk : e.kind ≠ .template) (hps : ∀ p ∈ ps, p.givesKey e.kind = false)
    (hb : ps.foldlM (Answer.addProp o s e) {} = .ok b) : b.Keyless :=
  foldlM_ok (fun p hp _ _ h hstep => keyless_addProp hk (hps p hp) h hstep)
    ⟨rfl, by simp⟩ hb

private theorem isNamed_addProp {e : Element} {b b' : PropsBuilder} {p : ElementProp}
    (hb : Answer.addProp o s e b p = .ok b') : b'.isNamed = (b.isNamed && p.isNamed) := by
  rcases addProp_ok hb with ⟨ps, runtime, hc, rfl⟩ | ⟨hn, -, exp, rfl⟩
  · simp [PropsBuilder.isNamed, List.all_append, hc.all_static, Bool.and_assoc]
  · simp [PropsBuilder.isNamed, PropsBuilder.addObject, hn]

private theorem isSome_keyOf_addProp {e : Element} {b b' : PropsBuilder} {p : ElementProp}
    (hk : e.kind ≠ .template) (hp : p.isNamed = true)
    (hb : Answer.addProp o s e b p = .ok b') :
    (keyOf b'.properties).isSome = ((keyOf b.properties).isSome || p.givesKey e.kind) := by
  rcases addProp_ok hb with ⟨ps, runtime, hc, rfl⟩ | ⟨hn, -, -⟩
  · rw [keyOf_append, Option.isSome_or, hc.isSome_keyOf hk]
  · rw [hn] at hp
    cases hp

theorem addProps_seen {e : Element} {b b' : PropsBuilder} {ps : List ElementProp}
    (hk : e.kind ≠ .template) (hb : ps.foldlM (Answer.addProp o s e) b = .ok b') :
    b'.isNamed = (b.isNamed && ps.all ElementProp.isNamed) ∧
      (ps.all ElementProp.isNamed = true → (keyOf b'.properties).isSome =
        ((keyOf b.properties).isSome || ps.any (·.givesKey e.kind))) := by
  induction ps generalizing b with
  | nil =>
    cases hb
    simp
  | cons p ps ih =>
    rw [List.foldlM_cons] at hb
    obtain ⟨b₁, hb₁, hb⟩ := except_bind_ok.mp hb
    obtain ⟨hnamed, hkey⟩ := ih hb
    rw [List.all_cons, List.any_cons]
    refine ⟨by rw [hnamed, isNamed_addProp hb₁, Bool.and_assoc], fun hps => ?_⟩
    rw [Bool.and_eq_true] at hps
    rw [hkey hps.2, isSome_keyOf_addProp hk hps.1 hb₁, Bool.or_assoc]

/-- The first key that is read is carried to the end. -/
theorem carries_of_first {e : Element} {b : PropsBuilder} {before after : List ElementProp}
    {p : ElementProp} (hk : e.kind ≠ .template)
    (hbefore : ∀ q ∈ before, q.givesKey e.kind = false) (hp : p.keyValue? = some value)
    (h : (before ++ p :: after).foldlM (Answer.addProp o s e) {} = .ok b) : b.Carries value := by
  rw [List.foldlM_append] at h
  obtain ⟨b₁, hb₁, h⟩ := except_bind_ok.mp h
  rw [List.foldlM_cons] at h
  obtain ⟨b₂, hb₂, h⟩ := except_bind_ok.mp h
  have hnone := (keyless_addProps hk hbefore hb₁).properties
  have hfirst : b₂.Carries value := by
    rcases addProp_ok hb₂ with ⟨ps, runtime, hc, rfl⟩ | ⟨-, hnot, -⟩
    · exact .inl (by rw [keyOf_append, hnone, hc.keyOf_some hp, Option.none_or])
    · rw [hp] at hnot
      cases hnot
  exact foldlM_ok (q := fun b => b.Carries value)
    (fun _ _ _ _ hcarries hstep => carries_addProp hcarries hstep) hfirst h

private theorem mem_objects_segment {h : Helper} {as : List Argument} {ps : List Property}
    (hps : PropsBuilder.segment ps ∈ as) :
    { properties := mergeProperties ps } ∈ (Answer.callOf h as).objects :=
  List.mem_filterMap.mpr ⟨_, hps, rfl⟩

/-- A builder that carries a key gives props that carry it. -/
theorem props_carry {b : PropsBuilder} (h : b.Carries value) :
    ∃ props ∈ Answer.props b, ∃ o ∈ props.objects, keyOf o.properties = some value := by
  unfold Answer.props
  split
  · obtain ⟨ps, hps, hv⟩ := h.close
    exact ⟨_, rfl, _, mem_objects_segment hps, (keyOf_mergeProperties ps).trans hv⟩
  · rename_i hmerged
    have hmerged : b.merged = [] := by simpa using hmerged
    have hv : keyOf b.properties = some value := by
      rcases h with h | ⟨ps, hps, -⟩
      · exact h
      · rw [hmerged] at hps
        cases hps
    split
    · rename_i hempty
      rw [List.isEmpty_iff.mp hempty] at hv
      cases hv
    · split
      · exact ⟨_, rfl, _, mem_objects_segment List.mem_cons_self,
          (keyOf_mergeProperties _).trans hv⟩
      · refine ⟨_, rfl, _, List.mem_cons_self, ?_⟩
        rw [keyOf_normalized, keyOf_mergeProperties, hv]

/-- A builder without a key gives props without one. -/
theorem props_keyless {b : PropsBuilder} (h : b.Keyless) :
    ∀ props ∈ Answer.props b, ∀ o ∈ props.objects, keyOf o.properties = none := by
  intro props hprops o ho
  unfold Answer.props at hprops
  split at hprops
  · cases hprops
    obtain ⟨a, ha, hao⟩ := List.mem_filterMap.mp ho
    split at hao
    · cases hao
      exact h.close.merged o ha
    · cases hao
  · split at hprops
    · cases hprops
    · split at hprops
      · cases hprops
        cases List.mem_singleton.mp ho
        exact (keyOf_mergeProperties _).trans h.properties
      · cases hprops
        cases List.mem_singleton.mp ho
        rw [keyOf_normalized, keyOf_mergeProperties, h.properties]

/-- A key can be seen in props that are all named, which become one object literal, and only
there. -/
theorem hasKey_props {b : PropsBuilder} {v : VNode} (hv : v.props = Answer.props b) :
    v.hasKey = (b.isNamed && (keyOf b.properties).isSome) := by
  have hobject (ps : List Property) :
      (ps.any fun p => p.staticKey? == some "key") = (keyOf ps).isSome := by
    rw [keyOf, Option.isSome_map, Bool.eq_iff_iff, List.any_eq_true, List.find?_isSome]
  have hcomputed : (b.properties.any fun p => p.staticKey?.isNone) =
      !b.properties.all fun p => p.staticKey?.isSome := by
    simp only [List.not_all_eq_any_not, Option.not_isSome]
  rw [VNode.hasKey, hv, Answer.props, hcomputed]
  by_cases hmerged : b.merged = []
  · by_cases hempty : b.properties = []
    · simp [hmerged, hempty, keyOf]
    · cases hstatic : b.properties.all fun p => p.staticKey?.isSome with
      | false => simp [PropsBuilder.isNamed, hmerged, hempty, hstatic, Answer.callOf]
      | true =>
        simp [PropsBuilder.isNamed, hmerged, hempty, hstatic, hobject, keyOf_normalized,
          keyOf_mergeProperties]
  · simp [PropsBuilder.isNamed, hmerged, Answer.callOf]

end Lowering

end TemplateCompiler

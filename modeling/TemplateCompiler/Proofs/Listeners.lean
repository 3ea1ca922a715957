import TemplateCompiler.Proofs.PropKeys
import TemplateCompiler.Proofs.PropSegments

/-! Listeners. The key of a named event is one whose values are gathered, so the handler of every
listener is among the values that its segment has under that key, in the order of the template. -/
namespace TemplateCompiler

/-- The event that a listener names in the template. -/
def Directive.event? (d : Directive) : Option String :=
  if d.name == "on" then d.arg.bind Expression.staticContent? else none

namespace Lowering

/-- The properties that props produce, in their order. -/
inductive ProducesAll (c : Context) (e : Element) : List ElementProp → List Property → Prop
  | nil : ProducesAll c e [] []
  | cons {p : ElementProp} {own : List Property} {ps : List ElementProp} {rest : List Property}
      (hp : Produces c e p own) (hps : ProducesAll c e ps rest) :
      ProducesAll c e (p :: ps) (own ++ rest)

/-- The object keeps the listeners of a segment of props. For each of them that names an event, it
has one property under the key of the event, with the values that the props of the segment produce
under that key: one value as it is, several in an array, in the order of the props. The value in the
place of the listener is its handler. -/
def KeepsListeners (c : Context) (e : Element) (segment : List ElementProp)
    (object : Option ObjectCode) : Prop :=
  ∀ before d after event, segment = before ++ .directive d :: after →
    d.event? = some event → event ≠ "" →
      ∃ o key handler c' ps qs, object = some o ∧ key = eventKey event e.isComponent ∧
        handlerOf d.exp c = .ok handler c' ∧
        ProducesAll c e before ps ∧ ProducesAll c e after qs ∧
        valuesUnder key o.properties =
          [gatheredCode (valuesUnder key ps ++ handler :: valuesUnder key qs)]

variable {c : Context} {e : Element} {ps : List Property} {name : String}

private theorem camelizeFrom_ne_nil {pending : Bool} {s : List Char} (h : pending = true ∨ s ≠ []) :
    Text.camelizeFrom pending s ≠ [] := by
  induction s generalizing pending with
  | nil => simpa [Text.camelizeFrom] using h
  | cons c s ih =>
    rw [Text.camelizeFrom]
    split
    · exact ih (.inl rfl)
    · exact List.cons_ne_nil _ _

private theorem isHandlerName_handlerKey {event : String} (h : event ≠ "") :
    isHandlerName (Text.handlerKey event) = true := by
  obtain ⟨x, rest, hchars⟩ := List.exists_cons_of_ne_nil fun hnil =>
    h (String.toList_eq_nil_iff.mp hnil)
  simp [Text.handlerKey, h, Text.capitalize, hchars, isHandlerName]

private theorem isHandlerName_eventKey {event : String} (h : event ≠ "") (isComponent : Bool) :
    isHandlerName (eventKey event isComponent) = true := by
  rw [eventKey]
  split
  · simp [isHandlerName]
  · have hchars : event.toList ≠ [] := fun hnil => h (String.toList_eq_nil_iff.mp hnil)
    refine isHandlerName_handlerKey fun hempty => ?_
    have hnil : Text.camelizeFrom false event.toList = [] := by
      simpa [Text.camelize] using congrArg String.toList hempty
    exact camelizeFrom_ne_nil (.inr hchars) hnil

private theorem isGathered_of_handler (h : isHandlerName name = true) : isGathered name = true := by
  rw [isGathered, h, Bool.or_true]

private theorem ProducesAll.split {before after : List ElementProp} {p : ElementProp}
    (h : ProducesAll c e (before ++ p :: after) ps) : ∃ first own last,
      ProducesAll c e before first ∧ Produces c e p own ∧ ProducesAll c e after last ∧
        ps = first ++ (own ++ last) := by
  induction before generalizing ps with
  | nil =>
    cases h with
    | @cons _ own _ last hp hps => exact ⟨[], own, last, .nil, hp, hps, rfl⟩
  | cons q before ih =>
    cases h with
    | cons hq hps =>
      obtain ⟨first, own, last, hfirst, hp, hlast, rfl⟩ := ih hps
      exact ⟨_, own, last, .cons hq hfirst, hp, hlast, (List.append_assoc ..).symm⟩

private theorem Produces.listener {d : Directive} {own : List Property} {event : String}
    (h : Produces c e (.directive d) own) (hd : d.event? = some event) :
    ∃ handler c', handlerOf d.exp c = .ok handler c' ∧
      valuesUnder (eventKey event e.isComponent) own = [handler] := by
  obtain ⟨hn, hevent⟩ : d.name = "on" ∧ d.arg.bind Expression.staticContent? = some event := by
    simpa [Directive.event?] using hd
  obtain ⟨arg, harg, hstatic⟩ := Option.bind_eq_some_iff.mp hevent
  cases h with
  | unknown hf =>
    rw [hn] at hf
    cases hf
  | lowered hf hr =>
    rw [hn] at hf
    cases hf
    cases arg with
    | compound arg => cases hstatic
    | simple arg =>
      obtain ⟨hs, rfl⟩ : arg.isStatic = true ∧ arg.content = event := by
        simpa [Expression.staticContent?] using hstatic
      simp only [listen, harg, handlerKeyOf, if_pos hs, pure_bind] at hr
      obtain ⟨handler, _, hhandler, hr⟩ := step_bind_ok.mp hr
      cases hr
      refine ⟨handler, _, hhandler, ?_⟩
      simp [valuesUnder, Property.staticKey?, Expression.staticContent?, Simple.fixed]

private theorem valuesUnder_append (name : String) (ps qs : List Property) :
    valuesUnder name (ps ++ qs) = valuesUnder name ps ++ valuesUnder name qs := by
  rw [valuesUnder, List.filter_append, List.map_append]
  rfl

private theorem filter_firstProperties (name : String) (ps : List Property) :
    (firstProperties ps).filter (fun p => p.staticKey? == some name) =
      (ps.filter fun p => p.staticKey? == some name).take 1 := by
  induction ps using List.reverseRecOn with
  | nil => rfl
  | append_singleton ps p ih =>
    rw [firstProperties_concat, List.filter_append, List.filter_append, ih]
    by_cases hp : p.staticKey? = some name
    · -- With the key, the property is kept exactly if there was none with it before.
      by_cases hnew : isNewAfter ps p = true
      · have hnone : ps.filter (fun q => q.staticKey? == some name) = [] := by
          refine List.filter_eq_nil_iff.mpr fun q hq hkey => ?_
          exact (isNewAfter_iff hp ps).mp hnew q hq (beq_iff_eq.mp hkey)
        simp [hnone, hnew, hp]
      · have hsome : ps.filter (fun q => q.staticKey? == some name) ≠ [] := by
          intro hnone
          refine hnew ((isNewAfter_iff hp ps).mpr fun q hq hkey => ?_)
          exact List.filter_eq_nil_iff.mp hnone q hq (beq_iff_eq.mpr hkey)
        rw [if_neg hnew, List.filter_nil, List.append_nil,
          List.take_append_of_le_length (List.length_pos_iff.mpr hsome)]
    · by_cases hnew : isNewAfter ps p = true <;> simp [hnew, hp]

private theorem valuesUnder_distinctProperties (hname : isGathered name = true)
    (hne : valuesUnder name ps ≠ []) :
    valuesUnder name (distinctProperties ps) = [gatheredCode (valuesUnder name ps)] := by
  have hfilter : (distinctProperties ps).filter (fun p => p.staticKey? == some name) =
      ((ps.filter fun p => p.staticKey? == some name).take 1).map
        fun p => p.withValue (finalValue ps p) := by
    rw [distinctProperties, List.filter_map, ← filter_firstProperties]
    rfl
  rw [valuesUnder, hfilter]
  cases hps : ps.filter fun p => p.staticKey? == some name with
  | nil => exact absurd (by rw [valuesUnder, hps]; rfl) hne
  | cons q qs =>
    have hq : q ∈ ps.filter fun p => p.staticKey? == some name := by
      rw [hps]
      exact List.mem_cons_self
    have hkey : q.staticKey? = some name := beq_iff_eq.mp (List.mem_filter.mp hq).2
    exact congrArg ([·]) (finalValue_of_gathered hkey hname ps)

private theorem valuesUnder_inNormalForm (hname : isHandlerName name = true) (ps : List Property) :
    valuesUnder name (ps.map inNormalForm) = valuesUnder name ps := by
  have hclass : name ≠ "class" := by
    rintro rfl
    exact absurd hname (by decide)
  have hstyle : name ≠ "style" := by
    rintro rfl
    exact absurd hname (by decide)
  have hkey (p : Property) : (inNormalForm p).staticKey? = p.staticKey? := by
    unfold inNormalForm
    dsimp only
    split_ifs <;> rfl
  have hsame : ∀ p ∈ ps.filter fun p => p.staticKey? == some name, inNormalForm p = p := by
    intro p hp
    have hp : p.staticKey? = some name := beq_iff_eq.mp (List.mem_filter.mp hp).2
    simp [inNormalForm, hp, hclass, hstyle]
  simp only [valuesUnder, List.filter_map, Function.comp_def, hkey]
  rw [List.map_congr_left hsame, List.map_id']

/-- The object holds, under each handler key that the properties have, their values in order. -/
def HoldsHandlers (ps : List Property) (object : Option ObjectCode) : Prop :=
  ∀ key, isHandlerName key = true → valuesUnder key ps ≠ [] →
    ∃ o, object = some o ∧ valuesUnder key o.properties = [gatheredCode (valuesUnder key ps)]

/-- The object for the properties of a segment. -/
def segmentObject? (ps : List Property) : Option ObjectCode :=
  if ps = [] then none else some { properties := distinctProperties ps }

private theorem holdsHandlers_segmentObject? (ps : List Property) :
    HoldsHandlers ps (segmentObject? ps) := by
  intro key hkey hne
  have hps : ps ≠ [] := by
    rintro rfl
    exact hne rfl
  exact ⟨_, if_neg hps, valuesUnder_distinctProperties (isGathered_of_handler hkey) hne⟩

private theorem objects_segmentArguments (f : Callee) (ps : List Property) :
    (PropsCode.call { callee := f, arguments := segmentArguments ps }).objects =
      (segmentObject? ps).toList := by
  rw [PropsCode.objects, segmentArguments, segmentObject?]
  split <;> rfl

private theorem objects_mergeArguments (f : Callee) (first : List Property)
    (parts : List (Expression × List Property)) :
    (PropsCode.call { callee := f, arguments := mergeArguments first parts }).objects =
      (first :: parts.map Prod.snd).flatMap fun ps => (segmentObject? ps).toList := by
  have happend (as bs : List Argument) :
      (PropsCode.call { callee := f, arguments := as ++ bs }).objects =
        (PropsCode.call { callee := f, arguments := as }).objects ++
          (PropsCode.call { callee := f, arguments := bs }).objects := List.filterMap_append
  rw [mergeArguments, happend, objects_segmentArguments, List.flatMap_cons]
  congr 1
  induction parts with
  | nil => rfl
  | cons part parts ih =>
    have hbound (as : List Argument) :
        (PropsCode.call { callee := f, arguments := .code (.expression part.1) :: as }).objects =
          (PropsCode.call { callee := f, arguments := as }).objects := rfl
    rw [List.flatMap_cons, happend, hbound, objects_segmentArguments, ih]
    rfl

private theorem Arranged.objects {first : List Property} {parts : List (Expression × List Property)}
    {props : Option PropsCode} (h : Arranged first parts props) :
    ∃ objects : List (Option ObjectCode),
      objects.filterMap id = props.toList.flatMap PropsCode.objects ∧
      List.Forall₂ HoldsHandlers (first :: parts.map Prod.snd) objects := by
  have hsegments : List.Forall₂ HoldsHandlers (first :: parts.map Prod.snd)
      ((first :: parts.map Prod.snd).map segmentObject?) := by
    rw [List.forall₂_map_right_iff]
    exact List.forall₂_same.mpr fun ps _ => holdsHandlers_segmentObject? ps
  have hobjects : ((first :: parts.map Prod.snd).map segmentObject?).filterMap id =
      (first :: parts.map Prod.snd).flatMap fun ps => (segmentObject? ps).toList := by
    rw [List.filterMap_map, Function.id_comp, List.filterMap_eq_flatMap_toList]
  by_cases hparts : parts = []
  · subst hparts
    by_cases hcomputed : ∃ p ∈ first, p.staticKey? = none
    · refine ⟨_, hobjects.trans ?_, hsegments⟩
      rw [h.computed rfl hcomputed, Option.toList_some, List.flatMap_singleton,
        objects_segmentArguments, List.map_nil, List.flatMap_singleton]
    · by_cases hfirst : first = []
      · subst hfirst
        refine ⟨_, hobjects.trans ?_, hsegments⟩
        rw [h.absent rfl rfl]
        rfl
      · -- The one object there is has its classes and styles in normal form.
        have hkeys : ∀ p ∈ first, p.staticKey? ≠ none := fun p hp hnone =>
          hcomputed ⟨p, hp, hnone⟩
        refine ⟨[some { properties := (distinctProperties first).map inNormalForm }], ?_,
          .cons (fun key hkey hne => ?_) .nil⟩
        · rw [h.static rfl hfirst hkeys]
          rfl
        · refine ⟨_, rfl, ?_⟩
          rw [valuesUnder_inNormalForm hkey]
          exact valuesUnder_distinctProperties (isGathered_of_handler hkey) hne
  · refine ⟨_, hobjects.trans ?_, hsegments⟩
    rw [h.merged hparts, Option.toList_some, List.flatMap_singleton, objects_mergeArguments]

private theorem Segmented.segments {props : List ElementProp} {first : List Property}
    {parts : List (Expression × List Property)} (h : Segmented c e props first parts) :
    List.Forall₂ (ProducesAll c e) (props.splitOnP ElementProp.bindsObject)
      (first :: parts.map Prod.snd) := by
  induction h with
  | nil => exact .cons .nil .nil
  | object hd hexp hps ih =>
    rw [List.splitOnP_cons_eq_if_modifyHead, if_pos hd]
    exact .cons .nil ih
  | prop hp hown hps ih =>
    rw [List.splitOnP_cons_eq_if_modifyHead, if_neg (Bool.eq_false_iff.mp hp)]
    obtain ⟨segment, segments, hfirst, hparts, hsplit⟩ := List.forall₂_cons_right_iff.mp ih
    rw [hsplit]
    exact .cons (.cons hown hfirst) hparts

private theorem keepsListeners {segment : List ElementProp} {object : Option ObjectCode}
    (hps : ProducesAll c e segment ps) (ho : HoldsHandlers ps object) :
    KeepsListeners c e segment object := by
  rintro before d after event rfl hd hevent
  obtain ⟨first, own, last, hfirst, hown, hlast, rfl⟩ := hps.split
  obtain ⟨handler, c', hhandler, hvalues⟩ := hown.listener hd
  have hall : valuesUnder (eventKey event e.isComponent) (first ++ (own ++ last)) =
      valuesUnder (eventKey event e.isComponent) first ++
        handler :: valuesUnder (eventKey event e.isComponent) last := by
    rw [valuesUnder_append, valuesUnder_append, hvalues]
    rfl
  have hkey := isHandlerName_eventKey hevent e.isComponent
  obtain ⟨o, rfl, hvalues⟩ := ho _ hkey (by simp [hall])
  rw [hall] at hvalues
  exact ⟨o, _, handler, c', first, last, rfl, rfl, hhandler, hfirst, hlast, hvalues⟩

private theorem keepsListeners_all {segments : List (List ElementProp)}
    {produced : List (List Property)}
    {objects : List (Option ObjectCode)} (hps : List.Forall₂ (ProducesAll c e) segments produced)
    (ho : List.Forall₂ HoldsHandlers produced objects) :
    List.Forall₂ (KeepsListeners c e) segments objects := by
  induction hps generalizing objects with
  | nil =>
    cases ho
    exact .nil
  | cons hps _ ih =>
    cases ho with
    | cons ho hos => exact .cons (keepsListeners hps ho) (ih hos)

/-- No listener is lost. Values under the key of a named event are gathered. Cut at its bound
objects, the props of an element make the objects of the built props, in their order, and each
object keeps the listeners of its segment. -/
theorem buildProps_keeps_listeners {c' : Context} {built : BuiltProps}
    (h : buildProps standardDirectives e c = .ok built c') :
    (∀ event isComponent, event ≠ "" → isGathered (eventKey event isComponent) = true) ∧
    ∃ objects : List (Option ObjectCode),
      objects.filterMap id = built.props.toList.flatMap PropsCode.objects ∧
      List.Forall₂ (KeepsListeners c e) (e.props.splitOnP ElementProp.bindsObject) objects := by
  refine ⟨fun event isComponent hevent =>
    isGathered_of_handler (isHandlerName_eventKey hevent isComponent), ?_⟩
  obtain ⟨hbuilt, -⟩ := (gives_built e).of_ok rfl rfl h
  obtain ⟨b, hb, rfl⟩ := except_map_ok.mp hbuilt
  have hempty : NoArrays ({} : PropsBuilder).properties := List.forall_mem_nil _
  obtain ⟨first, parts, hseg, hgathered⟩ := addProps_gathered hempty hb
  obtain ⟨objects, hobjects, hholds⟩ := (arranged_props hseg.noArrays hgathered).objects
  exact ⟨objects, hobjects, keepsListeners_all hseg.segments hholds⟩

/-- An attribute, a bound prop and a listener under one key before a bound object, and two listeners
behind it. -/
def repeatedListeners : Element :=
  let fixed (content : String) : Option Expression := some (.simple (.fixed content .stub))
  let code (content : String) : Option Expression := some (.compound { parts := [.raw content] })
  { tag := "row-input"
    kind := .component
    props := [
      .plain { name := "onRowMoved", span := .stub },
      .directive { name := "bind", arg := fixed "onRowMoved", exp := code "log", span := .stub },
      .directive { name := "on", arg := fixed "row-moved", exp := code "save", span := .stub },
      .directive { name := "bind", exp := code "rest", span := .stub },
      .directive { name := "on", arg := fixed "rowMoved", exp := code "show", span := .stub },
      .directive { name := "on", arg := fixed "row-moved", span := .stub }]
    span := .stub }

theorem repeatedListeners_kept : ∃ built c' objects,
    buildProps standardDirectives repeatedListeners {} = .ok built c' ∧
    (built.props.toList.flatMap PropsCode.objects).map
        (fun o => (valuesUnder "onRowMoved" o.properties).map Code.kind) =
      [[.arrayExpression], [.arrayExpression]] ∧
    objects.filterMap id = built.props.toList.flatMap PropsCode.objects ∧
    List.Forall₂ (KeepsListeners {} repeatedListeners)
      (repeatedListeners.props.splitOnP ElementProp.bindsObject) objects := by
  obtain ⟨objects, hobjects, hkept⟩ :=
    (buildProps_keeps_listeners (c := {}) (e := repeatedListeners) rfl).2
  exact ⟨_, _, objects, rfl, rfl, hobjects, hkept⟩

end Lowering

end TemplateCompiler

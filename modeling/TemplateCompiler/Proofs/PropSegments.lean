import TemplateCompiler.Proofs.Answers
import TemplateCompiler.Proofs.RepeatedProperties

/-! The order of the props of an element. Bound objects cut the props into segments. What a segment
produces stays together, and the segments and the bound objects are merged as they stand in the
template. -/
namespace TemplateCompiler

/-- Whether the prop binds a whole object: it is a binding without an argument. -/
def ElementProp.bindsObject : ElementProp → Bool
  | .plain _ => false
  | .directive d => d.name == "bind" && d.arg.isNone

namespace Lowering

/-- The properties that a prop produces in a context. -/
inductive Produces (c : Context) (e : Element) : ElementProp → List Property → Prop
  | plain (a : Attribute) : Produces c e (.plain a) [attributeProperty a]
  | unknown {d : Directive} (hn : standardDirectives d.name = none) :
      Produces c e (.directive d) []
  | lowered {d : Directive} {f : DirectiveLowering} {r : Contribution} {c' : Context}
      (hf : standardDirectives d.name = some f) (hr : f e d c = .ok r c') :
      Produces c e (.directive d) r.properties

/-- The props, cut at the bound objects: what the props before the first bound object produce, and
each bound object with what the props behind it produce, up to the next one. -/
inductive Segmented (c : Context) (e : Element) :
    List ElementProp → List Property → List (Expression × List Property) → Prop
  | nil : Segmented c e [] [] []
  | object {d : Directive} {exp : Expression} {ps : List ElementProp} {first : List Property}
      {parts : List (Expression × List Property)}
      (hd : (ElementProp.directive d).bindsObject = true) (hexp : d.exp = some exp)
      (hps : Segmented c e ps first parts) :
      Segmented c e (.directive d :: ps) [] ((exp, first) :: parts)
  | prop {p : ElementProp} {own : List Property} {ps : List ElementProp} {first : List Property}
      {parts : List (Expression × List Property)}
      (hp : p.bindsObject = false) (hown : Produces c e p own)
      (hps : Segmented c e ps first parts) :
      Segmented c e (p :: ps) (own ++ first) parts

/-- The object for the properties of a segment. A segment without properties has none. -/
def segmentArguments (ps : List Property) : List Argument :=
  if ps = [] then [] else [.code (.object { properties := distinctProperties ps })]

/-- The objects of the segments and the bound objects, in their order. -/
def mergeArguments (first : List Property) (parts : List (Expression × List Property)) :
    List Argument :=
  segmentArguments first ++
    parts.flatMap fun part => .code (.expression part.1) :: segmentArguments part.2

/-- The property with its value in normal form: the value of a class or a style is normalised,
unless it is a static string. -/
def inNormalForm (p : Property) : Property :=
  let call (h : Helper) : Code := .call { callee := .helper h, arguments := [.code p.value] }
  if isFixedValue p.value then p
  else if p.staticKey? = some "class" then p.withValue (call .normalizeClass)
  else if p.staticKey? = some "style" then p.withValue (call .normalizeStyle)
  else p

/-- The props that a virtual node has for the properties before the first bound object, and for
the bound objects with the properties behind each. -/
structure Arranged (first : List Property) (parts : List (Expression × List Property))
    (props : Option PropsCode) : Prop where
  absent : parts = [] → first = [] → props = none
  merged : parts ≠ [] → props = some (.call
    { callee := .helper
        (if 2 ≤ (mergeArguments first parts).length then .mergeProps else .normalizeProps)
      arguments := mergeArguments first parts })
  computed : parts = [] → (∃ p ∈ first, p.staticKey? = none) → props = some (.call
    { callee := .helper .normalizeProps, arguments := segmentArguments first })
  static : parts = [] → first ≠ [] → (∀ p ∈ first, p.staticKey? ≠ none) →
    props = some (.object { properties := (distinctProperties first).map inNormalForm })

variable {c : Context} {e : Element} {ps : List ElementProp} {p : ElementProp}
  {first own : List Property} {parts : List (Expression × List Property)} {b b' : PropsBuilder}

private theorem noArrays_of_values {ps : List Property}
    (h : ∀ p ∈ ps, ∃ x, p.value = .expression x) :
    NoArrays ps := by
  intro p hp a ha
  obtain ⟨x, hx⟩ := h p hp
  rw [hx] at ha
  cases ha

private theorem NoArrays.append {ps qs : List Property} (hp : NoArrays ps) (hq : NoArrays qs) :
    NoArrays (ps ++ qs) :=
  List.forall_mem_append.mpr ⟨hp, hq⟩

private theorem Produces.noArrays (h : Produces c e p own) : NoArrays own := by
  cases h with
  | plain a => exact noArrays_of_values (List.forall_mem_singleton.mpr ⟨_, rfl⟩)
  | unknown hn => exact List.forall_mem_nil _
  | lowered hf hr =>
    obtain ⟨hr, -⟩ := (gives_contribution hf e).of_ok rfl rfl hr
    exact noArrays_of_values (contribution_value hr)

theorem Segmented.noArrays (h : Segmented c e ps first parts) : NoArrays first := by
  induction h with
  | nil => exact List.forall_mem_nil _
  | object => exact List.forall_mem_nil _
  | prop _ hown _ ih => exact hown.noArrays.append ih

private theorem produces_of_contribution {d : Directive} {r : Contribution}
    (h : Answer.contribution c.options c.scope e d = .ok r) :
    Produces c e (.directive d) r.properties := by
  cases hf : standardDirectives d.name with
  | none =>
    rw [contribution_of_unknown hf] at h
    cases h
    exact .unknown hf
  | some f =>
    obtain ⟨ns, hrun, -⟩ := gives_contribution (o := c.options) (s := c.scope) hf e
    have hrun := hrun c rfl rfl
    rw [h] at hrun
    exact .lowered hf hrun

private theorem PropsBuilder.close_eq (h : NoArrays b.properties) : b.close =
    { b with properties := [], merged := b.merged ++ segmentArguments b.properties } := by
  obtain ⟨properties, merged, runtime⟩ := b
  cases properties with
  | nil => simp [close, segmentArguments]
  | cons p ps => simp [close, segmentArguments, segment, mergeProperties_eq h]

private theorem PropsBuilder.addObject_eq (h : NoArrays b.properties) (exp : Expression) :
    b.addObject exp =
      { b with
        properties := []
        merged := b.merged ++ segmentArguments b.properties ++ [.code (.expression exp)] } := by
  rw [addObject, close_eq h]

/-- What the builder holds after props that give these segments. -/
structure Gathered (b : PropsBuilder) (first : List Property)
    (parts : List (Expression × List Property)) (b' : PropsBuilder) : Prop where
  all : b'.close.merged = b.merged ++ mergeArguments (b.properties ++ first) parts
  uncut : parts = [] → b'.merged = b.merged ∧ b'.properties = b.properties ++ first
  cut : parts ≠ [] → b'.merged ≠ []

private theorem Gathered.refl (h : NoArrays b.properties) : Gathered b [] [] b where
  all := by simp [PropsBuilder.close_eq h, mergeArguments]
  uncut _ := ⟨rfl, (List.append_nil _).symm⟩
  cut h := absurd rfl h

private theorem Gathered.prop {runtime : List ArrayItem}
    (h : Gathered { b with properties := b.properties ++ own, runtime } first parts b') :
    Gathered b (own ++ first) parts b' where
  all := by rw [h.all, List.append_assoc]
  uncut hparts := by
    obtain ⟨hm, hp⟩ := h.uncut hparts
    exact ⟨hm, by rw [hp, List.append_assoc]⟩
  cut := h.cut

private theorem Gathered.object {exp : Expression} (hb : NoArrays b.properties)
    (h : Gathered (b.addObject exp) first parts b') : Gathered b [] ((exp, first) :: parts) b' := by
  rw [PropsBuilder.addObject_eq hb] at h
  refine ⟨?_, fun hparts => absurd hparts (List.cons_ne_nil _ _), fun _ => ?_⟩
  · rw [h.all]
    simp [mergeArguments]
  · by_cases hparts : parts = []
    · rw [(h.uncut hparts).1]
      exact List.append_ne_nil_of_right_ne_nil _ (List.cons_ne_nil _ _)
    · exact h.cut hparts

/-- Reading props gathers what the segments hold. -/
theorem addProps_gathered (hb : NoArrays b.properties)
    (h : ps.foldlM (Answer.addProp c.options c.scope e) b = .ok b') :
    ∃ first parts, Segmented c e ps first parts ∧ Gathered b first parts b' := by
  -- On the props that are left; the segment that is open goes on with the first of theirs.
  induction ps generalizing b with
  | nil =>
    cases h
    exact ⟨[], [], .nil, .refl hb⟩
  | cons p ps ih =>
    rw [List.foldlM_cons] at h
    obtain ⟨b₁, hp, hps⟩ := except_bind_ok.mp h
    cases adds_of_ok hp with
    | plain a =>
      have hown : Produces c e (.plain a) _ := .plain a
      obtain ⟨first, parts, hseg, hb'⟩ := ih (hb.append hown.noArrays) hps
      exact ⟨_, parts, .prop rfl hown hseg, hb'.prop⟩
    | @object d exp hn harg hexp =>
      have hempty : NoArrays (b.addObject exp).properties := by
        rw [PropsBuilder.addObject_eq hb]
        exact List.forall_mem_nil _
      obtain ⟨first, parts, hseg, hb'⟩ := ih hempty hps
      have hbind : (ElementProp.directive d).bindsObject = true := by
        simp [ElementProp.bindsObject, hn, harg]
      exact ⟨[], (exp, first) :: parts, .object hbind hexp hseg, hb'.object hb⟩
    | @contribution d r harg hr =>
      have hown := produces_of_contribution hr
      obtain ⟨first, parts, hseg, hb'⟩ := ih (hb.append hown.noArrays) hps
      have hbind : (ElementProp.directive d).bindsObject = false := by
        simpa [ElementProp.bindsObject, Option.isSome_iff_ne_none] using harg
      exact ⟨_, parts, .prop hbind hown hseg, hb'.prop⟩

private theorem normalizer?_eq (p : Property) : normalizer? p =
    if p.staticKey? = some "class" then some .normalizeClass
    else if p.staticKey? = some "style" then some .normalizeStyle else none := by
  unfold normalizer?
  split <;> simp_all

private theorem normalized_eq_inNormalForm : Answer.normalized = inNormalForm := by
  funext p
  rw [Answer.normalized, normalizer?_eq, inNormalForm]
  by_cases hclass : p.staticKey? = some "class"
  · simp only [if_pos hclass]
    rfl
  · simp only [if_neg hclass]
    by_cases hstyle : p.staticKey? = some "style"
    · simp only [if_pos hstyle]
      rfl
    · simp only [if_neg hstyle, ite_self]

private theorem segmentArguments_of_ne_nil (hne : first ≠ []) (hfirst : NoArrays first) :
    segmentArguments first = [PropsBuilder.segment first] := by
  rw [segmentArguments, if_neg hne, PropsBuilder.segment, mergeProperties_eq hfirst]

/-- The props of a builder are the gathered parts in their order. -/
theorem arranged_props (hfirst : NoArrays first) (h : Gathered {} first parts b) :
    Arranged first parts (Answer.props b) := by
  have huncut (hparts : parts = []) : b.merged = [] ∧ b.properties = first := by
    simpa using h.uncut hparts
  constructor
  · intro hparts hnil
    obtain ⟨hm, hp⟩ := huncut hparts
    simp [Answer.props, hm, hp, hnil]
  · intro hparts
    have hall : b.close.merged = mergeArguments first parts := by simpa using h.all
    have hcut : (!b.merged.isEmpty) = true := by simpa using h.cut hparts
    rw [Answer.props, if_pos hcut, hall]
    rfl
  · rintro hparts ⟨p, hp, hkey⟩
    obtain ⟨hm, hproperties⟩ := huncut hparts
    have hany : (first.any fun p => p.staticKey?.isNone) = true :=
      List.any_eq_true.mpr ⟨p, hp, Option.isNone_iff_eq_none.mpr hkey⟩
    have hne : first ≠ [] := List.ne_nil_of_mem hp
    rw [segmentArguments_of_ne_nil hne hfirst]
    simp [Answer.props, hm, hproperties, hne, hany, Answer.callOf]
  · intro hparts hne hkeys
    obtain ⟨hm, hproperties⟩ := huncut hparts
    have hany : (first.any fun p => p.staticKey?.isNone) = false := by
      rw [List.any_eq_false]
      exact fun p hp h => hkeys p hp (Option.isNone_iff_eq_none.mp h)
    simp [Answer.props, hm, hproperties, hne, hany, mergeProperties_eq hfirst,
      normalized_eq_inNormalForm]

end Lowering

end TemplateCompiler

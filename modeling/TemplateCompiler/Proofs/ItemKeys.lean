import TemplateCompiler.Proofs.PropKeys
import TemplateCompiler.Proofs.Rendering

/-! Keys of repeated elements: the virtual node of one item of a loop carries the key of the
element that it stands for. -/
namespace TemplateCompiler

/-- The element whose props an item of a loop over this element has. A template element stands
for its only child, if that is an element with a virtual node of its own. -/
def Element.item (e : Element) : Element :=
  match e.kind, e.children with
  | .template, [.element child] =>
    if child.kind != .template && (Lowering.loopDirectives child.props).isEmpty then child else e
  | _, _ => e

/-- The prop that gives the key, of several the first. -/
def Element.keyProp? (e : Element) : Option ElementProp :=
  (Lowering.otherProps e.props).find? (·.givesKey e.kind)

/-- Whether a list of items with these props is marked as keyed. Of a fragment the key is known; the
props of any other item have to be one object literal. -/
def Element.showsKey (e : Element) : Bool :=
  if e.kind == .template then (e.keyProp?.bind ElementProp.keyValue?).isSome
  else e.keyProp?.isSome && (Lowering.otherProps e.props).all ElementProp.isNamed

namespace Lowering

variable {o : LoweringOptions} {names : List String} {value : Code}

private theorem joinRun_eq_nil {run : List TextChild} (h : joinRun run = []) : run = [] := by
  rcases run with _ | ⟨t, _ | ⟨t', ts⟩⟩
  · rfl
  · cases h
  · cases h

private theorem joinRun_ne_element (run : List TextChild) (e : Element) : joinRun run ≠
    [.element e] := by
  rcases run with _ | ⟨t, _ | ⟨t', ts⟩⟩
  · simp [joinRun]
  · cases t <;> simp [joinRun, childOfText]
  · simp [joinRun]

private theorem mergeTextFrom_eq_nil {run : List TextChild} {cs : List Child}
    (h : mergeTextFrom run cs = []) : run = [] ∧ cs = [] := by
  induction cs generalizing run with
  | nil => exact ⟨joinRun_eq_nil h, rfl⟩
  | cons c cs ih =>
    rw [mergeTextFrom] at h
    split at h
    · cases (List.append_eq_nil_iff.mp (ih h).1).2
    · cases (List.append_eq_nil_iff.mp h).2

private theorem mergeTextFrom_eq_element {run : List TextChild} {cs : List Child} {e : Element}
    (h : mergeTextFrom run cs = [.element e]) : run = [] ∧ cs = [.element e] := by
  induction cs generalizing run with
  | nil => exact absurd h (joinRun_ne_element run e)
  | cons c cs ih =>
    rw [mergeTextFrom] at h
    split at h
    · cases (List.append_eq_nil_iff.mp (ih h).1).2
    · rcases List.append_eq_singleton_iff.mp h with ⟨hrun, hc⟩ | ⟨_, hc⟩
      · injection hc with hc hcs
        rw [joinRun_eq_nil hrun, hc, (mergeTextFrom_eq_nil hcs).2]
        exact ⟨rfl, rfl⟩
      · cases hc

private theorem eq_of_mergeText {cs : List Child} {e : Element} (h : mergeText cs = [.element e]) :
    cs = [.element e] := by
  unfold mergeText at h
  split at h
  · exact (mergeTextFrom_eq_element h).2
  · exact h

private theorem child_eq_element {c : Child} {e' : Element}
    (h : Scoped.child o c names = .ok (.element e')) :
    ∃ e, c = .element e ∧ loopDirectives e.props = [] ∧ Finishes o names e e' := by
  cases c with
  | element e =>
    rw [Scoped.child] at h
    cases becomes_of_element h with
    | element hd he => exact ⟨e, rfl, hd, he⟩
  | interpolation =>
    rw [Scoped.child] at h
    obtain ⟨_, -, h⟩ := except_bind_ok.mp h
    cases h
  | loop l =>
    rw [Scoped.child, Scoped.loop_eq] at h
    obtain ⟨_, -, h⟩ := except_bind_ok.mp h
    cases h
  | _ =>
    rw [Scoped.child] at h
    cases h

private theorem only_child {cs : List Child} {e' : Element}
    (h : Scoped.children o cs names = .ok [.element e']) : ∃ e, cs = [.element e] ∧
      loopDirectives e.props = [] ∧ Finishes o names e e' := by
  cases forall₂_of_children h with
  | cons hc hrest =>
    cases hrest
    obtain ⟨e, rfl, hd, he⟩ := child_eq_element hc
    exact ⟨e, rfl, hd, he⟩

private theorem children_unlooped {e : Element} {cs : List Child} (hd : loopDirectives e.props = [])
    (h : Scoped.children o [.element e] names = .ok cs) :
    ∃ e', cs = [.element e'] ∧ Finishes o names e e' := by
  cases forall₂_of_children h with
  | cons hc hrest =>
    cases hrest
    rw [Scoped.child] at hc
    cases becomes_of_element hc with
    | element _ he => exact ⟨_, rfl, he⟩
    | loop hd' =>
      rw [hd] at hd'
      cases hd'

/-- The props of the virtual node have been made from those of the element: gathered from all of
them, or, for a template element, its key alone. -/
inductive ItemProps (o : LoweringOptions) (names : List String) (item : Element) (v : VNode) : Prop
  | gathered {props : List ElementProp} {e : Element} {b : PropsBuilder}
      (hprops : (otherProps item.props).mapM (Answer.prop o (.of names)) = .ok props)
      (hitem : item.kind ≠ .template) (hkind : e.kind = item.kind)
      (hb : props.foldlM (Answer.addProp o (.of names) e) {} = .ok b)
      (hv : v.props = Answer.props b)
  | fragment {props : List ElementProp} {e : Element}
      (hprops : (otherProps item.props).mapM (Answer.prop o (.of names)) = .ok props)
      (hitem : item.kind = .template) (he : e.props = props)
      (hv : v.props = (bodyFragment e).props)

private theorem Finishes.vnode {e e' : Element} (h : Finishes o names e e')
    (hk : e.kind ≠ .template) :
    ∃ v, e'.code = some (.vnode v) ∧ ItemProps o names e v := by
  obtain ⟨hprops, hcs, he⟩ := h
  rcases finished_ok he with ⟨hk', -⟩ | ⟨-, b, hb, rfl⟩
  · exact absurd hk' hk
  · exact ⟨_, rfl, .gathered hprops hk rfl hb rfl⟩

private theorem Finishes.template {e e' : Element} (h : Finishes o names e e')
    (hk : e.kind = .template) :
    ∃ props cs, (otherProps e.props).mapM (Answer.prop o (.of names)) = .ok props ∧
      Scoped.children o e.children names = .ok cs ∧
      e' = { e with props, children := mergeText cs } := by
  obtain ⟨hprops, hcs, he⟩ := h
  rcases finished_ok he with ⟨-, rfl⟩ | ⟨hk', -⟩
  · exact ⟨_, _, hprops, hcs, rfl⟩
  · exact absurd hk hk'

private theorem Finishes.kind_eq {e e' : Element} (h : Finishes o names e e') :
    e'.kind = e.kind := by
  obtain ⟨-, -, he⟩ := h
  rcases finished_ok he with ⟨-, rfl⟩ | ⟨-, _, -, rfl⟩ <;> rfl

/-- The virtual node of one item has its props from the element that stands for the items. -/
private theorem ItemNode.itemProps {e e' : Element} {v : VNode} (hr : e.isRaw true = true)
    (he : Finishes o names e e') (h : ItemNode e' v) : ItemProps o names e.item v := by
  cases h with
  | own hk hcode =>
    rw [he.kind_eq] at hk
    have hitem : e.item = e := by
      unfold Element.item
      split
      · rename_i hk' _
        exact absurd hk' hk
      · rfl
    obtain ⟨w, hw, hprops⟩ := he.vnode hk
    rw [hcode] at hw
    cases hw
    rw [hitem]
    exact hprops
  | only hk _ hmerged hchild =>
    rw [he.kind_eq] at hk
    obtain ⟨props, cs, -, hcs, rfl⟩ := he.template hk
    rw [eq_of_mergeText hmerged] at hcs
    obtain ⟨child, hchildren, hd, hfinishes⟩ := only_child hcs
    have hkind : child.kind ≠ .template := by
      -- A template element would have no virtual node.
      intro hkind
      have hraw := (Element.isRaw_iff.mp hr).2.2
      rw [hchildren, List.forall_mem_singleton, Child.isRaw] at hraw
      obtain ⟨_, _, -, -, rfl⟩ := hfinishes.template hkind
      rw [(Element.isRaw_iff.mp hraw).1] at hchild
      cases hchild
    have hitem : e.item = child := by simp [Element.item, hk, hchildren, hkind, hd]
    obtain ⟨w, hw, hprops⟩ := hfinishes.vnode hkind
    rw [hchild] at hw
    cases hw
    rw [hitem]
    exact hprops
  | fragment hk _ hnone =>
    rw [he.kind_eq] at hk
    obtain ⟨props, cs, hprops, hcs, rfl⟩ := he.template hk
    have hitem : e.item = e := by
      unfold Element.item
      split
      · rename_i child _ hchildren
        refine if_neg fun h => ?_
        obtain ⟨hkind, hd⟩ : child.kind ≠ .template ∧ loopDirectives child.props = [] := by
          simpa using h
        rw [hchildren] at hcs
        obtain ⟨child', rfl, hfinishes⟩ := children_unlooped hd hcs
        obtain ⟨w, hw, -⟩ := hfinishes.vnode hkind
        exact hnone child' w rfl hw
      · rfl
    rw [hitem]
    exact .fragment hprops hk rfl rfl

private theorem templateKey?_eq (e : Element) :
    templateKey? e = (e.props.find? (·.givesKey .template)).bind ElementProp.keyValue? := by
  have hfind : e.findProp? "key" false = e.props.find? (·.givesKey .template) := by
    refine congrArg (List.find? · e.props) (funext fun p => ?_)
    cases p <;> simp [ElementProp.givesKey]
  rw [templateKey?, hfind]
  cases h : e.props.find? (·.givesKey .template) with
  | none => rfl
  | some p =>
    have hp : p.givesKey .template = true := List.find?_some h
    cases p with
    | plain a => simpa [ElementProp.givesKey, ElementProp.keyValue?] using hp
    | directive d =>
      have hbinds : Element.bindsProp d "key" = true := by simpa [ElementProp.givesKey] using hp
      simp [ElementProp.keyValue?, hbinds]

private theorem keyProp?_processed {item : Element} {props : List ElementProp}
    (h : (otherProps item.props).mapM (Answer.prop o (.of names)) = .ok props) :
    item.keyProp? = none ∧ props.find? (·.givesKey item.kind) = none ∨
      ∃ q q', item.keyProp? = some q ∧ Answer.prop o (.of names) q = .ok q' ∧
        props.find? (·.givesKey item.kind) = some q' :=
  listMapM_find? (fun _ _ hp => (prop_keeps hp item.kind).1) h

private theorem templateKey?_fragment {item e : Element} (hitem : item.kind = .template) :
    templateKey? e = (e.props.find? (·.givesKey item.kind)).bind ElementProp.keyValue? := by
  rw [hitem]
  exact templateKey?_eq e

private theorem ItemProps.carriesKey {item : Element} {v : VNode} (h : ItemProps o names item v)
    {q : ElementProp} (hq : item.keyProp? = some q) (hvalue : q.keyValue?.isSome = true) :
    ∃ q' value, Answer.prop o (.of names) q = .ok q' ∧ q'.keyValue? = some value ∧
      v.CarriesKey value := by
  have hprocessed {props : List ElementProp}
      (h : (otherProps item.props).mapM (Answer.prop o (.of names)) = .ok props) :
      ∃ q' value, Answer.prop o (.of names) q = .ok q' ∧ q'.keyValue? = some value ∧
        props.find? (·.givesKey item.kind) = some q' := by
    rcases keyProp?_processed h with ⟨hnone, -⟩ | ⟨q₁, q', hq₁, hq', hfind⟩
    · rw [hq] at hnone
      cases hnone
    · cases hq.symm.trans hq₁
      obtain ⟨value, hv⟩ := Option.isSome_iff_exists.mp
        ((prop_keeps hq' item.kind).2.1.trans hvalue)
      exact ⟨q', value, hq', hv, hfind⟩
  cases h with
  | @gathered props e b hprops hitem hkind hb hv =>
    obtain ⟨q', value, hq', hvalue, hfind⟩ := hprocessed hprops
    obtain ⟨-, before, after, rfl, hbefore⟩ := List.find?_eq_some_iff_append.mp hfind
    rw [← hkind] at hbefore hitem
    have hcarries : b.Carries value :=
      carries_of_first hitem (by simpa using hbefore) hvalue hb
    refine ⟨q', value, hq', hvalue, ?_⟩
    rw [VNode.CarriesKey, hv]
    exact props_carry hcarries
  | @fragment props e hprops hitem he hv =>
    obtain ⟨q', value, hq', hvalue, hfind⟩ := hprocessed hprops
    refine ⟨q', value, hq', hvalue, ?_⟩
    have hkey : templateKey? e = some value := by
      rw [templateKey?_fragment hitem, he, hfind, Option.bind_some, hvalue]
    rw [VNode.CarriesKey, hv, bodyFragment, hkey]
    exact ⟨_, rfl, _, List.mem_cons_self, rfl⟩

private theorem ItemProps.keyless {item : Element} {v : VNode} (h : ItemProps o names item v)
    (hnone : item.keyProp? = none) (value : Code) : ¬ v.CarriesKey value := by
  have hprocessed {props : List ElementProp}
      (h : (otherProps item.props).mapM (Answer.prop o (.of names)) = .ok props) :
      props.find? (·.givesKey item.kind) = none := by
    rcases keyProp?_processed h with ⟨-, hfind⟩ | ⟨q, q', hq, -⟩
    · exact hfind
    · rw [hnone] at hq
      cases hq
  rintro ⟨props', hprops', obj, hobj, hkey⟩
  cases h with
  | @gathered props e b hprops hitem hkind hb hv =>
    have hfind := hprocessed hprops
    rw [← hkind] at hfind hitem
    rw [hv] at hprops'
    have hkeyless := keyless_addProps hitem (by simpa using List.find?_eq_none.mp hfind) hb
    rw [props_keyless hkeyless props' hprops' obj hobj] at hkey
    cases hkey
  | @fragment props e hprops hitem he hv =>
    have hkey' : templateKey? e = none := by
      rw [templateKey?_fragment hitem, he, hprocessed hprops, Option.bind_none]
    rw [hv, bodyFragment, hkey'] at hprops'
    cases hprops'

private theorem ItemProps.hasKey_eq {item : Element} {v : VNode} (h : ItemProps o names item v) :
    v.hasKey = item.showsKey := by
  cases h with
  | @gathered props e b hprops hitem hkind hb hv =>
    have hnamed : props.all ElementProp.isNamed =
        (otherProps item.props).all ElementProp.isNamed :=
      listMapM_all (fun _ _ hp => (prop_keeps hp item.kind).2.2) hprops
    have hany : (props.any fun q => q.givesKey item.kind) = item.keyProp?.isSome := by
      have hfind : (props.any fun q => q.givesKey item.kind) =
          (props.find? (·.givesKey item.kind)).isSome := by
        rw [Bool.eq_iff_iff, List.any_eq_true, List.find?_isSome]
      rw [hfind]
      rcases keyProp?_processed hprops with ⟨hnone, hfind⟩ | ⟨q, q', hq, -, hfind⟩
      · rw [hnone, hfind]
      · rw [hq, hfind, Option.isSome_some, Option.isSome_some]
    obtain ⟨hb', hkey⟩ := addProps_seen (hkind ▸ hitem) hb
    rw [hnamed] at hb' hkey
    rw [hkind, hany] at hkey
    rw [hasKey_props hv, hb', Element.showsKey, if_neg (by simpa using hitem)]
    cases hall : (otherProps item.props).all ElementProp.isNamed with
    | false => simp
    | true =>
      rw [hkey hall, Bool.and_true, Bool.and_true]
      rfl
  | @fragment props e hprops hitem he hv =>
    have hkey := templateKey?_fragment (e := e) hitem
    have hshows : item.showsKey = (templateKey? e).isSome := by
      rw [Element.showsKey, if_pos (by simpa using hitem), hkey, he]
      rcases keyProp?_processed hprops with ⟨hnone, hfind⟩ | ⟨q, q', hq, hq', hfind⟩
      · rw [hnone, hfind]
      · rw [hq, hfind, Option.bind_some, Option.bind_some, (prop_keeps hq' item.kind).2.1]
    rw [hshows, VNode.hasKey, hv, bodyFragment]
    cases templateKey? e <;> rfl

private theorem patchFlag_loopCode {l : Loop} {source : Simple} (hs : l.source = .simple source)
    (hc : source.constancy = .notConstant) (body : VNode) : (loopCode l body).patchFlag =
      some (if body.hasKey then .keyedFragment else .unkeyedFragment) := by
  simp [loopCode, hs, isStableSource, hc]

/-- A template that is lowered renders a list for every element with one loop directive. If a prop
of the element that an item stands for gives a key, the virtual node of one item carries the value
of the first such prop, processed with the names of the loop in scope; if none does, there is no
key, whatever the props of the repeated element are. A list over a source that may change is marked
as keyed exactly if the key shows: the item is a fragment, or the names of all its props stand in
the template. -/
theorem lower_keeps_item_key {r r' : Root} (hr : r.isRaw true = true) (h : lower o r = .ok r')
    {p : Placed} (hp : p ∈ r.elements) {d : Directive}
    (hd : loopDirectives p.element.props = [d]) :
    ∃ parts source list item, headerOf d = .ok parts ∧
      Answer.simple o (.of p.names) parts.source = .ok source ∧
      r'.Renders list ∧ list.listItem? = some (.simple source, item) ∧
      (∀ q, p.element.item.keyProp? = some q → q.keyValue?.isSome = true →
        ∃ q' value, Answer.prop o (.of p.inner) q = .ok q' ∧ q'.keyValue? = some value ∧
          item.CarriesKey value) ∧
      (p.element.item.keyProp? = none → ∀ value, ¬ item.CarriesKey value) ∧
      (source.constancy = .notConstant → list.patchFlag =
        some (if p.element.item.showsKey then .keyedFragment else .unkeyedFragment)) := by
  obtain ⟨hraw, c, hc, hrenders⟩ := lower_placed hr h p hp
  cases hc with
  | element hd' =>
    rw [hd] at hd'
    cases hd'
  | @loop d' parts source e' e'' v hd' hparts hsource he hbody =>
    rw [hd] at hd'
    cases hd'
    have hinner : p.inner = p.names ++ parts.aliases := by
      rw [Placed.inner, hd, aliasesOf_cons_ok hparts, aliasesOf, List.append_nil]
    have hitem := (he.itemNode hraw hbody).itemProps hraw he
    rw [hinner, ← hitem.hasKey_eq]
    exact ⟨parts, source, _, v, hparts, hsource, hrenders _ (.loop rfl .self),
      listItem?_loopCode _ v, fun q => hitem.carriesKey, hitem.keyless,
      fun hsource => patchFlag_loopCode rfl hsource v⟩

/-- A bound key that names the variable of a loop. -/
def rowKey : ElementProp := .directive {
  name := "bind", arg := some (.simple (.fixed "key" .stub))
  exp := some (.simple (.code "row.id" .stub)) }

def rowLoop : Directive := { name := "for", exp := some (.simple (.code "row in rows" .stub)) }

/-- A repeated list item with a class and a key. -/
def keyedRows : Root where
  children := [.element {
    tag := "li"
    props := [
      .plain { name := "class", value := some { content := "row" } }, .directive rowLoop, rowKey] }]

theorem keyedRows_keep_item_key : ∃ r' list item, lower {} keyedRows = .ok r' ∧
    r'.Renders list ∧ list.listItem? = some (.simple (.code "_ctx.rows" .stub), item) ∧
    item.CarriesKey (.expression (.simple (.code "row.id" .stub))) ∧
    list.patchFlag = some .keyedFragment := by
  have hok : (lower {} keyedRows).isOk = true := by decide +kernel
  obtain ⟨r', h⟩ := except_ok_of_isOk hok
  obtain ⟨parts, source, list, item, hparts, hsource, hrenders, hitem, hkey, -, hflag⟩ :=
    lower_keeps_item_key (by decide) h List.mem_cons_self rfl
  obtain ⟨q, value, hq, hvalue, hcarries⟩ := hkey rowKey rfl rfl
  have hheader : headerOf rowLoop = .ok ⟨.code "rows" .stub, .code "row" .stub, none⟩ := by
    decide +kernel
  have hrows : Answer.simple {} (.of []) (.code "rows" .stub) = .ok (.code "_ctx.rows" .stub) := by
    decide +kernel
  have hid : Answer.simple {} (.of ["row"]) (.code "row.id" .stub) =
      .ok (.code "row.id" .stub) := by decide +kernel
  have hprocessed : Answer.prop {} (.of ["row"]) rowKey = .ok rowKey := by
    simp only [rowKey, Answer.prop, Answer.directive, Option.mapM_some, Answer.expression, hid]
    rfl
  cases hheader.symm.trans hparts
  cases hrows.symm.trans hsource
  cases hprocessed.symm.trans hq
  cases hvalue
  exact ⟨r', list, item, h, hrenders, hitem, hcarries, hflag rfl⟩

/-- A repeated template element with a key, whose only child is an element. -/
def keyedTemplate : Root where
  children := [.element {
    tag := "template", kind := .template, props := [.directive rowLoop, rowKey]
    children := [.element { tag := "li" }] }]

/-- A repeated list item with a key and a bound object. -/
def mergedRows : Root where
  children := [.element {
    tag := "li"
    props := [.directive rowLoop, rowKey,
      .directive { name := "bind", exp := some (.simple (.code "attrs" .stub)) }] }]

/-- The virtual node that a lowered template is rendered with. -/
def rootVNode? (r : Root) : Option VNode :=
  match r.code with
  | some (.vnode v) => some v
  | _ => none

private theorem code_of_rootVNode? {r : Root} {v : VNode} (h : rootVNode? r = some v) :
    r.code = some (.vnode v) := by
  unfold rootVNode? at h
  split at h
  · cases h
    assumption
  · cases h

private theorem list_of_check {r : Root} (check : VNode → Bool) (hok : (lower {} r).isOk = true)
    (hcheck : ((lower {} r).toOption.bind rootVNode?).any (fun list =>
      list.listItem?.any fun i => !isStableSource i.1 && check i.2 &&
        list.patchFlag == some .unkeyedFragment) = true) :
    ∃ r' list source item, lower {} r = .ok r' ∧ r'.code = some (.vnode list) ∧
      list.listItem? = some (source, item) ∧ isStableSource source = false ∧
      check item = true ∧ list.patchFlag = some .unkeyedFragment := by
  obtain ⟨r', h⟩ := except_ok_of_isOk hok
  rw [h] at hcheck
  obtain ⟨list, hlist, hcheck⟩ := (Option.any_eq_true ..).mp hcheck
  obtain ⟨i, hitem, hcheck⟩ := (Option.any_eq_true ..).mp hcheck
  simp only [Bool.and_eq_true, Bool.not_eq_true', beq_iff_eq] at hcheck
  obtain ⟨⟨hsource, hchecked⟩, hflag⟩ := hcheck
  exact ⟨r', list, i.1, i.2, h, code_of_rootVNode? hlist, hitem, hsource, hchecked, hflag⟩

/-- The key of a repeated template element is lost where its only child has a virtual node of its
own, and that of an element with a bound object is not seen: neither list is marked as keyed. -/
theorem item_keys_lost :
    (∃ r' list source item, lower {} keyedTemplate = .ok r' ∧
      r'.code = some (.vnode list) ∧ list.listItem? = some (source, item) ∧
      isStableSource source = false ∧ (∀ value, ¬ item.CarriesKey value) ∧
      list.patchFlag = some .unkeyedFragment) ∧
    ∃ r' list source item, lower {} mergedRows = .ok r' ∧
      r'.code = some (.vnode list) ∧ list.listItem? = some (source, item) ∧
      isStableSource source = false ∧ (∃ value, item.CarriesKey value) ∧
      list.patchFlag = some .unkeyedFragment := by
  constructor
  · obtain ⟨r', list, source, item, h, hlist, hitem, hsource, hprops, hflag⟩ :=
      list_of_check (r := keyedTemplate) (fun item => item.props.isNone)
        (by decide +kernel) (by decide +kernel)
    refine ⟨r', list, source, item, h, hlist, hitem, hsource, ?_, hflag⟩
    rintro value ⟨props, hprops', -⟩
    rw [Option.isNone_iff_eq_none.mp hprops] at hprops'
    cases hprops'
  · obtain ⟨r', list, source, item, h, hlist, hitem, hsource, hprops, hflag⟩ :=
      list_of_check (r := mergedRows) (fun item => item.props.any fun props =>
        props.objects.any fun o => (keyOf o.properties).isSome) (by decide +kernel)
        (by decide +kernel)
    refine ⟨r', list, source, item, h, hlist, hitem, hsource, ?_, hflag⟩
    obtain ⟨props, hprops, hobjects⟩ := (Option.any_eq_true ..).mp hprops
    obtain ⟨o, ho, hkey⟩ := List.any_eq_true.mp hobjects
    obtain ⟨value, hvalue⟩ := Option.isSome_iff_exists.mp hkey
    exact ⟨value, props, hprops, o, ho, hvalue⟩

end Lowering

end TemplateCompiler

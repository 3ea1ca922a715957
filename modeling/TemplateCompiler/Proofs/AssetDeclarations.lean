import TemplateCompiler.Compile
import TemplateCompiler.Proofs.ComponentOrder
import TemplateCompiler.Proofs.OutputModes
import TemplateCompiler.Proofs.VNodeTags

/-! The variables that hold components in the render function: what declares them, what uses them,
and when a variable is declared twice. -/
namespace TemplateCompiler

/-- The variable that the statement for a registered component declares. -/
def Component.declared (component : String) : String := holder (split component).1

/-- Whether the tag ends like the mark of a component that is its own child. -/
def Component.endsInMark (tag : String) : Bool := selfMark.toList.isSuffixOf tag.toList

private theorem Component.split_registered {tag : String} (h : endsInMark tag = false)
    (isSelf : Bool) :
    split (registered tag isSelf) = (tag, isSelf) := by
  cases isSelf with
  | false =>
    unfold endsInMark at h
    simp [split, registered, h]
  | true => simp [split, registered]

private theorem Component.declared_registered {tag : String} (h : endsInMark tag = false)
    (isSelf : Bool) :
    declared (registered tag isSelf) = holder tag := by
  rw [declared, split_registered h]

namespace Print

private theorem assetStatement_eq (component : String) : assetStatement component =
    "const " ++ Component.declared component ++ " = _resolveComponent(" ++
      Text.Quoted.literal (Component.split component).1 ++
      (if (Component.split component).2 then ", true" else "") ++ ")" := by
  have hcall : " = _resolveComponent(" = " = " ++ Helper.resolveComponent.localName ++ "(" := by
    decide
  rw [hcall, assetStatement]
  simp only [Component.declared, String.append_assoc]

private theorem assetStatement_declares (component : String) : ∃ value,
    assetStatement component = "const " ++ Component.declared component ++ " = " ++ value := by
  have hcall : " = _resolveComponent(" = " = " ++ "_resolveComponent(" := by decide
  rw [assetStatement_eq, hcall]
  simp only [String.append_assoc]
  exact ⟨_, rfl⟩

/-- The statements that look components up, each with the line break behind it. -/
def assetLines : List String → String
  | [] => ""
  | component :: rest => assetStatement component ++ lineBreak 1 ++ assetLines rest

private theorem assets_newline {components : List String} (h : components ≠ []) (text : String) :
    (do assets components; newline) ⟨text, 1⟩ = .ok () ⟨text ++ assetLines components, 1⟩ := by
  induction components generalizing text with
  | nil => exact absurd rfl h
  | cons component rest ih =>
    cases rest with
    | nil =>
      rw [assets, assetLines, assetLines, String.append_empty, ← String.append_assoc]
      rfl
    | cons next rest =>
      have hrest := ih (List.cons_ne_nil next rest)
        (text ++ assetStatement component ++ lineBreak 1)
      rw [assetLines, ← String.append_assoc, ← String.append_assoc, ← hrest]
      rfl

/-- What the render function prints behind its statements. -/
def closing (r : Root) : PrintM Unit := do
  rootCode r
  deindent
  push " \x7d"

private theorem appends_closing (r : Root) : Appends (closing r) := by
  refine Appends.bind ?_ fun _ => (appends_draw .deindent).bind fun _ => appends_push _
  rw [rootCode_draws]
  exact appends_drawAll _

private theorem renderFunction_run (r : Root) : renderFunction r {} =
    closing r ⟨"function render(_ctx) \x7b \n  " ++ assetLines r.components ++ "return ", 1⟩ := by
  have hopen : "" ++ "function render(_ctx) \x7b " ++ lineBreak 1 =
      "function render(_ctx) \x7b \n  " := by decide
  rw [← hopen]
  -- a line break stands behind the last statement, but none where there is no statement
  cases hc : r.components with
  | nil =>
    rw [assetLines, String.append_empty, renderFunction, hc]
    rfl
  | cons c cs =>
    have hlines := assets_newline (List.cons_ne_nil c cs)
      ("" ++ "function render(_ctx) \x7b " ++ lineBreak 1)
    have hrun : renderFunction r {} = ((do assets (c :: cs); newline) >>= fun _ => do
        push "return "
        closing r) ⟨"" ++ "function render(_ctx) \x7b " ++ lineBreak 1, 1⟩ := by
      rw [renderFunction, hc, bind_assoc]
      rfl
    rw [hrun, step_bind, hlines]
    rfl

private theorem run_assetLines {r : Root} {code : String} (h : run (renderFunction r) = .ok code) :
    ∃ after, code =
      "function render(_ctx) \x7b \n  " ++ assetLines r.components ++ "return " ++ after := by
  have hclosing := appends_closing r
    ("function render(_ctx) \x7b \n  " ++ assetLines r.components ++ "return ") "" 1
  rw [String.append_empty] at hclosing
  rw [run, renderFunction_run, hclosing] at h
  cases hrest : closing r ⟨"", 1⟩ with
  | ok _ w =>
    rw [hrest] at h
    cases h
    exact ⟨w.code, rfl⟩
  | error d w =>
    rw [hrest] at h
    cases h

private theorem program_assetLines {o : OutputOptions} {r : Root} {p : Program}
    (h : program o r = .ok p) : ∃ before after, p.code =
      before ++ "function render(_ctx) \x7b \n  " ++ assetLines r.components ++ "return " ++
        after := by
  rw [program_eq] at h
  obtain ⟨code, hcode, rfl⟩ := except_map_ok.mp h
  unfold functionText at hcode
  split at hcode
  · cases hcode
  · obtain ⟨after, rfl⟩ := run_assetLines hcode
    split
    · exact ⟨preambleText o, after, by simp [String.append_assoc]⟩
    · exact ⟨"", after, by simp [String.append_assoc]⟩

end Print

/-- The variable that stands for the tag, if one does. -/
def VNodeTag.asset? : VNodeTag → Option String
  | asset id => some id
  | _ => none

/-- The variables that stand for tags in what the template prints. -/
def Root.assets (r : Root) : List String := r.tags.filterMap VNodeTag.asset?

private theorem Root.mem_assets {r : Root} {id : String} : id ∈ r.assets ↔ .asset id ∈ r.tags := by
  rw [assets, List.mem_filterMap]
  constructor
  · rintro ⟨t, ht, hid⟩
    cases t <;> cases hid
    exact ht
  · exact fun h => ⟨_, h, rfl⟩

namespace Lowering

variable {o : LoweringOptions}

private theorem setupReference?_eq_none (h : o.inline = false) (tag : String) :
    setupReference? o tag = none := by
  simp [setupReference?, Expression.visibleBinding?, h]

private theorem lookup?_eq (h : o.inline = false) (e : Element) : lookup? o e =
    if e.isComponent then some (Component.registered e.tag (isSelf o e.tag)) else none := by
  simp [lookup?, setupReference?_eq_none h]

private theorem asset_mem_ownTag (h : o.inline = false) {e : Element} {id : String} :
    .asset id ∈ ownTag o e ↔ e.isComponent = true ∧ Component.holder e.tag = id := by
  cases hc : e.isComponent with
  | false =>
    unfold ownTag Answer.tag
    split <;> simp [hc]
  | true =>
    have hk : (e.kind == .template) = false := by
      rw [Element.isComponent, beq_iff_eq] at hc
      rw [hc]
      rfl
    simp [ownTag, hk, Answer.tag, hc, setupReference?_eq_none h, eq_comm]

private theorem mem_assets_lower {r r' : Root} (hr : r.isRaw true = true)
    (hinline : o.inline = false)
    (h : lower o r = .ok r') {id : String} : id ∈ r'.assets ↔
      ∃ p ∈ r.elements, p.element.isComponent = true ∧ Component.holder p.element.tag = id := by
  have hkept : .asset id ∈ r'.tags ↔ .asset id ∈ ofElements r'.tags := by
    simp [ofElements, List.mem_filter, VNodeTag.isOfElement]
  rw [Root.mem_assets, hkept, tags_lower hr h, List.mem_flatMap]
  exact exists_congr fun p => and_congr_right fun _ => asset_mem_ownTag hinline

private theorem mem_childrenExits_of {cs : List Child} {names : List String} {e : Element}
    (h : ∀ c ∈ cs, e ∈ childExits c ↔ ∃ p ∈ childElements c names, p.element = e) :
    e ∈ childrenExits cs ↔ ∃ p ∈ childrenElements cs names, p.element = e := by
  simp only [childrenExits_eq, childrenElements_eq, List.mem_flatMap]
  constructor
  · rintro ⟨c, hc, he⟩
    obtain ⟨p, hp, hpe⟩ := (h c hc).mp he
    exact ⟨p, ⟨c, hc, hp⟩, hpe⟩
  · rintro ⟨p, ⟨c, hc, hp⟩, hpe⟩
    exact ⟨c, hc, (h c hc).mpr ⟨p, hp, hpe⟩⟩

private theorem mem_childExits (c : Child) (names : List String) {e : Element} :
    e ∈ childExits c ↔ ∃ p ∈ childElements c names, p.element = e := by
  induction c using Child.induction generalizing names with
  | element e' ih =>
    rw [childExits, childElements, elementExits_eq, elementElements_eq, List.mem_append,
      List.mem_singleton,
      mem_childrenExits_of fun c hc => ih c hc (names ++ aliasesOf (loopDirectives e'.props))]
    simp [or_comm, eq_comm]
  | loop l ih =>
    rw [childExits, childElements, loopExits_eq, loopElements_eq]
    exact mem_childrenExits_of fun c hc => ih c hc names
  | _ => simp [childExits, childElements]

private theorem mem_exits {r : Root} {e : Element} :
    e ∈ r.exits ↔ ∃ p ∈ r.elements, p.element = e :=
  mem_childrenExits_of fun c _ => mem_childExits c []

private theorem compile_ok {o : Options} {r r' : Root} {p : Print.Program}
    (h : compile o r = .ok (r', p)) :
    lower o.lowering r = .ok r' ∧ Print.program o.output r' = .ok p := by
  obtain ⟨lowered, hlower, h⟩ := except_bind_ok.mp h
  split at h
  · cases h
  · rename_i hprogram
    cases h
    exact ⟨hlower, hprogram⟩

private theorem filterMap_lookup? (h : o.inline = false) (es : List Element) :
    es.filterMap (lookup? o) =
      (es.filter Element.isComponent).map fun e => Component.registered e.tag (isSelf o e.tag) := by
  induction es with
  | nil => rfl
  | cons e es ih =>
    rw [List.filterMap_cons, List.filter_cons, ih, lookup?_eq h]
    cases e.isComponent <;> rfl

private theorem isSelf_eq (o : LoweringOptions) (tag : String) : isSelf o tag =
    decide (o.selfName.map Component.canonicalName = some (Component.canonicalName tag)) := by
  cases hn : o.selfName with
  | none => simp [isSelf, hn]
  | some name => simp [isSelf, hn, beq_eq_decide]

private theorem assetStatement_registered {e : Element}
    (hmark : Component.endsInMark e.tag = false) :
    Print.assetStatement (Component.registered e.tag (isSelf o e.tag)) =
      "const " ++ Text.assetId e.tag "component" ++ " = _resolveComponent(" ++
        Text.Quoted.literal e.tag ++
        (if o.selfName.map Component.canonicalName = some (Component.canonicalName e.tag) then
          ", true" else "") ++ ")" := by
  rw [Print.assetStatement_eq, Component.declared_registered hmark,
    Component.split_registered hmark, isSelf_eq]
  simp only [Component.holder, decide_eq_true_eq]

private theorem mem_declared_added {r : Root} (hinline : o.inline = false)
    (hmark : ∀ e ∈ r.exits, e.isComponent = true → Component.endsInMark e.tag = false)
    {id : String} : id ∈ (r.exits.filterMap (lookup? o)).eraseDups.map Component.declared ↔
      ∃ p ∈ r.elements, p.element.isComponent = true ∧ Component.holder p.element.tag = id := by
  have hdeclared : ∀ e ∈ r.exits, e.isComponent = true →
      Component.declared (Component.registered e.tag (isSelf o e.tag)) =
        Component.holder e.tag :=
    fun e he hc => Component.declared_registered (hmark e he hc) _
  simp only [List.mem_map, List.mem_eraseDups, filterMap_lookup? hinline, List.mem_filter]
  constructor
  · rintro ⟨_, ⟨e, ⟨he, hc⟩, rfl⟩, rfl⟩
    obtain ⟨p, hp, rfl⟩ := mem_exits.mp he
    exact ⟨p, hp, hc, (hdeclared _ he hc).symm⟩
  · rintro ⟨p, hp, hc, rfl⟩
    have he : p.element ∈ r.exits := mem_exits.mpr ⟨p, hp, rfl⟩
    exact ⟨_, ⟨p.element, ⟨he, hc⟩, rfl⟩, hdeclared _ he hc⟩

/-- Where no setup code is visible and no tag of a component ends like the mark, the variables
that a compiled template uses are declared, and those that it declares are used or stand for
components that it listed before. Each component is looked up by its tag, with the mark on the
component that has the name of the template. The names are added to the list of components in the
order in which the walk first leaves them, and no two of them are equal. -/
theorem component_variables_declared {o : Options} {r r' : Root} {p : Print.Program}
    (hr : r.isRaw true = true) (hinline : o.lowering.inline = false)
    (hmark : ∀ e ∈ r.exits, e.isComponent = true → Component.endsInMark e.tag = false)
    (h : compile o r = .ok (r', p)) :
    (∃ before after, p.code = before ++ "function render(_ctx) \x7b \n  " ++
      Print.assetLines r'.components ++ "return " ++ after) ∧
    (∀ id, id ∈ r'.components.map Component.declared ↔
      id ∈ r'.assets ∨ id ∈ r.components.map Component.declared) ∧
    (∀ e ∈ r.exits, e.isComponent = true → ∃ c ∈ r'.components, Print.assetStatement c =
      "const " ++ Text.assetId e.tag "component" ++ " = _resolveComponent(" ++
        Text.Quoted.literal e.tag ++
        (if o.lowering.selfName.map Component.canonicalName =
          some (Component.canonicalName e.tag) then ", true" else "") ++ ")") ∧
    ∃ added, r'.components = r.components ++ added ∧ added.Nodup ∧
      added = ((r.exits.filter Element.isComponent).map fun e =>
        Component.registered e.tag (isSelf o.lowering e.tag)).eraseDups := by
  obtain ⟨hlower, hprogram⟩ := compile_ok h
  have hcomponents := components_lower hlower
  refine ⟨Print.program_assetLines hprogram, fun id => ?_, fun e he hc => ?_, _, hcomponents,
    nodup_eraseDups _, by rw [filterMap_lookup? hinline]⟩
  · rw [hcomponents, List.map_append, List.mem_append, mem_declared_added hinline hmark,
      mem_assets_lower hr hinline hlower, or_comm]
  · refine ⟨_, ?_, assetStatement_registered (hmark e he hc)⟩
    rw [hcomponents, filterMap_lookup? hinline, List.mem_append, List.mem_eraseDups, List.mem_map]
    exact .inr ⟨e, List.mem_filter.mpr ⟨he, hc⟩, rfl⟩

/-- A row that holds a row and a cell, beside another cell. -/
def nestedRows : Root where
  children := [.element {
    tag := "div"
    children := [
      .element {
        tag := "tree-row"
        kind := .component
        children := [
          .element { tag := "tree-row", kind := .component },
          .element { tag := "Cell", kind := .component }] },
      .element { tag := "Cell", kind := .component }] }]

/-- In the template of the row itself. -/
theorem nestedRows_variables_declared :
    let o : Options := { lowering := { selfName := some "TreeRow" } }
    nestedRows.isRaw true = true ∧
    (∀ e ∈ nestedRows.exits, e.isComponent = true → Component.endsInMark e.tag = false) ∧
    ∃ r' p, compile o nestedRows = .ok (r', p) ∧
      (∀ id, id ∈ r'.components.map Component.declared ↔ id ∈ r'.assets) ∧
      r'.components = ["tree-row__self", "Cell"] ∧
      ∃ c ∈ r'.components, Print.assetStatement c =
        "const _component_tree_row = _resolveComponent(\"tree-row\", true)" := by
  intro o
  have hr : nestedRows.isRaw true = true := by decide
  have hmark : ∀ e ∈ nestedRows.exits, e.isComponent = true →
      Component.endsInMark e.tag = false := by
    have hall : (nestedRows.exits.all fun e => !Component.endsInMark e.tag) = true := by
      decide +kernel
    intro e he _
    simpa using List.all_eq_true.mp hall e he
  have hok : (compile o nestedRows).isOk = true := by decide +kernel
  obtain ⟨⟨r', p⟩, h⟩ := except_ok_of_isOk hok
  obtain ⟨-, hids, hstatements, added, hcomponents, -, hadded⟩ :=
    component_variables_declared hr rfl hmark h
  refine ⟨hr, hmark, r', p, h, fun id => ?_, ?_, ?_⟩
  · rw [hids]
    simp [nestedRows]
  · rw [hcomponents, hadded]
    decide +kernel
  · obtain ⟨c, hc, hstatement⟩ := hstatements _ List.mem_cons_self rfl
    exact ⟨c, hc, hstatement.trans (by decide +kernel)⟩

/-- A row in a template that lists rows and cells before it is lowered. -/
def listedRow : Root where
  components := ["Row", "Cell"]
  children := [.element { tag := "Row", kind := .component }]

/-- A component that a template lists before it is lowered is listed again if it is used, and
declared even if it is not. -/
theorem listedRow_declares_unused : listedRow.isRaw true = true ∧
    ∃ r' p, compile {} listedRow = .ok (r', p) ∧ r'.components = ["Row", "Cell", "Row"] ∧
      r'.assets = ["_component_Row"] ∧ "_component_Cell" ∈ r'.components.map Component.declared :=
  ⟨by decide, _, _, rfl, by decide +kernel, by decide +kernel, by decide +kernel⟩

end Lowering

namespace Text

/-- Whether the text consists of letters and digits, and of one other character. -/
def isJoined (separator : Char) (text : String) : Bool :=
  text.toList.all fun c => c.isAlphanum || c == separator

variable {separator : Char}

private theorem assetChar_joined (hsep : separator = '-' ∨ separator = '_') {c : Char}
    (hc : (c.isAlphanum || c == separator) = true) :
    assetChar c = [if c = separator then '_' else c] := by
  by_cases h : c = separator
  · subst h
    rcases hsep with rfl | rfl <;> simp [assetChar]
  · have halnum : c.isAlphanum = true := by simpa [h] using hc
    simp [assetChar, halnum, h]

private theorem assetChar_image_inj {c d : Char} (hc : (c.isAlphanum || c == separator) = true)
    (hd : (d.isAlphanum || d == separator) = true)
    (h : (if c = separator then '_' else c) = if d = separator then '_' else d) : c = d := by
  -- only the separator becomes an underscore
  have hunder {c : Char} (hc : (c.isAlphanum || c == separator) = true) (hne : c ≠ separator) :
      c ≠ '_' := by
    rintro rfl
    simp [hne] at hc
  split at h <;> rename_i hc' <;> split at h <;> rename_i hd'
  · exact hc'.trans hd'.symm
  · exact absurd h.symm (hunder hd hd')
  · exact absurd h (hunder hc hc')
  · exact h

private theorem flatMap_assetChar_inj (hsep : separator = '-' ∨ separator = '_') {xs ys : List Char}
    (hxs : (xs.all fun c => c.isAlphanum || c == separator) = true)
    (hys : (ys.all fun c => c.isAlphanum || c == separator) = true)
    (h : xs.flatMap assetChar = ys.flatMap assetChar) : xs = ys := by
  induction xs generalizing ys with
  | nil =>
    cases ys with
    | nil => rfl
    | cons y ys =>
      rw [List.all_cons, Bool.and_eq_true] at hys
      rw [List.flatMap_cons, assetChar_joined hsep hys.1] at h
      cases h
  | cons x xs ih =>
    rw [List.all_cons, Bool.and_eq_true] at hxs
    rw [List.flatMap_cons, assetChar_joined hsep hxs.1] at h
    cases ys with
    | nil => cases h
    | cons y ys =>
      rw [List.all_cons, Bool.and_eq_true] at hys
      rw [List.flatMap_cons, assetChar_joined hsep hys.1] at h
      obtain ⟨hhead, htail⟩ := List.cons_eq_cons.mp h
      rw [ih hxs.2 hys.2 htail, assetChar_image_inj hxs.1 hys.1 hhead]

private theorem assetId_inj (hsep : separator = '-' ∨ separator = '_') {a b kind : String}
    (ha : isJoined separator a = true) (hb : isJoined separator b = true)
    (h : assetId a kind = assetId b kind) : a = b := by
  have hchars : a.toList.flatMap assetChar = b.toList.flatMap assetChar := by
    simpa [assetId, String.ofList_inj] using h
  exact String.toList_inj.mp (flatMap_assetChar_inj hsep ha hb hchars)

end Text

namespace Lowering

private theorem lookup?_eq_some {o : LoweringOptions} {e : Element} {name : String}
    (h : lookup? o e = some name) :
    e.isComponent = true ∧ Component.registered e.tag (isSelf o e.tag) = name := by
  unfold lookup? at h
  split at h
  · rename_i hc
    rw [Bool.and_eq_true] at hc
    exact ⟨hc.1, Option.some.inj h⟩
  · cases h

private theorem declared_nodup_iff {o : LoweringOptions} {r r' : Root} (h : lower o r = .ok r') :
    (r'.components.map Component.declared).Nodup ↔
      (r.components.map Component.declared).Nodup ∧
      (∀ a ∈ r.exits.filterMap (lookup? o), ∀ b ∈ r.exits.filterMap (lookup? o),
        Component.declared a = Component.declared b → a = b) ∧
      ∀ name ∈ r.exits.filterMap (lookup? o),
        Component.declared name ∉ r.components.map Component.declared := by
  have hdisjoint : (r.components.map Component.declared).Disjoint
      ((r.exits.filterMap (lookup? o)).eraseDups.map Component.declared) ↔
      ∀ name ∈ r.exits.filterMap (lookup? o),
        Component.declared name ∉ r.components.map Component.declared := by
    constructor
    · intro hd name hname hmem
      exact hd hmem (List.mem_map_of_mem (List.mem_eraseDups.mpr hname))
    · intro hd id hid hadded
      obtain ⟨name, hname, rfl⟩ := List.mem_map.mp hadded
      exact hd name (List.mem_eraseDups.mp hname) hid
  rw [components_lower h, List.map_append, List.nodup_append',
    List.nodup_map_iff_inj_on (nodup_eraseDups _), hdisjoint]
  simp only [List.mem_eraseDups]

private theorem declared_inj {o : LoweringOptions} {es : List Element} {separator : Char}
    (hsep : separator = '-' ∨ separator = '_')
    (hes : ∀ e ∈ es, e.isComponent = true →
      Text.isJoined separator e.tag = true ∧ Component.endsInMark e.tag = false)
    {a b : String} (ha : a ∈ es.filterMap (lookup? o)) (hb : b ∈ es.filterMap (lookup? o))
    (h : Component.declared a = Component.declared b) : a = b := by
  obtain ⟨e, he, ha⟩ := List.mem_filterMap.mp ha
  obtain ⟨f, hf, hb⟩ := List.mem_filterMap.mp hb
  obtain ⟨hec, rfl⟩ := lookup?_eq_some ha
  obtain ⟨hfc, rfl⟩ := lookup?_eq_some hb
  obtain ⟨hejoined, hemark⟩ := hes e he hec
  obtain ⟨hfjoined, hfmark⟩ := hes f hf hfc
  rw [Component.declared_registered hemark, Component.declared_registered hfmark] at h
  rw [Text.assetId_inj hsep hejoined hfjoined h]

/-- The render function declares no variable twice exactly if the components that the template
listed before have variables of their own, no two names under which it looks components up share
a variable, and none shares one with a component listed before. So it is for a template that lists
none and whose components have tags of letters, digits and one separator. -/
theorem variables_declared_once_iff {o : Options} {r r' : Root} {p : Print.Program}
    (h : compile o r = .ok (r', p)) :
    (∃ before after, p.code = before ++ "function render(_ctx) \x7b \n  " ++
      Print.assetLines r'.components ++ "return " ++ after) ∧
    (∀ c ∈ r'.components, ∃ value,
      Print.assetStatement c = "const " ++ Component.declared c ++ " = " ++ value) ∧
    ((r'.components.map Component.declared).Nodup ↔
      (r.components.map Component.declared).Nodup ∧
      (∀ a ∈ r.exits.filterMap (lookup? o.lowering), ∀ b ∈ r.exits.filterMap (lookup? o.lowering),
        Component.declared a = Component.declared b → a = b) ∧
      ∀ name ∈ r.exits.filterMap (lookup? o.lowering),
        Component.declared name ∉ r.components.map Component.declared) ∧
    ∀ separator, separator = '-' ∨ separator = '_' → r.components = [] →
      (∀ e ∈ r.exits, e.isComponent = true →
        Text.isJoined separator e.tag = true ∧ Component.endsInMark e.tag = false) →
      (r'.components.map Component.declared).Nodup := by
  obtain ⟨hlower, hprogram⟩ := compile_ok h
  refine ⟨Print.program_assetLines hprogram, fun c _ => Print.assetStatement_declares c,
    declared_nodup_iff hlower, ?_⟩
  intro separator hsep hnone hes
  rw [declared_nodup_iff hlower, hnone]
  exact ⟨List.nodup_nil, fun a ha b hb => declared_inj hsep hes ha hb, fun _ _ => List.not_mem_nil⟩

theorem nestedRows_variables_declared_once :
    ∃ r' p, compile {} nestedRows = .ok (r', p) ∧
      r'.components.map Component.declared = ["_component_tree_row", "_component_Cell"] ∧
      (r'.components.map Component.declared).Nodup := by
  have hes : (nestedRows.exits.all fun e => !e.isComponent ||
      (Text.isJoined '-' e.tag && !Component.endsInMark e.tag)) = true := by decide +kernel
  have hok : (compile {} nestedRows).isOk = true := by decide +kernel
  obtain ⟨⟨r', p⟩, h⟩ := except_ok_of_isOk hok
  obtain ⟨-, -, -, honce⟩ := variables_declared_once_iff h
  refine ⟨r', p, h, ?_, honce '-' (.inl rfl) rfl fun e he hc => ?_⟩
  · rw [components_lower (compile_ok h).1]
    decide +kernel
  · simpa [hc] using List.all_eq_true.mp hes e he

/-- Two components whose tags differ in the separator. -/
def twoButtons : Root where
  children := [
    .element { tag := "my-button", kind := .component },
    .element { tag := "my_button", kind := .component }]

/-- Two components may share a variable, which is then declared twice. -/
theorem twoButtons_share_variable : twoButtons.isRaw true = true ∧
    ∃ r' p, compile {} twoButtons = .ok (r', p) ∧ r'.components = ["my-button", "my_button"] ∧
      r'.components.map Component.declared =
        ["_component_my_button", "_component_my_button"] := by
  have hok : (compile {} twoButtons).isOk = true := by decide +kernel
  obtain ⟨⟨r', p⟩, h⟩ := except_ok_of_isOk hok
  refine ⟨by decide, r', p, h, ?_⟩
  rw [components_lower (compile_ok h).1]
  decide +kernel

end Lowering

end TemplateCompiler

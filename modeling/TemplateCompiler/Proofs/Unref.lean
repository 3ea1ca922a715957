import TemplateCompiler.Proofs.Sites

/-! A lowering registers `unref` whenever a name of the template is read through it. -/
namespace TemplateCompiler

/-- The code that reads a name through the runtime's `unref`. -/
def unrefCall (name : String) : String := Helper.unref.localName ++ "(" ++ name ++ ")"

namespace Expression

/-- What is printed for the name is a call of `unref` on it. -/
def NameToken.ReadsUnref (o : LoweringOptions) (s : Scope) (arrows : List ArrowScope)
    (n : NameToken) : Prop :=
  ∃ image, n.image? o s arrows = some image ∧
    image.text = (if n.isShorthand then n.name ++ [':', ' '] else []) ++ (unrefCall n.text).toList

theorem toList_unrefCall (n : NameToken) :
    (unrefCall n.text).toList = ['_', 'u', 'n', 'r', 'e', 'f', '('] ++ n.name ++ [')'] := by
  simp [unrefCall, NameToken.text, Helper.localName, Helper.name]

private theorem access_unref {o : LoweringOptions} {s : Scope} {n : NameToken} {code : String}
    {b : Bool}
    (h : access o s n.text = .replaced code b) (hcode : code = unrefCall n.text) : b = true := by
  have hlist := congrArg String.toList hcode
  rw [toList_unrefCall] at hlist
  unfold access at h
  split at h
  · cases h
  · split at h
    · cases h
    · split at h
      · rename_i kind _
        cases kind <;> cases h
        · rfl
        · rfl
        · have := congrArg List.length hlist
          simp [NameToken.text] at this
        · simp at hlist
      · cases h
        have := congrArg List.length hlist
        simp [NameToken.text] at this

/-- A text that reads a name through the helper says so. -/
theorem usesUnref_of_image {o : LoweringOptions} {s : Scope} {arrows : List ArrowScope}
    {n : NameToken} {image : Image} (h : n.image? o s arrows = some image)
    (htext : image.text =
      (if n.isShorthand then n.name ++ [':', ' '] else []) ++ (unrefCall n.text).toList) :
    image.usesUnref = true := by
  -- a name that stays as it is is shorter than the call
  have hkept : n.name ≠
      (if n.isShorthand then n.name ++ [':', ' '] else []) ++ (unrefCall n.text).toList := by
    intro heq
    have := congrArg List.length heq
    rw [toList_unrefCall] at this
    simp only [List.length_append, List.length_cons, List.length_nil] at this
    omega
  unfold NameToken.image? at h
  split at h
  · cases h
  · split at h
    · cases h
      exact absurd htext hkept
    · cases h
      unfold NameToken.referenceImage at htext ⊢
      split
      · rename_i hcovered
        rw [if_pos hcovered] at htext
        exact absurd htext hkept
      · rename_i hcovered
        rw [if_neg hcovered] at htext
        cases haccess : access o s n.text with
        | kept isDynamic =>
          rw [haccess] at htext
          exact absurd htext hkept
        | replaced code usesUnref =>
          rw [haccess] at htext
          have hcode := String.toList_inj.mp (List.append_cancel_left htext)
          exact access_unref haccess hcode

end Expression

/-- Some name of the expression is read through `unref`. -/
def Simple.ReadsUnref (o : LoweringOptions) (s : Scope) (e : Simple) : Prop :=
  e.isStatic = false ∧ Text.isAllBlank e.content = false ∧ o.prefixIdentifiers = true ∧
    ∃ n, .name n ∈ Expression.tokens e.content.toList ∧
      n.ReadsUnref o s (Expression.arrowScopes e.content.toList)

private theorem Simple.ReadsUnref.processed {o : LoweringOptions} {s : Scope} {e e' : Simple}
    {b : Bool}
    (h : e.ReadsUnref o s) (he : e.processed? o s = some (e', b)) : b = true := by
  obtain ⟨hstatic, hblank, hprefix, n, hn, image, himage, htext⟩ := h
  simp only [Simple.processed?, hstatic, hblank, Bool.or_self, Bool.false_eq_true, if_false,
    hprefix, if_true] at he
  obtain ⟨resolved, hresolved, he⟩ := Option.map_eq_some_iff.mp he
  cases he
  obtain ⟨images, himages, rfl⟩ := Option.map_eq_some_iff.mp hresolved
  obtain ⟨image', hmem, himage'⟩ := forall₂_exists_left (mapM_forall₂ himages) hn
  have heq : image' = image := Option.some.inj (himage'.symm.trans himage)
  subst heq
  exact List.any_eq_true.mpr ⟨image', hmem, Expression.usesUnref_of_image himage htext⟩

namespace Lowering

open LowerM

/-- What is printed for the place calls `unref`. -/
def Site.ReadsUnref (o : LoweringOptions) : Site → Prop
  | .expression names e => e.ReadsUnref o (.of names)
  | .declared _ => False
  | .component tag => ∃ code, setupReference? o tag = some (code, true)

/-- The set has `unref`, if one of the places needs it. -/
def CoversUnref (o : LoweringOptions) (hs : HelperSet) (sites : List Site) : Prop :=
  ∀ site ∈ sites, site.ReadsUnref o → hs.contains .unref = true

variable {o : LoweringOptions} {s : Scope} {hs : HelperSet} {names : List String}

private theorem coversUnref_nil : CoversUnref o hs [] := List.forall_mem_nil _

private theorem coversUnref_append {xs ys : List Site} :
    CoversUnref o hs (xs ++ ys) ↔ CoversUnref o hs xs ∧ CoversUnref o hs ys :=
  List.forall_mem_append

private theorem process_unref (e : Simple) : Ensures o s hs e.process fun _ =>
    e.ReadsUnref o s → hs.contains .unref = true := by
  refine ensures_get (m := processIn o s e) ?_ ?_
  · rintro c rfl rfl
    rfl
  · unfold processIn
    cases he : e.processed? o s with
    | none => exact ensures_throw _
    | some p =>
      obtain ⟨e', usesUnref⟩ := p
      cases usesUnref with
      | true => exact Ensures.after_helper (ensures_pure fun hh _ => hh)
      | false =>
        refine ensures_pure fun h => ?_
        cases h.processed he

private theorem tag_unref (e : Element) : Ensures o s hs (tagOf e) fun _ =>
    e.kind = .component → Site.ReadsUnref o (.component e.tag) → hs.contains .unref = true := by
  unfold tagOf
  split
  · rename_i hk
    refine ensures_pure fun hk' => ?_
    simp [Element.isComponent, hk'] at hk
  · refine ensures_get (m := componentTagIn o e) ?_ ?_
    · rintro c rfl rfl
      rfl
    · unfold componentTagIn
      cases href : setupReference? o e.tag with
      | none =>
        refine ((gives_pure _).after_component _).ensures.imp fun _ _ _ h => ?_
        obtain ⟨code, h⟩ := h
        rw [href] at h
        cases h
      | some p =>
        obtain ⟨code, usesUnref⟩ := p
        cases usesUnref with
        | true => exact Ensures.after_helper (ensures_pure fun hh _ _ => hh)
        | false =>
          refine ensures_pure fun _ h => ?_
          obtain ⟨code, h⟩ := h
          rw [href] at h
          cases h

private theorem expression_unref (e : Expression) : Ensures o (.of names) hs e.process fun _ =>
    CoversUnref o hs (expressionSites names (some e)) := by
  cases e with
  | simple e =>
    refine Ensures.map ((process_unref e).imp fun _ h => ?_)
    exact List.forall_mem_singleton.mpr h
  | compound c => exact (gives_expression (.compound c)).ensures.imp fun _ _ => coversUnref_nil

private theorem directive_unref (d : Directive) : Ensures o (.of names) hs d.process fun d' =>
    (d'.name = d.name ∧ (d.name = "on" → d'.exp = d.exp ∧ d'.arg.isSome = d.arg.isSome)) ∧
      CoversUnref o hs (expressionSites names d.arg ++
        if d.name == "on" then [] else expressionSites names d.exp) := by
  have hoption {f : Expression → LowerM Expression} (x : Option Expression)
      (hf : ∀ e, Ensures o (.of names) hs (f e) fun _ =>
        CoversUnref o hs (expressionSites names (some e))) :
      Ensures o (.of names) hs (x.mapM f) fun y =>
        y.isSome = x.isSome ∧ CoversUnref o hs (expressionSites names x) := by
    cases x with
    | none => exact ensures_pure ⟨rfl, coversUnref_nil⟩
    | some e => exact Ensures.map ((hf e).imp fun _ h => ⟨rfl, h⟩)
  have harg := hoption d.arg (f := fun a => if a.isStatic then pure a else a.process) fun a => by
    split
    · rename_i hstatic
      refine ensures_pure fun site hsite h => ?_
      cases a with
      | simple e =>
        rw [expressionSites, List.mem_singleton] at hsite
        subst hsite
        rw [Expression.isStatic, h.1] at hstatic
        cases hstatic
      | compound c => cases hsite
    · exact expression_unref a
  unfold Directive.process
  by_cases hn : d.name = "on"
  · simp only [hn, beq_self_eq_true, if_true, pure_bind]
    refine harg.bind fun arg => ensures_pure fun h => ⟨⟨rfl, fun _ => ⟨rfl, h.1⟩⟩, ?_⟩
    simpa using h.2
  · have hn' : ¬(d.name == "on") = true := by simpa using hn
    simp only [if_neg hn']
    refine (hoption d.exp expression_unref).bind fun exp => ?_
    refine harg.bind fun arg => ensures_pure fun ha he => ⟨⟨rfl, fun h => absurd h hn⟩, ?_⟩
    exact coversUnref_append.mpr ⟨ha.2, he.2⟩

/-- The directive is a listener whose handler reads a name through `unref`. -/
def ListensUnref (o : LoweringOptions) (s : Scope) (d : Directive) : Prop :=
  d.name = "on" ∧ d.arg.isSome = true ∧ ∃ e, d.exp = some (.simple e) ∧ e.ReadsUnref o s

private theorem listen_unref (e : Element) {d : Directive} (h : ListensUnref o s d) :
    Ensures o s hs (listen e d) fun _ => hs.contains .unref = true := by
  obtain ⟨-, harg, x, hx, hreads⟩ := h
  obtain ⟨arg, harg⟩ := Option.isSome_iff_exists.mp harg
  have hhandler : Ensures o s hs (handlerOf d.exp) fun _ => hs.contains .unref = true := by
    rw [hx, handlerOf, if_neg (by simp [hreads.2.1])]
    refine (process_unref x).bind fun x' => ?_
    split
    · exact ensures_pure fun hunref => hunref hreads
    · exact ensures_pure fun hunref => hunref hreads
  simp only [listen, harg]
  refine (gives_handlerKey e arg).ensures.bind fun key => ?_
  exact hhandler.bind fun value => ensures_pure fun hunref _ => hunref

private theorem addProp_unref (e : Element) (b : PropsBuilder) (p : ElementProp) :
    Ensures o s hs (b.addProp standardDirectives e p) fun _ =>
      ∀ d, p = .directive d → ListensUnref o s d → hs.contains .unref = true := by
  have hother (h : ∀ d, p = .directive d → ¬ListensUnref o s d) :
      Ensures o s hs (b.addProp standardDirectives e p) fun _ =>
        ∀ d, p = .directive d → ListensUnref o s d → hs.contains .unref = true :=
    (gives_addProp e b p).ensures.imp fun _ _ d hd hl => absurd hl (h d hd)
  cases p with
  | plain a => exact hother fun d hd => by cases hd
  | directive d =>
    by_cases hl : ListensUnref o s d
    · have hname := hl.1
      have harg : d.arg.isNone = false := by
        rw [← Option.not_isSome, hl.2.1]
        rfl
      simp only [PropsBuilder.addProp, harg, Bool.false_and, Bool.false_eq_true, if_false, hname,
        standardDirectives]
      refine (listen_unref e hl).bind fun c => ?_
      split
      · exact Ensures.after_helper (ensures_pure fun _ hunref _ _ _ => hunref)
      · exact ensures_pure fun hunref _ _ _ => hunref
    · refine hother fun d' hd' => ?_
      cases hd'
      exact hl

private theorem addProps_unref (e : Element) (b : PropsBuilder) (ps : List ElementProp) :
    Ensures o s hs (b.addProps standardDirectives e ps) fun _ =>
      ∀ d, .directive d ∈ ps → ListensUnref o s d → hs.contains .unref = true := by
  induction ps generalizing b with
  | nil => exact ensures_pure (by simp)
  | cons p ps ih =>
    refine (addProp_unref e b p).bind fun b' => (ih b').imp fun _ hps hp d hd hl => ?_
    rcases List.mem_cons.mp hd with hd | hd
    · exact hp d hd.symm hl
    · exact hps d hd hl

private theorem finishElement_unref (e : Element) :
    Ensures o s hs (finishElement standardDirectives e) fun _ => e.kind ≠ .template →
      (e.kind = .component → Site.ReadsUnref o (.component e.tag) → hs.contains .unref = true) ∧
      ∀ d, .directive d ∈ e.props → ListensUnref o s d → hs.contains .unref = true := by
  unfold finishElement
  split
  · rename_i hk
    exact Ensures.after_helper (ensures_pure fun _ hk' => absurd (by simpa using hk) hk')
  · have hbuild : Ensures o s hs (buildProps standardDirectives e) fun _ =>
        ∀ d, .directive d ∈ e.props → ListensUnref o s d → hs.contains .unref = true :=
      (addProps_unref e {} e.props).bind fun b =>
        (gives_props b).ensures.bind fun _ => ensures_pure fun _ h => h
    refine (tag_unref e).bind fun tag => hbuild.bind fun built => Ensures.after_helper ?_
    dsimp only
    split
    · exact Ensures.after_helper (ensures_pure fun _ _ hprops htag _ => ⟨htag, hprops⟩)
    · exact ensures_pure fun _ hprops htag _ => ⟨htag, hprops⟩

private theorem processProp_unref {p : ElementProp} (hp : ∀ d, p = .directive d → d.name ≠ "for")
    (kind : ElementKind) : Ensures o (.of names) hs (processProp p) fun p' =>
      ∀ site ∈ propSites kind names p, site.ReadsUnref o → hs.contains .unref = true ∨
        kind ≠ .template ∧ ∃ d', p' = .directive d' ∧ ListensUnref o (.of names) d' := by
  cases p with
  | plain a => exact ensures_pure (by simp [propSites])
  | directive d =>
    rw [processProp, if_neg (by simpa using hp d rfl)]
    refine Ensures.map ((directive_unref d).imp fun d' h site hsite hreads => ?_)
    obtain ⟨⟨hname, hon⟩, hunref⟩ := h
    rw [coversUnref_append] at hunref
    rw [propSites] at hsite
    rcases List.mem_append.mp hsite with hsite | hsite
    · exact .inl (hunref.1 site hsite hreads)
    · by_cases hn : d.name = "on"
      · split at hsite
        · cases hsite
        · rename_i hlistens
          simp only [hn, beq_self_eq_true, Bool.true_and, Bool.or_eq_true, beq_iff_eq,
            Option.isNone_iff_eq_none, not_or] at hlistens
          obtain ⟨hexp, harg⟩ := hon hn
          refine .inr ⟨hlistens.1, d', rfl, hname.trans hn, ?_, ?_⟩
          · rw [harg]
            exact Option.isSome_iff_ne_none.mpr hlistens.2
          · rw [hexp]
            rcases hde : d.exp with _ | (x | c)
            · rw [hde] at hsite
              cases hsite
            · rw [hde, expressionSites, List.mem_singleton] at hsite
              subst hsite
              exact ⟨x, rfl, hreads⟩
            · rw [hde] at hsite
              cases hsite
      · rw [if_neg (by simpa using hn)] at hunref
        rw [if_neg (by simp [hn])] at hsite
        exact .inl (hunref.2 site hsite hreads)

private theorem plain_unref {e : Element} {cs : LowerM (List Child)} {sites : List Site}
    (hfor : ∀ d, .directive d ∈ e.props → d.name ≠ "for")
    (hcs : Ensures o (.of names) hs cs fun _ => CoversUnref o hs sites) :
    Ensures o (.of names) hs (Lexical.plain e cs) fun _ =>
      CoversUnref o hs ((if e.kind == .component then [.component e.tag] else []) ++
        e.props.flatMap (propSites e.kind names) ++ sites) := by
  have hprop (p : ElementProp) (hp : p ∈ e.props) : Ensures o (.of names) hs (processProp p)
      fun p' => ∀ site ∈ propSites e.kind names p, site.ReadsUnref o →
        hs.contains .unref = true ∨
          e.kind ≠ .template ∧ ∃ d', p' = .directive d' ∧ ListensUnref o (.of names) d' :=
    processProp_unref (fun d hd => hfor d (hd ▸ hp)) e.kind
  refine (ensures_mapM hprop).bind fun ps => hcs.bind fun cs => ?_
  refine (finishElement_unref _).bind fun e' => ?_
  refine ensures_pure fun hfinish hsites hps site hsite hreads => ?_
  simp only [List.mem_append, List.mem_flatMap] at hsite
  rcases hsite with (hsite | ⟨p, hp, hsite⟩) | hsite
  · split at hsite
    · rename_i hk
      rw [beq_iff_eq] at hk
      rw [List.mem_singleton] at hsite
      subst hsite
      exact (hfinish (by simp [hk])).1 hk hreads
    · cases hsite
  · obtain ⟨p', hp', hunref⟩ := forall₂_exists_left hps hp
    rcases hunref site hsite hreads with h | ⟨hk, d', rfl, hl⟩
    · exact h
    · exact (hfinish hk).2 d' hp' hl
  · exact hsites site hsite hreads

private theorem wrap_unref {e : Element} {body : LowerM Child} {ds : List Directive}
    {sites : List Site}
    (hb : Ensures o (.of (names ++ aliasesOf ds)) hs body fun _ => CoversUnref o hs sites) :
    Ensures o (.of names) hs (Lexical.wrap e body ds) fun _ =>
      CoversUnref o hs (headerSites ds names ++ sites) := by
  induction ds generalizing names with
  | nil =>
    rw [aliasesOf, List.append_nil] at hb
    exact hb
  | cons d ds ih =>
    rw [Lexical.wrap]
    cases hp : headerOf d with
    | error r => exact ensures_refuse r
    | ok p =>
      rw [aliasesOf_cons_ok hp, ← List.append_assoc] at hb
      refine (process_unref p.source).bind fun source => ?_
      have hbody : Ensures o (.of names) hs
          (withNames (loopOver e { p with source }).aliasNames (Lexical.wrap e body ds)) fun _ =>
            CoversUnref o hs (headerSites ds (names ++ p.aliases) ++ sites) := by
        refine Ensures.withNames ?_
        rw [aliasNames_loopOver, ← Scope.of_append]
        exact ih hb
      refine hbody.bind fun inner => (gives_finishedLoop _).ensures.bind fun l => ?_
      refine ensures_pure fun _ hinner hsource site hsite hreads => ?_
      simp only [headerSites, hp, List.cons_append, List.append_assoc, List.mem_cons,
        List.mem_append, List.mem_map] at hsite
      rcases hsite with rfl | rfl | ⟨k, _, rfl⟩ | hsite
      · exact hsource hreads
      · cases hreads
      · cases hreads
      · exact hinner site (List.mem_append.mpr hsite) hreads

private theorem unref_children {cs : List Child}
    (h : ∀ c ∈ cs, Ensures o (.of names) hs (Lexical.child c) fun _ =>
      CoversUnref o hs (childSites c names)) :
    Ensures o (.of names) hs (Lexical.children cs) fun _ =>
      CoversUnref o hs (childrenSites cs names) := by
  refine (Lexical.ensures_children h).imp fun cs' hcs site hsite => ?_
  rw [childrenSites_eq, List.mem_flatMap] at hsite
  obtain ⟨c, hc, hsite⟩ := hsite
  obtain ⟨_, -, hcovers⟩ := forall₂_exists_left hcs hc
  exact hcovers site hsite

private theorem child_unref (c : Child) (names : List String) :
    Ensures o (.of names) hs (Lexical.child c) fun _ => CoversUnref o hs (childSites c names) := by
  induction c using Child.induction generalizing names with
  | element e ih =>
    rw [Lexical.child, childSites, Lexical.element_eq, elementSites_eq, List.append_assoc,
      List.append_assoc, ← List.append_assoc (if e.kind == .component then _ else _)]
    refine wrap_unref (plain_unref ?_ (unref_children fun c hc => ih c hc _))
    exact fun d hd => name_of_mem_otherProps hd
  | interpolation i =>
    rw [Lexical.child, childSites]
    refine (expression_unref i.content).bind fun content => ?_
    exact Ensures.after_helper (ensures_pure fun _ h => h)
  | _ =>
    -- There are no places in a text, and none are looked for in a loop that stands there already.
    obtain ⟨x, _, hx⟩ := Lexical.registers_child _ o (.of names)
    exact hx.ensures.imp fun _ _ => by simp [childSites, coversUnref_nil]

private theorem children_unref (cs : List Child) (names : List String) :
    Ensures o (.of names) hs (Lexical.children cs) fun _ =>
      CoversUnref o hs (childrenSites cs names) :=
  unref_children fun c _ => child_unref c names

/-- If a root is lowered, the helper is registered for all sites that read through it. -/
theorem root_unref (r : Root) : Ensures o (.of []) hs (Lexical.root r) fun _ =>
    CoversUnref o hs (childrenSites r.children []) :=
  (children_unref r.children []).bind fun _ => (gives_root _).ensures.imp fun _ _ h => h

end Lowering

end TemplateCompiler

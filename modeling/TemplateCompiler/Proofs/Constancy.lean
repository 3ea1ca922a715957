import TemplateCompiler.Proofs.TokenMap

/-! How constant a resolved expression is. Three facts about every name are put together: whether it
refers to a variable, whether the value of that variable may change between renders, and whether it
is read through the runtime's `unref`. -/
namespace TemplateCompiler.Expression

variable {o : LoweringOptions} {scope : Scope} {arrows : List ArrowScope}

/-- Whether setup code that the render function stands in declares the name with a value that never
changes. -/
def isFixedBinding (o : LoweringOptions) (name : String) : Bool :=
  match visibleBinding? o name with
  | some .setupConst => true
  | some .literalConst => true
  | _ => false

/-- Whether the name refers to a variable whose value may change between renders. -/
def NameToken.mayChange (o : LoweringOptions) (scope : Scope) (arrows : List ArrowScope)
    (n : NameToken) : Bool :=
  n.isReference && ((arrows.any fun a => a.covers n.text n.before.length) ||
    (scope.contains n.text || !(ReservedNames.isGlobal n.text ||
      ReservedNames.isRenderLocal n.text || isFixedBinding o n.text)))

theorem isReference_eq_false_iff (n : NameToken) : n.isReference = false ↔
    isMember? n.before = some true ∨ ReservedNames.isKeyword n.text = true ∨ n.isKey = true := by
  rw [NameToken.isReference, Bool.not_eq_false', Bool.or_eq_true, Bool.or_eq_true, beq_iff_eq,
    or_assoc]

/-- Whether a free name may change between renders. -/
def Access.isDynamic : Access → Bool
  | .kept isDynamic => isDynamic
  | .replaced _ _ => true

private theorem access_isDynamic (o : LoweringOptions) (scope : Scope) (name : String) :
    (access o scope name).isDynamic = (scope.contains name ||
      !(ReservedNames.isGlobal name || ReservedNames.isRenderLocal name ||
        isFixedBinding o name)) := by
  unfold access
  cases scope.contains name with
  | true => rfl
  | false =>
    rw [if_neg Bool.false_ne_true, Bool.false_or]
    cases ReservedNames.isGlobal name || ReservedNames.isRenderLocal name with
    | true => rfl
    | false =>
      rw [if_neg Bool.false_ne_true, Bool.false_or, isFixedBinding]
      cases visibleBinding? o name with
      | none => rfl
      | some kind => cases kind <;> rfl

private theorem referenceImage_isReference (n : NameToken) :
    (n.referenceImage o scope arrows).isReference = true := by
  unfold NameToken.referenceImage
  split
  · rfl
  · split <;> rfl

private theorem referenceImage_isDynamic (n : NameToken) :
    (n.referenceImage o scope arrows).isDynamic =
      ((arrows.any fun a => a.covers n.text n.before.length) ||
        (access o scope n.text).isDynamic) := by
  unfold NameToken.referenceImage
  cases arrows.any fun a => a.covers n.text n.before.length with
  | true => rfl
  | false =>
    rw [if_neg Bool.false_ne_true, Bool.false_or]
    cases access o scope n.text <;> rfl

private theorem referenceImage_fixed {n : NameToken}
    (h : (n.referenceImage o scope arrows).isDynamic = false) :
    n.referenceImage o scope arrows = ⟨n.name, true, false, false⟩ := by
  unfold NameToken.referenceImage at h ⊢
  split
  · rename_i hcovered
    rw [if_pos hcovered] at h
    cases h
  · rename_i hcovered
    rw [if_neg hcovered] at h
    cases haccess : access o scope n.text with
    | kept isDynamic =>
      rw [haccess] at h
      cases h
      rfl
    | replaced code usesUnref =>
      rw [haccess] at h
      cases h

private theorem unrefCall_of_access {name code : String}
    (h : access o scope name = .replaced code true) : code = unrefCall name := by
  unfold access at h
  split at h
  · cases h
  · split at h
    · cases h
    · split at h
      · rename_i kind _
        cases kind <;> cases h <;> rfl
      · cases h

private theorem referenceImage_unref {n : NameToken}
    (h : (n.referenceImage o scope arrows).usesUnref = true) :
    (n.referenceImage o scope arrows).text =
      (if n.isShorthand then n.name ++ [':', ' '] else []) ++ (unrefCall n.text).toList := by
  unfold NameToken.referenceImage at h ⊢
  split
  · rename_i hcovered
    rw [if_pos hcovered] at h
    cases h
  · rename_i hcovered
    rw [if_neg hcovered] at h
    cases haccess : access o scope n.text with
    | kept isDynamic =>
      rw [haccess] at h
      cases h
    | replaced code usesUnref =>
      rw [haccess] at h
      dsimp only at h
      subst h
      rw [unrefCall_of_access haccess]

private theorem image?_isReference_iff {t : Token} {image : Image}
    (h : t.image? o scope arrows = some image) :
    image.isReference = true ↔ ∃ n, t = .name n ∧ n.isReference = true := by
  cases t with
  | quoted | templateText | number | symbol =>
    cases h
    simp
  | name n =>
    rcases image?_cases h with ⟨href, rfl⟩ | ⟨href, rfl⟩
    · simp [href]
    · simp [href, referenceImage_isReference]

private theorem image?_isDynamic_iff {t : Token} {image : Image}
    (h : t.image? o scope arrows = some image) :
    image.isDynamic = true ↔ ∃ n, t = .name n ∧ n.mayChange o scope arrows = true := by
  cases t with
  | quoted | templateText | number | symbol =>
    cases h
    simp
  | name n =>
    simp only [Token.name.injEq, exists_eq_left', NameToken.mayChange]
    rcases image?_cases h with ⟨href, rfl⟩ | ⟨href, rfl⟩
    · simp [href]
    · rw [referenceImage_isDynamic, access_isDynamic, href, Bool.true_and]

private theorem image?_usesUnref_iff {t : Token} {image : Image}
    (h : t.image? o scope arrows = some image) :
    image.usesUnref = true ↔ ∃ n, t = .name n ∧ n.ReadsUnref o scope arrows := by
  cases t with
  | quoted | templateText | number | symbol =>
    cases h
    simp
  | name n =>
    simp only [Token.name.injEq, exists_eq_left']
    constructor
    · intro hunref
      refine ⟨image, h, ?_⟩
      rcases image?_cases h with ⟨-, rfl⟩ | ⟨-, rfl⟩
      · cases hunref
      · exact referenceImage_unref hunref
    · rintro ⟨image', himage', htext⟩
      have heq : image' = image := Option.some.inj (himage'.symm.trans h)
      subst heq
      exact usesUnref_of_image h htext

private theorem image?_fixed {t : Token} {image : Image} (h : t.image? o scope arrows = some image)
    (hfixed : image.isDynamic = false) : image.text = t.text ∧ image.usesUnref = false := by
  cases t with
  | quoted | templateText | number | symbol =>
    cases h
    exact ⟨rfl, rfl⟩
  | name n =>
    rcases image?_cases h with ⟨-, rfl⟩ | ⟨-, rfl⟩
    · exact ⟨rfl, rfl⟩
    · rw [referenceImage_fixed hfixed]
      exact ⟨rfl, rfl⟩

private theorem any_image_iff {ts : List Token} {images : List Image}
    (h : ts.mapM (Token.image? o scope arrows) = some images) {mark : Image → Bool}
    {p : NameToken → Prop} (hmark : ∀ {t : Token} {image : Image},
      t.image? o scope arrows = some image → (mark image = true ↔ ∃ n, t = .name n ∧ p n)) :
    images.any mark = true ↔ ∃ n, .name n ∈ ts ∧ p n := by
  rw [List.any_eq_true]
  constructor
  · rintro ⟨image, hmem, himage⟩
    obtain ⟨t, ht, ht'⟩ := forall₂_exists_right (mapM_forall₂ h) hmem
    obtain ⟨n, rfl, hn⟩ := (hmark ht').mp himage
    exact ⟨n, ht, hn⟩
  · rintro ⟨n, hmem, hn⟩
    obtain ⟨image, himage, h'⟩ := forall₂_exists_left (mapM_forall₂ h) hmem
    exact ⟨image, himage, (hmark h').mpr ⟨n, rfl, hn⟩⟩

private theorem mayChange_isReference {n : NameToken} (h : n.mayChange o scope arrows = true) :
    n.isReference = true := (Bool.and_eq_true_iff.mp h).1

variable {source : String} {r : Resolved}

/-- A text is not constant exactly if one of its names may change. -/
theorem constancy_eq_notConstant_iff (h : resolve? o scope source = some r) :
    r.constancy = .notConstant ↔ ∃ n, .name n ∈ tokens source.toList ∧
      n.mayChange o scope (arrowScopes source.toList) = true := by
  obtain ⟨images, himages, rfl⟩ := Option.map_eq_some_iff.mp h
  rw [← any_image_iff himages image?_isDynamic_iff, Resolved.ofImages]
  cases hdynamic : images.any Image.isDynamic with
  | false => cases images.any Image.isReference <;> simp
  | true =>
    -- what changes between renders is a variable
    obtain ⟨n, hn, hchange⟩ := (any_image_iff himages image?_isDynamic_iff).mp hdynamic
    have hreference : images.any Image.isReference = true :=
      (any_image_iff himages image?_isReference_iff).mpr ⟨n, hn, mayChange_isReference hchange⟩
    simp [hreference]

/-- A text is as constant as can be exactly if it has no reference at all. -/
theorem constancy_eq_canStringify_iff (h : resolve? o scope source = some r) :
    r.constancy = .canStringify ↔
      ∀ n, .name n ∈ tokens source.toList → n.isReference = false := by
  obtain ⟨images, himages, rfl⟩ := Option.map_eq_some_iff.mp h
  have hreference := any_image_iff himages image?_isReference_iff
  rw [Resolved.ofImages]
  cases hany : images.any Image.isReference with
  | true =>
    obtain ⟨n, hn, hn'⟩ := hreference.mp hany
    refine ⟨fun hcan => ?_, fun hall => ?_⟩
    · cases hdynamic : images.any Image.isDynamic <;> simp [hdynamic] at hcan
    · rw [hall n hn] at hn'
      cases hn'
  | false =>
    refine ⟨fun _ n hn => ?_, fun _ => rfl⟩
    rw [Bool.eq_false_iff]
    intro hn'
    rw [hreference.mpr ⟨n, hn, hn'⟩] at hany
    cases hany

/-- The helper is asked for exactly if a reference is read through it. -/
theorem usesUnref_iff (h : resolve? o scope source = some r) :
    r.usesUnref = true ↔ ∃ n, .name n ∈ tokens source.toList ∧
      n.ReadsUnref o scope (arrowScopes source.toList) := by
  obtain ⟨images, himages, rfl⟩ := Option.map_eq_some_iff.mp h
  exact any_image_iff himages image?_usesUnref_iff

private theorem flatMap_image_text {ts : List Token} {images : List Image}
    (h : ts.mapM (Token.image? o scope arrows) = some images)
    (hfixed : images.any Image.isDynamic = false) :
    images.flatMap Image.text = ts.flatMap Token.text := by
  induction ts generalizing images with
  | nil =>
    cases h
    rfl
  | cons t ts ih =>
    rw [List.mapM_cons] at h
    obtain ⟨image, himage, h⟩ := Option.bind_eq_some_iff.mp h
    obtain ⟨images', himages, h⟩ := Option.bind_eq_some_iff.mp h
    cases h
    rw [List.any_cons, Bool.or_eq_false_iff] at hfixed
    rw [List.flatMap_cons, List.flatMap_cons, (image?_fixed himage hfixed.1).1,
      ih himages hfixed.2]

/-- An expression whose value does not change between renders is left as it is. -/
theorem unchanged_of_constant (h : resolve? o scope source = some r)
    (hconstant : r.constancy ≠ .notConstant) : r.code = source ∧ r.usesUnref = false := by
  have hfixed := mt (constancy_eq_notConstant_iff h).mpr hconstant
  obtain ⟨images, himages, rfl⟩ := Option.map_eq_some_iff.mp h
  rw [← any_image_iff himages image?_isDynamic_iff, Bool.not_eq_true] at hfixed
  constructor
  · rw [Resolved.ofImages, flatMap_image_text himages hfixed, tokens, flatMap_text_tokensFrom,
      String.ofList_toList]
  · rw [Resolved.ofImages, List.any_eq_false]
    intro image hmem
    obtain ⟨t, -, himage⟩ := forall₂_exists_right (mapM_forall₂ himages) hmem
    have hdynamic := Bool.eq_false_iff.mpr (List.any_eq_false.mp hfixed image hmem)
    rw [(image?_fixed himage hdynamic).2]
    exact Bool.false_ne_true

end TemplateCompiler.Expression

import TemplateCompiler.Proofs.TokenClasses

/-! Resolution goes token by token: each token has its own text in the resolved code, and for all
but the names that refer to something else it is the text it had. -/
namespace TemplateCompiler.Expression

open Text

variable {o : LoweringOptions} {scope : Scope} {arrows : List ArrowScope}

/-- Whether setup code that the render function stands in declares the name as a constant. -/
def isSetupConstant (o : LoweringOptions) (name : String) : Bool :=
  match visibleBinding? o name with
  | some .setupConst => true
  | some .setupReactiveConst => true
  | some .literalConst => true
  | _ => false

/-- The code that reads a variable declared by setup code in another way, or not at all. -/
def accessCode (o : LoweringOptions) (name : String) : String :=
  match visibleBinding? o name with
  | some .setupRef => name ++ ".value"
  | some .setupMaybeRef => "_unref(" ++ name ++ ")"
  | some .setupLet => "_unref(" ++ name ++ ")"
  | some .props => "__props." ++ name
  | _ => "_ctx." ++ name

/-- Whether the name refers to a variable. -/
def NameToken.isReference (n : NameToken) : Bool :=
  !(isMember? n.before == some true || ReservedNames.isKeyword n.text || n.isKey)

/-- Whether the name stands for what it says: a member, a word of the language, a key, a parameter,
a name of the template or of the language, or a constant that the code sees. -/
def NameToken.isKept (o : LoweringOptions) (scope : Scope) (arrows : List ArrowScope)
    (n : NameToken) : Bool :=
  isMember? n.before == some true || ReservedNames.isKeyword n.text || n.isKey ||
    (arrows.any fun a => a.covers n.text n.before.length) || scope.contains n.text ||
    ReservedNames.isGlobal n.text || ReservedNames.isRenderLocal n.text || isSetupConstant o n.text

/-- The text of the token in the resolved code. -/
def Token.spelling (o : LoweringOptions) (scope : Scope) (arrows : List ArrowScope) :
    Token → List Char
  | .name n =>
    if n.isKept o scope arrows then n.name
    else (if n.isShorthand then n.name ++ [':', ' '] else []) ++ (accessCode o n.text).toList
  | t => t.text

/-- Apart from parameters, a name that refers to a variable is kept if the template, the language or
a constant declares it, and is read by its access code otherwise. -/
private theorem access_eq (o : LoweringOptions) (scope : Scope) (name : String) :
    if scope.contains name || ReservedNames.isGlobal name || ReservedNames.isRenderLocal name ||
        isSetupConstant o name
    then ∃ d, access o scope name = .kept d
    else ∃ b, access o scope name = .replaced (accessCode o name) b := by
  unfold access
  cases hscope : scope.contains name with
  | true => exact ⟨true, rfl⟩
  | false =>
    rw [Bool.false_or, if_neg Bool.false_ne_true]
    cases hname : ReservedNames.isGlobal name || ReservedNames.isRenderLocal name with
    | true => exact ⟨false, rfl⟩
    | false =>
      rw [Bool.false_or, if_neg Bool.false_ne_true, isSetupConstant, accessCode]
      cases visibleBinding? o name with
      | none => exact ⟨false, rfl⟩
      | some kind => cases kind <;> exact ⟨_, rfl⟩

private theorem referenceImage_text (n : NameToken) :
    (n.referenceImage o scope arrows).text =
      if (arrows.any fun a => a.covers n.text n.before.length) ||
          (scope.contains n.text || ReservedNames.isGlobal n.text ||
            ReservedNames.isRenderLocal n.text || isSetupConstant o n.text)
      then n.name
      else (if n.isShorthand then n.name ++ [':', ' '] else []) ++
        (accessCode o n.text).toList := by
  unfold NameToken.referenceImage
  cases harrow : arrows.any fun a => a.covers n.text n.before.length with
  | true => rfl
  | false =>
    have haccess := access_eq o scope n.text
    rw [Bool.false_or, if_neg Bool.false_ne_true]
    split at haccess
    · rename_i hkept
      obtain ⟨d, hd⟩ := haccess
      rw [hd, if_pos hkept]
    · rename_i hkept
      obtain ⟨b, hb⟩ := haccess
      rw [hb, if_neg hkept]

/-- A name has an image in one of two ways: it is no variable and stays, or it is one. -/
theorem image?_cases {n : NameToken} {image : Image} (h : n.image? o scope arrows = some image) :
    n.isReference = false ∧ image = ⟨n.name, false, false, false⟩ ∨
      n.isReference = true ∧ image = n.referenceImage o scope arrows := by
  rw [NameToken.image?] at h
  rw [NameToken.isReference]
  cases hmember : isMember? n.before with
  | none =>
    rw [hmember] at h
    cases h
  | some isMember =>
    have htrue : (some isMember == some true) = isMember := by cases isMember <;> rfl
    rw [hmember] at h
    rw [htrue]
    dsimp only at h
    split at h
    · rename_i hplain
      cases h
      exact .inl ⟨by rw [hplain]; rfl, rfl⟩
    · rename_i hplain
      cases h
      exact .inr ⟨by rw [Bool.eq_false_iff.mpr hplain]; rfl, rfl⟩

private theorem image?_spelling {t : Token} {image : Image}
    (h : t.image? o scope arrows = some image) :
    image.text = t.spelling o scope arrows := by
  cases t with
  | quoted | templateText | number | symbol =>
    cases h
    rfl
  | name n =>
    rw [Token.spelling, NameToken.isKept]
    rcases image?_cases h with ⟨hreference, rfl⟩ | ⟨hreference, rfl⟩
    · rw [NameToken.isReference, Bool.not_eq_false'] at hreference
      simp [hreference]
    · rw [NameToken.isReference, Bool.not_eq_true'] at hreference
      rw [referenceImage_text]
      simp only [hreference, Bool.false_or, Bool.or_assoc]

theorem length_accessCode (o : LoweringOptions) (n : NameToken) :
    n.name.length < (accessCode o n.text).toList.length := by
  have hname : n.text.toList = n.name := String.toList_ofList
  unfold accessCode
  split <;> simp [hname] <;> omega

private theorem spelling_eq_name_iff (n : NameToken) :
    (Token.name n).spelling o scope arrows = n.name ↔ n.isKept o scope arrows = true := by
  rw [Token.spelling]
  split
  · rename_i hkept
    exact ⟨fun _ => hkept, fun _ => rfl⟩
  · rename_i hkept
    refine ⟨fun heq => ?_, fun h => absurd h hkept⟩
    have hlength := length_accessCode o n
    have := congrArg List.length heq
    rw [List.length_append] at this
    omega

private theorem mapM_spelling {ts : List Token} {images : List Image}
    (h : ts.mapM (Token.image? o scope arrows) = some images) :
    images.flatMap Image.text = ts.flatMap (Token.spelling o scope arrows) := by
  induction ts generalizing images with
  | nil =>
    cases h
    rfl
  | cons t ts ih =>
    rw [List.mapM_cons] at h
    obtain ⟨image, himage, h⟩ := Option.bind_eq_some_iff.mp h
    obtain ⟨images', himages, h⟩ := Option.bind_eq_some_iff.mp h
    cases h
    rw [List.flatMap_cons, List.flatMap_cons, image?_spelling himage, ih himages]

/-- The resolved text is its tokens, each with its spelling. -/
theorem toList_resolved {source : String} {r : Resolved} (h : resolve? o scope source = some r) :
    r.code.toList = (tokens source.toList).flatMap
      (Token.spelling o scope (arrowScopes source.toList)) := by
  obtain ⟨images, himages, rfl⟩ := Option.map_eq_some_iff.mp h
  rw [Resolved.ofImages, String.toList_ofList, mapM_spelling himages]

private theorem isSome_image? (n : NameToken) :
    (n.image? o scope arrows).isSome = (isMember? n.before).isSome := by
  rw [NameToken.image?]
  cases isMember? n.before with
  | none => rfl
  | some isMember =>
    dsimp only
    split <;> rfl

/-- There is an answer exactly if of every name it can be told whether it is a member. -/
theorem resolve?_isSome_iff {source : String} : (resolve? o scope source).isSome = true ↔
    ∀ n, .name n ∈ tokens source.toList → (isMember? n.before).isSome = true := by
  rw [resolve?, Option.isSome_map]
  constructor
  · intro h n hn
    obtain ⟨images, himages⟩ := Option.isSome_iff_exists.mp h
    obtain ⟨image, -, himage⟩ := forall₂_exists_left (mapM_forall₂ himages) hn
    have hsome := congrArg Option.isSome himage
    rwa [Token.image?, isSome_image?] at hsome
  · intro h
    refine Option.isSome_iff_exists.mpr (mapM_isSome fun t ht => ?_)
    cases t with
    | quoted | templateText | number | symbol => exact ⟨_, rfl⟩
    | name n =>
      rw [Token.image?, ← Option.isSome_iff_exists, isSome_image?]
      exact h n ht

private theorem any_pair_iff (x : Option Char) (a b : Char) :
    x.any (fun c => c == a || c == b) = true ↔ x = some a ∨ x = some b := by
  cases x <;> simp

/-- A name is a shorthand if it is all that stands in an object from a brace or comma to the next.
-/
theorem isShorthand_iff (n : NameToken) :
    n.isShorthand = true ↔ n.brace = some .object ∧
      ((significantBefore n.before).head? = some '\x7b' ∨
        (significantBefore n.before).head? = some ',') ∧
      (n.next? = some ',' ∨ n.next? = some '\x7d') := by
  rw [NameToken.isShorthand, NameToken.atKey, Bool.and_eq_true, Bool.and_eq_true, beq_iff_eq,
    any_pair_iff, any_pair_iff, and_assoc]

/-- The resolved code is the source, token by token: there is one way to split the source into
tokens that fit where they stand, and the code puts their spellings one behind the other. Only names
are ever spelled in another way than in the source, and a name exactly if it is not kept. A name is
in shorthand, and labelled where it is replaced, if the innermost brace open before it is that of an
object and it stands between a brace or a comma and a comma or a brace. -/
theorem resolved_spells_tokens {source : String} {r : Resolved}
    (h : resolve? o scope source = some r) :
    ∃ ts : List Token,
      (ts.flatMap Token.text = source.toList ∧ Spelled [] [] ts) ∧
      (∀ ts', ts'.flatMap Token.text = source.toList → Spelled [] [] ts' → ts' = ts) ∧
      r.code.toList = ts.flatMap (Token.spelling o scope (arrowScopes source.toList)) ∧
      (∀ t ∈ ts, t.spelling o scope (arrowScopes source.toList) = t.text ↔
        ∀ n, t = .name n → n.isKept o scope (arrowScopes source.toList) = true) ∧
      ∀ pre n post, ts = pre ++ .name n :: post → (n.isShorthand = true ↔
        (bracesOver [] [] pre).head? = some .object ∧
        ((significantBefore (pre.flatMap Token.text).reverse).head? = some '\x7b' ∨
          (significantBefore (pre.flatMap Token.text).reverse).head? = some ',') ∧
        (((post.flatMap Token.text).dropWhile isAsciiBlank).head? = some ',' ∨
          ((post.flatMap Token.text).dropWhile isAsciiBlank).head? = some '\x7d')) := by
  refine ⟨tokens source.toList, tokensFrom_eq_iff.mp rfl, ?_, toList_resolved h, ?_, ?_⟩
  · intro ts' htext hfits
    exact (tokensFrom_eq_iff.mpr ⟨htext, hfits⟩).symm
  · intro t _
    cases t with
    | quoted | templateText | number | symbol =>
      refine ⟨fun _ n heq => ?_, fun _ => rfl⟩
      cases heq
    | name n =>
      rw [Token.text, spelling_eq_name_iff]
      exact ⟨fun hkept n' heq => Token.name.inj heq ▸ hkept, fun hkept => hkept n rfl⟩
  · intro pre n post hts
    obtain ⟨hbefore, hafter, hbrace⟩ := name_of_tokens hts
    rw [isShorthand_iff, NameToken.next?, hbefore, hafter, hbrace]

/-- An object with tokens of every class, in a render function that sees some of its names. -/
def mixedObject : String :=
  "\x7b a, k: b.c + \x60x$\x7be\x7d\x60 + 'it\\'s' + 1.5e3 + (f => f + g)(h, true) \x7d"

def mixedOptions : LoweringOptions where
  inline := true
  bindings := some ⟨[("a", .setupRef), ("b", .setupConst), ("e", .props), ("g", .setupMaybeRef)]⟩

def mixedObjectResolved : Resolved where
  code := "\x7b a: a.value, k: b.c + \x60x$\x7b__props.e\x7d\x60 + 'it\\'s' + 1.5e3 + " ++
    "(f => f + _unref(g))(_ctx.h, true) \x7d"
  constancy := .notConstant
  usesUnref := true

theorem mixedObject_spells_tokens :
    resolve? mixedOptions {} mixedObject = some mixedObjectResolved ∧
      ∃ ts : List Token, ts.flatMap Token.text = mixedObject.toList ∧ Spelled [] [] ts ∧
        mixedObjectResolved.code.toList =
          ts.flatMap (Token.spelling mixedOptions {} (arrowScopes mixedObject.toList)) := by
  have h : resolve? mixedOptions {} mixedObject = some mixedObjectResolved := by decide +kernel
  obtain ⟨ts, ⟨htext, hfits⟩, -, hcode, -⟩ := resolved_spells_tokens h
  exact ⟨h, ts, htext, hfits, hcode⟩

end TemplateCompiler.Expression

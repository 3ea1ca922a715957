import TemplateCompiler.Proofs.PathImages

/-! Resolution of the names in a member path. The text that replaces them is a member path again,
unless the variable that the path starts from is read through `unref`. -/
namespace TemplateCompiler

namespace Expression

open Text Text.PathState

variable {o : LoweringOptions} {scope : Scope} {arrows : List ArrowScope}

theorem tokensFrom_blank {before rest : List Char} {braces : List Brace} {c : Char}
    (hc : Text.isBlank c = true) :
    tokensFrom before braces (c :: rest) = .symbol c :: tokensFrom (c :: before) braces rest := by
  have hpart := not_identifierPart_of_blank hc
  rw [isIdentifierPart, Bool.or_eq_false_iff] at hpart
  have hne {d : Char} (hd : Text.isBlank d = false) : ¬(c == d) = true := by
    simpa using ne_of_blank hc hd
  have hquote : ¬isQuote c = true := by
    rw [isQuote, Bool.or_eq_true, not_or]
    exact ⟨hne (by decide), hne (by decide)⟩
  have hnumber : ¬startsNumber before c rest = true := by
    simp [startsNumber, hpart.2, ne_of_blank hc (show Text.isBlank '.' = false by decide)]
  rw [tokensFrom.eq_def]
  dsimp only
  rw [if_neg hquote, if_neg (hne (by decide)), if_neg (hne (by decide)), if_neg (hne (by decide)),
    if_neg hnumber, if_neg (by simp [hpart.1])]

private theorem images_blank {pre rest before : List Char} (hpre : ∀ c ∈ pre, Text.isBlank c = true)
    {braces : List Brace} {images : List Image}
    (h : (tokensFrom before braces (pre ++ rest)).mapM (Token.image? o scope arrows) =
      some images) :
    ∃ images', (tokensFrom (pre.reverse ++ before) braces rest).mapM
        (Token.image? o scope arrows) = some images' ∧
      images.flatMap Image.text = pre ++ images'.flatMap Image.text := by
  induction pre generalizing before images with
  | nil => exact ⟨images, h, rfl⟩
  | cons c pre ih =>
    obtain ⟨hc, hpre⟩ := List.forall_mem_cons.mp hpre
    rw [List.cons_append, tokensFrom_blank hc, List.mapM_cons] at h
    obtain ⟨image, himage, h⟩ := Option.bind_eq_some_iff.mp h
    obtain ⟨images', himages', h⟩ := Option.bind_eq_some_iff.mp h
    cases himage
    cases h
    obtain ⟨images'', himages'', heq⟩ := ih hpre himages'
    refine ⟨images'', ?_, by rw [List.flatMap_cons, heq]; rfl⟩
    rw [List.reverse_cons, List.append_assoc]
    exact himages''

private theorem not_nameChar_of_blank {c : Char} (h : Text.isBlank c = true) :
    isNameChar c = false :=
  of_blank (p := fun c => isNameChar c = false) (by decide +kernel) h

private theorem accepts_run_blank {s : List Char} (hs : ∀ c ∈ s, Text.isBlank c = true)
    {q : PathState}
    (hq : accepts (some q) = true) : ∃ q', q.run s = some q' ∧ accepts (some q') = true := by
  have h := accepts_run_append_blank q [] hs
  rw [List.nil_append, PathState.run, hq] at h
  cases hrun : q.run s with
  | none =>
    rw [hrun] at h
    cases h
  | some q' => exact ⟨q', rfl, hrun ▸ h⟩

private theorem step_equals {q : PathState} (hq : accepts (some q) = true) : q.step '=' = none := by
  cases q with
  | start => cases hq
  | point => cases hq
  | group => cases hq
  | _ => decide

private theorem run_name_nameChars {s rest : List Char} (hs : ∀ c ∈ s, isNameChar c = true)
    (ha : accepts (PathState.name.run (s ++ rest)) = true) :
    PathState.name.run s = some .name := by
  induction s with
  | nil => rfl
  | cons c s ih =>
    obtain ⟨hc, hs⟩ := List.forall_mem_cons.mp hs
    obtain ⟨q, hq, ha⟩ := exists_step ha
    have hblank (hb : Text.isBlank c = true) : False := by
      rw [not_nameChar_of_blank hb] at hc
      cases hc
    cases moves_of_step hq with
    | letter =>
      rw [PathState.run, hq, Option.bind_some]
      exact ih hs ha
    | access => exact absurd hc (by decide)
    | enter => exact absurd hc (by decide)
    | gap _ hb => exact (hblank hb).elim
    | finish _ hb => exact (hblank hb).elim

private theorem afterArrow?_path {rest : List Char}
    (ha : accepts (PathState.name.run rest) = true) :
    afterArrow? (rest.dropWhile isNameChar) = none := by
  unfold afterArrow?
  split
  · rename_i r hr
    exfalso
    have hsplit : rest = rest.takeWhile isNameChar ++
        ((rest.dropWhile isNameChar).takeWhile Text.isBlank ++ '=' :: '>' :: r) := by
      rw [← hr, List.takeWhile_append_dropWhile, List.takeWhile_append_dropWhile]
    rw [hsplit] at ha
    have hname := run_name_nameChars (fun _ => List.mem_takeWhile_imp) ha
    rw [run_append, hname, Option.bind_some, run_append] at ha
    obtain ⟨q, hq, hacc⟩ := accepts_run_blank (q := .name)
      (s := (rest.dropWhile isNameChar).takeWhile Text.isBlank)
      (fun _ => List.mem_takeWhile_imp) rfl
    rw [hq, Option.bind_some] at ha
    obtain ⟨_, hstep, -⟩ := exists_step ha
    rw [step_equals hacc] at hstep
    cases hstep
  · rfl

private theorem arrowHead?_blank {c : Char} {rest : List Char} (hc : Text.isBlank c = true) :
    arrowHead? (c :: rest) = none := by
  have hpart := not_identifierPart_of_blank hc
  simp only [isIdentifierPart, isIdentifierStart, Bool.or_eq_false_iff] at hpart
  rw [arrowHead?, if_neg (by simp [hpart])]
  exact ne_of_blank hc (by decide)

private theorem arrowHead?_path {c : Char} {rest : List Char} (hc : isIdentifierStart c = true)
    (ha : accepts (PathState.name.run rest) = true) : arrowHead? (c :: rest) = none := by
  rw [arrowHead?, afterArrow?_path ha]
  · split <;> rfl
  · exact ne_of_identifierPart (isIdentifierPart_of_start hc) (by decide)

theorem le_start_of_mem {place : Nat} {s : List Char} {a : ArrowScope}
    (h : a ∈ arrowScopesFrom place s) : place ≤ a.start := by
  fun_induction arrowScopesFrom place s with
  | case1 => cases h
  | case2 =>
    rename_i ih
    rcases List.mem_cons.mp h with rfl | h
    · exact Nat.le_refl _
    · exact Nat.le_trans (Nat.le_add_right ..) (ih h)
  | case3 =>
    rename_i ih
    exact Nat.le_of_succ_le (ih h)

theorem arrowScopesFrom_none {place : Nat} {c : Char} {rest : List Char}
    (h : arrowHead? (c :: rest) = none) :
    arrowScopesFrom place (c :: rest) = arrowScopesFrom (place + 1) rest := by
  rw [arrowScopesFrom]
  split
  · rename_i h'
    rw [h] at h'
    cases h'
  · rfl

private theorem arrowScopesFrom_blank {place : Nat} {pre rest : List Char}
    (hpre : ∀ c ∈ pre, Text.isBlank c = true) :
    arrowScopesFrom place (pre ++ rest) = arrowScopesFrom (place + pre.length) rest := by
  induction pre generalizing place with
  | nil => rfl
  | cons c pre ih =>
    obtain ⟨hc, hpre⟩ := List.forall_mem_cons.mp hpre
    rw [List.cons_append, arrowScopesFrom_none (arrowHead?_blank hc), ih hpre, List.length_cons,
      Nat.add_assoc, Nat.add_comm 1]

private theorem uncovered {pre rest : List Char} {c : Char}
    (hpre : ∀ c ∈ pre, Text.isBlank c = true)
    (hc : isIdentifierStart c = true) (ha : accepts (PathState.name.run rest) = true)
    (name : String) :
    ((arrowScopes (pre ++ c :: rest)).any fun a => a.covers name pre.length) = false := by
  rw [arrowScopes, arrowScopesFrom_blank hpre, arrowScopesFrom_none (arrowHead?_path hc ha)]
  refine List.any_eq_false.mpr fun a ha => ?_
  have hstart := le_start_of_mem ha
  simp only [ArrowScope.covers, Bool.and_eq_true, decide_eq_true_eq]
  omega

theorem tokensFrom_name {before rest : List Char} {braces : List Brace} {c : Char}
    (hc : isIdentifierStart c = true) :
    tokensFrom before braces (c :: rest) =
      .name ⟨c :: rest.takeWhile isIdentifierPart, before, rest.dropWhile isIdentifierPart,
        braces.head?⟩ ::
        tokensFrom ((rest.takeWhile isIdentifierPart).reverse ++ c :: before) braces
          (rest.dropWhile isIdentifierPart) := by
  have hne {d : Char} (hd : isIdentifierPart d = false) : ¬(c == d) = true := by
    simpa using ne_of_identifierPart (isIdentifierPart_of_start hc) hd
  have hquote : ¬isQuote c = true := by
    rw [isQuote, Bool.or_eq_true, not_or]
    exact ⟨hne (by decide), hne (by decide)⟩
  have hnumber : ¬startsNumber before c rest = true := by
    intro hn
    rcases startsNumber_cases hn with hdigit | ⟨rfl, -⟩
    · rw [not_identifierStart_of_digit hdigit] at hc
      cases hc
    · exact absurd hc (by decide)
  rw [tokensFrom.eq_def]
  dsimp only
  rw [if_neg hquote, if_neg (hne (by decide)), if_neg (hne (by decide)), if_neg (hne (by decide)),
    if_neg hnumber, if_pos hc]

theorem isMember?_unpointed {before : List Char}
    (h : (significantBefore before).head? ≠ some '.') : isMember? before = some false := by
  rw [isMember?]
  split
  · rename_i hpoint
    rw [hpoint] at h
    exact absurd rfl h
  · rfl

/-- Behind a point a name is a member, unless the point ends a spread or splits a character. -/
theorem isMember?_pointed {before earlier : List Char}
    (h : significantBefore before = '.' :: earlier) : isMember? before =
      if splitsCharacter earlier then none else some (!(['.', '.'].isPrefixOf earlier)) := by
  rw [isMember?, h]
  rfl

theorem isMember?_pointless {before : List Char} (h : '.' ∉ before) :
    isMember? before = some false := by
  apply isMember?_unpointed
  intro hpoint
  exact h (List.dropWhile_subset isAsciiBlank (List.mem_of_head? hpoint))

private theorem isMember?_blank {before : List Char} (h : ∀ c ∈ before, Text.isBlank c = true) :
    isMember? before = some false :=
  isMember?_pointless fun hmem => absurd (h '.' hmem) (by decide)

private theorem run_start_code {n : NameToken} {code : String} {b : Bool}
    (h : access o scope n.text = .replaced code b)
    (hname : PathState.start.run n.name = some .name)
    (hpoint : PathState.point.run n.name = some .name) :
    PathState.start.run code.toList = if b then none else some .name := by
  have hcall : PathState.start.run ['_', 'u', 'n', 'r', 'e', 'f', '('] = none := by decide
  have hprops : PathState.start.run ['_', '_', 'p', 'r', 'o', 'p', 's', '.'] = some .point := by
    decide
  have hctx : PathState.start.run ['_', 'c', 't', 'x', '.'] = some .point := by decide
  rcases replaced_toList h with ⟨rfl, hcode⟩ | ⟨rfl, hcode⟩ | ⟨rfl, hcode⟩ | ⟨rfl, hcode⟩
  · rw [hcode, run_append, hname]
    decide
  · rw [hcode, run_append, run_append, hcall]
    rfl
  · rw [hcode, run_append, hprops]
    exact hpoint
  · rw [hcode, run_append, hctx]
    exact hpoint

private theorem readsUnref_of_replaced {name code : String} {b : Bool}
    (hword : ReservedNames.isKeyword name = false) (h : access o scope name = .replaced code b) :
    readsUnref o scope name = b := by
  have hb : b = true → code = unrefCall name := by
    rcases access_cases o scope name with ⟨d, h'⟩ | h' | h' | h' | h' <;> rw [h] at h' <;>
      cases h' <;> simp
  rw [readsUnref, hword, h]
  cases b with
  | true => simp [hb rfl]
  | false => simp

/-- The image of the variable that a path starts from brings the reader into a name, unless the
variable is read through `unref`. -/
private theorem run_start_image {n : NameToken} {image : Image}
    (h : n.image? o scope arrows = some image)
    (hmember : isMember? n.before = some false) (hbrace : n.brace = none)
    (harrows : (arrows.any fun a => a.covers n.text n.before.length) = false)
    (hname : PathState.start.run n.name = some .name)
    (hpoint : PathState.point.run n.name = some .name) :
    PathState.start.run image.text = if readsUnref o scope n.text then none else some .name := by
  have hat : n.atKey = false := by simp [NameToken.atKey, hbrace]
  have hkey : n.isKey = false := by simp [NameToken.isKey, hat]
  have hshort : n.isShorthand = false := by simp [NameToken.isShorthand, hat]
  rw [NameToken.image?, hmember] at h
  simp only [Bool.false_or, hkey, Bool.or_false] at h
  cases hword : ReservedNames.isKeyword n.text with
  | true =>
    rw [hword] at h
    cases h
    rw [readsUnref, hword]
    exact hname
  | false =>
    rw [hword] at h
    cases h
    rw [NameToken.referenceImage, harrows]
    cases haccess : access o scope n.text with
    | kept isDynamic =>
      rw [readsUnref, hword, haccess]
      exact hname
    | replaced code usesUnref =>
      rw [readsUnref_of_replaced hword haccess, hshort]
      exact run_start_code haccess hname hpoint

/-- In a text that starts with an identifier, blanks apart, the image of the identifier decides. The
reader does not go over it, and the text resolves to no member path; or it brings the reader into a
name, and the text resolves to a member path if it goes on as one. -/
private theorem exists_first_image {source : String} {r : Resolved} {pre rest : List Char}
    {c : Char}
    (hsource : source.toList = pre ++ c :: rest) (hpre : ∀ c ∈ pre, Text.isBlank c = true)
    (hc : isIdentifierStart c = true) (h : resolve? o scope source = some r) :
    ∃ image, NameToken.image? o scope (arrowScopes source.toList)
        ⟨c :: rest.takeWhile isIdentifierPart, pre.reverse, rest.dropWhile isIdentifierPart, none⟩ =
          some image ∧
      (PathState.start.run image.text = none ∧ isMemberPath r.code = false ∨
        PathState.start.run image.text = some .name ∧
          isMemberPath r.code = accepts (PathState.name.run rest)) := by
  obtain ⟨images, himages, rfl⟩ := Option.map_eq_some_iff.mp h
  have hparts : ∀ x ∈ rest.takeWhile isIdentifierPart, isIdentifierPart x = true :=
    fun _ => List.mem_takeWhile_imp
  have hname := run_start_identifier hc hparts
  rw [hsource, tokens] at himages
  obtain ⟨images', himages', htext⟩ := images_blank hpre himages
  rw [tokensFrom_name hc, List.mapM_cons, List.append_nil] at himages'
  obtain ⟨image, himage, himages'⟩ := Option.bind_eq_some_iff.mp himages'
  obtain ⟨others, hothers, heq⟩ := Option.bind_eq_some_iff.mp himages'
  cases heq
  have hwithin : Within ((rest.takeWhile isIdentifierPart).reverse ++ c :: pre.reverse)
      (rest.dropWhile isIdentifierPart) .name := by
    refine ⟨by decide, ?_, fun _ => head?_dropWhile_not isIdentifierPart rest⟩
    have hstart : Follows pre.reverse .start := trivial
    simpa using hstart.run hname
  have hcode : isMemberPath (Resolved.ofImages images).code = accepts
      ((PathState.start.run image.text).bind fun q => q.run (others.flatMap Image.text)) := by
    rw [isMemberPath_eq, Resolved.ofImages, String.toList_ofList, htext, run_append,
      run_start_blank hpre, Option.bind_some, List.flatMap_cons, run_append]
  have himage' : PathState.start.run image.text = none ∨
      PathState.start.run image.text = some .name := by
    rcases image_text himage with htext | ⟨code, b, haccess, htext⟩
    · exact .inr (htext ▸ hname)
    · -- outside all braces nothing is a shorthand, so the code has no label
      have hrun := run_start_code haccess hname (run_point_identifier hc hparts)
      rw [htext, NameToken.isShorthand, NameToken.atKey]
      cases b with
      | true => exact .inl hrun
      | false => exact .inr hrun
  refine ⟨image, hsource ▸ himage, himage'.imp (fun hrun => ⟨hrun, ?_⟩) fun hrun => ⟨hrun, ?_⟩⟩
  · rw [hcode, hrun]
    rfl
  · rw [hcode, hrun, Option.bind_some, run_images hwithin hothers, ← run_name_dropWhile]

/-- What a member path resolves to is a member path again, unless the variable that the path starts
from is read through `unref`. -/
theorem isMemberPath_resolved {source : String} {r : Resolved} (hs : isMemberPath source = true)
    (h : resolve? o scope source = some r) :
    isMemberPath r.code = !readsUnref o scope (pathHead source) := by
  obtain ⟨pre, c, rest, hsource, hpre, hc, ha, hhead⟩ := isMemberPath_split hs
  obtain ⟨image, himage, hcode⟩ := exists_first_image hsource hpre hc h
  have hparts : ∀ x ∈ rest.takeWhile isIdentifierPart, isIdentifierPart x = true :=
    fun _ => List.mem_takeWhile_imp
  have hrun := run_start_image himage
    (isMember?_blank fun c hc => hpre c (List.mem_reverse.mp hc)) rfl
    (by simpa [hsource] using uncovered hpre hc ha _) (run_start_identifier hc hparts)
    (run_point_identifier hc hparts)
  rw [NameToken.text, ← hhead] at hrun
  rcases hcode with ⟨hnone, hcode⟩ | ⟨hname, hcode⟩
  · rw [hnone] at hrun
    rw [hcode]
    cases hu : readsUnref o scope (pathHead source) <;> simp [hu] at hrun ⊢
  · rw [hname] at hrun
    rw [hcode, ha]
    cases hu : readsUnref o scope (pathHead source) <;> simp [hu] at hrun ⊢

private theorem images_other {before rest : List Char} {braces : List Brace} {c : Char}
    (hc : isIdentifierStart c = false) {images : List Image}
    (h : (tokensFrom before braces (c :: rest)).mapM (Token.image? o scope arrows) =
      some images) : ∃ t, images.flatMap Image.text = c :: t := by
  have hfirst {t : Token} {ts : List Token} {u : List Char} (htext : t.text = c :: u)
      (ht : t.image? o scope arrows = some { text := t.text })
      (h : (t :: ts).mapM (Token.image? o scope arrows) = some images) :
      ∃ t, images.flatMap Image.text = c :: t := by
    rw [List.mapM_cons, ht] at h
    obtain ⟨image, himage, h⟩ := Option.bind_eq_some_iff.mp h
    obtain ⟨images', -, heq⟩ := Option.bind_eq_some_iff.mp h
    cases himage
    cases heq
    exact ⟨_, by rw [List.flatMap_cons, htext, List.cons_append]⟩
  rw [tokensFrom.eq_def] at h
  dsimp only at h
  split at h
  · exact hfirst rfl rfl h
  · split at h
    · exact hfirst rfl rfl h
    · split at h
      · exact hfirst rfl rfl h
      · split at h
        · split at h
          · exact hfirst rfl rfl h
          · exact hfirst rfl rfl h
        · split at h
          · exact hfirst rfl rfl h
          · rw [if_neg (by simp [hc])] at h
            exact hfirst rfl rfl h

/-- A text that is not blank resolves to one with the same blanks before it, in which an identifier
stands first if one did. -/
private theorem resolved_first {source : String} {r : Resolved}
    (h : resolve? o scope source = some r) :
    ∃ pre, (∀ c ∈ pre, Text.isBlank c = true) ∧
      (source.toList = pre ∧ r.code.toList = pre ∨
        ∃ c rest x t, source.toList = pre ++ c :: rest ∧ r.code.toList = pre ++ x :: t ∧
          Text.isBlank c = false ∧ Text.isBlank x = false ∧
          isIdentifierStart x = isIdentifierStart c) := by
  have hpre : ∀ c ∈ source.toList.takeWhile Text.isBlank, Text.isBlank c = true :=
    fun _ => List.mem_takeWhile_imp
  have hsource := List.takeWhile_append_dropWhile (p := Text.isBlank) (l := source.toList)
  obtain ⟨images, himages, rfl⟩ := Option.map_eq_some_iff.mp h
  rw [← hsource, tokens] at himages
  obtain ⟨images', himages', htext⟩ := images_blank hpre himages
  refine ⟨_, hpre, ?_⟩
  rw [Resolved.ofImages, String.toList_ofList, htext]
  cases hrest : source.toList.dropWhile Text.isBlank with
  | nil =>
    rw [hrest, tokensFrom.eq_def] at himages'
    rw [hrest, List.append_nil] at hsource
    cases himages'
    exact .inl ⟨hsource.symm, List.append_nil _⟩
  | cons c rest =>
    have hblank : Text.isBlank c = false := head?_dropWhile_not _ source.toList c (by simp [hrest])
    rw [hrest] at hsource himages'
    cases hc : isIdentifierStart c with
    | true =>
      rw [tokensFrom_name hc, List.mapM_cons] at himages'
      obtain ⟨image, himage, himages'⟩ := Option.bind_eq_some_iff.mp himages'
      obtain ⟨others, -, heq⟩ := Option.bind_eq_some_iff.mp himages'
      cases heq
      obtain ⟨x, t, hx, hstart⟩ := image_identifier himage ⟨c, _, rfl, hc⟩
      refine .inr ⟨c, rest, x, t ++ others.flatMap Image.text, hsource.symm, ?_, hblank, ?_,
        hstart.trans hc.symm⟩
      · rw [List.flatMap_cons, hx, List.cons_append]
      · exact not_blank_of_identifierPart (isIdentifierPart_of_start hstart)
    | false =>
      obtain ⟨t, ht⟩ := images_other hc himages'
      exact .inr ⟨c, rest, c, t, hsource.symm, by rw [ht], hblank, hblank, rfl⟩

/-- Resolution makes no member path out of a text that is none. -/
theorem isMemberPath_of_resolved {source : String} {r : Resolved}
    (h : resolve? o scope source = some r) (hr : isMemberPath r.code = true) :
    isMemberPath source = true := by
  obtain ⟨pre, hpre, ⟨hsource, hcode⟩ | ⟨c, rest, x, t, hsource, hcode, hc, hx, hsame⟩⟩ :=
    resolved_first h
  · rw [isMemberPath_eq, hsource, ← hcode, ← isMemberPath_eq]
    exact hr
  · cases hstart : isIdentifierStart c with
    | true =>
      obtain ⟨image, -, ⟨-, hpath⟩ | ⟨-, hpath⟩⟩ := exists_first_image hsource hpre hstart h
      · rw [hr] at hpath
        cases hpath
      · rw [isMemberPath_eq, hsource, run_append, run_start_blank hpre, Option.bind_some,
          PathState.run, step, hc, hstart]
        exact hpath ▸ hr
    | false =>
      rw [isMemberPath_eq, hcode, run_append, run_start_blank hpre, Option.bind_some,
        PathState.run, step, hx, hsame, hstart] at hr
      cases hr

/-- Resolution keeps blank texts blank, and no others become so. -/
theorem isAllBlank_resolved {source : String} {r : Resolved}
    (h : resolve? o scope source = some r) : isAllBlank r.code = isAllBlank source := by
  obtain ⟨pre, hpre, ⟨hsource, hcode⟩ | ⟨c, rest, x, t, hsource, hcode, hc, hx, -⟩⟩ :=
    resolved_first h
  · rw [isAllBlank, isAllBlank, hsource, hcode]
  · simp [isAllBlank, hsource, hcode, hc, hx]

end Expression

end TemplateCompiler

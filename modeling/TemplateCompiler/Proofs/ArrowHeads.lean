import TemplateCompiler.Proofs.PathResolution

/-! Heads of arrow functions. A text without an arrow has none, and where no head starts in the
first part of a text, its arrow functions are those of the rest. -/
namespace TemplateCompiler.Expression

open Text

/-- An arrow stands in the text. -/
def HasArrow (s : List Char) : Prop := ['=', '>'] <:+: s

instance : DecidablePred HasArrow := List.instDecidableIsInfixOfDecidableEq ['=', '>']

private theorem HasArrow.of_suffix {s t : List Char} (h : HasArrow s) (hs : s <:+ t) : HasArrow t :=
  List.IsInfix.trans h hs.isInfix

private theorem hasArrow_of_afterArrow? {s r : List Char} (h : afterArrow? s = some r) :
    HasArrow s := by
  rw [afterArrow?] at h
  split at h
  · rename_i rest hs
    refine HasArrow.of_suffix ?_ (List.dropWhile_suffix Text.isBlank)
    rw [hs]
    exact ⟨[], rest, rfl⟩
  · cases h

private theorem afterArrow?_suffix {s r : List Char} (h : afterArrow? s = some r) : r <:+ s := by
  rw [afterArrow?] at h
  split at h
  · rename_i rest hs
    cases h
    refine ((List.suffix_cons _ _).trans (List.suffix_cons _ _)).trans (?_ : '=' :: '>' :: r <:+ s)
    rw [← hs]
    exact List.dropWhile_suffix _
  · cases h

private theorem exists_afterArrow? {s r : List Char} {params : List String}
    (h : arrowHead? s = some (params, r)) : ∃ t, t <:+ s ∧ afterArrow? t = some r := by
  unfold arrowHead? at h
  split at h
  · cases h
  · rename_i rest
    split at h
    · rename_i rest' hrest
      obtain ⟨r', hr, hpair⟩ := Option.map_eq_some_iff.mp h
      cases hpair
      refine ⟨rest', (List.suffix_cons ')' rest').trans ?_, hr⟩
      rw [← hrest]
      exact (List.dropWhile_suffix _).trans (List.suffix_cons _ _)
    · cases h
  · rename_i c rest _
    split at h
    · obtain ⟨r', hr, hpair⟩ := Option.map_eq_some_iff.mp h
      cases hpair
      exact ⟨_, (List.dropWhile_suffix _).trans (List.suffix_cons c rest), hr⟩
    · cases h

private theorem hasArrow_of_arrowHead? {s r : List Char} {params : List String}
    (h : arrowHead? s = some (params, r)) : HasArrow s := by
  obtain ⟨t, ht, hr⟩ := exists_afterArrow? h
  exact (hasArrow_of_afterArrow? hr).of_suffix ht

theorem arrowHead?_suffix {s r : List Char} {params : List String}
    (h : arrowHead? s = some (params, r)) : r <:+ s := by
  obtain ⟨t, ht, hr⟩ := exists_afterArrow? h
  exact (afterArrow?_suffix hr).trans ht

/-- A text without an arrow opens no scope. -/
theorem arrowScopesFrom_nil {s : List Char} (h : ¬HasArrow s) (place : Nat) :
    arrowScopesFrom place s = [] := by
  induction s generalizing place with
  | nil => rw [arrowScopesFrom]
  | cons c rest ih =>
    have hhead : arrowHead? (c :: rest) = none := by
      cases hhead : arrowHead? (c :: rest) with
      | none => rfl
      | some head => exact absurd (hasArrow_of_arrowHead? hhead) h
    rw [arrowScopesFrom_none hhead]
    apply ih
    intro harrow
    exact h (harrow.of_suffix (List.suffix_cons c rest))

/-- The arrow function in a text that stands further behind. -/
def ArrowScope.shift (k : Nat) (a : ArrowScope) : ArrowScope :=
  { a with start := a.start + k, stop := a.stop + k }

/-- Moving a scope and a place by the same distance changes nothing for the names it covers. -/
theorem covers_shift (k : Nat) (a : ArrowScope) (name : String) (place : Nat) :
    (a.shift k).covers name (place + k) = a.covers name place := by
  simp [ArrowScope.covers, ArrowScope.shift]

/-- The scopes of a text that starts with an arrow head: its own and those behind the head. -/
theorem arrowScopesFrom_some {s r : List Char} {params : List String}
    (h : arrowHead? s = some (params, r)) (place : Nat) :
    arrowScopesFrom place s =
      ⟨params, place, place + (s.length - (afterBody r).length)⟩ ::
        arrowScopesFrom (place + (s.length - r.length)) r := by
  cases s with
  | nil => cases h
  | cons c rest =>
    rw [arrowScopesFrom]
    split
    · rename_i h'
      rw [h] at h'
      cases h'
      rfl
    · rename_i h'
      rw [h] at h'
      cases h'

/-- Where a text starts makes no difference to its arrow functions but for their places. -/
theorem arrowScopesFrom_add (place k : Nat) (s : List Char) :
    arrowScopesFrom (place + k) s = (arrowScopesFrom place s).map (ArrowScope.shift k) := by
  fun_induction arrowScopesFrom place s with
  | case1 place => rw [arrowScopesFrom, List.map_nil]
  | case2 place c rest params r hhead _ ih =>
    rw [arrowScopesFrom_some hhead, List.map_cons, ← ih]
    simp only [ArrowScope.shift, Nat.add_right_comm]
  | case3 place c rest hhead ih =>
    rw [arrowScopesFrom_none hhead, ← ih, Nat.add_right_comm]

/-- Where no arrow function starts in the first part of a text, all are those of the rest. -/
theorem arrowScopesFrom_append {place : Nat} {pre rest : List Char}
    (h : ∀ a ∈ arrowScopesFrom place (pre ++ rest), place + pre.length ≤ a.start) :
    arrowScopesFrom place (pre ++ rest) = arrowScopesFrom (place + pre.length) rest := by
  induction pre generalizing place with
  | nil => rfl
  | cons c pre ih =>
    rw [List.cons_append] at h ⊢
    cases hhead : arrowHead? (c :: (pre ++ rest)) with
    | some head =>
      rw [arrowScopesFrom_some hhead] at h
      have hstart := h _ List.mem_cons_self
      rw [List.length_cons] at hstart
      dsimp only at hstart
      omega
    | none =>
      rw [arrowScopesFrom_none hhead] at h ⊢
      rw [List.length_cons, Nat.add_comm pre.length, ← Nat.add_assoc] at h ⊢
      exact ih h

theorem dropWhile_before {p : Char → Bool} {mark : Char} (hmark : p mark = false)
    (pre rest : List Char) :
    (pre ++ mark :: rest).dropWhile p = pre.dropWhile p ++ mark :: rest := by
  induction pre with
  | nil => simp [hmark]
  | cons c pre ih =>
    rw [List.cons_append, List.dropWhile_cons, List.dropWhile_cons]
    split
    · exact ih
    · rfl

/-- Behind the first character of a text, an arrow is not found across a mark that stands neither in
names nor in arrows. -/
private theorem afterArrow?_before {mark : Char} {pre rest : List Char}
    (hname : isNameChar mark = false)
    (hblank : Text.isBlank mark = false) (hmark : mark ≠ '=' ∧ mark ≠ '>')
    (harrow : ¬HasArrow pre) :
    afterArrow? ((pre ++ mark :: rest).dropWhile isNameChar) = none := by
  rw [dropWhile_before hname, afterArrow?, dropWhile_before hblank]
  have hsuffix : (pre.dropWhile isNameChar).dropWhile Text.isBlank <:+ pre :=
    (List.dropWhile_suffix _).trans (List.dropWhile_suffix _)
  generalize (pre.dropWhile isNameChar).dropWhile Text.isBlank = s at hsuffix
  split
  · rename_i r hr
    -- the arrow would have to reach over the mark, or stand before it
    rcases s with _ | ⟨c, _ | ⟨d, s⟩⟩
    · cases hr
      exact absurd rfl hmark.1
    · cases hr
      exact absurd rfl hmark.2
    · cases hr
      exact absurd (HasArrow.of_suffix ⟨[], s, rfl⟩ hsuffix) harrow
  · rfl

/-- No arrow function starts in a text without round bracket and arrow, where a mark follows. -/
theorem le_start_of_plain {mark : Char} {pre rest : List Char} (hname : isNameChar mark = false)
    (hblank : Text.isBlank mark = false) (hmark : mark ≠ '=' ∧ mark ≠ '>') (hround : '(' ∉ pre)
    (harrow : ¬HasArrow pre) (place : Nat) :
    ∀ a ∈ arrowScopesFrom place (pre ++ mark :: rest), place + pre.length ≤ a.start := by
  induction pre generalizing place with
  | nil => exact fun a ha => le_start_of_mem ha
  | cons c pre ih =>
    rw [List.mem_cons, not_or] at hround
    have hpre : ¬HasArrow pre := fun h => harrow (h.of_suffix (List.suffix_cons c pre))
    have hhead : arrowHead? (c :: (pre ++ mark :: rest)) = none := by
      rw [arrowHead?, afterArrow?_before hname hblank hmark hpre]
      · split <;> rfl
      · exact Ne.symm hround.1
    rw [List.cons_append, arrowScopesFrom_none hhead]
    intro a ha
    have hstart := ih hround.2 hpre (place + 1) a ha
    rw [List.length_cons]
    omega

end TemplateCompiler.Expression

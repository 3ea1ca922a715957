import TemplateCompiler.Proofs.MemberPaths

/-! The grammar of member paths, and that `isMemberPath` holds of exactly the texts it generates. -/
namespace TemplateCompiler.Text

/-- The texts in which each square bracket has its partner. -/
inductive SquareBalanced : List Char → Prop
  | nil : SquareBalanced []
  | char {c : Char} {rest : List Char} (hopen : c ≠ '[') (hclose : c ≠ ']')
      (hrest : SquareBalanced rest) : SquareBalanced (c :: rest)
  | group {inner rest : List Char} (hinner : SquareBalanced inner) (hrest : SquareBalanced rest) :
      SquareBalanced ('[' :: (inner ++ ']' :: rest))

/-- Sequences of accesses and blanks. -/
inductive Accesses : List Char → Prop
  | nil : Accesses []
  /-- A point with an identifier right behind it. -/
  | member {name rest : List Char} (hname : isIdentifierText name = true) (hrest : Accesses rest) :
      Accesses ('.' :: (name ++ rest))
  /-- A group in square brackets. -/
  | group {inner rest : List Char} (hinner : SquareBalanced inner) (hrest : Accesses rest) :
      Accesses ('[' :: (inner ++ ']' :: rest))
  | blank {c : Char} {rest : List Char} (hc : c ∈ [' ', '\t', '\n']) (hrest : Accesses rest) :
      Accesses (c :: rest)

/-- An identifier and accesses behind it. -/
def MemberPath (s : List Char) : Prop :=
  ∃ name accesses, s = name ++ accesses ∧ isIdentifierText name = true ∧ Accesses accesses

private theorem SquareBalanced.closeSquare?_append {inner : List Char} (h : SquareBalanced inner)
    (depth : Nat) (rest : List Char) :
    closeSquare? (depth + 1) (inner ++ rest) = closeSquare? (depth + 1) rest := by
  induction h generalizing depth rest with
  | nil => rfl
  | char hopen hclose _ ih =>
    rw [List.cons_append, closeSquare?, if_neg (by simpa using hopen),
      if_neg (by simpa using hclose), ih]
  | @group inner more _ _ ihinner ihmore =>
    rw [List.cons_append, List.append_assoc, List.cons_append]
    calc closeSquare? (depth + 1) ('[' :: (inner ++ ']' :: (more ++ rest)))
      _ = closeSquare? (depth + 2) (inner ++ ']' :: (more ++ rest)) := by
        rw [closeSquare?, if_pos (by decide)]
      _ = closeSquare? (depth + 2) (']' :: (more ++ rest)) := ihinner _ _
      _ = closeSquare? (depth + 1) (more ++ rest) := by
        rw [closeSquare?, if_neg (by decide), if_pos (by decide), if_neg (by omega)]
        rfl
      _ = closeSquare? (depth + 1) rest := ihmore _ _

private theorem exists_balanced_of_closeSquare? {depth : Nat} {s r : List Char}
    (h : closeSquare? (depth + 1) s = some r) :
    ∃ inner rest, s = inner ++ ']' :: rest ∧ SquareBalanced inner ∧
      if depth = 0 then rest = r else closeSquare? depth rest = some r := by
  cases s with
  | nil => cases h
  | cons c s =>
    rw [closeSquare?] at h
    split at h
    · -- a group of its own comes first, then the search goes on behind it
      rename_i hc
      obtain rfl : c = '[' := by simpa using hc
      obtain ⟨inner, rest, rfl, hinner, hrest⟩ := exists_balanced_of_closeSquare? h
      rw [if_neg (Nat.succ_ne_zero depth)] at hrest
      obtain ⟨more, rest', rfl, hmore, hrest'⟩ := exists_balanced_of_closeSquare? hrest
      exact ⟨'[' :: (inner ++ ']' :: more), rest', by simp, .group hinner hmore, hrest'⟩
    · rename_i hopen
      split at h
      · rename_i hc
        obtain rfl : c = ']' := by simpa using hc
        refine ⟨[], s, rfl, .nil, ?_⟩
        split at h
        · cases h
          rw [if_pos (by omega)]
        · rw [if_neg (by omega)]
          exact h
      · rename_i hclose
        obtain ⟨inner, rest, rfl, hinner, hrest⟩ := exists_balanced_of_closeSquare? h
        exact ⟨c :: inner, rest, rfl, .char (by simpa using hopen) (by simpa using hclose) hinner,
          hrest⟩
termination_by s.length

private theorem closeSquare?_eq_some_iff {s r : List Char} :
    closeSquare? 1 s = some r ↔ ∃ inner, SquareBalanced inner ∧ s = inner ++ ']' :: r := by
  constructor
  · intro h
    obtain ⟨inner, rest, rfl, hinner, hrest⟩ := exists_balanced_of_closeSquare? h
    rw [if_pos rfl] at hrest
    exact ⟨inner, hinner, by rw [hrest]⟩
  · rintro ⟨inner, hinner, rfl⟩
    rw [hinner.closeSquare?_append, closeSquare?, if_neg (by decide), if_pos (by decide),
      if_pos (Nat.le_refl 1)]

private theorem afterIdentifier?_append {name rest : List Char}
    (hname : isIdentifierText name = true)
    (hrest : ∀ c ∈ rest.head?, isIdentifierPart c = false) :
    afterIdentifier? (name ++ rest) = some rest := by
  cases name with
  | nil => cases hname
  | cons c name =>
    rw [isIdentifierText, Bool.and_eq_true, List.all_eq_true] at hname
    rw [List.cons_append, afterIdentifier?, if_pos hname.1,
      (takeWhile_append_stop hname.2 hrest).2]

private theorem exists_name_of_afterIdentifier? {s r : List Char}
    (h : afterIdentifier? s = some r) :
    ∃ name, isIdentifierText name = true ∧ s = name ++ r := by
  cases s with
  | nil => cases h
  | cons c s =>
    rw [afterIdentifier?] at h
    split at h
    · rename_i hc
      cases h
      refine ⟨c :: s.takeWhile isIdentifierPart, ?_, ?_⟩
      · rw [isIdentifierText, hc, List.all_takeWhile, Bool.and_self]
      · rw [List.cons_append, List.takeWhile_append_dropWhile]
    · cases h

private theorem Accesses.head?_not_part {s : List Char} (h : Accesses s) :
    ∀ c ∈ s.head?, isIdentifierPart c = false := by
  intro c hc
  cases h with
  | nil => cases hc
  | member =>
    cases hc
    decide
  | group =>
    cases hc
    decide
  | blank hblank =>
    cases hc
    simp only [List.mem_cons, List.not_mem_nil, or_false] at hblank
    rcases hblank with rfl | rfl | rfl <;> decide

private theorem Accesses.isAccessChain {s : List Char} (h : Accesses s) :
    isAccessChain s = true := by
  induction h with
  | nil => rw [Text.isAccessChain]
  | @member name rest hname hrest ih =>
    have hafter := afterIdentifier?_append hname hrest.head?_not_part
    rw [Text.isAccessChain, if_pos (by decide)]
    split
    · rename_i hnone
      rw [hafter] at hnone
      cases hnone
    · rename_i r hsome
      rw [hafter] at hsome
      cases hsome
      exact ih
  | @group inner rest hinner _ ih =>
    have hafter : closeSquare? 1 (inner ++ ']' :: rest) = some rest :=
      closeSquare?_eq_some_iff.mpr ⟨inner, hinner, rfl⟩
    rw [Text.isAccessChain, if_neg (by decide), if_pos (by decide)]
    split
    · rename_i hnone
      rw [hafter] at hnone
      cases hnone
    · rename_i r hsome
      rw [hafter] at hsome
      cases hsome
      exact ih
  | @blank c rest hc _ ih =>
    simp only [List.mem_cons, List.not_mem_nil, or_false] at hc
    rw [Text.isAccessChain]
    rcases hc with rfl | rfl | rfl <;> exact ih

private theorem accesses_of_isAccessChain {s : List Char} (h : isAccessChain s = true) :
    Accesses s := by
  fun_induction isAccessChain s with
  | case1 => exact .nil
  | case2 => cases h
  | case3 c rest hc r hrest _ ih =>
    obtain rfl : c = '.' := by simpa using hc
    obtain ⟨name, hname, rfl⟩ := exists_name_of_afterIdentifier? hrest
    exact .member hname (ih h)
  | case4 => cases h
  | case5 c rest _ hc r hrest _ ih =>
    obtain rfl : c = '[' := by simpa using hc
    obtain ⟨inner, hinner, rfl⟩ := closeSquare?_eq_some_iff.mp hrest
    exact .group hinner (ih h)
  | case6 c rest _ _ hblank ih =>
    exact .blank (by simpa [or_assoc] using hblank) (ih h)
  | case7 => cases h

/-- A text is a member path exactly if, with the blanks around it dropped, it is an identifier
followed by accesses: points with identifiers right behind them, groups in square brackets that are
balanced inside, and spaces, tabs and line feeds. -/
theorem isMemberPath_iff_grammar (s : String) :
    isMemberPath s = true ↔ MemberPath (trim s.toList) := by
  rw [isMemberPath]
  constructor
  · intro h
    split at h
    · cases h
    · rename_i r hafter
      obtain ⟨name, hname, hs⟩ := exists_name_of_afterIdentifier? hafter
      exact ⟨name, r, hs, hname, accesses_of_isAccessChain h⟩
  · rintro ⟨name, accesses, hs, hname, haccesses⟩
    rw [hs, afterIdentifier?_append hname haccesses.head?_not_part]
    exact haccesses.isAccessChain

end TemplateCompiler.Text

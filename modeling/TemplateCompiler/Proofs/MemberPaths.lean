import Mathlib.Data.List.TakeWhile
import Mathlib.Tactic.Common
import TemplateCompiler.Text.MemberPath

/-! Member paths, read from left to right. The reader keeps where it stands and, between square
brackets, how many are open; `isMemberPath` holds of the texts that it accepts. -/
namespace TemplateCompiler.Text

/-- Where a reader of a member path stands. -/
inductive PathState where
  /-- Before the first identifier. -/
  | start
  /-- In an identifier. -/
  | name
  /-- Behind an access or a blank. -/
  | ready
  /-- Behind a point. -/
  | point
  /-- Between square brackets. -/
  | group (depth : Nat)
  /-- Among the blanks at the end. -/
  | tail
  deriving DecidableEq, Repr

namespace PathState

/-- The state after a character that starts an access. -/
def access (c : Char) : Option PathState :=
  if c == '.' then some point
  else if c == '[' then some (group 1)
  else if c == ' ' || c == '\t' || c == '\n' then some ready
  else if isBlank c then some tail
  else none

def step : PathState → Char → Option PathState
  | start, c => if isBlank c then some start else if isIdentifierStart c then some name else none
  | name, c => if isIdentifierPart c then some name else access c
  | ready, c => access c
  | point, c => if isIdentifierStart c then some name else none
  | group d, c =>
    if c == '[' then some (group (d + 1))
    else if c == ']' then if d ≤ 1 then some ready else some (group (d - 1))
    else some (group d)
  | tail, c => if isBlank c then some tail else none

def run (q : PathState) : List Char → Option PathState
  | [] => some q
  | c :: rest => (q.step c).bind fun q' => q'.run rest

/-- Whether a text that ends here is a member path. -/
def accepts : Option PathState → Bool
  | some name => true
  | some ready => true
  | some tail => true
  | _ => false

/-- Whether the reader stands behind an access, with no blanks behind it. -/
def settled : Option PathState → Bool
  | some name => true
  | some ready => true
  | _ => false

theorem run_append (q : PathState) (s t : List Char) :
    q.run (s ++ t) = (q.run s).bind fun q' => q'.run t := by
  induction s generalizing q with
  | nil => rfl
  | cons c s ih =>
    rw [List.cons_append, run, run, Option.bind_assoc]
    exact congrArg _ (funext ih)

theorem run_concat (q : PathState) (s : List Char) (c : Char) :
    q.run (s ++ [c]) = (q.run s).bind fun q' => q'.step c := by
  rw [run_append]
  refine congrArg _ (funext fun q' => ?_)
  rw [run]
  cases q'.step c <;> rfl

theorem exists_step {q : PathState} {c : Char} {rest : List Char}
    (ha : accepts (q.run (c :: rest)) = true) :
    ∃ q', q.step c = some q' ∧ accepts (q'.run rest) = true := by
  rw [run] at ha
  cases hq : q.step c with
  | none =>
    rw [hq] at ha
    cases ha
  | some q' =>
    rw [hq] at ha
    exact ⟨q', rfl, ha⟩

end PathState

/-- What holds of the 25 blanks one by one holds of every blank. -/
theorem of_blank {p : Char → Prop} (h : ∀ n ∈ [9, 10, 11, 12, 13, 0x20, 0x85, 0xA0, 0x1680, 0x2000,
      0x2001, 0x2002, 0x2003, 0x2004, 0x2005, 0x2006, 0x2007, 0x2008, 0x2009, 0x200A, 0x2028,
      0x2029, 0x202F, 0x205F, 0x3000], p (Char.ofNat n)) {c : Char} (hc : isBlank c = true) :
    p c := by
  rw [← Char.ofNat_toNat c]
  apply h
  simp only [isBlank, Bool.or_eq_true, Bool.and_eq_true, decide_eq_true_eq, beq_iff_eq] at hc
  simp only [List.mem_cons, List.not_mem_nil, or_false]
  omega

theorem not_identifierPart_of_blank {c : Char} (h : isBlank c = true) :
    isIdentifierPart c = false :=
  of_blank (p := fun c => isIdentifierPart c = false) (by decide +kernel) h

theorem not_blank_of_identifierPart {c : Char} (h : isIdentifierPart c = true) :
    isBlank c = false := by
  refine Bool.eq_false_iff.mpr fun hb => ?_
  rw [not_identifierPart_of_blank hb] at h
  cases h

theorem isIdentifierPart_of_start {c : Char} (h : isIdentifierStart c = true) :
    isIdentifierPart c = true := by
  rw [isIdentifierPart, h]
  rfl

theorem isIdentifierPart_of_text {s : List Char} (h : isIdentifierText s = true) {c : Char}
    (hc : c ∈ s) : isIdentifierPart c = true := by
  cases s with
  | nil => cases hc
  | cons d s =>
    rw [isIdentifierText, Bool.and_eq_true, List.all_eq_true] at h
    rcases List.mem_cons.mp hc with rfl | hc
    · exact isIdentifierPart_of_start h.1
    · exact h.2 c hc

/-- Identifiers hold no brackets, points, quotes or other marks. -/
theorem ne_of_identifierPart {c d : Char} (h : isIdentifierPart c = true)
    (hd : isIdentifierPart d = false) : c ≠ d := by
  rintro rfl
  rw [h] at hd
  cases hd

theorem ne_of_blank {c d : Char} (h : isBlank c = true) (hd : isBlank d = false) : c ≠ d := by
  rintro rfl
  rw [h] at hd
  cases hd

theorem head?_dropWhile_not (p : Char → Bool) (s : List Char) :
    ∀ c ∈ (s.dropWhile p).head?, p c = false := by
  intro c hc
  have h := List.head?_dropWhile_not p s
  rw [Option.mem_def.mp hc] at h
  exact h

theorem takeWhile_append_stop {p : Char → Bool} {text rest : List Char}
    (ht : ∀ c ∈ text, p c = true) (hr : ∀ c ∈ rest.head?, p c = false) :
    (text ++ rest).takeWhile p = text ∧ (text ++ rest).dropWhile p = rest := by
  rw [List.takeWhile_append_of_pos ht, List.dropWhile_append_of_pos ht]
  cases rest with
  | nil => simp
  | cons c rest => simp [hr c rfl]

namespace PathState

/-- What one character can do. -/
inductive Moves : PathState → Char → PathState → Prop
  | skip {c : Char} (hc : isBlank c = true) : Moves start c start
  | first {c : Char} (hc : isIdentifierStart c = true) : Moves start c name
  | letter {c : Char} (hc : isIdentifierPart c = true) : Moves name c name
  | member {c : Char} (hc : isIdentifierStart c = true) : Moves point c name
  | access {q : PathState} (hq : q = name ∨ q = ready) : Moves q '.' point
  | enter {q : PathState} (hq : q = name ∨ q = ready) : Moves q '[' (group 1)
  | gap {q : PathState} {c : Char} (hq : q = name ∨ q = ready) (hc : isBlank c = true) :
      Moves q c ready
  | finish {q : PathState} {c : Char} (hq : q = name ∨ q = ready) (hc : isBlank c = true) :
      Moves q c tail
  | inside {c : Char} {d d' : Nat} : Moves (group d) c (group d')
  | leave {d : Nat} : Moves (group d) ']' ready
  | rest {c : Char} (hc : isBlank c = true) : Moves tail c tail

private theorem moves_of_access {q q' : PathState} {c : Char} (hq : q = name ∨ q = ready)
    (h : access c = some q') : Moves q c q' := by
  unfold access at h
  split at h
  · rename_i hc
    obtain rfl : c = '.' := by simpa using hc
    cases h
    exact .access hq
  · split at h
    · rename_i hc
      obtain rfl : c = '[' := by simpa using hc
      cases h
      exact .enter hq
    · split at h
      · rename_i hc
        cases h
        refine .gap hq ?_
        simp only [Bool.or_eq_true, beq_iff_eq] at hc
        rcases hc with (rfl | rfl) | rfl <;> decide
      · split at h
        · cases h
          exact .finish hq (by assumption)
        · cases h

/-- A step of the automaton is one of its moves. -/
theorem moves_of_step {q q' : PathState} {c : Char} (h : q.step c = some q') : Moves q c q' := by
  cases q with
  | start =>
    rw [step] at h
    split at h
    · cases h
      exact .skip (by assumption)
    · split at h
      · cases h
        exact .first (by assumption)
      · cases h
  | name =>
    rw [step] at h
    split at h
    · cases h
      exact .letter (by assumption)
    · exact moves_of_access (.inl rfl) h
  | ready => exact moves_of_access (.inr rfl) h
  | point =>
    rw [step] at h
    split at h
    · cases h
      exact .member (by assumption)
    · cases h
  | group d =>
    rw [step] at h
    split at h
    · cases h
      exact .inside
    · split at h
      · rename_i hc
        obtain rfl : c = ']' := by simpa using hc
        split at h
        · cases h
          exact .leave
        · cases h
          exact .inside
      · cases h
        exact .inside
  | tail =>
    rw [step] at h
    split at h
    · cases h
      exact .rest (by assumption)
    · cases h

theorem run_name_parts {s : List Char} (h : ∀ c ∈ s, isIdentifierPart c = true) :
    name.run s = some name := by
  induction s with
  | nil => rfl
  | cons c s ih =>
    obtain ⟨hc, hs⟩ := List.forall_mem_cons.mp h
    rw [run, step, if_pos hc, Option.bind_some]
    exact ih hs

theorem run_name_dropWhile (s : List Char) :
    name.run s = name.run (s.dropWhile isIdentifierPart) := by
  have hparts := run_name_parts (s := s.takeWhile isIdentifierPart)
    fun _ => List.mem_takeWhile_imp
  conv_lhs => rw [← List.takeWhile_append_dropWhile (p := isIdentifierPart) (l := s)]
  rw [run_append, hparts, Option.bind_some]

private theorem settled_run_name {s : List Char} (h : ∀ c ∈ s.head?, isIdentifierPart c = false) :
    settled (name.run s) = settled (ready.run s) := by
  cases s with
  | nil => rfl
  | cons c s =>
    have hc : isIdentifierPart c = false := h c rfl
    rw [run, run, step, step, hc]
    rfl

private theorem run_group {depth : Nat} {s r : List Char} (h : closeSquare? depth s = some r) :
    (group depth).run s = ready.run r := by
  induction s generalizing depth with
  | nil => cases h
  | cons c s ih =>
    rw [closeSquare?] at h
    rw [run, step]
    split at h
    · rename_i hc
      rw [if_pos hc, Option.bind_some, ih h]
    · rename_i hc
      rw [if_neg hc]
      split at h
      · rename_i hc'
        rw [if_pos hc']
        split at h
        · rename_i hd
          cases h
          rw [if_pos hd, Option.bind_some]
        · rename_i hd
          rw [if_neg hd, Option.bind_some, ih h]
      · rename_i hc'
        rw [if_neg hc', Option.bind_some, ih h]

private theorem run_group_open {depth : Nat} {s : List Char} (h : closeSquare? depth s = none) :
    ∃ d, (group depth).run s = some (group d) := by
  induction s generalizing depth with
  | nil => exact ⟨depth, rfl⟩
  | cons c s ih =>
    rw [closeSquare?] at h
    rw [run, step]
    split at h
    · rename_i hc
      rw [if_pos hc, Option.bind_some]
      exact ih h
    · rename_i hc
      rw [if_neg hc]
      split at h
      · rename_i hc'
        rw [if_pos hc']
        split at h
        · cases h
        · rename_i hd
          rw [if_neg hd, Option.bind_some]
          exact ih h
      · rename_i hc'
        rw [if_neg hc', Option.bind_some]
        exact ih h

private theorem run_point {s r : List Char} (h : afterIdentifier? s = some r) :
    point.run s = name.run r := by
  cases s with
  | nil => cases h
  | cons c s =>
    rw [afterIdentifier?] at h
    split at h
    · rename_i hc
      cases h
      rw [run, step, if_pos hc, Option.bind_some, run_name_dropWhile]
    · cases h

private theorem settled_run_point {s : List Char} (h : afterIdentifier? s = none) :
    settled (point.run s) = false := by
  cases s with
  | nil => rfl
  | cons c s =>
    rw [afterIdentifier?] at h
    split at h
    · cases h
    · rename_i hc
      rw [run, step, if_neg hc]
      rfl

private theorem settled_run_tail (s : List Char) : settled (tail.run s) = false := by
  induction s with
  | nil => rfl
  | cons c s ih =>
    rw [run, step]
    split
    · exact ih
    · rfl

private theorem head?_after {s r : List Char} (h : afterIdentifier? s = some r) :
    ∀ c ∈ r.head?, isIdentifierPart c = false := by
  cases s with
  | nil => cases h
  | cons c s =>
    rw [afterIdentifier?] at h
    split at h
    · cases h
      exact head?_dropWhile_not isIdentifierPart s
    · cases h

private theorem settled_run_ready (s : List Char) : settled (ready.run s) = isAccessChain s := by
  fun_induction isAccessChain s with
  | case1 => rfl
  | case2 c rest hc hrest =>
    rw [run, step, access, if_pos hc, Option.bind_some, settled_run_point hrest]
  | case3 c rest hc r hrest _ ih =>
    rw [run, step, access, if_pos hc, Option.bind_some, run_point hrest,
      settled_run_name (head?_after hrest), ih]
  | case4 c rest hc hc' hrest =>
    obtain ⟨d, hd⟩ := run_group_open hrest
    rw [run, step, access, if_neg hc, if_pos hc', Option.bind_some, hd]
    rfl
  | case5 c rest hc hc' r hrest _ ih =>
    rw [run, step, access, if_neg hc, if_pos hc', Option.bind_some, run_group hrest, ih]
  | case6 c rest hc hc' hb ih =>
    rw [run, step, access, if_neg hc, if_neg hc', if_pos hb, Option.bind_some, ih]
  | case7 c rest hc hc' hb =>
    rw [run, step, access, if_neg hc, if_neg hc', if_neg hb]
    split
    · exact settled_run_tail rest
    · rfl

theorem run_start_blank {s : List Char} (h : ∀ c ∈ s, isBlank c = true) :
    start.run s = some start := by
  induction s with
  | nil => rfl
  | cons c s ih =>
    obtain ⟨hc, hs⟩ := List.forall_mem_cons.mp h
    rw [run, step, if_pos hc, Option.bind_some]
    exact ih hs

private theorem accepts_step_blank (q : PathState) {c : Char} (h : isBlank c = true) :
    accepts (q.step c) = accepts (some q) := by
  have hpart := not_identifierPart_of_blank h
  have hstart : isIdentifierStart c = false := by
    rw [isIdentifierPart, Bool.or_eq_false_iff] at hpart
    exact hpart.1
  have haccess : accepts (access c) = true := by
    have hpoint : c ≠ '.' := ne_of_blank h (by decide)
    have hopen : c ≠ '[' := ne_of_blank h (by decide)
    rw [access, if_neg (by simpa using hpoint), if_neg (by simpa using hopen), if_pos h]
    split <;> rfl
  cases q with
  | start => rw [step, if_pos h]
  | name =>
    rw [step, hpart]
    exact haccess
  | ready => exact haccess
  | point =>
    rw [step, hstart]
    rfl
  | group d =>
    have hopen : c ≠ '[' := ne_of_blank h (by decide)
    have hclose : c ≠ ']' := ne_of_blank h (by decide)
    rw [step, if_neg (by simpa using hopen), if_neg (by simpa using hclose)]
  | tail => rw [step, if_pos h]

/-- Blanks at the end do not count. -/
theorem accepts_run_append_blank (q : PathState) (s : List Char) {t : List Char}
    (h : ∀ c ∈ t, isBlank c = true) : accepts (q.run (s ++ t)) = accepts (q.run s) := by
  induction t generalizing s with
  | nil => rw [List.append_nil]
  | cons c t ih =>
    obtain ⟨hc, ht⟩ := List.forall_mem_cons.mp h
    rw [List.append_cons, ih _ ht, run_concat]
    cases q.run s with
    | none => rfl
    | some q' => exact accepts_step_blank q' hc

private theorem isBlank_of_step {q : PathState} {c : Char} (h : q.step c = some tail) :
    isBlank c = true := by
  cases moves_of_step h with
  | finish _ hc => exact hc
  | rest hc => exact hc

private theorem accepts_eq_settled {q : PathState} (hq : q ≠ tail) {s : List Char}
    (h : ∀ c ∈ s.getLast?, isBlank c = false) : accepts (q.run s) = settled (q.run s) := by
  have htail : q.run s ≠ some tail := by
    intro hrun
    cases hlast : s.getLast? with
    | none =>
      rw [List.getLast?_eq_none_iff.mp hlast] at hrun
      cases hrun
      exact hq rfl
    | some c =>
      obtain ⟨s', rfl⟩ := List.getLast?_eq_some_iff.mp hlast
      rw [run_concat] at hrun
      obtain ⟨q', -, hstep⟩ := Option.bind_eq_some_iff.mp hrun
      have hblank := isBlank_of_step hstep
      rw [h c hlast] at hblank
      cases hblank
  cases hrun : q.run s with
  | none => rfl
  | some q' =>
    rw [hrun] at htail
    cases q' with
    | tail => exact absurd rfl htail
    | _ => rfl

end PathState

private theorem trimLeft_append (s : List Char) : s.takeWhile isBlank ++ trimLeft s = s :=
  List.takeWhile_append_dropWhile

theorem trimRight_append (s : List Char) :
    trimRight s ++ (s.reverse.takeWhile isBlank).reverse = s := by
  rw [trimRight, ← List.reverse_append, List.takeWhile_append_dropWhile, List.reverse_reverse]

theorem getLast?_trimRight (s : List Char) : ∀ c ∈ (trimRight s).getLast?, isBlank c = false := by
  rw [trimRight, List.getLast?_reverse]
  exact head?_dropWhile_not isBlank s.reverse

private theorem head?_trim (s : List Char) : ∀ c ∈ (trim s).head?, isBlank c = false := by
  intro c hc
  apply head?_dropWhile_not isBlank s
  have h := trimRight_append (trimLeft s)
  obtain ⟨rest, hrest⟩ := List.head?_eq_some_iff.mp (Option.mem_def.mp hc)
  rw [trim] at hrest
  rw [hrest, List.cons_append] at h
  rw [← trimLeft, ← h]
  rfl

theorem takeWhile_trim_append (s : List Char) : ∃ trail,
    s = s.takeWhile isBlank ++ (trim s ++ trail) ∧ ∀ c ∈ trail, isBlank c = true := by
  refine ⟨((trimLeft s).reverse.takeWhile isBlank).reverse, ?_,
    fun _ hc => List.mem_takeWhile_imp (List.mem_reverse.mp hc)⟩
  rw [trim, trimRight_append, trimLeft_append]

/-- A text is its trimmed text between blanks. -/
theorem trim_split (s : List Char) : ∃ lead trail, s = lead ++ (trim s ++ trail) ∧
    (∀ c ∈ lead, isBlank c = true) ∧ ∀ c ∈ trail, isBlank c = true := by
  obtain ⟨trail, hs, htrail⟩ := takeWhile_trim_append s
  exact ⟨s.takeWhile isBlank, trail, hs, fun _ => List.mem_takeWhile_imp, htrail⟩

open PathState in
/-- A text is a member path exactly if the reader accepts it. -/
theorem isMemberPath_eq (s : String) : isMemberPath s = accepts (start.run s.toList) := by
  have hleft : accepts (start.run s.toList) = accepts (start.run (trimLeft s.toList)) := by
    conv_lhs => rw [← trimLeft_append s.toList]
    rw [run_append, run_start_blank fun _ => List.mem_takeWhile_imp]
    rfl
  have hright : accepts (start.run (trimLeft s.toList)) = accepts (start.run (trim s.toList)) := by
    conv_lhs => rw [← trimRight_append (trimLeft s.toList)]
    refine accepts_run_append_blank _ _ fun c hc => ?_
    exact List.mem_takeWhile_imp (List.mem_reverse.mp hc)
  have hlast : accepts (start.run (trim s.toList)) = settled (start.run (trim s.toList)) :=
    accepts_eq_settled (by decide) (getLast?_trimRight _)
  rw [hleft, hright, hlast, isMemberPath]
  cases ht : trim s.toList with
  | nil => rfl
  | cons c rest =>
    have hc : isBlank c = false := head?_trim s.toList c (by rw [ht]; rfl)
    rw [run, step, if_neg (by simp [hc]), afterIdentifier?]
    by_cases hs : isIdentifierStart c = true
    · rw [if_pos hs, if_pos hs, Option.bind_some, run_name_dropWhile,
        settled_run_name (head?_dropWhile_not _ _), settled_run_ready]
    · rw [if_neg hs, if_neg hs]
      rfl

/-- The identifier that a member path starts with. -/
def pathHead (s : String) : String :=
  String.ofList ((trimLeft s.toList).takeWhile isIdentifierPart)

open PathState in
/-- A member path is blanks, an identifier, and what the reader accepts behind one. -/
theorem isMemberPath_split {source : String} (h : isMemberPath source = true) :
    ∃ pre c rest, source.toList = pre ++ c :: rest ∧ (∀ c ∈ pre, isBlank c = true) ∧
      isIdentifierStart c = true ∧ accepts (name.run rest) = true ∧
      pathHead source = String.ofList (c :: rest.takeWhile isIdentifierPart) := by
  rw [isMemberPath_eq, ← trimLeft_append source.toList, run_append,
    run_start_blank fun _ => List.mem_takeWhile_imp, Option.bind_some] at h
  cases htrim : trimLeft source.toList with
  | nil =>
    rw [htrim] at h
    cases h
  | cons c rest =>
    rw [htrim] at h
    have hblank : isBlank c = false :=
      head?_dropWhile_not isBlank source.toList c (by rw [← trimLeft, htrim]; rfl)
    obtain ⟨q, hstep, h⟩ := exists_step h
    rw [step, if_neg (by simp [hblank])] at hstep
    split at hstep
    · rename_i hc
      cases hstep
      refine ⟨source.toList.takeWhile isBlank, c, rest, ?_, fun _ => List.mem_takeWhile_imp, hc, h,
        ?_⟩
      · rw [← htrim, trimLeft_append]
      · rw [pathHead, htrim, List.takeWhile_cons_of_pos (isIdentifierPart_of_start hc)]
    · cases hstep

theorem not_allBlank_of_memberPath {s : String} (h : isMemberPath s = true) :
    isAllBlank s = false := by
  obtain ⟨pre, c, rest, hs, -, hc, -⟩ := isMemberPath_split h
  refine Bool.eq_false_iff.mpr fun hall => ?_
  have hblank := List.all_eq_true.mp hall c (by simp [hs])
  rw [not_blank_of_identifierPart (isIdentifierPart_of_start hc)] at hblank
  cases hblank

end TemplateCompiler.Text

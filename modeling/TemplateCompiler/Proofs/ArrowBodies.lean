import TemplateCompiler.Proofs.ArrowHeads
import TemplateCompiler.Proofs.Brackets
import TemplateCompiler.Proofs.ByteScanners

/-! Ends of arrow bodies. A body is told by its grammar: an expression of closed literals and closed
groups up to a comma, semicolon or bracket that is not its own, or a block. The scan finds its end,
so that a parameter is local in the body and free again behind it. -/
namespace TemplateCompiler.Expression

open Text

/-- What stands behind the opening quote of a closed string: characters, some of them behind a
backslash, and the closing quote. -/
inductive ClosedString (quote : Char) : List Char → Prop
  | close : ClosedString quote [quote]
  | escaped (c : Char) {s : List Char} (h : ClosedString quote s) :
      ClosedString quote ('\\' :: c :: s)
  | plain {c : Char} {s : List Char} (hquote : c ≠ quote) (hescape : c ≠ '\\')
      (h : ClosedString quote s) : ClosedString quote (c :: s)

private theorem ClosedString.quotedText {quote : Char} {t : List Char} (h : ClosedString quote t)
    (s : List Char) : QuotedText quote t s := by
  induction h with
  | close => exact .close s
  | escaped c _ ih => exact .escaped c ih
  | plain hquote hescape _ ih => exact .plain hescape hquote ih

private theorem ClosedString.rest_eq {quote : Char} {t : List Char} (h : ClosedString quote t)
    (hquote : isQuote quote = true) (s : List Char) : (closeQuote quote (t ++ s)).2 = s := by
  have hne : quote ≠ '\\' := by
    rintro rfl
    cases hquote
  rw [(h.quotedText s).closeQuote_eq hne]

/-- What stands behind the opening backtick of a closed template literal, and behind the opening
brace of a hole in it. In a hole the braces match, outside of strings and of further literals. -/
inductive ClosedTemplate : (inHole : Bool) → List Char → Prop
  | close : ClosedTemplate false ['\x60']
  | escaped (c : Char) {s : List Char} (h : ClosedTemplate false s) :
      ClosedTemplate false ('\\' :: c :: s)
  | plain {c : Char} {s : List Char} (hbacktick : c ≠ '\x60') (hescape : c ≠ '\\')
      (hhole : c = '$' → s.head? ≠ some '\x7b') (h : ClosedTemplate false s) :
      ClosedTemplate false (c :: s)
  | hole {code s : List Char} (hcode : ClosedTemplate true code) (h : ClosedTemplate false s) :
      ClosedTemplate false ('$' :: '\x7b' :: (code ++ s))
  | endHole : ClosedTemplate true ['\x7d']
  | code {c : Char} {s : List Char} (hquote : isQuote c = false) (hbacktick : c ≠ '\x60')
      (hopen : c ≠ '\x7b') (hclose : c ≠ '\x7d') (h : ClosedTemplate true s) :
      ClosedTemplate true (c :: s)
  | string {quote : Char} {t s : List Char} (hquote : isQuote quote = true)
      (ht : ClosedString quote t) (h : ClosedTemplate true s) :
      ClosedTemplate true (quote :: (t ++ s))
  | template {t s : List Char} (ht : ClosedTemplate false t) (h : ClosedTemplate true s) :
      ClosedTemplate true ('\x60' :: (t ++ s))
  | braces {t s : List Char} (ht : ClosedTemplate true t) (h : ClosedTemplate true s) :
      ClosedTemplate true ('\x7b' :: (t ++ s))

private theorem ClosedTemplate.ne_nil {inHole : Bool} {t : List Char}
    (h : ClosedTemplate inHole t) :
    t ≠ [] := by
  cases h <;> exact List.cons_ne_nil _ _

/-- The scan over template literals passes over a text: it closes the innermost literal, or a brace
of the hole in it. -/
def ScanPasses : (inHole : Bool) → List Char → Prop
  | false, t => ∀ outer s, afterTemplate (0 :: outer) (t ++ s) = afterTemplate outer s
  | true, t => ∀ depth outer s,
      afterTemplate ((depth + 1) :: outer) (t ++ s) = afterTemplate (depth :: outer) s

private theorem ClosedTemplate.scanPasses {inHole : Bool} {t : List Char}
    (h : ClosedTemplate inHole t) :
    ScanPasses inHole t := by
  induction h with
  | close =>
    intro outer s
    rw [List.singleton_append, afterTemplate, if_neg (by decide), if_pos (by decide)]
  | escaped c _ ih =>
    intro outer s
    rw [List.cons_append, afterTemplate, if_pos (by decide)]
    exact ih outer s
  | plain hbacktick hescape hhole h ih =>
    intro outer s
    rw [List.cons_append, afterTemplate, if_neg (by simpa using hescape),
      if_neg (by simpa using hbacktick), List.head?_append_of_ne_nil _ h.ne_nil,
      if_neg (by simpa using hhole)]
    exact ih outer s
  | hole _ _ ihcode ih =>
    intro outer s
    rw [List.cons_append, afterTemplate, if_neg (by decide), if_neg (by decide), if_pos (by rfl),
      List.cons_append, List.tail_cons, List.append_assoc, ihcode 0 outer, ih outer]
  | endHole =>
    intro depth outer s
    rw [List.singleton_append, afterTemplate, if_neg (by decide), if_neg (by decide),
      if_neg (by decide), if_pos (by decide)]
  | code hquote hbacktick hopen hclose _ ih =>
    intro depth outer s
    rw [List.cons_append, afterTemplate, if_neg (by simpa using hquote),
      if_neg (by simpa using hbacktick), if_neg (by simpa using hopen),
      if_neg (by simpa using hclose)]
    exact ih depth outer s
  | string hquote ht _ ih =>
    intro depth outer s
    rw [List.cons_append, afterTemplate, if_pos hquote, List.append_assoc, ht.rest_eq hquote]
    exact ih depth outer s
  | template _ _ iht ih =>
    intro depth outer s
    rw [List.cons_append, afterTemplate, if_neg (by decide), if_pos (by decide),
      List.append_assoc, iht]
    exact ih depth outer s
  | braces _ _ iht ih =>
    intro depth outer s
    rw [List.cons_append, afterTemplate, if_neg (by decide), if_neg (by decide),
      if_pos (by decide), List.append_assoc, iht (depth + 1)]
    exact ih depth outer s

/-- The brackets that belong together. -/
inductive Pair : Char → Char → Prop
  | round : Pair '(' ')'
  | square : Pair '[' ']'
  | curly : Pair '\x7b' '\x7d'

/-- A text of ordinary characters, closed strings, closed template literals and closed groups.
Commas and semicolons stand in groups only, unless the text itself is in one. -/
inductive Grouped : (inGroup : Bool) → List Char → Prop
  | nil {inGroup : Bool} : Grouped inGroup []
  | plain {inGroup : Bool} {c : Char} {s : List Char} (hquote : isQuote c = false)
      (hbacktick : c ≠ '\x60') (hopen : isOpening c = false) (hclose : isClosing c = false)
      (hseparator : inGroup = false → c ≠ ',' ∧ c ≠ ';') (h : Grouped inGroup s) :
      Grouped inGroup (c :: s)
  | string {inGroup : Bool} {quote : Char} {t s : List Char} (hquote : isQuote quote = true)
      (ht : ClosedString quote t) (h : Grouped inGroup s) : Grouped inGroup (quote :: (t ++ s))
  | template {inGroup : Bool} {t s : List Char} (ht : ClosedTemplate false t)
      (h : Grouped inGroup s) : Grouped inGroup ('\x60' :: (t ++ s))
  | group {inGroup : Bool} {left right : Char} {t s : List Char} (hpair : Pair left right)
      (ht : Grouped true t) (h : Grouped inGroup s) :
      Grouped inGroup (left :: (t ++ right :: s))

private theorem afterBodyFrom_cons (isBlock : Bool) (depth : Nat) (c : Char) (s : List Char) :
    afterBodyFrom isBlock depth (c :: s) =
      if isQuote c then afterBodyFrom isBlock depth (closeQuote c s).2
      else if c == '\x60' then afterBodyFrom isBlock depth (afterTemplate [0] s)
      else if isOpening c then afterBodyFrom isBlock (depth + 1) s
      else if isClosing c then
        if depth = 0 then c :: s
        else if isBlock && depth - 1 == 0 then s else afterBodyFrom isBlock (depth - 1) s
      else if depth == 0 && (c == ',' || c == ';') then c :: s
      else afterBodyFrom isBlock depth s := by
  rw [afterBodyFrom.eq_def]
  cases depth <;> rfl

private theorem afterBodyFrom_open {left right : Char} (h : Pair left right) (isBlock : Bool)
    (depth : Nat) (s : List Char) :
    afterBodyFrom isBlock depth (left :: s) = afterBodyFrom isBlock (depth + 1) s := by
  rw [afterBodyFrom_cons]
  cases h <;> rfl

private theorem afterBodyFrom_close {left right : Char} (h : Pair left right) (isBlock : Bool)
    (depth : Nat) (s : List Char) :
    afterBodyFrom isBlock (depth + 1) (right :: s) =
      if isBlock && depth == 0 then s else afterBodyFrom isBlock depth s := by
  rw [afterBodyFrom_cons]
  cases h <;> rfl

/-- The scan over a body passes over such a text. In a block, and in a group, it has to be inside
for that: what closes the outermost group ends a block, and a separator outside of all ends an
expression. -/
private theorem Grouped.afterBodyFrom_eq {inGroup isBlock : Bool} {t : List Char}
    (h : Grouped inGroup t)
    {depth : Nat} (hgroup : inGroup = true → depth ≠ 0) (hblock : isBlock = true → depth ≠ 0)
    (s : List Char) : afterBodyFrom isBlock depth (t ++ s) = afterBodyFrom isBlock depth s := by
  induction h generalizing depth s with
  | nil => rfl
  | @plain inGroup c _ hquote hbacktick hopen hclose hseparator _ ih =>
    have hgoesOn : (depth == 0 && (c == ',' || c == ';')) = false := by
      cases inGroup with
      | true => simp [hgroup rfl]
      | false => simp [hseparator rfl]
    rw [List.cons_append, afterBodyFrom_cons, if_neg (by simpa using hquote),
      if_neg (by simpa using hbacktick), if_neg (by simpa using hopen),
      if_neg (by simpa using hclose), if_neg (by simpa using hgoesOn), ih hgroup hblock]
  | string hquote ht _ ih =>
    rw [List.cons_append, afterBodyFrom_cons, if_pos hquote, List.append_assoc,
      ht.rest_eq hquote, ih hgroup hblock]
  | template ht _ ih =>
    have hpasses := ht.scanPasses []
    rw [List.cons_append, afterBodyFrom_cons, if_neg (by decide), if_pos (by decide),
      List.append_assoc, hpasses, afterTemplate, ih hgroup hblock]
  | group hpair _ _ iht ih =>
    have hstays : (isBlock && depth == 0) = false := by
      cases isBlock with
      | true => simp [hblock rfl]
      | false => rfl
    rw [List.cons_append, afterBodyFrom_open hpair, List.append_assoc,
      iht (fun _ => Nat.succ_ne_zero depth) (fun _ => Nat.succ_ne_zero depth), List.cons_append,
      afterBodyFrom_close hpair, if_neg (by simpa using hstays), ih hgroup hblock]

/-- Whether an expression that is a body ends before the character. -/
def endsExpression (c : Char) : Bool := c == ',' || c == ';' || isClosing c

/-- An arrow body, and what follows it: an expression that does not start with a brace, up to a
character that ends it, or blanks and a block, whatever follows. -/
inductive Body : List Char → List Char → Prop
  | expression {body rest : List Char} {c : Char} (h : Grouped false body)
      (hfirst : (body.dropWhile isAsciiBlank).head? ≠ some '\x7b') (hc : endsExpression c = true) :
      Body body (c :: rest)
  | block {blanks body rest : List Char} (hblanks : ∀ c ∈ blanks, isAsciiBlank c = true)
      (h : Grouped true body) : Body (blanks ++ '\x7b' :: (body ++ ['\x7d'])) rest

private theorem grouped_blanks {blanks : List Char} (h : ∀ c ∈ blanks, isAsciiBlank c = true) :
    Grouped false blanks := by
  induction blanks with
  | nil => exact .nil
  | cons c blanks ih =>
    rw [List.forall_mem_cons] at h
    have hordinary := all_asciiBlank (p := fun c => !isQuote c && c != '\x60' && !isOpening c &&
      !isClosing c && c != ',' && c != ';') (by decide) h.1
    simp only [Bool.and_eq_true, Bool.not_eq_true', bne_iff_ne] at hordinary
    obtain ⟨⟨⟨⟨⟨hquote, hbacktick⟩, hopen⟩, hclose⟩, hcomma⟩, hsemicolon⟩ := hordinary
    exact .plain hquote hbacktick hopen hclose (fun _ => ⟨hcomma, hsemicolon⟩) (ih h.2)

private theorem afterBodyFrom_dropWhile (s : List Char) :
    afterBodyFrom false 0 (s.dropWhile isAsciiBlank) = afterBodyFrom false 0 s := by
  have hblanks : Grouped false (s.takeWhile isAsciiBlank) :=
    grouped_blanks fun _ => List.mem_takeWhile_imp
  rw [← hblanks.afterBodyFrom_eq (by simp) (by simp), List.takeWhile_append_dropWhile]

private theorem endsExpression_cases {c : Char} (h : endsExpression c = true) :
    c = ',' ∨ c = ';' ∨ c = ')' ∨ c = ']' ∨ c = '\x7d' := by
  simpa [endsExpression, isClosing, or_assoc] using h

private theorem afterBodyFrom_ends {c : Char} (h : endsExpression c = true) (s : List Char) :
    afterBodyFrom false 0 (c :: s) = c :: s := by
  rw [afterBodyFrom_cons]
  rcases endsExpression_cases h with rfl | rfl | rfl | rfl | rfl <;> rfl

private theorem afterBody_expression {body rest : List Char} {c : Char} (h : Grouped false body)
    (hfirst : (body.dropWhile isAsciiBlank).head? ≠ some '\x7b') (hc : endsExpression c = true) :
    afterBody (body ++ c :: rest) = c :: rest := by
  have hblank : isAsciiBlank c = false := by
    rcases endsExpression_cases hc with rfl | rfl | rfl | rfl | rfl <;> rfl
  have hisBlock :
      (((body ++ c :: rest).dropWhile isAsciiBlank).head? == some '\x7b') = false := by
    rw [dropWhile_before hblank]
    cases hbody : body.dropWhile isAsciiBlank with
    | nil => rcases endsExpression_cases hc with rfl | rfl | rfl | rfl | rfl <;> rfl
    | cons d _ =>
      rw [hbody] at hfirst
      simpa using hfirst
  rw [afterBody, hisBlock, afterBodyFrom_dropWhile, h.afterBodyFrom_eq (by simp) (by simp),
    afterBodyFrom_ends hc]

private theorem afterBody_block {blanks body rest : List Char}
    (hblanks : ∀ c ∈ blanks, isAsciiBlank c = true) (h : Grouped true body) :
    afterBody (blanks ++ '\x7b' :: (body ++ ['\x7d']) ++ rest) = rest := by
  rw [afterBody, List.append_assoc, List.dropWhile_append_of_pos hblanks, List.cons_append,
    List.dropWhile_cons_of_neg (by decide), List.head?_cons, List.append_assoc,
    beq_self_eq_true, afterBodyFrom_open .curly, h.afterBodyFrom_eq (by simp) (by simp),
    List.singleton_append, afterBodyFrom_close .curly]
  rfl

private theorem Body.afterBody_eq {body rest : List Char} (h : Body body rest) :
    afterBody (body ++ rest) = rest := by
  cases h with
  | expression h hfirst hc => exact afterBody_expression h hfirst hc
  | block hblanks h => exact afterBody_block hblanks h

private theorem Body.arrowScopesFrom_eq {body rest head : List Char} (h : Body body rest)
    {params : List String}
    (hhead : arrowHead? (head ++ (body ++ rest)) = some (params, body ++ rest)) (place : Nat) :
    arrowScopesFrom place (head ++ (body ++ rest)) =
      ⟨params, place, place + (head ++ body).length⟩ ::
        arrowScopesFrom (place + head.length) (body ++ rest) := by
  have hbody : (head ++ (body ++ rest)).length - rest.length = (head ++ body).length := by
    rw [← List.append_assoc, List.length_append, Nat.add_sub_cancel]
  have hrest : (head ++ (body ++ rest)).length - (body ++ rest).length = head.length := by
    rw [List.length_append, Nat.add_sub_cancel]
  rw [arrowScopesFrom_some hhead, h.afterBody_eq, hbody, hrest]

/-- A name that a parameter declares is that parameter up to the end of the body, and behind it what
it is to the other arrow functions. -/
private theorem referenceImage_append_cons (options : LoweringOptions) (scope : Scope)
    {n : NameToken}
    {a : ArrowScope} (hname : n.text ∈ a.params) (hstart : a.start ≤ n.before.length)
    (earlier later : List ArrowScope) :
    n.referenceImage options scope (earlier ++ a :: later) =
      if n.before.length < a.stop then ⟨n.name, true, true, false⟩
      else n.referenceImage options scope (earlier ++ later) := by
  have hcovers : a.covers n.text n.before.length = decide (n.before.length < a.stop) := by
    simp [ArrowScope.covers, hstart, hname]
  rw [NameToken.referenceImage, List.any_append, List.any_cons, hcovers]
  by_cases hin : n.before.length < a.stop
  · rw [if_pos hin, decide_eq_true hin, Bool.true_or, Bool.or_true, if_pos rfl]
  · rw [if_neg hin, decide_eq_false hin, Bool.false_or, ← List.any_append]
    rfl

/-- A body ends where its grammar says, in bytes and in characters: an expression of closed literals
and closed groups where a comma, a semicolon or a bracket of a group around it cuts it off, and a
block with its closing brace. So a parameter of the arrow function is local from the head up to the
end of the body, and from there on it is what it is to all other arrow functions of the
expression. -/
theorem arrowBodyEnd_eq_of_body {body rest : List Char} (h : Body body rest) (front : List Char) :
    arrowBodyEnd (front ++ (body ++ rest)) (byteLength front) = byteLength (front ++ body) ∧
    afterBody (body ++ rest) = rest ∧
    ∀ (head : List Char) (params : List String) (earlier : List ArrowScope),
      arrowHead? (head ++ (body ++ rest)) = some (params, body ++ rest) →
      arrowScopes (front ++ (head ++ (body ++ rest))) =
        earlier ++ arrowScopesFrom front.length (head ++ (body ++ rest)) →
      ∀ (options : LoweringOptions) (scope : Scope) (n : NameToken),
        n.text ∈ params → front.length ≤ n.before.length →
        n.referenceImage options scope (arrowScopes (front ++ (head ++ (body ++ rest)))) =
          if n.before.length < (front ++ (head ++ body)).length then ⟨n.name, true, true, false⟩
          else n.referenceImage options scope
            (earlier ++ arrowScopesFrom (front ++ head).length (body ++ rest)) := by
  refine ⟨?_, h.afterBody_eq, ?_⟩
  · have hstands := standsAt_arrowBodyEnd (StandsAt.behind front (body ++ rest))
    rw [h.afterBody_eq] at hstands
    have hlength := hstands.offset_add
    rw [← List.append_assoc, byteLength_append] at hlength
    rw [← List.append_assoc]
    omega
  · intro head params earlier hhead hscopes options scope n hname hplace
    rw [hscopes, h.arrowScopesFrom_eq hhead, ← List.length_append, ← List.length_append]
    exact referenceImage_append_cons options scope (a := ⟨params, _, _⟩) hname hplace _ _

/-- A call with a template literal in whose hole a string holds a bracket. -/
def callText : List Char :=
  ['f', '(', 'x', ',', '\x60', '$', '\x7b', '\x27', ')', '\x27', '\x7d', '\x60', ')']

private theorem grouped_callText : Grouped false callText := by
  have hstring : ClosedString '\x27' [')', '\x27'] := .plain (by decide) (by decide) .close
  have hhole : ClosedTemplate true ['\x27', ')', '\x27', '\x7d'] :=
    .string (by decide) hstring .endHole
  have htemplate : Grouped true ['\x60', '$', '\x7b', '\x27', ')', '\x27', '\x7d', '\x60'] :=
    .template (.hole hhole .close) .nil
  have harguments :
      Grouped true ['x', ',', '\x60', '$', '\x7b', '\x27', ')', '\x27', '\x7d', '\x60'] :=
    .plain (by decide) (by decide) (by decide) (by decide) (by decide)
      (.plain (by decide) (by decide) (by decide) (by decide) (by decide) htemplate)
  exact .plain (by decide) (by decide) (by decide) (by decide) (by decide)
    (.group .round harguments .nil)

private theorem body_block (rest : List Char) : Body [' ', '\x7b', 'x', ';', '\x7d'] rest := by
  have hblanks : ∀ c ∈ [' '], isAsciiBlank c = true := List.all_eq_true.mp (by decide)
  have htext : Grouped true ['x', ';'] :=
    .plain (by decide) (by decide) (by decide) (by decide) (by decide)
      (.plain (by decide) (by decide) (by decide) (by decide) (by decide) .nil)
  exact .block hblanks htext

theorem arrowBodyEnd_callText :
    Body callText [',', 'x', ']'] ∧
    arrowBodyEnd (['[', 'x', '=', '>'] ++ (callText ++ [',', 'x', ']'])) 4 = 17 ∧
    arrowBodyEnd (['x', '=', '>'] ++ ([' ', '\x7b', 'x', ';', '\x7d'] ++ ['x'])) 3 = 8 ∧
    ∀ n : NameToken, n.text = "x" → 1 ≤ n.before.length →
      n.referenceImage {} {}
          (arrowScopes (['['] ++ (['x', '=', '>'] ++ (callText ++ [',', 'x', ']'])))) =
        if n.before.length < 17 then ⟨n.name, true, true, false⟩
        else n.referenceImage {} {} [] := by
  have hbody : Body callText [',', 'x', ']'] :=
    .expression grouped_callText (by decide) (by decide)
  have hhead : arrowHead? (['x', '=', '>'] ++ (callText ++ [',', 'x', ']'])) =
      some (["x"], callText ++ [',', 'x', ']']) := by decide
  have hfirst : arrowScopes (['['] ++ (['x', '=', '>'] ++ (callText ++ [',', 'x', ']']))) =
      [] ++ arrowScopesFrom 1 (['x', '=', '>'] ++ (callText ++ [',', 'x', ']'])) :=
    arrowScopesFrom_none (by decide)
  have hlater : arrowScopesFrom 4 (callText ++ [',', 'x', ']']) = [] :=
    arrowScopesFrom_nil (by decide) 4
  refine ⟨hbody, (arrowBodyEnd_eq_of_body hbody ['[', 'x', '=', '>']).1,
    (arrowBodyEnd_eq_of_body (body_block ['x']) ['x', '=', '>']).1, fun n hname hplace => ?_⟩
  rw [← hlater]
  exact (arrowBodyEnd_eq_of_body hbody ['[']).2.2 ['x', '=', '>'] ["x"] [] hhead hfirst {} {} n
    (by rw [hname]; exact List.mem_singleton_self "x") hplace

end TemplateCompiler.Expression

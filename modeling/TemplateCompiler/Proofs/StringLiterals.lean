import Mathlib.Tactic.SplitIfs
import TemplateCompiler.Options.Lexeme
import TemplateCompiler.Proofs.PrintedText

/-! String literals of the generated code. The reader of strings in option files gets the text of a
literal back, whatever stands behind the literal; so a literal has one text, and no text ends its
literal early. -/
namespace TemplateCompiler.Text.Quoted

open Options Print

/-- Reads the string at the start of a text: what it spells, and the rest of the text. -/
def read? (s : List Char) : Option (List Char × List Char) :=
  match Lexeme.first? s with
  | some (.text raw, rest) => (unescape? raw).map fun text => (text, rest)
  | _ => none

/-- The ways in which a literal spells a character. -/
inductive Spelling (c : Char) : List Char → Prop
  | plain (hquote : c ≠ '\x22') (hslash : c ≠ '\\') (hcontrol : ¬c.toNat < 0x20) : Spelling c [c]
  | short {k : Char} (hk : k ∈ ['\x22', '\\', 'n', 'r', 't', 'b', 'f']) (hc : shortEscape k = c) :
      Spelling c ['\\', k]
  | hex (hc : c.toNat < 0x20) :
      Spelling c ['\\', 'u', '0', '0', hexDigit (c.toNat / 16), hexDigit c.toNat]

variable {c : Char} {text : List Char}

private theorem spelling_escape (c : Char) : Spelling c (escape c) := by
  simp only [escape, beq_iff_eq]
  split_ifs with hquote hslash hn hr ht hb hf hcontrol
  · exact .short (by decide) hquote.symm
  · exact .short (by decide) hslash.symm
  · exact .short (by decide) hn.symm
  · exact .short (by decide) hr.symm
  · exact .short (by decide) ht.symm
  · exact .short (by decide) hb.symm
  · exact .short (by decide) hf.symm
  · exact .hex hcontrol
  · exact .plain hquote hslash hcontrol

private theorem hexQuad_hexDigit : ∀ n < 0x20, hexQuad '0' '0' (hexDigit (n / 16))
    (hexDigit n) = n := by
  decide

private theorem isHex_hexDigit (n : Nat) : isHex (hexDigit n) = true := by
  have hdigit : ∀ k < 16, isHex (Nat.digitChar k) = true := by decide
  exact hdigit _ (Nat.mod_lt n (by decide))

private theorem Spelling.closeString?_append (h : Spelling c text) (rest : List Char) :
    closeString? (text ++ rest) = (closeString? rest).map fun (raw, r) => (text ++ raw, r) := by
  cases h with
  | plain hquote hslash hcontrol =>
    rw [closeString?.eq_def]
    simp [hslash, hcontrol]
  | short hk hc =>
    simp only [List.mem_cons, List.not_mem_nil, or_false] at hk
    rcases hk with rfl | rfl | rfl | rfl | rfl | rfl | rfl <;> rfl
  | hex hc =>
    have hzero : isHex '0' = true := by decide
    simp [closeString?, isHex_hexDigit, hzero]

private theorem Spelling.unescape?_append (h : Spelling c text) (rest : List Char) :
    unescape? (text ++ rest) = (unescape? rest).map (c :: ·) := by
  cases h with
  | plain hquote hslash hcontrol =>
    rw [unescape?.eq_def]
    simp [hslash]
  | short hk hc =>
    simp only [List.mem_cons, List.not_mem_nil, or_false] at hk
    subst hc
    rcases hk with rfl | rfl | rfl | rfl | rfl | rfl | rfl <;> rfl
  | hex hc =>
    -- A control character is no half of a surrogate pair, so the escape stands for it alone.
    have hquad := hexQuad_hexDigit _ hc
    have hhigh : ¬(0xD800 ≤ c.toNat ∧ c.toNat < 0xDC00) := by omega
    have hlow : ¬(0xDC00 ≤ c.toNat ∧ c.toNat < 0xE000) := by omega
    rw [unescape?.eq_def]
    simp [hquad, hhigh, hlow]

private theorem closeString?_escaped (s rest : List Char) :
    closeString? (s.flatMap escape ++ '\x22' :: rest) = some (s.flatMap escape, rest) := by
  induction s with
  | nil => simp [closeString?]
  | cons c s ih =>
    rw [List.flatMap_cons, List.append_assoc, (spelling_escape c).closeString?_append, ih]
    rfl

private theorem unescape?_escaped (s : List Char) : unescape? (s.flatMap escape) = some s := by
  induction s with
  | nil => rfl
  | cons c s ih =>
    rw [List.flatMap_cons, (spelling_escape c).unescape?_append, ih]
    rfl

private theorem read?_encode (s rest : List Char) : read? (encode s ++ rest) = some (s, rest) := by
  have hquote (t : List Char) : Lexeme.first? ('\x22' :: t) =
      (closeString? t).map fun (raw, r) => (.text raw, r) := rfl
  have hfirst : Lexeme.first? (encode s ++ rest) = some (.text (s.flatMap escape), rest) := by
    rw [encode, List.cons_append, List.append_assoc, hquote]
    exact congrArg _ (closeString?_escaped s rest)
  simp only [read?, hfirst, unescape?_escaped, Option.map_some]

private theorem read?_literal (s : String) (rest : List Char) :
    read? ((literal s).toList ++ rest) = some (s.toList, rest) := by
  rw [literal, String.toList_ofList, read?_encode]

private theorem eq_of_literal_append {s t rest rest' : String}
    (h : literal s ++ rest = literal t ++ rest') : s = t ∧ rest = rest' := by
  have hlists : (literal s).toList ++ rest.toList = (literal t).toList ++ rest'.toList := by
    rw [← String.toList_append, ← String.toList_append, h]
  have hread := read?_literal s rest.toList
  rw [hlists, read?_literal] at hread
  simp only [Option.some.injEq, Prod.mk.injEq, String.toList_inj] at hread
  exact ⟨hread.1.symm, hread.2.symm⟩

/-- The printers that put a text of the template into a literal, each with the text. -/
inductive Quotes : PrintM Unit → String → Prop
  /-- Text between tags. -/
  | text (t : TextNode) : Quotes (Print.text t) t.content
  /-- A static expression, such as the value of an attribute. -/
  | fixed {s : Simple} (hs : s.isStatic = true) : Quotes (simple s) s.content
  /-- The tag of an element. -/
  | tag (name : String) : Quotes (Print.tag (.name name)) name
  /-- The tag of a component, in the statement that looks it up. -/
  | component (name : String) :
      Quotes (push (assetStatement name)) (Component.split name).1
  /-- A static key. -/
  | key {s : Simple} (hs : s.isStatic = true) : Quotes (propertyKey (.simple s)) s.content

private theorem assetStatement_quotes (name : String) : ∃ before after,
    assetStatement name = before ++ literal (Component.split name).1 ++ after := by
  refine ⟨"const " ++ Component.holder (Component.split name).1 ++ " = " ++
    Helper.resolveComponent.localName ++ "(",
    (if (Component.split name).2 then ", true" else "") ++ ")", ?_⟩
  simp only [assetStatement, String.append_assoc]

private theorem Quotes.emits {m : PrintM Unit} {s : String} (h : Quotes m s) :
    ∃ before after, ∀ w, Emits w m (before ++ literal s ++ after) := by
  have hliteral (t : String) (w : Writer) : Emits w (pushLiteral t) ("" ++ literal t ++ "") := by
    rw [String.empty_append, String.append_empty]
    rfl
  cases h with
  | text t => exact ⟨"", "", hliteral _⟩
  | fixed hs =>
    rw [simple, if_pos hs]
    exact ⟨"", "", hliteral _⟩
  | tag => exact ⟨"", "", hliteral _⟩
  | component name =>
    obtain ⟨before, after, h⟩ := assetStatement_quotes name
    rw [h]
    exact ⟨before, after, fun w => rfl⟩
  | key hs =>
    rw [propertyKey, if_pos hs]
    exact ⟨"", "", hliteral _⟩

/-- A literal is read back to its text and no further, whatever stands behind it. So different texts
have different literals, none of which another one starts with, and where a text of the template is
printed, its literal ends where the printer ends it. -/
theorem literal_self_delimiting (s : String) :
    (∀ rest, read? ((literal s).toList ++ rest) = some (s.toList, rest)) ∧
    (∀ t, literal t = literal s → t = s) ∧
    (∀ t rest rest', literal s ++ rest = literal t ++ rest' → s = t ∧ rest = rest') ∧
    ∀ m, Quotes m s → ∃ before after, (∀ w, Emits w m (before ++ literal s ++ after)) ∧
      ∀ rest, read? ((literal s ++ after ++ rest).toList) =
        some (s.toList, (after ++ rest).toList) := by
  refine ⟨read?_literal s, fun t h => ?_, fun t rest rest' => eq_of_literal_append, fun m hm => ?_⟩
  · exact (eq_of_literal_append (congrArg (· ++ "") h)).1
  · obtain ⟨before, after, hemits⟩ := hm.emits
    refine ⟨before, after, hemits, fun rest => ?_⟩
    rw [String.append_assoc, String.toList_append, read?_literal]

/-- A text that tries to end its literal, with a backslash, control characters and characters beyond
ASCII. -/
def endingText : TextNode := { content := "\\\x22) + run(\x01\n日👋", span := .stub }

theorem endingText_self_delimiting :
    literal endingText.content = "\x22\\\\\\\x22) + run(\\u0001\\n日👋\x22" ∧
    ∃ before after,
      (∀ w, Emits w (Print.text endingText) (before ++ literal endingText.content ++ after)) ∧
      ∀ rest, read? ((literal endingText.content ++ after ++ rest).toList) =
        some (endingText.content.toList, (after ++ rest).toList) :=
  ⟨by decide, (literal_self_delimiting endingText.content).2.2.2 _ (.text endingText)⟩

end TemplateCompiler.Text.Quoted

import Mathlib.Data.List.Induction
import TemplateCompiler.Proofs.HeaderGrammar

/-! Where the parts of a header stand in the template. Offsets count bytes, columns count characters
and lines count line feeds; each part has the place where the grammar puts it. -/
namespace TemplateCompiler

namespace Position

/-- Walking over the text leads from `p` to `q`: the offset goes on by the bytes of the text and the
line by its line feeds, and the column counts from the last of them. -/
structure Walk (p : Position) (text : List Char) (q : Position) : Prop where
  offset_eq : q.offset = p.offset + (String.ofList text).utf8ByteSize
  line_eq : q.line = p.line + text.count '\n'
  column_eq : q.column = if '\n' ∈ text then (text.reverse.takeWhile (· != '\n')).length + 1
    else p.column + text.length

variable {p q : Position} {text : List Char}

private theorem utf8ByteSize_concat (text : List Char) (c : Char) :
    (String.ofList (text ++ [c])).utf8ByteSize =
      (String.ofList text).utf8ByteSize + c.utf8Size := by
  rw [String.ofList_append, String.utf8ByteSize_append, ← String.singleton_eq_ofList,
    String.utf8ByteSize_singleton]

private theorem Walk.step (h : p.Walk text q) (c : Char) : p.Walk (text ++ [c]) (q.step c) := by
  have hoffset : (q.step c).offset = q.offset + c.utf8Size := by
    rw [Position.step]
    split <;> rfl
  by_cases hc : c = '\n'
  · subst hc
    refine ⟨?_, ?_, ?_⟩
    · rw [hoffset, h.offset_eq, utf8ByteSize_concat, Nat.add_assoc]
    · rw [List.count_append, ← Nat.add_assoc, ← h.line_eq]
      rfl
    · simp [Position.step]
  · have hstep : q.step c = ⟨q.offset + c.utf8Size, q.line, q.column + 1⟩ :=
      if_neg (by simpa using hc)
    refine ⟨?_, ?_, ?_⟩
    · rw [hoffset, h.offset_eq, utf8ByteSize_concat, Nat.add_assoc]
    · rw [hstep, h.line_eq, List.count_append]
      simp [hc]
    · rw [hstep, h.column_eq]
      by_cases htext : '\n' ∈ text
      · simp [htext, hc]
      · simp [htext, Ne.symm hc, Nat.add_assoc]

private theorem walk_advance (p : Position) (text : List Char) : p.Walk text (p.advance text) := by
  induction text using List.reverseRecOn with
  | nil => exact ⟨rfl, rfl, rfl⟩
  | append_singleton text c ih =>
    rw [advance, List.foldl_append]
    exact ih.step c

end Position

/-- The part stands in the expression behind the text `before`: its span starts where a walk over
that text leads to and ends where one over the part as well leads to, and the bytes between the two
offsets are those of the part. -/
structure Simple.StandsBehind (part exp : Simple) (before : List Char) : Prop where
  isPrefix : before ++ part.content.toList <+: exp.content.toList
  text_eq : part.span.text = part.content
  start_walk : exp.span.start.Walk before part.span.start
  stop_walk : exp.span.start.Walk (before ++ part.content.toList) part.span.stop
  bytes_eq : exp.content.toByteArray.extract (part.span.start.offset - exp.span.start.offset)
    (part.span.stop.offset - exp.span.start.offset) = part.content.toByteArray

namespace Lowering

variable {exp : Simple} {parts : HeaderParts}

private theorem extract_bytes {content text : String} {before after : List Char}
    (h : content.toList = before ++ (text.toList ++ after)) :
    content.toByteArray.extract (String.ofList before).utf8ByteSize
      (String.ofList (before ++ text.toList)).utf8ByteSize = text.toByteArray := by
  have hcontent : content = String.ofList before ++ (text ++ String.ofList after) := by
    rw [← String.ofList_toList (s := content), h, String.ofList_append, String.ofList_append,
      String.ofList_toList]
  rw [hcontent, String.ofList_append, String.ofList_toList, String.utf8ByteSize_append,
    String.toByteArray_append, String.toByteArray_append, ← String.size_toByteArray,
    ← String.size_toByteArray]
  calc _ = (text.toByteArray ++ (String.ofList after).toByteArray).extract 0
          text.toByteArray.size := ByteArray.extract_append_size_add
    _ = text.toByteArray := ByteArray.extract_append_eq_left rfl

private theorem Piece.standsBehind {p : Piece} {after : List Char}
    (hspan : exp.span.text = exp.content)
    (hp : exp.content.toList = p.before ++ (p.text ++ after)) (hne : p.text ≠ []) :
    (p.toSimple exp).StandsBehind exp p.before := by
  have hstub : exp.span.isStub = false := by
    have hcontent : exp.content ≠ "" := by
      intro h
      rw [h] at hp
      exact hne (List.append_eq_nil_iff.mp (List.append_eq_nil_iff.mp hp.symm).2).1
    simp [Span.isStub, hspan, hcontent]
  have hplace : p.spanIn exp = ⟨exp.span.start.advance p.before,
      exp.span.start.advance (p.before ++ p.text), String.ofList p.text⟩ := by
    rw [Piece.spanIn, hstub, hspan]
    simp [Position.advance]
  have htext : (p.toSimple exp).content.toList = p.text := String.toList_ofList
  have hstart : (p.toSimple exp).span.start = exp.span.start.advance p.before :=
    congrArg Span.start hplace
  have hstop : (p.toSimple exp).span.stop = exp.span.start.advance (p.before ++ p.text) :=
    congrArg Span.stop hplace
  have hwalk := exp.span.start.walk_advance p.before
  have hwalk' := exp.span.start.walk_advance (p.before ++ p.text)
  refine ⟨?_, ?_, ?_, ?_, ?_⟩
  · rw [htext, hp, ← List.append_assoc]
    exact List.prefix_append _ _
  · exact congrArg Span.text hplace
  · rw [hstart]
    exact hwalk
  · rw [hstop, htext]
    exact hwalk'
  · rw [hstart, hstop, hwalk.offset_eq, hwalk'.offset_eq, Nat.add_sub_cancel_left,
      Nat.add_sub_cancel_left, ← htext]
    exact extract_bytes (htext ▸ hp)

namespace Header

private theorem pieces_stand (h : Header) :
    (∃ after, h.text = h.pieces.value.before ++ (h.pieces.value.text ++ after)) ∧
    (∀ k ∈ h.pieces.key, ∃ after, h.text = k.before ++ (k.text ++ after)) ∧
    ∃ after, h.text = h.pieces.source.before ++ (h.pieces.source.text ++ after) := by
  refine ⟨⟨h.value.trail ++ (PaddedName.textBehindComma h.key ++ (h.closing ++ h.rest)), ?_⟩, ?_,
    ⟨h.trailing, h.text_eq⟩⟩
  · simp [Division.text, h.left_eq, pieces, PaddedName.text]
  · intro k hk
    obtain ⟨key, hkey, rfl⟩ := Option.map_eq_some_iff.mp hk
    refine ⟨key.trail ++ (h.closing ++ h.rest), ?_⟩
    simp [Division.text, h.left_eq, hkey, PaddedName.text, PaddedName.textBehindComma]

end Header

/-- Where the span of a header holds its text, each part has the span of the place where it stands:
the value behind an opening bracket, the key behind the value and a comma, and the source behind the
separator. Such a span is no stub, since a header is not empty. -/
theorem header_parts_placed (hspan : exp.span.text = exp.content)
    (hparse : parseHeader exp = .ok parts) :
    ∃ h : Header, h.text = exp.content.toList ∧ h.IsFirst ∧
      (parts.value.content = String.ofList h.value.name ∧
        parts.value.StandsBehind exp (h.opening ++ h.value.lead)) ∧
      ((parts.key.map Simple.content = h.key.map fun k => String.ofList k.name) ∧
        ∀ k ∈ h.key, ∀ key ∈ parts.key,
          key.StandsBehind exp (h.opening ++ (h.value.text ++ ',' :: k.lead))) ∧
      parts.source.content = String.ofList h.source ∧
        parts.source.StandsBehind exp h.beforeSource := by
  obtain ⟨h, htext, hfirst, rfl⟩ := parseHeader_ok_iff.mp hparse
  obtain ⟨⟨afterValue, hvalue⟩, hkey, ⟨afterSource, hsource⟩⟩ := h.pieces_stand
  rw [htext] at hvalue hsource
  refine ⟨h, htext, hfirst, ⟨rfl, ?_⟩, ⟨h.content_key exp, ?_⟩, rfl, ?_⟩
  · exact Piece.standsBehind hspan hvalue h.value.name_ne
  · intro k hk key hmem
    obtain ⟨p, hp, rfl⟩ := Option.map_eq_some_iff.mp hmem
    obtain ⟨after, hafter⟩ := hkey p hp
    rw [htext] at hafter
    rw [Header.pieces, Option.mem_def.mp hk] at hp
    cases hp
    exact Piece.standsBehind hspan hafter k.name_ne
  · exact Piece.standsBehind hspan hsource h.source_ne

/-- A header with a line feed and a name beyond ASCII. -/
def wideNames : Simple :=
  .code "(é,\n k) of ab" ⟨⟨10, 2, 5⟩, ⟨24, 3, 10⟩, "(é,\n k) of ab"⟩

/-- What it is read as. -/
def wideParts : HeaderParts :=
  { value := .code "é" ⟨⟨11, 2, 6⟩, ⟨13, 2, 7⟩, "é"⟩
    key := some (.code "k" ⟨⟨16, 3, 2⟩, ⟨17, 3, 3⟩, "k"⟩)
    source := .code "ab" ⟨⟨22, 3, 8⟩, ⟨24, 3, 10⟩, "ab"⟩ }

theorem wideNames_placed : parseHeader wideNames = .ok wideParts ∧
    ∃ h : Header, h.text = wideNames.content.toList ∧ h.IsFirst ∧
      wideParts.value.StandsBehind wideNames (h.opening ++ h.value.lead) ∧
      wideParts.source.StandsBehind wideNames h.beforeSource := by
  have hparse : parseHeader wideNames = .ok wideParts := by decide +kernel
  obtain ⟨h, htext, hfirst, ⟨-, hvalue⟩, -, -, hsource⟩ := header_parts_placed rfl hparse
  exact ⟨hparse, h, htext, hfirst, hvalue, hsource⟩

end Lowering

end TemplateCompiler

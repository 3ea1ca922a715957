import Mathlib.Tactic.Common
import TemplateCompiler.Text.Blank

/-! Byte offsets of a text. A text is read at an offset byte by byte or cut there; cutting needs an
offset between two characters. Offsets and the texts that stand at them are tied by `StandsAt`. -/
namespace TemplateCompiler.Text

/-- The bytes of a text in UTF-8. -/
def bytes (text : List Char) : List UInt8 := text.flatMap String.utf8EncodeChar

def byteLength (text : List Char) : Nat := (bytes text).length

/-- The byte at an offset, as the character with its number: the byte of an ASCII character is that
character again, and the bytes of all others are characters beyond ASCII. -/
def byteAt (text : List Char) (i : Nat) : Option Char := (bytes text)[i]?.map Char.ofUInt8

/-- A text stands at an offset of a larger one, up to its end. -/
def StandsAt (text : List Char) (i : Nat) (s : List Char) : Prop :=
  ∃ before, text = before ++ s ∧ byteLength before = i

/-- The offset is between two characters, or at an end of the text. -/
def IsBoundary (text : List Char) (i : Nat) : Prop := ∃ s, StandsAt text i s

@[simp]
theorem byteLength_nil : byteLength [] = 0 := rfl

@[simp]
theorem byteLength_cons (c : Char) (s : List Char) :
    byteLength (c :: s) = c.utf8Size + byteLength s := by
  rw [byteLength, bytes, List.flatMap_cons, List.length_append, String.length_utf8EncodeChar]
  rfl

@[simp]
theorem byteLength_append (s t : List Char) :
    byteLength (s ++ t) = byteLength s + byteLength t := by
  rw [byteLength, bytes, List.flatMap_append, List.length_append]
  rfl

theorem lt_of_byteAt {text : List Char} {i : Nat} {b : Char} (h : byteAt text i = some b) :
    i < byteLength text := by
  obtain ⟨_, hbyte, -⟩ := Option.map_eq_some_iff.mp h
  exact (List.getElem?_eq_some_iff.mp hbyte).1

private theorem byteAt_eq_none {text : List Char} {i : Nat} (h : byteLength text ≤ i) :
    byteAt text i = none := by
  rw [byteAt, List.getElem?_eq_none h, Option.map_none]

/-- The case split that scanners by byte offset make; its two equations give theirs. -/
def byByte {α : Type} (text : List Char) (i : Nat) (atEnd : α)
    (atByte : ∀ b, byteAt text i = some b → α) : α :=
  match h : byteAt text i with
  | none => atEnd
  | some b => atByte b h

section
variable {α : Type} {text : List Char} {i : Nat}

theorem byByte_none (h : byteAt text i = none) (atEnd : α)
    (atByte : ∀ b, byteAt text i = some b → α) : byByte text i atEnd atByte = atEnd := by
  rw [byByte]
  split
  · rfl
  · rename_i h'
    rw [h] at h'
    cases h'

theorem byByte_some {b : Char} (h : byteAt text i = some b) (atEnd : α)
    (atByte : ∀ b, byteAt text i = some b → α) : byByte text i atEnd atByte = atByte b h := by
  rw [byByte]
  split
  · rename_i h'
    rw [h] at h'
    cases h'
  · rename_i b' h'
    obtain rfl := Option.some.inj (h.symm.trans h')
    rfl

end

namespace StandsAt

variable {text s t : List Char} {i : Nat} {c : Char}

theorem whole (text : List Char) : StandsAt text 0 text := ⟨[], rfl, rfl⟩

theorem behind (before s : List Char) : StandsAt (before ++ s) (byteLength before) s :=
  ⟨before, rfl, rfl⟩

private theorem isBoundary (h : StandsAt text i s) : IsBoundary text i := ⟨s, h⟩

theorem append (h : StandsAt text i (s ++ t)) : StandsAt text (i + byteLength s) t := by
  obtain ⟨before, rfl, rfl⟩ := h
  exact ⟨before ++ s, by rw [List.append_assoc], by rw [byteLength_append]⟩

theorem tail (h : StandsAt text i (c :: s)) : StandsAt text (i + c.utf8Size) s := by
  have := append (s := [c]) h
  rwa [byteLength_cons, byteLength_nil, Nat.add_zero] at this

theorem tail_ascii (h : StandsAt text i (c :: s)) (hc : c.utf8Size = 1) :
    StandsAt text (i + 1) s := hc ▸ h.tail

theorem offset_add (h : StandsAt text i s) : i + byteLength s = byteLength text := by
  obtain ⟨before, rfl, rfl⟩ := h
  rw [byteLength_append]

theorem le_byteLength (h : StandsAt text i s) : i ≤ byteLength text := by
  have := h.offset_add
  omega

theorem byteLength_eq {before : List Char} (h : StandsAt text i s) (htext : text = before ++ s) :
    byteLength before = i := by
  have hi := h.offset_add
  rw [htext, byteLength_append] at hi
  omega

/-- A text stands at one offset only. -/
theorem offset_eq {j : Nat} (hi : StandsAt text i s) (hj : StandsAt text j s) : i = j := by
  have hi := hi.offset_add
  have hj := hj.offset_add
  omega

/-- What stands before an offset, from the nearest character to the farthest. -/
theorem exists_before (h : StandsAt text i s) :
    ∃ before : List Char, text = before.reverse ++ s ∧ byteLength before.reverse = i := by
  obtain ⟨front, htext, hi⟩ := h
  exact ⟨front.reverse, by rwa [List.reverse_reverse], by rwa [List.reverse_reverse]⟩

theorem length_le (h : StandsAt text i s) : s.length ≤ text.length := by
  obtain ⟨before, rfl, -⟩ := h
  rw [List.length_append]
  omega

theorem of_suffix (h : StandsAt text i s) (ht : t <:+ s) :
    StandsAt text (i + (byteLength s - byteLength t)) t := by
  obtain ⟨u, rfl⟩ := ht
  rw [byteLength_append, Nat.add_sub_cancel]
  exact h.append

/-- The shorter of two ends of a text stands further on. -/
theorem offset_le {j : Nat} (hs : StandsAt text i s) (ht : StandsAt text j t) (h : t <:+ s) :
    i ≤ j := by
  obtain ⟨u, rfl⟩ := h
  have hi := hs.offset_add
  have hj := ht.offset_add
  rw [byteLength_append] at hi
  omega

end StandsAt

/-- In a text of ASCII characters every offset is a boundary. -/
theorem isBoundary_of_ascii {text : List Char} (h : ∀ c ∈ text, c.utf8Size = 1) {i : Nat}
    (hi : i ≤ byteLength text) : IsBoundary text i := by
  induction text generalizing i with
  | nil =>
    obtain rfl := Nat.le_zero.mp hi
    exact ⟨[], .whole []⟩
  | cons c text ih =>
    rw [List.forall_mem_cons] at h
    rw [byteLength_cons, h.1] at hi
    cases i with
    | zero => exact ⟨c :: text, .whole _⟩
    | succ i =>
      obtain ⟨s, before, rfl, hbefore⟩ := ih h.2 (i := i) (by omega)
      exact ⟨s, c :: before, rfl, by rw [byteLength_cons, h.1, hbefore, Nat.add_comm]⟩

theorem standsAt_end (text : List Char) : StandsAt text (byteLength text) [] :=
  ⟨text, by rw [List.append_nil], rfl⟩

private theorem eq_nil_of_byteLength_le {s : List Char} (h : byteLength s ≤ 0) : s = [] := by
  cases s with
  | nil => rfl
  | cons c s =>
    have := c.utf8Size_pos
    rw [byteLength_cons] at h
    omega

private theorem StandsAt.split {text s t : List Char} {i j : Nat} (hs : StandsAt text i s)
    (ht : StandsAt text j t) (hij : i ≤ j) : ∃ u, s = u ++ t ∧ i + byteLength u = j := by
  obtain ⟨before, rfl, rfl⟩ := hs
  obtain ⟨before', heq, rfl⟩ := ht
  rcases List.append_eq_append_iff.mp heq with ⟨u, rfl, rfl⟩ | ⟨u, rfl, rfl⟩
  · exact ⟨u, rfl, (byteLength_append _ _).symm⟩
  · rw [byteLength_append] at hij
    obtain rfl := eq_nil_of_byteLength_le (s := u) (by omega)
    exact ⟨[], rfl, by simp⟩

/-- Inside of a character there is no boundary. -/
theorem StandsAt.not_isBoundary {text s : List Char} {c : Char} {i j : Nat}
    (h : StandsAt text i (c :: s)) (hij : i < j) (hj : j < i + c.utf8Size) :
    ¬IsBoundary text j := by
  rintro ⟨t, ht⟩
  obtain ⟨u, hu, hlength⟩ := h.split ht (Nat.le_of_lt hij)
  cases u with
  | nil =>
    rw [byteLength_nil] at hlength
    omega
  | cons d u =>
    cases hu
    rw [byteLength_cons] at hlength
    omega

private theorem utf8Size_ofUInt8 {b : UInt8} (hb : 128 ≤ b.toNat) :
    (Char.ofUInt8 b).utf8Size ≠ 1 := by
  rw [Ne, Char.utf8Size_eq_one_iff, UInt32.le_iff_toNat_le]
  have hval : (Char.ofUInt8 b).val.toNat = b.toNat := UInt8.toNat_toUInt32 b
  have h127 : (127 : UInt32).toNat = 127 := rfl
  omega

private theorem le_of_mem_utf8EncodeChar {c : Char} (hc : c.utf8Size ≠ 1) {b : UInt8}
    (hb : b ∈ String.utf8EncodeChar c) : 128 ≤ b.toNat := by
  have h127 : ¬c.val.toNat ≤ 127 := by
    intro hle
    exact hc (Char.utf8Size_eq_one_iff.mpr (UInt32.le_iff_toNat_le.mpr hle))
  simp only [String.utf8EncodeChar, if_neg h127] at hb
  split at hb
  · simp only [List.mem_cons, List.not_mem_nil, or_false] at hb
    rcases hb with rfl | rfl <;> simp only [UInt8.toNat_ofNat'] <;> omega
  · split at hb
    · simp only [List.mem_cons, List.not_mem_nil, or_false] at hb
      rcases hb with rfl | rfl | rfl <;> simp only [UInt8.toNat_ofNat'] <;> omega
    · simp only [List.mem_cons, List.not_mem_nil, or_false] at hb
      rcases hb with rfl | rfl | rfl | rfl <;> simp only [UInt8.toNat_ofNat'] <;> omega

namespace StandsAt

variable {text s : List Char} {i : Nat} {c : Char}

theorem byteAt_end (h : StandsAt text i []) : byteAt text i = none := by
  have hi := h.offset_add
  rw [byteLength_nil, Nat.add_zero] at hi
  exact byteAt_eq_none (Nat.le_of_eq hi.symm)

private theorem byteAt_add (h : StandsAt text i (c :: s)) {k : Nat} (hk : k < c.utf8Size) :
    byteAt text (i + k) = (String.utf8EncodeChar c)[k]?.map Char.ofUInt8 := by
  obtain ⟨before, rfl, rfl⟩ := h
  rw [byteAt, bytes, List.flatMap_append, List.flatMap_cons, byteLength, bytes,
    List.getElem?_append_right (Nat.le_add_right _ _), Nat.add_sub_cancel_left,
    List.getElem?_append_left (by rwa [String.length_utf8EncodeChar])]

theorem byteAt_ascii (h : StandsAt text i (c :: s)) (hc : c.utf8Size = 1) :
    byteAt text i = some c := by
  have hbyte := h.byteAt_add (k := 0) (by omega)
  rw [Nat.add_zero, String.utf8EncodeChar_eq_singleton hc] at hbyte
  rw [hbyte, List.getElem?_cons_zero, Option.map_some, Option.some.injEq]
  rw [Char.utf8Size_eq_one_iff, UInt32.le_iff_toNat_le] at hc
  have h127 : (127 : UInt32).toNat = 127 := rfl
  apply Char.ext
  apply UInt32.toNat_inj.mp
  change c.val.toUInt8.toUInt32.toNat = c.val.toNat
  rw [UInt8.toNat_toUInt32, UInt32.toNat_toUInt8]
  omega

private theorem byteAt_wide (h : StandsAt text i (c :: s)) (hc : c.utf8Size ≠ 1) {k : Nat}
    (hk : k < c.utf8Size) : ∃ b, byteAt text (i + k) = some b ∧ b.utf8Size ≠ 1 := by
  have hlength : k < (String.utf8EncodeChar c).length := by rwa [String.length_utf8EncodeChar]
  refine ⟨_, by rw [h.byteAt_add hk, List.getElem?_eq_getElem hlength, Option.map_some], ?_⟩
  exact utf8Size_ofUInt8 (le_of_mem_utf8EncodeChar hc (List.getElem_mem hlength))

theorem exists_byteAt (h : StandsAt text i (c :: s)) : ∃ b, byteAt text i = some b := by
  by_cases hc : c.utf8Size = 1
  · exact ⟨c, h.byteAt_ascii hc⟩
  · obtain ⟨b, hb, -⟩ := h.byteAt_wide hc c.utf8Size_pos
    exact ⟨b, hb⟩

end StandsAt

private theorem byteAt_cons_add (c : Char) (s : List Char) (k : Nat) :
    byteAt (c :: s) (c.utf8Size + k) = byteAt s k := by
  rw [byteAt, byteAt, bytes, List.flatMap_cons, ← String.length_utf8EncodeChar c,
    List.getElem?_append_right (Nat.le_add_right _ _), Nat.add_sub_cancel_left]
  rfl

/-- An ASCII byte is a character. -/
theorem standsAt_of_byteAt {text : List Char} {i : Nat} {b : Char} (h : byteAt text i = some b)
    (hb : b.utf8Size = 1) : ∃ rest, StandsAt text i (b :: rest) := by
  induction text generalizing i with
  | nil => cases h
  | cons c s ih =>
    by_cases hi : i < c.utf8Size
    · by_cases hc : c.utf8Size = 1
      · obtain rfl : i = 0 := by omega
        rw [(StandsAt.whole (c :: s)).byteAt_ascii hc] at h
        cases h
        exact ⟨s, .whole _⟩
      · obtain ⟨b', hbyte, hwide⟩ := (StandsAt.whole (c :: s)).byteAt_wide hc hi
        rw [Nat.zero_add, h] at hbyte
        cases hbyte
        exact absurd hb hwide
    · obtain ⟨k, rfl⟩ := Nat.exists_eq_add_of_le (Nat.le_of_not_lt hi)
      rw [byteAt_cons_add] at h
      obtain ⟨rest, before, rfl, rfl⟩ := ih h
      exact ⟨rest, c :: before, rfl, byteLength_cons c before⟩

/-- The test holds of ASCII characters only, so it can be made on bytes as well as on characters. -/
def AsciiOnly (p : Char → Bool) : Prop := ∀ c, p c = true → c.utf8Size = 1

theorem AsciiOnly.or {p q : Char → Bool} (hp : AsciiOnly p) (hq : AsciiOnly q) :
    AsciiOnly fun c => p c || q c :=
  fun c hc => (Bool.or_eq_true_iff.mp hc).elim (hp c) (hq c)

theorem asciiOnly_beq {d : Char} (hd : d.utf8Size = 1) : AsciiOnly (· == d) :=
  fun _ hc => (beq_iff_eq.mp hc) ▸ hd

theorem beq_some_eq_any (o : Option Char) (d : Char) : (o == some d) = o.any (· == d) := by
  cases o <;> rfl

theorem AsciiOnly.eq_false {p : Char → Bool} (hp : AsciiOnly p) {c : Char} (hc : c.utf8Size ≠ 1) :
    p c = false :=
  Bool.eq_false_iff.mpr fun h => hc (hp c h)

namespace StandsAt

variable {text s : List Char} {i : Nat} {c d : Char} {p : Char → Bool}

/-- What a test says of the byte at an offset, it says of the character that starts there. -/
theorem any_byteAt (h : StandsAt text i s) (hp : AsciiOnly p) :
    (byteAt text i).any p = s.head?.any p := by
  cases s with
  | nil => rw [h.byteAt_end, List.head?_nil]
  | cons c s =>
    rw [List.head?_cons, Option.any_some]
    by_cases hc : c.utf8Size = 1
    · rw [h.byteAt_ascii hc, Option.any_some]
    · obtain ⟨b, hb, hwide⟩ := h.byteAt_wide hc c.utf8Size_pos
      rw [Nat.add_zero] at hb
      rw [hb, Option.any_some, hp.eq_false hc, hp.eq_false hwide]

/-- What a test says of the last byte of a character, it says of the character. -/
theorem any_lastByte (h : StandsAt text i (c :: s)) (hp : AsciiOnly p) :
    (byteAt text (i + (c.utf8Size - 1))).any p = p c := by
  by_cases hc : c.utf8Size = 1
  · rw [hc, Nat.sub_self, Nat.add_zero, h.byteAt_ascii hc, Option.any_some]
  · have := c.utf8Size_pos
    obtain ⟨b, hb, hwide⟩ := h.byteAt_wide hc (k := c.utf8Size - 1) (by omega)
    rw [hb, Option.any_some, hp.eq_false hc, hp.eq_false hwide]

theorem beq_byteAt (h : StandsAt text i s) (hd : d.utf8Size = 1) :
    (byteAt text i == some d) = (s.head? == some d) := by
  rw [beq_some_eq_any, beq_some_eq_any, h.any_byteAt (asciiOnly_beq hd)]

/-- A test that only accepts ASCII says the same of a character and of its first byte. -/
theorem test_byteAt {b : Char} (h : StandsAt text i (c :: s)) (hb : byteAt text i = some b)
    (hp : AsciiOnly p) : p b = p c := by
  have hany := h.any_byteAt hp
  rwa [hb, Option.any_some, List.head?_cons, Option.any_some] at hany

theorem eq_of_byteAt {b : Char} (h : StandsAt text i (c :: s)) (hc : c.utf8Size = 1)
    (hb : byteAt text i = some b) : b = c := by
  rw [h.byteAt_ascii hc] at hb
  exact (Option.some.inj hb).symm

theorem head?_of_byteAt (h : StandsAt text i s) {b : Char} (hb : byteAt text i = some b)
    (hascii : b.utf8Size = 1) : s.head? = some b := by
  have := h.beq_byteAt hascii
  rw [hb, beq_self_eq_true] at this
  exact beq_iff_eq.mp this.symm

end StandsAt

/-- A scanner that goes on to the next byte at every byte beyond ASCII, and stops alike wherever it
has left the text. -/
structure Passes {α : Type} (text : List Char) (f : Nat → α) : Prop where
  step : ∀ i b, byteAt text i = some b → b.utf8Size ≠ 1 → f i = f (i + 1)
  stop : ∀ i j, byteAt text i = none → byteAt text j = none → f i = f j

section
variable {α : Type} {text s : List Char} {f : Nat → α} {i : Nat} {c : Char}

private theorem Passes.add (hf : Passes text f) (n : Nat)
    (h : ∀ k < n, ∃ b, byteAt text (i + k) = some b ∧ b.utf8Size ≠ 1) : f i = f (i + n) := by
  induction n with
  | zero => rfl
  | succ n ih =>
    obtain ⟨b, hb, hwide⟩ := h n (Nat.lt_succ_self n)
    rw [ih fun k hk => h k (Nat.lt_succ_of_lt hk), hf.step _ b hb hwide, Nat.add_assoc]

/-- A scanner passes over the bytes of a character beyond ASCII. -/
theorem Passes.wide (hf : Passes text f) (h : StandsAt text i (c :: s)) (hc : c.utf8Size ≠ 1) :
    f i = f (i + c.utf8Size) :=
  hf.add _ fun _ hk => h.byteAt_wide hc hk

/-- A step over one byte takes a scanner over one character, if there is one. -/
theorem Passes.succ (hf : Passes text f) (h : StandsAt text i s) :
    ∃ j, f (i + 1) = f j ∧ StandsAt text j s.tail := by
  cases s with
  | nil =>
    have hend := h.offset_add
    rw [byteLength_nil, Nat.add_zero] at hend
    exact ⟨i, hf.stop _ _ (byteAt_eq_none (by omega)) h.byteAt_end, h⟩
  | cons c s =>
    refine ⟨i + c.utf8Size, ?_, h.tail⟩
    by_cases hc : c.utf8Size = 1
    · rw [hc]
    · -- the step leads into the character, and its other bytes are passed over
      have hpos := c.utf8Size_pos
      rw [hf.add (i := i + 1) (c.utf8Size - 1) fun k hk => ?_]
      · congr 1
        omega
      · rw [Nat.add_assoc]
        exact h.byteAt_wide hc (by omega)

end

/-- Cuts a text at an offset, where the offset is a boundary. -/
def cut? : List Char → Nat → Option (List Char × List Char)
  | s, 0 => some ([], s)
  | [], _ + 1 => none
  | c :: s, n + 1 =>
    if c.utf8Size ≤ n + 1 then
      (cut? s (n + 1 - c.utf8Size)).map fun (before, after) => (c :: before, after)
    else none

private theorem cut?_append (before after : List Char) :
    cut? (before ++ after) (byteLength before) = some (before, after) := by
  induction before with
  | nil => cases after <;> rfl
  | cons c before ih =>
    have hpos := c.utf8Size_pos
    obtain ⟨n, hn⟩ : ∃ n, byteLength (c :: before) = n + 1 :=
      Nat.exists_eq_succ_of_ne_zero (by rw [byteLength_cons]; omega)
    rw [byteLength_cons] at hn
    rw [List.cons_append, byteLength_cons, hn, cut?, if_pos (by omega), ← hn,
      Nat.add_sub_cancel_left, ih]
    rfl

private theorem append_of_cut? {text before after : List Char} {n : Nat}
    (h : cut? text n = some (before, after)) : text = before ++ after ∧ byteLength before = n := by
  fun_induction cut? text n generalizing before with
  | case1 s =>
    cases h
    exact ⟨rfl, rfl⟩
  | case2 => cases h
  | case3 c s n hle ih =>
    obtain ⟨⟨u, v⟩, huv, hcons⟩ := Option.map_eq_some_iff.mp h
    cases hcons
    obtain ⟨rfl, hlength⟩ := ih huv
    exact ⟨rfl, by rw [byteLength_cons]; omega⟩
  | case4 => cases h

/-- A slice that cannot be taken. -/
structure BadSlice where
  start : Nat
  stop : Nat
  deriving DecidableEq, Repr

/-- The characters between two offsets. Both have to be boundaries, in order. -/
def slice (text : List Char) (start stop : Nat) : Except BadSlice (List Char) :=
  match (cut? text stop).bind fun p => cut? p.1 start with
  | some (_, piece) => .ok piece
  | none => .error ⟨start, stop⟩

theorem StandsAt.slice_eq {text piece rest : List Char} {i j : Nat}
    (h : StandsAt text i (piece ++ rest)) (hj : i + byteLength piece = j) :
    slice text i j = .ok piece := by
  obtain ⟨before, rfl, rfl⟩ := h
  rw [slice, ← hj, ← byteLength_append, ← List.append_assoc, cut?_append, Option.bind_some,
    cut?_append]

/-- Between two boundaries stands what the one has more before it than the other. -/
theorem StandsAt.slice_between {text piece rest : List Char} {i j : Nat}
    (h : StandsAt text i (piece ++ rest)) (hj : StandsAt text j rest) :
    slice text i j = .ok piece := by
  have hi := h.offset_add
  have hj := hj.offset_add
  rw [byteLength_append] at hi
  exact h.slice_eq (by omega)

theorem StandsAt.slice_to_end {text rest : List Char} {i : Nat} (h : StandsAt text i rest) :
    slice text i (byteLength text) = .ok rest := by
  rw [← List.append_nil rest] at h
  exact h.slice_between (standsAt_end text)

private theorem standsAt_of_slice {text piece : List Char} {start stop : Nat}
    (h : slice text start stop = .ok piece) :
    ∃ rest, StandsAt text start (piece ++ rest) ∧ start + byteLength piece = stop := by
  rw [slice] at h
  split at h
  · rename_i before piece' hcut
    cases h
    obtain ⟨⟨upTo, rest⟩, hstop, hstart⟩ := Option.bind_eq_some_iff.mp hcut
    obtain ⟨rfl, rfl⟩ := append_of_cut? hstop
    obtain ⟨rfl, rfl⟩ := append_of_cut? hstart
    exact ⟨rest, ⟨before, List.append_assoc _ _ _, rfl⟩, (byteLength_append _ _).symm⟩
  · cases h

theorem slice_eq_error {text : List Char} {start stop : Nat} (h : ¬IsBoundary text start) :
    slice text start stop = .error ⟨start, stop⟩ := by
  cases hslice : slice text start stop with
  | ok piece =>
    obtain ⟨rest, hstart, -⟩ := standsAt_of_slice hslice
    exact absurd hstart.isBoundary h
  | error e =>
    rw [slice] at hslice
    split at hslice
    · cases hslice
    · exact hslice.symm

/-- A slice that reaches to the end starts on a character. -/
theorem standsAt_of_slice_end {text piece : List Char} {start : Nat}
    (h : slice text start (byteLength text) = .ok piece) : StandsAt text start piece := by
  obtain ⟨rest, hstart, hstop⟩ := standsAt_of_slice h
  have hlength := hstart.offset_add
  rw [byteLength_append] at hlength
  obtain rfl := eq_nil_of_byteLength_le (s := rest) (by omega)
  rwa [List.append_nil] at hstart

end TemplateCompiler.Text

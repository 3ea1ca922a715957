import TemplateCompiler.Text.Blank
import TemplateCompiler.Text.Hex

/-! Patch flags: a 32-bit signed word of hints for the runtime's update step, with its comment
form in generated code and its readable text form. -/
namespace TemplateCompiler

/-- A word of patch flags. Bits without a name are kept. -/
structure PatchFlags where
  bits : BitVec 32
  deriving DecidableEq, Repr, Inhabited

namespace PatchFlags

def named : List (String × PatchFlags) :=
  [("TEXT", ⟨1⟩), ("CLASS", ⟨2⟩), ("STYLE", ⟨4⟩), ("PROPS", ⟨8⟩), ("FULL_PROPS", ⟨16⟩),
   ("NEED_HYDRATION", ⟨32⟩), ("STABLE_FRAGMENT", ⟨64⟩), ("KEYED_FRAGMENT", ⟨128⟩),
   ("UNKEYED_FRAGMENT", ⟨256⟩), ("NEED_PATCH", ⟨512⟩), ("DYNAMIC_SLOTS", ⟨1024⟩)]

/-- A fragment whose children never change their order. -/
def stableFragment : PatchFlags := ⟨64⟩

def keyedFragment : PatchFlags := ⟨128⟩

def unkeyedFragment : PatchFlags := ⟨256⟩

def toInt (f : PatchFlags) : Int := f.bits.toInt

/-- The word for a signed number; only its lowest 32 bits count. -/
def ofInt (n : Int) : PatchFlags := ⟨BitVec.ofInt 32 n⟩

/-- Whether every bit of `g` is set in `f`. -/
def includes (f g : PatchFlags) : Bool := f.bits &&& g.bits == g.bits

/-- The names of the flags that are set, from the lowest bit up. -/
def names (f : PatchFlags) : List String :=
  (named.filter fun entry => f.includes entry.2).map Prod.fst

/-- The number, followed by a comment with the names if there are any. -/
def hint (f : PatchFlags) : String :=
  match f.names with
  | [] => toString f.toInt
  | names => toString f.toInt ++ " /* " ++ ", ".intercalate names ++ " */"

def unnamed (f : PatchFlags) : BitVec 32 :=
  named.foldl (fun rest entry => rest &&& ~~~ entry.2.bits) f.bits

/-- The names joined by bars; bits without a name come last as one hexadecimal number. -/
def toText (f : PatchFlags) : String :=
  let rest := f.unnamed
  let tail := if rest == 0 then [] else ["0x" ++ String.ofList (Nat.toDigits 16 rest.toNat)]
  " | ".intercalate (f.names ++ tail)

/-- A hexadecimal number with an optional sign, refused if it does not fit a signed word. -/
def signedHex? (s : List Char) : Option PatchFlags :=
  let value : Option Int := match s with
    | '-' :: rest => (Text.hexNumber? rest).map fun n => -(n : Int)
    | '+' :: rest => (Text.hexNumber? rest).map fun n => (n : Int)
    | rest => (Text.hexNumber? rest).map fun n => (n : Int)
  value.bind fun n => if -2147483648 ≤ n ∧ n ≤ 2147483647 then some (ofInt n) else none

/-- One piece of the text form: a flag name, or `0x` and a number. -/
def ofPiece? (piece : List Char) : Option PatchFlags :=
  match piece with
  | '0' :: 'x' :: digits => signedHex? digits
  | _ => (named.find? fun entry => entry.1.toList == piece).map Prod.snd

/-- Reads the text form: pieces between bars, blanks around each ignored. A blank text is the
empty word; an empty piece is refused. -/
def ofText? (s : String) : Option PatchFlags :=
  if Text.isAllBlank s then some ⟨0⟩
  else
    (s.toList.splitOn '|').foldlM (fun (f : PatchFlags) piece =>
      (ofPiece? (Text.trim piece)).map fun g => ⟨f.bits ||| g.bits⟩) ⟨0⟩

end PatchFlags

end TemplateCompiler

import TemplateCompiler.Options
import TemplateCompiler.Options.Lexeme

/-! Reading options from an option file. A record is written as an object or as an array of its
fields in order; a field that is left out keeps its default. An object may hold unknown fields,
whose values only have to be well formed, and may not repeat a known one. -/
namespace TemplateCompiler.Options

/-- A container that is still open. -/
inductive Frame where
  | array
  | object
  deriving DecidableEq, Repr

/-- What may come next inside a value. -/
inductive Slot where
  | value
  | firstItem
  | key
  | firstKey
  | colon
  | after
  deriving DecidableEq, Repr

/-- One step over a lexeme: what may come next and the containers still open, or nothing if the
lexeme is misplaced. -/
def Slot.next? (slot : Slot) (frames : List Frame) (x : Lexeme) : Option (Slot × List Frame) :=
  match slot, x, frames with
  | .value, .openSquare, fs => some (.firstItem, .array :: fs)
  | .value, .openBrace, fs => some (.firstKey, .object :: fs)
  | .value, .null, fs => some (.after, fs)
  | .value, .bool _, fs => some (.after, fs)
  | .value, .number, fs => some (.after, fs)
  | .value, .text _, fs => some (.after, fs)
  | .firstItem, .closeSquare, .array :: fs => some (.after, fs)
  | .firstItem, .openSquare, fs => some (.firstItem, .array :: fs)
  | .firstItem, .openBrace, fs => some (.firstKey, .object :: fs)
  | .firstItem, .null, fs => some (.after, fs)
  | .firstItem, .bool _, fs => some (.after, fs)
  | .firstItem, .number, fs => some (.after, fs)
  | .firstItem, .text _, fs => some (.after, fs)
  | .firstKey, .closeBrace, .object :: fs => some (.after, fs)
  | .firstKey, .text _, fs => some (.colon, fs)
  | .key, .text _, fs => some (.colon, fs)
  | .colon, .colon, fs => some (.value, fs)
  | .after, .comma, .array :: fs => some (.value, .array :: fs)
  | .after, .comma, .object :: fs => some (.key, .object :: fs)
  | .after, .closeSquare, .array :: fs => some (.after, fs)
  | .after, .closeBrace, .object :: fs => some (.after, fs)
  | _, _, _ => none

/-- Splits the lexemes after the end of the value that is being read. -/
def splitValue? (slot : Slot) (frames : List Frame) :
    List Lexeme → Option (List Lexeme × List Lexeme)
  | [] => none
  | x :: rest =>
    match slot.next? frames x with
    | none => none
    | some (.after, []) => some ([x], rest)
    | some (slot', frames') =>
      (splitValue? slot' frames' rest).map fun (value, r) => (x :: value, r)

/-- The lexemes of one well-formed value. -/
abbrev Value := List Lexeme

def takeValue? (xs : List Lexeme) : Option (Value × List Lexeme) := splitValue? .value [] xs

private theorem length_lt_of_splitValue? {slot : Slot} {frames : List Frame}
    {xs value r : List Lexeme}
    (h : splitValue? slot frames xs = some (value, r)) : r.length < xs.length := by
  induction xs generalizing slot frames value r with
  | nil => simp [splitValue?] at h
  | cons x rest ih =>
    simp only [splitValue?] at h
    split at h
    · cases h
    · cases h
      simp
    · obtain ⟨⟨v, t⟩, ht, he⟩ := Option.map_eq_some_iff.1 h
      have := ih ht
      simp only [Prod.mk.injEq] at he
      simp only [List.length_cons, ← he.2]
      omega

/-- The values of an array, its opening bracket and any values before these already read. -/
def items? (xs : List Lexeme) : Option (List Value) :=
  match h : takeValue? xs with
  | none => none
  | some (v, .comma :: rest) =>
    have : rest.length < xs.length := by
      have := length_lt_of_splitValue? h
      simp only [List.length_cons] at this
      omega
    (items? rest).map (v :: ·)
  | some (v, [.closeSquare]) => some [v]
  | some _ => none
termination_by xs.length

/-- The members of an object, its opening brace and any members before these already read. -/
def members? (xs : List Lexeme) : Option (List (String × Value)) :=
  match xs with
  | .text raw :: .colon :: rest =>
    match unescape? raw, h : takeValue? rest with
    | some key, some (v, .comma :: rest') =>
      have : rest'.length < rest.length := by
        have := length_lt_of_splitValue? h
        simp only [List.length_cons] at this
        omega
      (members? rest').map ((String.ofList key, v) :: ·)
    | some key, some (v, [.closeBrace]) => some [(String.ofList key, v)]
    | _, _ => none
  | _ => none
termination_by xs.length
decreasing_by simp only [List.length_cons]; omega

/-- The fields of a record, matched with their names in order: from an array by place, from an
object by name. -/
def fields? (names : List String) (v : Value) : Option (List (Option Value)) :=
  match v with
  | [.openSquare, .closeSquare] => some (names.map fun _ => none)
  | .openSquare :: rest => do
    let values ← items? rest
    if values.length ≤ names.length then
      some (values.map some ++ List.replicate (names.length - values.length) none)
    else none
  | [.openBrace, .closeBrace] => some (names.map fun _ => none)
  | .openBrace :: rest => do
    let members ← members? rest
    names.mapM fun name =>
      match members.filter fun m => m.1 == name with
      | [] => some none
      | [m] => some (some m.2)
      | _ => none
  | _ => none

/-- Reads a field that is present, and leaves the default for one that is not. -/
def field? {α : Type} (read : Value → Option α) (default : α) : Option Value → Option α
  | none => some default
  | some v => read v

def readString? : Value → Option String
  | [.text raw] => (unescape? raw).map String.ofList
  | _ => none

def readBool? : Value → Option Bool
  | [.bool b] => some b
  | _ => none

/-- A value that may be null. -/
def readOptional? {α : Type} (read : Value → Option α) : Value → Option (Option α)
  | [.null] => some none
  | v => (read v).map some

/-- A kind of declaration, by its name or as an object from its name to null. -/
def readBindingKind? : Value → Option BindingKind
  | [.text raw] => (readString? [.text raw]).bind BindingKind.ofName?
  | [.openBrace, .text raw, .colon, .null, .closeBrace] =>
    (readString? [.text raw]).bind BindingKind.ofName?
  | _ => none

/-- A table of declarations; of repeated names the last counts. -/
def readTable? : Value → Option Bindings
  | [.openBrace, .closeBrace] => some {}
  | .openBrace :: rest => do
    let members ← members? rest
    members.foldlM (fun (b : Bindings) m => (readBindingKind? m.2).map (b.insert m.1)) {}
  | _ => none

def readBindings? (v : Value) : Option Bindings := do
  match ← fields? ["bindings"] v with
  | [table] => field? readTable? {} table
  | _ => none

def readLowering? (v : Value) : Option LoweringOptions := do
  let default : LoweringOptions := {}
  match ← fields?
      ["filename", "prefixIdentifiers", "inline", "bindingMetadata", "selfName"] v with
  | [filename, prefixIdentifiers, inline, bindings, selfName] =>
    return {
      filename := ← field? readString? default.filename filename
      prefixIdentifiers := ← field? readBool? default.prefixIdentifiers prefixIdentifiers
      inline := ← field? readBool? default.inline inline
      bindings := ← field? (readOptional? readBindings?) default.bindings bindings
      selfName := ← field? (readOptional? readString?) default.selfName selfName }
  | _ => none

def readOutput? (v : Value) : Option OutputOptions := do
  let default : OutputOptions := {}
  match ← fields? ["__BROWSER__", "inline", "runtimeModuleName", "runtimeGlobalName"] v with
  | [browser, inline, runtimeModule, runtimeGlobal] =>
    return {
      browser := ← field? readBool? default.browser browser
      inline := ← field? readBool? default.inline inline
      runtimeModule := ← field? readString? default.runtimeModule runtimeModule
      runtimeGlobal := ← field? readString? default.runtimeGlobal runtimeGlobal }
  | _ => none

def readAll? (v : Value) : Option Options := do
  match ← fields? ["transform", "codegen"] v with
  | [lowering, output] =>
    return {
      lowering := ← field? readLowering? {} lowering
      output := ← field? readOutput? {} output }
  | _ => none

/-- Reads the options from the text of an option file. -/
def parse? (text : String) : Option Options := do
  let xs ← lexemes? text.toList
  match ← takeValue? xs with
  | (v, []) => readAll? v
  | _ => none

end TemplateCompiler.Options

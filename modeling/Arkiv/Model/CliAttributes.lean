import Mathlib
import Arkiv.Lib.Checked
import Arkiv.Lib.Text
import Arkiv.Model.Lexer

/-!
# Attributes on the command line

The `--attributes` argument: parts between commas outside quotes, each a name,
an optional type and a value. Texts are sliced at byte offsets, and a slice
outside a text or inside a character panics.

## Main definitions

- `BatchAttribute` — one attribute, before its name is encoded
- `splitCliAttributes` — the parts of the argument
- `parseCliAttribute`, `parseCliStringValue` — one part
- `parseCliAttributes` — the whole argument
-/

namespace Arkiv

/-- A key, or a reference to another operation of a batch file. -/
inductive EntityKeyRef where
  | literal (key : B256)
  | ref (index : ℕ)
deriving DecidableEq, Repr

inductive BatchAttributeValue where
  | string (string : List Char)
  | uint (uint : B256)
  | entityKey (entityKey : EntityKeyRef)
deriving DecidableEq, Repr

structure BatchAttribute where
  name : List Char
  value : BatchAttributeValue
deriving DecidableEq, Repr

/-- What is wrong with an argument. The parsers of numbers and keys give texts as causes. -/
inductive CliError where
  | invalidAttribute (number : ℕ) (raw : List Char) (e : CliError)
  | emptyBeforeComma (byte : ℕ)
  | unterminated (quote : Char)
  | emptyAfterFinalComma
  | missingSeparator
  | missingName
  | missingValue
  | missingType
  | missingNameBeforeType
  | unknownType (ty : List Char)
  | shorthand (e : CliError) (name value : List Char)
  | unsupportedEscape (c : Char)
  | unfinishedEscape
  | unescapedQuote
  | invalidUint (value : List Char) (cause : String)
  | invalidEntityKey (value : List Char) (cause : String)

def CliError.message : CliError → String
  | invalidAttribute number raw e =>
    "invalid attribute #" ++ toString number ++ " ('" ++ String.ofList raw ++ "'): " ++ e.message ++
      "\nexpected one of: name=value, name:string=value, name:uint=value, " ++
      "name:entityKey=0x<64 hex chars>\nstrings may be quoted with single or double quotes; " ++
      "use backslash to escape quotes, commas, or backslashes inside quoted strings"
  | emptyBeforeComma byte => "empty attribute before comma at byte " ++ toString byte
  | unterminated quote =>
    "unterminated " ++ String.singleton quote ++ "-quoted string in attributes"
  | emptyAfterFinalComma => "empty attribute after final comma"
  | missingSeparator => "missing '=' separator"
  | missingName => "missing attribute name before '='"
  | missingValue => "missing value after '='"
  | missingType => "missing type after ':'"
  | missingNameBeforeType => "missing attribute name before type"
  | unknownType ty =>
    "unknown attribute type '" ++ String.ofList ty ++ "'; expected string, uint, or entityKey"
  | shorthand e name value =>
    e.message ++ "; unquoted shorthand values are parsed as uints. Quote strings, e.g. " ++
      String.ofList name ++ "='" ++ String.ofList value ++ "', or use " ++ String.ofList name ++
      ":string=" ++ String.ofList value
  | unsupportedEscape c => "unsupported escape '\\" ++ String.singleton c ++ "' in string value"
  | unfinishedEscape => "string value ends with an unfinished escape"
  | unescapedQuote => "unescaped quote in string value"
  | invalidUint value cause => "invalid uint value '" ++ String.ofList value ++ "': " ++ cause
  | invalidEntityKey value cause => "invalid entityKey '" ++ String.ofList value ++ "': " ++ cause

/-- `str::parse` for `U256` and for `B256`. -/
class ParseWords where
  u256 : List Char → Except String B256
  b256 : List Char → Except String B256

abbrev Cli : Type → Type := Checked CliError

def singleQuote : Char := Char.ofNat 0x27

def doubleQuote : Char := Char.ofNat 0x22

def backslash : Char := Char.ofNat 0x5C

def trimmed (s : List Char) : List Char := Text.trim isWhitespace s

/-- The loop over the characters: `idx` is the offset of what is left, `start` that of the part. -/
def splitLoop (input : List Char) (start : ℕ) (quote : Option Char) (escaped : Bool)
    (parts : List (List Char)) (idx : ℕ) : List Char → Cli (List (List Char))
  | [] =>
    match quote with
    | some q => throw (.unterminated q)
    | none => do
      let part := trimmed (← Checked.ofOption (Text.sliceFrom start input))
      if part = [] then throw .emptyAfterFinalComma else return parts ++ [part]
  | ch :: rest =>
    let next := idx + ch.utf8Size
    if escaped then splitLoop input start quote false parts next rest
    else if quote.isSome && ch == backslash then splitLoop input start quote true parts next rest
    else if quote = some ch then splitLoop input start none false parts next rest
    else if quote.isNone && (ch == singleQuote || ch == doubleQuote) then
      splitLoop input start (some ch) false parts next rest
    else if quote.isNone && ch == ',' then do
      let part := trimmed (← Checked.ofOption (Text.slice start idx input))
      if part = [] then throw (.emptyBeforeComma idx)
      else splitLoop input next quote false (parts ++ [part]) next rest
    else splitLoop input start quote false parts next rest

def splitCliAttributes (input : List Char) : Cli (List (List Char)) :=
  splitLoop input 0 none false [] 0 input

/-- `starts_with` and `ends_with` one of the quotes. -/
def isQuoted (value : List Char) : Bool :=
  (value.head? == some singleQuote && value.getLast? == some singleQuote) ||
    (value.head? == some doubleQuote && value.getLast? == some doubleQuote)

def looksLikeEntityKey (value : List Char) : Bool :=
  match value with
  | '0' :: 'x' :: hex => Text.byteLen hex == 64 && hex.all fun c => (hexValue c).isSome
  | _ => false

/-- The character that an escaped one stands for. -/
def unescape (c : Char) : Option Char :=
  if c == backslash || c == singleQuote || c == doubleQuote || c == ',' then some c
  else if c == 'n' then some '\n'
  else if c == 'r' then some '\r'
  else if c == 't' then some '\t'
  else none

/-- The loop over the inside of a quoted value. -/
def unescapeLoop (escaped : Bool) (out : List Char) : List Char → Except CliError (List Char)
  | [] => if escaped then .error .unfinishedEscape else .ok out
  | ch :: rest =>
    if escaped then
      match unescape ch with
      | some c => unescapeLoop false (out ++ [c]) rest
      | none => .error (.unsupportedEscape ch)
    else if ch = backslash then unescapeLoop true out rest
    else unescapeLoop false (out ++ [ch]) rest

def parseCliStringValue (value : List Char) : Cli (List Char) :=
  if isQuoted value = false then pure value
  else do
    let quote := Char.ofNat ((utf8Bytes value).headD 0).toNat
    let inner ← Checked.ofOption (Text.slice 1 (Text.byteLen value - 1) value)
    let out ← Checked.ofExcept (unescapeLoop false [] inner)
    if quote ∈ out ∧ backslash ∉ inner then throw .unescapedQuote else return out

section Words

variable [ParseWords]

def parseCliUintValue (value : List Char) : Cli B256 :=
  match ParseWords.u256 value with
  | .ok n => pure n
  | .error e => throw (.invalidUint value e)

def parseCliEntityKeyValue (value : List Char) : Cli B256 :=
  match ParseWords.b256 value with
  | .ok key => pure key
  | .error e => throw (.invalidEntityKey value e)

/-- The name and the type of what stands in front of the first `=`. -/
def splitType (left : List Char) : Cli (List Char × Option (List Char)) :=
  match Text.rsplitOnce ':' left with
  | some (name, ty) =>
    let ty := trimmed ty
    if ty = [] then throw .missingType else return (trimmed name, some ty)
  | none => return (left, none)

def stringTypes : List (List Char) := [['s', 't', 'r', 'i', 'n', 'g'], ['s', 't', 'r']]

def uintTypes : List (List Char) := [['u', 'i', 'n', 't'], ['u', '2', '5', '6']]

def entityKeyTypes : List (List Char) :=
  [['e', 'n', 't', 'i', 't', 'y', 'K', 'e', 'y'], ['e', 'n', 't', 'i', 't', 'y', '-', 'k', 'e', 'y'],
    ['k', 'e', 'y']]

/-- The value by the type in front of it, or by its looks. -/
def parseTyped (name value : List Char) : Option (List Char) → Cli BatchAttributeValue
  | some ty =>
    if ty ∈ stringTypes then .string <$> parseCliStringValue value
    else if ty ∈ uintTypes then .uint <$> parseCliUintValue value
    else if ty ∈ entityKeyTypes then
      (fun key => .entityKey (.literal key)) <$> parseCliEntityKeyValue value
    else throw (.unknownType ty)
  | none =>
    if isQuoted value then .string <$> parseCliStringValue value
    else if looksLikeEntityKey value then
      (fun key => .entityKey (.literal key)) <$> parseCliEntityKeyValue value
    else
      .uint <$> Checked.mapError (fun e => .shorthand e name value) (parseCliUintValue value)

def parseCliAttribute (raw : List Char) : Cli BatchAttribute :=
  match Text.find '=' raw with
  | none => throw .missingSeparator
  | some eq => do
    let left := trimmed (← Checked.ofOption (Text.sliceTo eq raw))
    let value := trimmed (← Checked.ofOption (Text.sliceFrom (eq + 1) raw))
    if left = [] then throw .missingName
    if value = [] then throw .missingValue
    let (name, ty) ← splitType left
    if name = [] then throw .missingNameBeforeType
    let value ← parseTyped name value ty
    return ⟨name, value⟩

/-- The loop over the parts; `idx` of them came before. -/
def parseParts (idx : ℕ) : List (List Char) → Cli (List BatchAttribute)
  | [] => return []
  | raw :: parts => do
    let attr ← Checked.mapError (.invalidAttribute (idx + 1) (trimmed raw))
      (parseCliAttribute (trimmed raw))
    let attrs ← parseParts (idx + 1) parts
    return attr :: attrs

def parseCliAttributes (input : List Char) : Cli (List BatchAttribute) :=
  let input := trimmed input
  if input = [] then return []
  else do
    let parts ← splitCliAttributes input
    parseParts 0 parts

end Words

end Arkiv

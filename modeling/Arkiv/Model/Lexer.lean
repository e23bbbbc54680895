import Mathlib
import Arkiv.Model.Query

/-!
# The lexer of the query language

A query text is a list of Unicode scalar values. The lexer keeps the byte offset
of what is left of it; the tables of letters and numbers above ASCII are a
parameter.

## Main definitions

- `UnicodeTables` — the character classes of the standard library above ASCII
- `Token`, `LexError` — what the lexer returns
- `Lexer.nextToken` — one token, after whitespace
- `tokenize` — all tokens of a text
-/

namespace Arkiv

open ByteString

/-- The bytes of a text. -/
def utf8Bytes (s : List Char) : Bytes := s.flatMap String.utf8EncodeChar

/-- `char::is_whitespace`: the characters of the property `White_Space`. -/
def isWhitespace (c : Char) : Bool :=
  let n := c.toNat
  (9 ≤ n && n ≤ 13) || n == 0x20 || n == 0x85 || n == 0xA0 || n == 0x1680 ||
    (0x2000 ≤ n && n ≤ 0x200A) || n == 0x2028 || n == 0x2029 || n == 0x202F || n == 0x205F ||
    n == 0x3000

/-- The tables behind `char::is_alphabetic` and `char::is_numeric` above ASCII. No letter and no
    number is whitespace. -/
class UnicodeTables where
  alphabetic : Char → Bool
  numeric : Char → Bool
  not_whitespace : ∀ c, isWhitespace c → alphabetic c = false ∧ numeric c = false

section Classes

variable [UnicodeTables]

def isAlphabetic (c : Char) : Bool :=
  ('a' ≤ c && c ≤ 'z') || ('A' ≤ c && c ≤ 'Z') || ('\x7f' < c && UnicodeTables.alphabetic c)

def isAlphanumeric (c : Char) : Bool :=
  isAlphabetic c || c.isDigit || ('\x7f' < c && UnicodeTables.numeric c)

def isIdentStart (c : Char) : Bool := isAlphabetic c || c == '_'

def isIdentContinue (c : Char) : Bool := isAlphanumeric c || c == '_'

end Classes

inductive Token where
  | lParen
  | rParen
  | and
  | or
  | eq
  | neq
  | not
  | isIn
  | star
  | gt
  | gte
  | lt
  | lte
  | tilde
  | notTilde
  | dollarAll
  | dollarOwner
  | dollarCreator
  | dollarKey
  | dollarExpiration
  | dollarContentType
  | dollarCreatedAtBlock
  | entityKey (b : B256)
  | address (a : Address)
  | stringLit (s : List Char)
  | number (n : UInt64)
  | ident (s : List Char)
deriving DecidableEq, Repr

/-- The errors of the lexer, with the byte offsets that they report. -/
inductive LexError where
  | unexpectedChar (pos : ℕ) (c : Char)
  | expectedPair (start : ℕ) (first second : Char)
  | unterminatedString (start : ℕ)
  | unknownEscape (pos : ℕ) (c : Char)
  | trailingBackslash (pos : ℕ)
  | hexDecode (start : ℕ)
  | hexLength (start n : ℕ)
  | numberParse (start : ℕ)
  | unknownBuiltIn (start : ℕ) (name : List Char)
deriving DecidableEq, Repr

/-- Two digits a byte. -/
def hexPairs : List Char → Option Bytes
  | [] => some []
  | [_] => none
  | a :: b :: rest => do
    let hi ← hexValue a
    let lo ← hexValue b
    let bytes ← hexPairs rest
    some (UInt8.ofNat (hi * 16 + lo) :: bytes)

/-- `hex::decode`: an even number of bytes, with or without `0x`. -/
def hexDecode (s : List Char) : Option Bytes :=
  if (utf8Bytes s).length % 2 = 1 then none
  else
    match s with
    | '0' :: 'x' :: digits => hexPairs digits
    | _ => hexPairs s

/-- One more digit, unless it overflows. -/
def pushDigit (acc : ℕ) (c : Char) : Option ℕ :=
  if c.isDigit then
    let n := acc * 10 + (c.toNat - '0'.toNat)
    if n < 2 ^ 64 then some n else none
  else none

/-- `str::parse::<u64>` on a run of digits. -/
def u64FromDecimal (digits : List Char) : Option UInt64 :=
  if digits = [] then none else (digits.foldlM pushDigit 0).map UInt64.ofNat

/-- What is left of the text, and its byte offset. -/
structure Lexer where
  pos : ℕ
  rest : List Char
deriving DecidableEq, Repr

namespace Lexer

def new (src : List Char) : Lexer := ⟨0, src⟩

/-- `bump_char` where a character is known to be there; the end of the text stays. -/
def bumpChar (l : Lexer) : Lexer :=
  match l.rest with
  | [] => l
  | c :: cs => ⟨l.pos + c.utf8Size, cs⟩

/-- `while let Some(c) = peek_char() { if p(c) { bump } else { break } }`. -/
def skipWhile (p : Char → Bool) (pos : ℕ) : List Char → Lexer
  | [] => ⟨pos, []⟩
  | c :: cs => if p c then skipWhile p (pos + c.utf8Size) cs else ⟨pos, c :: cs⟩

/-- The characters of that loop, as the slice between its two offsets. -/
def scan (p : Char → Bool) (l : Lexer) : List Char × Lexer :=
  (l.rest.takeWhile p, skipWhile p l.pos l.rest)

def skipWhitespace (l : Lexer) : Lexer := skipWhile isWhitespace l.pos l.rest

/-- The second of two characters that only occur together. -/
def expectPair (l : Lexer) (first second : Char) (tok : Token) : Except LexError (Token × Lexer) :=
  let next := l.bumpChar
  if next.rest.head? = some second then .ok (tok, next.bumpChar)
  else .error (.expectedPair l.pos first second)

/-- `first` alone, or `both` where `second` follows. -/
def lexPrefix (l : Lexer) (second : Char) (first both : Token) : Token × Lexer :=
  let next := l.bumpChar
  if next.rest.head? = some second then (both, next.bumpChar) else (first, next)

/-- The character that an escape stands for. -/
def unescape : Char → Option Char
  | '"' => some '"'
  | '\\' => some '\\'
  | 'n' => some '\n'
  | 't' => some '\t'
  | 'r' => some '\r'
  | _ => none

/-- The loop of `lex_string` after the opening quote. -/
def lexStringBody (start : ℕ) (out : List Char) (pos : ℕ) :
    List Char → Except LexError (Token × Lexer)
  | [] => .error (.unterminatedString start)
  | c :: cs =>
    if c = '"' then .ok (.stringLit out, ⟨pos + c.utf8Size, cs⟩)
    else if c = '\\' then
      match cs with
      | [] => .error (.trailingBackslash (pos + c.utf8Size))
      | e :: cs =>
        match unescape e with
        | some u => lexStringBody start (out ++ [u]) (pos + c.utf8Size + e.utf8Size) cs
        | none => .error (.unknownEscape (pos + c.utf8Size + e.utf8Size - 1) e)
    else lexStringBody start (out ++ [c]) (pos + c.utf8Size) cs

def lexString (l : Lexer) : Except LexError (Token × Lexer) :=
  let next := l.bumpChar
  lexStringBody l.pos [] next.pos next.rest

def startsWithHexPrefix : List Char → Bool
  | '0' :: 'x' :: _ => true
  | '0' :: 'X' :: _ => true
  | _ => false

/-- The type of a hex literal is told from its length. -/
def lexHex (start : ℕ) (l : Lexer) : Except LexError (Token × Lexer) :=
  let (hex, next) := l.scan fun c => (hexValue c).isSome
  if hex.length = 40 then
    match hexDecode hex with
    | some bytes => .ok (.address (BitVec.ofNat 160 (ofBe bytes)), next)
    | none => .error (.hexDecode start)
  else if hex.length = 64 then
    match hexDecode hex with
    | some bytes => .ok (.entityKey (BitVec.ofNat 256 (ofBe bytes)), next)
    | none => .error (.hexDecode start)
  else .error (.hexLength start hex.length)

def lexNumberOrHex (l : Lexer) : Except LexError (Token × Lexer) :=
  if startsWithHexPrefix l.rest then lexHex l.pos ⟨l.pos + 2, l.rest.drop 2⟩
  else
    let (digits, next) := l.scan Char.isDigit
    match u64FromDecimal digits with
    | some n => .ok (.number n, next)
    | none => .error (.numberParse l.pos)

/-- The built-in names. -/
def builtInToken (name : List Char) : Option Token :=
  if name = "all".toList then some .dollarAll
  else if name = "owner".toList then some .dollarOwner
  else if name = "creator".toList then some .dollarCreator
  else if name = "key".toList then some .dollarKey
  else if name = "expiration".toList then some .dollarExpiration
  else if name = "contentType".toList then some .dollarContentType
  else if name = "createdAtBlock".toList then some .dollarCreatedAtBlock
  else none

/-- `str::eq_ignore_ascii_case`. -/
def eqIgnoreAsciiCase (s t : List Char) : Bool := s.map Char.toLower = t.map Char.toLower

/-- Reserved words in any case, and names. -/
def wordToken (s : List Char) : Token :=
  if eqIgnoreAsciiCase s "and".toList then .and
  else if eqIgnoreAsciiCase s "or".toList then .or
  else if eqIgnoreAsciiCase s "not".toList then .not
  else if eqIgnoreAsciiCase s "in".toList then .isIn
  else .ident s

variable [UnicodeTables]

def lexDollarIdent (l : Lexer) : Except LexError (Token × Lexer) :=
  let (name, next) := l.bumpChar.scan isIdentContinue
  match builtInToken name with
  | some tok => .ok (tok, next)
  | none => .error (.unknownBuiltIn l.pos name)

def lexIdentOrKeyword (l : Lexer) : Token × Lexer :=
  let (s, next) := l.scan isIdentContinue
  (wordToken s, next)

/-- The token that starts with the character in front. -/
def lexToken (l : Lexer) (c : Char) : Except LexError (Token × Lexer) :=
  if c = '(' then .ok (.lParen, l.bumpChar)
  else if c = ')' then .ok (.rParen, l.bumpChar)
  else if c = '*' then .ok (.star, l.bumpChar)
  else if c = '=' then .ok (.eq, l.bumpChar)
  else if c = '&' then l.expectPair '&' '&' .and
  else if c = '|' then l.expectPair '|' '|' .or
  else if c = '!' then
    if l.bumpChar.rest.head? = some '=' then .ok (.neq, l.bumpChar.bumpChar)
    else .ok (l.lexPrefix '~' .not .notTilde)
  else if c = '>' then .ok (l.lexPrefix '=' .gt .gte)
  else if c = '<' then .ok (l.lexPrefix '=' .lt .lte)
  else if c = '~' then .ok (.tilde, l.bumpChar)
  else if c = '"' then l.lexString
  else if c.isDigit then l.lexNumberOrHex
  else if c = '$' then l.lexDollarIdent
  else if isIdentStart c then .ok l.lexIdentOrKeyword
  else .error (.unexpectedChar l.pos c)

/-- The next token and what is left, or nothing at the end of the text. -/
def nextToken (l : Lexer) : Except LexError (Option (Token × Lexer)) :=
  let l := l.skipWhitespace
  match l.rest with
  | [] => .ok none
  | c :: _ => (l.lexToken c).map some

/-- The loop of `tokenize`. A token takes a character, so one round more than there are characters
    reaches the end of the text. -/
def tokens : ℕ → Lexer → Except LexError (List Token)
  | 0, _ => .ok []
  | rounds + 1, l => do
    match ← l.nextToken with
    | none => return []
    | some (tok, l) => return tok :: (← tokens rounds l)

end Lexer

def tokenize [UnicodeTables] (src : List Char) : Except LexError (List Token) :=
  Lexer.tokens (src.length + 1) (Lexer.new src)

end Arkiv

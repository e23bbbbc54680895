import Mathlib
import Arkiv.Model.Lexer

/-!
# The parser of the query language

A recursive-descent parser over the tokens. Literals are encoded for their key
while they are parsed, so the query that comes out holds posted values.

## Main definitions

- `Literal`, `encodeForKey` — a literal and its posted form under a key
- `ParseError` — the errors of the parser
- `parseTopLevel` — a whole list of tokens
- `parse` — a query text
-/

namespace Arkiv

open ByteString

/-- A literal token. -/
inductive Literal where
  | number (n : UInt64)
  | string (s : List Char)
  | address (a : Address)
  | entityKey (b : B256)
deriving DecidableEq, Repr

/-- The errors of the parser. `fuel` stands for a nesting deeper than the tokens allow. -/
inductive ParseError where
  | lex (e : LexError)
  | expected (token : Token) (got : Option Token)
  | afterAll (got : Token)
  | trailing (got : Token)
  | expectedOperator (got : Option Token)
  | rangeOnAddress
  | rangeOnEntityKey
  | globOn (b : BuiltIn)
  | globNotString
  | globWithoutStar (s : List Char)
  | globInnerStar (s : List Char)
  | expectedKey (got : Option Token)
  | emptyValueList
  | expectedLiteral (got : Option Token)
  | expectedAddressFor (b : BuiltIn) (got : Literal)
  | expectedEntityKey (got : Literal)
  | expectedNumberFor (b : BuiltIn) (got : Literal)
  | expectedString (got : Literal)
  | entityKeyPrefix (s : List Char)
  | entityKeyLength (n : ℕ) (s : List Char)
  | entityKeyHex (s : List Char)
  | fuel
deriving DecidableEq, Repr

/-- `strip_prefix("0x")`, or else `strip_prefix("0X")`. -/
def stripHexPrefix : List Char → Option (List Char)
  | '0' :: 'x' :: digits => some digits
  | '0' :: 'X' :: digits => some digits
  | _ => none

/-- A quoted entity key. -/
def decodeEntityKeyString (s : List Char) : Except ParseError Bytes :=
  match stripHexPrefix s with
  | none => .error (.entityKeyPrefix s)
  | some digits =>
    if (utf8Bytes digits).length ≠ 64 then
      .error (.entityKeyLength (utf8Bytes digits).length s)
    else
      match hexDecode digits with
      | some bytes => .ok bytes
      | none => .error (.entityKeyHex s)

/-- The posted form of a literal under a key. -/
def encodeForKey : AnnotKey → Literal → Except ParseError AnnotVal
  | .builtIn .owner, .address a => .ok (addressBytes a)
  | .builtIn .creator, .address a => .ok (addressBytes a)
  | .builtIn .owner, other => .error (.expectedAddressFor .owner other)
  | .builtIn .creator, other => .error (.expectedAddressFor .creator other)
  | .builtIn .key, .entityKey b => .ok (b256Bytes b)
  | .builtIn .key, .string s => decodeEntityKeyString s
  | .builtIn .key, other => .error (.expectedEntityKey other)
  | .builtIn .expiration, .number n => .ok (u64Bytes n)
  | .builtIn .createdAtBlock, .number n => .ok (u64Bytes n)
  | .builtIn .expiration, other => .error (.expectedNumberFor .expiration other)
  | .builtIn .createdAtBlock, other => .error (.expectedNumberFor .createdAtBlock other)
  | .builtIn .contentType, .string s => .ok (utf8Bytes s)
  | .builtIn .contentType, other => .error (.expectedString other)
  | .user _, .number n => .ok (List.replicate 24 0 ++ u64Bytes n)
  | .user _, .string s => .ok (utf8Bytes s)
  | .user _, .address a => .ok (addressBytes a)
  | .user _, .entityKey b => .ok (b256Bytes b)

/-- A parser returns its result and the tokens that are left. -/
abbrev Parser (α : Type) := List Token → Except ParseError (α × List Token)

/-- One token, which must be the expected one. -/
def expect (expected : Token) : List Token → Except ParseError (List Token)
  | [] => .error (.expected expected none)
  | t :: ts => if t = expected then .ok ts else .error (.expected expected (some t))

def parseAnnotKey : Parser AnnotKey
  | .dollarOwner :: ts => .ok (.builtIn .owner, ts)
  | .dollarCreator :: ts => .ok (.builtIn .creator, ts)
  | .dollarKey :: ts => .ok (.builtIn .key, ts)
  | .dollarExpiration :: ts => .ok (.builtIn .expiration, ts)
  | .dollarContentType :: ts => .ok (.builtIn .contentType, ts)
  | .dollarCreatedAtBlock :: ts => .ok (.builtIn .createdAtBlock, ts)
  | .ident s :: ts => .ok (.user (utf8Bytes s), ts)
  | t :: _ => .error (.expectedKey (some t))
  | [] => .error (.expectedKey none)

def literalOf : Token → Except ParseError Literal
  | .number n => .ok (.number n)
  | .stringLit s => .ok (.string s)
  | .address a => .ok (.address a)
  | .entityKey b => .ok (.entityKey b)
  | t => .error (.expectedLiteral (some t))

def parseLiteral : Parser Literal
  | [] => .error (.expectedLiteral none)
  | t :: ts => (literalOf t).map (·, ts)

/-- `parse_value` on the token in front. -/
def valueOf (key : AnnotKey) (t : Token) : Except ParseError AnnotVal := do
  encodeForKey key (← literalOf t)

def parseValue (key : AnnotKey) : Parser AnnotVal
  | [] => .error (.expectedLiteral none)
  | t :: ts => (valueOf key t).map (·, ts)

/-- The loop over the values, up to the closing parenthesis. -/
def parseValues (key : AnnotKey) (vals : List AnnotVal) : Parser (List AnnotVal)
  | [] => .error (.expectedLiteral none)
  | t :: ts =>
    if t = .rParen then .ok (vals, t :: ts)
    else do
      let v ← valueOf key t
      parseValues key (vals ++ [v]) ts

def parseValueList (key : AnnotKey) : Parser (List AnnotVal) := fun ts => do
  let ts ← expect .lParen ts
  let (vals, ts) ← parseValues key [] ts
  let ts ← expect .rParen ts
  if vals = [] then .error .emptyValueList else return (vals, ts)

/-- Addresses and entity keys have no order. -/
def rejectRangeOnRandomDistribution : List Token → Except ParseError Unit
  | .address _ :: _ => .error .rangeOnAddress
  | .entityKey _ :: _ => .error .rangeOnEntityKey
  | _ => .ok ()

/-- Only these keys have texts for values. -/
def globKey : AnnotKey → Except ParseError Unit
  | .builtIn .contentType => .ok ()
  | .user _ => .ok ()
  | .builtIn other => .error (.globOn other)

/-- The prefix of a pattern with one star, at its end. -/
def globPrefix (s : List Char) : Except ParseError AnnotVal :=
  if s.getLast? = some '*' then
    if '*' ∈ s.dropLast then .error (.globInnerStar s) else .ok (utf8Bytes s.dropLast)
  else .error (.globWithoutStar s)

def parseGlobPattern (key : AnnotKey) : Parser AnnotVal := fun ts => do
  globKey key
  match ← parseLiteral ts with
  | (.string s, ts) => return (← globPrefix s, ts)
  | _ => .error .globNotString

/-- `key op value` with the check of a range operator. -/
def parseRange (key : AnnotKey) : Parser AnnotVal := fun ts => do
  rejectRangeOnRandomDistribution ts
  parseValue key ts

def parsePredicate : Parser Query := fun ts => do
  let (key, ts) ← parseAnnotKey ts
  match ts with
  | .eq :: ts =>
    let (value, ts) ← parseValue key ts
    return (.eq key value, ts)
  | .neq :: ts =>
    let (value, ts) ← parseValue key ts
    return (.neq key value, ts)
  -- `not in`; a `not` in front of a predicate has been taken before.
  | .not :: ts =>
    let ts ← expect .isIn ts
    let (values, ts) ← parseValueList key ts
    return (.notIn key values, ts)
  | .isIn :: ts =>
    let (values, ts) ← parseValueList key ts
    return (.isIn key values, ts)
  | .gt :: ts =>
    let (value, ts) ← parseRange key ts
    return (.gt key value, ts)
  | .gte :: ts =>
    let (value, ts) ← parseRange key ts
    return (.gte key value, ts)
  | .lt :: ts =>
    let (value, ts) ← parseRange key ts
    return (.lt key value, ts)
  | .lte :: ts =>
    let (value, ts) ← parseRange key ts
    return (.lte key value, ts)
  | .tilde :: ts =>
    let (value, ts) ← parseGlobPattern key ts
    return (.glob key value, ts)
  | .notTilde :: ts =>
    let (value, ts) ← parseGlobPattern key ts
    return (.notGlob key value, ts)
  | t :: _ => .error (.expectedOperator (some t))
  | [] => .error (.expectedOperator none)

/-- `while peek() == separator { advance(); rhs = operand()?; q = combine(q, rhs) }`. Every round
    takes the separator, so there are no more rounds than tokens. -/
def chainLoop (separator : Token) (combine : Query → Query → Query) (operand : Parser Query) :
    ℕ → Query → Parser Query
  | 0, q, ts => .ok (q, ts)
  | rounds + 1, q, ts =>
    if ts.head? = some separator then do
      let (rhs, ts) ← operand ts.tail
      chainLoop separator combine operand rounds (combine q rhs) ts
    else .ok (q, ts)

/-- Operands with separators between them, combined from the left. -/
def chain (separator : Token) (combine : Query → Query → Query) (operand : Parser Query) :
    Parser Query := fun ts => do
  let (q, ts) ← operand ts
  chainLoop separator combine operand ts.length q ts

/-- `parse_term`, with the parser of what is in parentheses. -/
def parseTerm (inner : Parser Query) : Parser Query
  | .not :: ts => do
    let ts ← expect .lParen ts
    let (q, ts) ← inner ts
    let ts ← expect .rParen ts
    return (.not q, ts)
  | .lParen :: ts => do
    let (q, ts) ← inner ts
    let ts ← expect .rParen ts
    return (q, ts)
  | ts => parsePredicate ts

def parseAnd (inner : Parser Query) : Parser Query := chain .and .and (parseTerm inner)

/-- `parse_or`, to a depth of parentheses. -/
def parseOr : ℕ → Parser Query
  | 0 => fun _ => .error .fuel
  | depth + 1 => chain .or .or (parseAnd (parseOr depth))

/-- Each open parenthesis is a token, so the number of tokens bounds the depth. -/
def parseTopLevel (ts : List Token) : Except ParseError Query :=
  if ts.head? = some .star ∨ ts.head? = some .dollarAll then
    match ts.tail with
    | [] => .ok .all
    | t :: _ => .error (.afterAll t)
  else
    match parseOr (ts.length + 1) ts with
    | .ok (q, []) => .ok q
    | .ok (_, t :: _) => .error (.trailing t)
    | .error e => .error e

def parse [UnicodeTables] (input : List Char) : Except ParseError Query :=
  match tokenize input with
  | .ok ts => parseTopLevel ts
  | .error e => .error (.lex e)

end Arkiv

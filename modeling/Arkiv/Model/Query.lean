import Mathlib
import Arkiv.Model.EntityDb

/-!
# Queries

The query language after parsing, its evaluation to a bitmap of entity IDs by
point reads and tree scans, and the pages that the RPC layer serves.

## Main definitions

- `Query`, `AnnotKey`, `AnnotVal` — the parsed query
- `Query.eval` — the bitmap of the matching IDs
- `Query.execute` — one page of resolved entities, newest first
- `runQuery`, `parseCursor`, `cursorText` — the request and its cursor on the wire
-/

namespace Arkiv

open ByteString

/-- The built-in annotations that a query may name. -/
inductive BuiltIn where
  | owner
  | creator
  | key
  | expiration
  | contentType
  | createdAtBlock
deriving DecidableEq, Repr

def BuiltIn.pairKey : BuiltIn → Bytes
  | owner => annotOwner
  | creator => annotCreator
  | key => annotKey
  | expiration => annotExpiration
  | contentType => annotContentType
  | createdAtBlock => annotCreatedAtBlock

/-- A key of a query; user keys are the bytes of their text. -/
inductive AnnotKey where
  | builtIn (b : BuiltIn)
  | user (name : Bytes)
deriving DecidableEq, Repr

def AnnotKey.pairKeyBytes : AnnotKey → Bytes
  | builtIn b => b.pairKey
  | user name => name

/-- A value in the form in which it is posted. -/
abbrev AnnotVal := Bytes

inductive Query where
  | all
  | eq (key : AnnotKey) (value : AnnotVal)
  | neq (key : AnnotKey) (value : AnnotVal)
  | isIn (key : AnnotKey) (values : List AnnotVal)
  | notIn (key : AnnotKey) (values : List AnnotVal)
  | gt (key : AnnotKey) (value : AnnotVal)
  | gte (key : AnnotKey) (value : AnnotVal)
  | lt (key : AnnotKey) (value : AnnotVal)
  | lte (key : AnnotKey) (value : AnnotVal)
  | glob (key : AnnotKey) (value : AnnotVal)
  | notGlob (key : AnnotKey) (value : AnnotVal)
  | and (left right : Query)
  | or (left right : Query)
  | not (inner : Query)
deriving DecidableEq, Repr

namespace IndexTree

/-- The collected keys that satisfy a predicate. -/
def filtered (t : IndexTree) (pred : Bytes → Bool) : Option (List Bytes) :=
  t.keys.map fun keys => keys.filter pred

def iterGt (t : IndexTree) (lo : Bytes) : Option (List Bytes) := t.filtered fun k => lo < k

def iterGte (t : IndexTree) (lo : Bytes) : Option (List Bytes) := t.filtered fun k => lo ≤ k

def iterLt (t : IndexTree) (hi : Bytes) : Option (List Bytes) := t.filtered fun k => k < hi

def iterLte (t : IndexTree) (hi : Bytes) : Option (List Bytes) := t.filtered fun k => k ≤ hi

def iterPrefix (t : IndexTree) (pfx : Bytes) : Option (List Bytes) := t.filtered (pfx.isPrefixOf ·)

end IndexTree

section Evaluation

variable [Keccak] [RoaringFormat]

/-- The bitmap of the built-in `$all`. -/
def allEntities (w : World) : Except DbError Bitmap := readPairBitmap w annotAll []

def readEq (w : World) (key : AnnotKey) (value : AnnotVal) : Except DbError Bitmap :=
  readPairBitmap w key.pairKeyBytes value

/-- The union of the bitmaps of several values under one key. -/
def unionOfPairs (w : World) (attrKey : Bytes) (values : List Bytes) : Except DbError Bitmap :=
  values.foldlM (fun acc v => do return acc.unionWith (← readPairBitmap w attrKey v)) Bitmap.new

def readIn (w : World) (key : AnnotKey) (values : List AnnotVal) : Except DbError Bitmap :=
  unionOfPairs w key.pairKeyBytes values

/-- The union of the bitmaps of the values that an iterator of the key's tree yields. -/
def readScan (w : World) (key : AnnotKey) (iter : IndexTree → Option (List Bytes)) :
    Except DbError Bitmap := do
  let tree ← readIndexTree w key.pairKeyBytes
  let values ← orPanic (iter tree)
  unionOfPairs w key.pairKeyBytes values

/-- What is left of all entities without those of a bitmap read after them. -/
def complementOf (w : World) (hit : Except DbError Bitmap) : Except DbError Bitmap := do
  let all ← allEntities w
  let hit ← hit
  return all.subtract hit

namespace Query

/-- The right side of a conjunction is not read when the left side is empty. -/
def eval (w : World) : Query → Except DbError Bitmap
  | all => allEntities w
  | eq key value => readEq w key value
  | neq key value => complementOf w (readEq w key value)
  | isIn key values => readIn w key values
  | notIn key values => complementOf w (readIn w key values)
  | and left right => do
    let l ← left.eval w
    if l.isEmpty then return l
    else return l.intersectWith (← right.eval w)
  | or left right => do
    let l ← left.eval w
    return l.unionWith (← right.eval w)
  | not inner => complementOf w (inner.eval w)
  | gt key value => readScan w key (·.iterGt value)
  | gte key value => readScan w key (·.iterGte value)
  | lt key value => readScan w key (·.iterLt value)
  | lte key value => readScan w key (·.iterLte value)
  | glob key value => readScan w key (·.iterPrefix value)
  | notGlob key value => complementOf w (readScan w key (·.iterPrefix value))

def evaluate (q : Query) (w : World) : Except DbError Bitmap := q.eval w

end Query

/-- `cursor` bounds the IDs of the page from above. -/
structure PageParams where
  pageSize : UInt64
  cursor : Option UInt64
deriving DecidableEq, Repr

/-- One page, newest first; each entry keeps the ID that it was resolved from. -/
structure Page where
  hits : List (UInt64 × EntityRlp)
  nextCursor : Option UInt64
deriving DecidableEq, Repr

def Page.entries (p : Page) : List EntityRlp := p.hits.map (·.2)

inductive QueryError where
  | pageSizeZero
  | invalidCursor (text : List Char)
  | db (e : DbError)
deriving DecidableEq, Repr

def liftQuery {α : Type} : Except DbError α → Except QueryError α
  | .ok a => .ok a
  | .error e => .error (.db e)

omit [RoaringFormat] in
/-- The loop over the IDs: ends at a full page with an ID to go, and skips what does not resolve. -/
def fillPage (w : World) (pageSize : ℕ) (hits : List (UInt64 × EntityRlp)) :
    List UInt64 → Except DbError (List (UInt64 × EntityRlp) × Bool)
  | [] => .ok (hits, false)
  | id :: ids =>
    if pageSize ≤ hits.length then .ok (hits, true)
    else do
      match ← resolveId w id with
      | some entity => fillPage w pageSize (hits ++ [(id, entity)]) ids
      | none => fillPage w pageSize hits ids

/-- The IDs below the cursor, newest first. -/
def candidates (bitmap : Bitmap) (cursor : Option UInt64) : List UInt64 :=
  let ids := bitmap.sortedIds
  let ids :=
    match cursor with
    | some c => ids.rdropWhile fun id => decide (c ≤ id)
    | none => ids
  ids.reverse

/-- `execute` on the parsed query. -/
def Query.execute (w : World) (q : Query) (params : PageParams) : Except QueryError Page := do
  if params.pageSize = 0 then .error .pageSizeZero
  else
    let bitmap ← liftQuery (q.evaluate w)
    let (hits, hasMore) ←
      liftQuery (fillPage w params.pageSize.toNat [] (candidates bitmap params.cursor))
    return ⟨hits, if hasMore then hits.getLast?.map (·.1) else none⟩

end Evaluation

-- The cursor on the wire

def hexDigits (n : ℕ) : List Char :=
  if n = 0 then ['0'] else ((Nat.digits 16 n).map Nat.digitChar).reverse

/-- The decimal digits of a number. -/
def decimalDigits (n : ℕ) : List Char :=
  if n = 0 then ['0'] else ((Nat.digits 10 n).map Nat.digitChar).reverse

/-- `format!("0x{id:x}")`. -/
def cursorText (id : UInt64) : List Char := '0' :: 'x' :: hexDigits id.toNat

/-- `char::to_digit(16)`. -/
def hexValue (c : Char) : Option ℕ :=
  if '0' ≤ c ∧ c ≤ '9' then some (c.toNat - '0'.toNat)
  else if 'a' ≤ c ∧ c ≤ 'f' then some (c.toNat - 'a'.toNat + 10)
  else if 'A' ≤ c ∧ c ≤ 'F' then some (c.toNat - 'A'.toNat + 10)
  else none

/-- One more digit, unless it overflows. -/
def pushHexDigit (acc : ℕ) (c : Char) : Option ℕ := do
  let d ← hexValue c
  if acc * 16 + d < 2 ^ 64 then some (acc * 16 + d) else none

/-- `u64::from_str_radix` in base 16: one plus sign may stand in front of the digits. -/
def u64FromHex (text : List Char) : Option UInt64 :=
  let digits :=
    match text with
    | '+' :: rest => rest
    | _ => text
  if digits = [] then none else (digits.foldlM pushHexDigit 0).map UInt64.ofNat

def parseCursor : Option (List Char) → Except QueryError (Option UInt64)
  | none => .ok none
  | some c =>
    let stripped :=
      match c with
      | '0' :: 'x' :: rest => rest
      | _ => c
    match u64FromHex stripped with
    | some n => .ok (some n)
    | none => .error (.invalidCursor c)

def defaultPageSize : UInt64 := 100
def maxPageSize : UInt64 := 200

structure QueryOptions where
  resultsPerPage : Option UInt64
  cursor : Option (List Char)
deriving DecidableEq, Repr

def QueryOptions.pageSize (options : QueryOptions) : UInt64 :=
  max 1 (min (options.resultsPerPage.getD defaultPageSize) maxPageSize)

/-- The hits of the page and the cursor of the next one. -/
structure QueryResponse where
  hits : List (UInt64 × EntityRlp)
  cursor : Option (List Char)
deriving DecidableEq, Repr

def runQuery [Keccak] [RoaringFormat] (w : World) (q : Query) (options : QueryOptions) :
    Except QueryError QueryResponse := do
  let cursor ← parseCursor options.cursor
  let page ← q.execute w ⟨options.pageSize, cursor⟩
  return ⟨page.hits, page.nextCursor.map cursorText⟩

end Arkiv

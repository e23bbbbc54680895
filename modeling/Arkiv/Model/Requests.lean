import Mathlib
import Arkiv.Model.Parser
import Arkiv.Model.Rpc

/-!
# Query requests

A request holds the text of a query, the block to read, a page size, a cursor and
the fields that the client wants. The node's storage provider and the reading of
stored payload references as JSON are parameters.

## Main definitions

- `StateProvider`, `Rpc.snapshotFor` — the states that a request can read
- `Rpc.execute` — parse, evaluate and fill a page
- `ResolvedIncludeData`, `Rpc.entityDataFrom` — the fields of an entity in an answer
- `Rpc.runQuery` — the whole request
-/

namespace Arkiv

open ByteString

/-- `BlockNumberOrTag`. -/
inductive BlockNumberOrTag where
  | latest
  | finalized
  | safe
  | earliest
  | pending
  | number (n : UInt64)
deriving DecidableEq, Repr

/-- The storage provider of the node: the head's number, the state at the head, and the states after
    the blocks that it keeps. Each may fail. -/
structure StateProvider where
  bestBlockNumber : Option UInt64
  latest : Option World
  historyByBlockNumber : UInt64 → Option World

/-- Pointer to the payload in an answer. -/
structure PayloadReferenceSummary where
  provider : List Char
  id : List Char
  ns : List Char
  contentType : Option (List Char)
  checksum : List Char
  sizeBytes : UInt64
  submittedAt : Option (List Char)
deriving DecidableEq, Repr

/-- `payload_reference_summary`: `serde_json::from_slice` into these fields, other fields left out. -/
class SummaryCrates where
  payloadReferenceSummary : Bytes → Option PayloadReferenceSummary

/-- The fields that a client names. -/
structure IncludeData where
  key : Option Bool
  payloadReference : Option Bool
  payload : Option Bool
  attributes : Option Bool
  contentType : Option Bool
  expiration : Option Bool
  owner : Option Bool
  creator : Option Bool
  createdAtBlock : Option Bool
  lastModifiedAtBlock : Option Bool
  transactionIndexInBlock : Option Bool
  operationIndexInTransaction : Option Bool
deriving DecidableEq, Repr

/-- The fields of an answer other than the key. -/
structure ResolvedIncludeData where
  payloadReference : Bool
  attributes : Bool
  contentType : Bool
  expiration : Bool
  owner : Bool
  creator : Bool
  createdAtBlock : Bool
  lastModifiedAtBlock : Bool
  transactionIndexInBlock : Bool
  operationIndexInTransaction : Bool
deriving DecidableEq, Repr

def ResolvedIncludeData.all : ResolvedIncludeData :=
  ⟨true, true, true, true, true, true, true, true, true, true⟩

/-- Everything when the client names no fields, else what it names; `payload` is another name for
    the payload reference. -/
def ResolvedIncludeData.fromOptions : Option IncludeData → ResolvedIncludeData
  | none => all
  | some d =>
    { payloadReference := (d.payloadReference.or d.payload).getD false
      attributes := d.attributes.getD false
      contentType := d.contentType.getD false
      expiration := d.expiration.getD false
      owner := d.owner.getD false
      creator := d.creator.getD false
      createdAtBlock := d.createdAtBlock.getD false
      lastModifiedAtBlock := d.lastModifiedAtBlock.getD false
      transactionIndexInBlock := d.transactionIndexInBlock.getD false
      operationIndexInTransaction := d.operationIndexInTransaction.getD false }

/-- An entity in an answer. -/
structure EntityData where
  key : B256
  payloadRef : Option PayloadReferenceSummary
  contentType : Option (List Char)
  expiresAt : Option UInt64
  owner : Option Address
  creator : Option Address
  createdAtBlock : Option UInt64
  lastModifiedAtBlock : Option UInt64
  transactionIndexInBlock : Option UInt64
  operationIndexInTransaction : Option UInt64
  attributes : List AttributeData
deriving DecidableEq, Repr

/-- `bool::then_some`. -/
def thenSome {α : Type} (b : Bool) (a : α) : Option α := if b then some a else none

namespace Rpc

structure QueryOptions where
  atBlock : Option BlockNumberOrTag
  resultsPerPage : Option UInt64
  cursor : Option (List Char)
  includeData : Option IncludeData
deriving DecidableEq, Repr

structure QueryResponse where
  data : List EntityData
  blockNumber : UInt64
  cursor : Option (List Char)
deriving DecidableEq, Repr

inductive RequestError where
  | query (e : QueryError)
  | parse (e : ParseError)
  | provider
  | unsupportedTag (tag : BlockNumberOrTag)
  | panicked
deriving DecidableEq, Repr

/-- The state to read, and the number of its block. -/
def snapshotFor (provider : StateProvider) :
    Option BlockNumberOrTag → Except RequestError (World × UInt64)
  | none | some .latest =>
    match provider.bestBlockNumber, provider.latest with
    | some n, some w => .ok (w, n)
    | _, _ => .error .provider
  | some (.number n) =>
    match provider.historyByBlockNumber n with
    | some w => .ok (w, n)
    | none => .error .provider
  | some tag => .error (.unsupportedTag tag)

def liftRequest {α : Type} : Except QueryError α → Except RequestError α
  | .ok a => .ok a
  | .error e => .error (.query e)

/-- `execute`: the page size is looked at before the text. -/
def execute [Keccak] [RoaringFormat] [UnicodeTables] (w : World) (query : List Char)
    (params : PageParams) : Except RequestError Page :=
  if params.pageSize = 0 then .error (.query .pageSizeZero)
  else
    match parse query with
    | .error e => .error (.parse e)
    | .ok q => liftRequest (q.execute w params)

/-- `none` is a panic in the text of an attribute. -/
def answeredAttributes (e : EntityRlp) (inc : ResolvedIncludeData) : Option (List AttributeData) :=
  if inc.attributes then e.attributes.mapM attributeData else some []

/-- The two indexes are not tracked. -/
def entityDataFrom [SummaryCrates] (e : EntityRlp) (inc : ResolvedIncludeData) :
    Option EntityData :=
  (answeredAttributes e inc).map fun attributes =>
    { key := e.key
      payloadRef :=
        if inc.payloadReference then SummaryCrates.payloadReferenceSummary e.payload else none
      contentType := thenSome inc.contentType (fromUtf8Lossy e.contentType)
      expiresAt := thenSome inc.expiration e.expiresAt
      owner := thenSome inc.owner e.owner
      creator := thenSome inc.creator e.creator
      createdAtBlock := thenSome inc.createdAtBlock e.createdAtBlock
      lastModifiedAtBlock := thenSome inc.lastModifiedAtBlock e.lastModifiedAtBlock
      transactionIndexInBlock := thenSome inc.transactionIndexInBlock 0
      operationIndexInTransaction := thenSome inc.operationIndexInTransaction 0
      attributes }

/-- `run_query`. -/
def runQuery [Keccak] [RoaringFormat] [UnicodeTables] [SummaryCrates] (provider : StateProvider)
    (q : List Char) (options : QueryOptions) : Except RequestError QueryResponse := do
  let (w, blockNumber) ← snapshotFor provider options.atBlock
  let cursor ← liftRequest (parseCursor options.cursor)
  let pageSize := Arkiv.QueryOptions.pageSize ⟨options.resultsPerPage, options.cursor⟩
  let page ← execute w q ⟨pageSize, cursor⟩
  let inc := ResolvedIncludeData.fromOptions options.includeData
  match page.entries.mapM (entityDataFrom · inc) with
  | some data => return ⟨data, blockNumber, page.nextCursor.map cursorText⟩
  | none => .error .panicked

end Rpc

end Arkiv

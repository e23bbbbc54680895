import Mathlib
import Arkiv.Model.Query

/-!
# Records in answers

The RPC layer answers with texts: keys and values of attributes become strings,
and bytes that are no UTF-8 become replacement characters.

## Main definitions

- `fromUtf8Lossy` — bytes as text
- `formatAttributeValue` — the text of a value by its type
- `attributeData` — an attribute as it is answered
- `getEntityCount` — how many entities are live
-/

namespace Arkiv

open ByteString

/-- U+FFFD, in the place of bytes that are no character. -/
def replacementCharacter : Char := Char.ofNat 0xFFFD

/-- A byte in the middle of a character. -/
def isContinuation (b : UInt8) : Bool := 0x80 ≤ b && b ≤ 0xBF

/-- The second byte of a character of three. -/
def isSecondOfThree (b₀ b₁ : UInt8) : Bool :=
  if b₀ == 0xE0 then 0xA0 ≤ b₁ && b₁ ≤ 0xBF
  else if b₀ == 0xED then 0x80 ≤ b₁ && b₁ ≤ 0x9F
  else isContinuation b₁

/-- The second byte of a character of four. -/
def isSecondOfFour (b₀ b₁ : UInt8) : Bool :=
  if b₀ == 0xF0 then 0x90 ≤ b₁ && b₁ ≤ 0xBF
  else if b₀ == 0xF4 then 0x80 ≤ b₁ && b₁ ≤ 0x8F
  else isContinuation b₁

/-- The six bits of a byte in the middle of a character. -/
def continuationBits (b : UInt8) : ℕ := b.toNat - 0x80

/-- `String::from_utf8_lossy`: the bytes that have been looked at and are no character give one
    replacement character, and reading goes on at the next byte. -/
def fromUtf8Lossy : Bytes → List Char
  | [] => []
  | b₀ :: rest =>
    if b₀ < 0x80 then Char.ofNat b₀.toNat :: fromUtf8Lossy rest
    else if 0xC2 ≤ b₀ && b₀ ≤ 0xDF then
      match rest with
      | [] => [replacementCharacter]
      | b₁ :: rest₁ =>
        if isContinuation b₁ then
          Char.ofNat ((b₀.toNat - 0xC0) * 64 + continuationBits b₁) :: fromUtf8Lossy rest₁
        -- The byte that does not continue the character starts the next one.
        else replacementCharacter :: fromUtf8Lossy (b₁ :: rest₁)
    else if 0xE0 ≤ b₀ && b₀ ≤ 0xEF then
      match rest with
      | [] => [replacementCharacter]
      | b₁ :: rest₁ =>
        if isSecondOfThree b₀ b₁ then
          match rest₁ with
          | [] => [replacementCharacter]
          | b₂ :: rest₂ =>
            if isContinuation b₂ then
              Char.ofNat ((b₀.toNat - 0xE0) * 4096 + continuationBits b₁ * 64 +
                continuationBits b₂) :: fromUtf8Lossy rest₂
            else replacementCharacter :: fromUtf8Lossy (b₂ :: rest₂)
        else replacementCharacter :: fromUtf8Lossy (b₁ :: rest₁)
    else if 0xF0 ≤ b₀ && b₀ ≤ 0xF4 then
      match rest with
      | [] => [replacementCharacter]
      | b₁ :: rest₁ =>
        if isSecondOfFour b₀ b₁ then
          match rest₁ with
          | [] => [replacementCharacter]
          | b₂ :: rest₂ =>
            if isContinuation b₂ then
              match rest₂ with
              | [] => [replacementCharacter]
              | b₃ :: rest₃ =>
                if isContinuation b₃ then
                  Char.ofNat ((b₀.toNat - 0xF0) * 262144 + continuationBits b₁ * 4096 +
                    continuationBits b₂ * 64 + continuationBits b₃) :: fromUtf8Lossy rest₃
                else replacementCharacter :: fromUtf8Lossy (b₃ :: rest₃)
            else replacementCharacter :: fromUtf8Lossy (b₂ :: rest₂)
        else replacementCharacter :: fromUtf8Lossy (b₁ :: rest₁)
    else replacementCharacter :: fromUtf8Lossy rest

/-- `hex::encode_prefixed`. -/
def hexPrefixed (bytes : Bytes) : List Char :=
  '0' :: 'x' :: bytes.flatMap fun b => [Nat.digitChar (b.toNat / 16), Nat.digitChar (b.toNat % 16)]

/-- `U256::from_be_slice` panics on more than 32 bytes. -/
def u256FromBeSlice (bytes : Bytes) : Option B256 :=
  if bytes.length ≤ 32 then some (BitVec.ofNat 256 (ofBe bytes)) else none

/-- `none` is a panic. -/
def formatAttributeValue (valueType : UInt8) (bytes : Bytes) : Option (List Char) :=
  if valueType = attrUint then (u256FromBeSlice bytes).map fun n => decimalDigits n.toNat
  else if valueType = attrString then some (fromUtf8Lossy bytes)
  else if valueType = attrEntityKey then some (hexPrefixed bytes)
  else some []

/-- `Attribute` of the RPC layer. -/
structure AttributeData where
  key : List Char
  valueType : UInt8
  value : List Char
deriving DecidableEq, Repr

/-- The attributes of `entity_data_from`. -/
def attributeData (a : Attribute) : Option AttributeData :=
  (formatAttributeValue a.valueType a.value).map fun value =>
    ⟨fromUtf8Lossy a.key, a.valueType, value⟩

/-- `RoaringTreemap::len`. -/
def Bitmap.len (b : Bitmap) : UInt64 := UInt64.ofNat b.ids.card

/-- `arkiv_getEntityCount` on the state at the head. -/
def getEntityCount [Keccak] [RoaringFormat] (w : World) : Except DbError UInt64 := do
  let all ← allEntities w
  return all.len

end Arkiv

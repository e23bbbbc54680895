import Mathlib
import Arkiv.Lib.Bytes

/-!
# Keccak-256

The sponge with rate 136 over the permutation of 1600 bits, on lanes kept as
natural numbers below `2 ^ 64`. The operations on lanes are called by their names,
so that a digest reduces without unfolding instances at every bit of the way.

## Main definitions

- `Plane`, `State` — five lanes, five planes
- `permute` — the 24 rounds
- `digest` — the 256-bit digest of a message
-/

namespace KeccakSponge

open ByteString

structure Plane where
  (x0 x1 x2 x3 x4 : ℕ)

structure State where
  (y0 y1 y2 y3 y4 : Plane)

def rotl (n x : ℕ) : ℕ := ((x.shiftLeft n).lor (x.shiftRight (64 - n))).mod (2 ^ 64)

def Plane.xor (p q : Plane) : Plane :=
  ⟨p.x0.xor q.x0, p.x1.xor q.x1, p.x2.xor q.x2, p.x3.xor q.x3, p.x4.xor q.x4⟩

/-- Each lane gets the parities of two neighbouring columns. -/
def theta (s : State) : State :=
  let c := ((((s.y0.xor s.y1).xor s.y2).xor s.y3).xor s.y4)
  let d : Plane :=
    ⟨c.x4.xor (rotl 1 c.x1), c.x0.xor (rotl 1 c.x2), c.x1.xor (rotl 1 c.x3),
      c.x2.xor (rotl 1 c.x4), c.x3.xor (rotl 1 c.x0)⟩
  ⟨s.y0.xor d, s.y1.xor d, s.y2.xor d, s.y3.xor d, s.y4.xor d⟩

/-- Lanes rotate by fixed amounts and change places. -/
def rhoPi (s : State) : State where
  y0 := ⟨s.y0.x0, rotl 44 s.y1.x1, rotl 43 s.y2.x2, rotl 21 s.y3.x3, rotl 14 s.y4.x4⟩
  y1 := ⟨rotl 28 s.y0.x3, rotl 20 s.y1.x4, rotl 3 s.y2.x0, rotl 45 s.y3.x1, rotl 61 s.y4.x2⟩
  y2 := ⟨rotl 1 s.y0.x1, rotl 6 s.y1.x2, rotl 25 s.y2.x3, rotl 8 s.y3.x4, rotl 18 s.y4.x0⟩
  y3 := ⟨rotl 27 s.y0.x4, rotl 36 s.y1.x0, rotl 10 s.y2.x1, rotl 15 s.y3.x2, rotl 56 s.y4.x3⟩
  y4 := ⟨rotl 62 s.y0.x2, rotl 55 s.y1.x3, rotl 39 s.y2.x4, rotl 41 s.y3.x0, rotl 2 s.y4.x1⟩

/-- `x ^ (!y & z)`. -/
def chiLane (x y z : ℕ) : ℕ := x.xor ((Nat.xor (2 ^ 64 - 1) y).land z)

def Plane.chi (p : Plane) : Plane :=
  ⟨chiLane p.x0 p.x1 p.x2, chiLane p.x1 p.x2 p.x3, chiLane p.x2 p.x3 p.x4,
    chiLane p.x3 p.x4 p.x0, chiLane p.x4 p.x0 p.x1⟩

def round (s : State) (constant : ℕ) : State :=
  let t := rhoPi (theta s)
  let p := t.y0.chi
  ⟨{ p with x0 := p.x0.xor constant }, t.y1.chi, t.y2.chi, t.y3.chi, t.y4.chi⟩

def roundConstants : List ℕ :=
  [0x0000000000000001, 0x0000000000008082, 0x800000000000808A, 0x8000000080008000,
   0x000000000000808B, 0x0000000080000001, 0x8000000080008081, 0x8000000000008009,
   0x000000000000008A, 0x0000000000000088, 0x0000000080008009, 0x000000008000000A,
   0x000000008000808B, 0x800000000000008B, 0x8000000000008089, 0x8000000000008003,
   0x8000000000008002, 0x8000000000000080, 0x000000000000800A, 0x800000008000000A,
   0x8000000080008081, 0x8000000000008080, 0x0000000080000001, 0x8000000080008008]

def permute (s : State) : State := roundConstants.foldl round s

/-- Lane `i` of a number, the lowest one first. -/
def lane (n i : ℕ) : ℕ := (n.shiftRight (64 * i)).mod (2 ^ 64)

/-- A block of 136 bytes, least significant byte first, goes into the first 17 lanes. -/
def absorb (s : State) (block : Bytes) : State :=
  let l := lane (ofBe block.reverse)
  permute
    { y0 := s.y0.xor ⟨l 0, l 1, l 2, l 3, l 4⟩
      y1 := s.y1.xor ⟨l 5, l 6, l 7, l 8, l 9⟩
      y2 := s.y2.xor ⟨l 10, l 11, l 12, l 13, l 14⟩
      y3 := s.y3.xor ⟨l 15, l 16, 0, 0, 0⟩
      y4 := s.y4 }

/-- A one after the message and a one at the end of the last block. -/
def pad (message : Bytes) : Bytes :=
  let q := 136 - message.length % 136
  if q = 1 then message ++ [0x81] else message ++ 0x01 :: List.replicate (q - 2) 0 ++ [0x80]

def blocks : ℕ → Bytes → List Bytes
  | 0, _ => []
  | n + 1, bytes => bytes.take 136 :: blocks n (bytes.drop 136)

def digest (message : Bytes) : BitVec 256 :=
  let zero : Plane := ⟨0, 0, 0, 0, 0⟩
  let padded := pad message
  let s := (blocks (padded.length / 136) padded).foldl absorb ⟨zero, zero, zero, zero, zero⟩
  BitVec.ofNat 256 <| ofBe <| [s.y0.x0, s.y0.x1, s.y0.x2, s.y0.x3].flatMap fun x => (be 8 x).reverse

/-- The code hash of an account without code. -/
example : digest [] = 0xc5d2460186f7233c927e7db2dcc703c0e500b653ca82273b7bfad8045d85a470 := by
  decide +kernel

end KeccakSponge

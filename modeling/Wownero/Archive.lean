import Wownero.Bytes
/-!
# The binary archive

The consensus serialization: the base-128 varint with its strict reader, the positional reader
and the writer.  A writer is the byte string it has produced; a reader is what is left of its
buffer together with the position reached.

Two habits of the reader matter to everything above it.  A varint cut off by the end of the
input is not an error but the value read so far, and nothing asks that a reader end at the end
of its buffer.
-/

namespace Wownero.Archive

open Wownero

/-- Why a byte string did not parse. -/
inductive Error where
  | unexpectedEof
  | varintOverflow
  | varintNonCanonical
  | unknownVariantTag (tag : UInt8)
  | limitExceeded (what : String)
  | invalidValue (what : String)
  deriving DecidableEq, Repr

/-! ### The varint -/

/-- `write_varint`.  The fuel is the value itself, which the shifts exhaust no sooner than they
    reach the last byte. -/
def writeVarintLoop : Nat → Nat → List UInt8
  | 0, v => [UInt8.ofNat v]
  | fuel + 1, v =>
    if v ≥ 0x80 then
      UInt8.ofNat (v % 128 + 128) :: writeVarintLoop fuel (v / 128)
    else [UInt8.ofNat v]

def writeVarint (v : Nat) : List UInt8 := writeVarintLoop v v

/-- What `read_varint_bits` found: the value, how many bytes it took, and whether the input
    ended inside it. -/
structure VarintRead where
  value : Nat
  len : Nat
  truncated : Bool
  deriving DecidableEq, Repr

/-- `read_varint_bits`, byte by byte. -/
def readVarintLoop (bits : Nat) : List UInt8 → Nat → Nat → Nat → Except Error VarintRead
  | [], value, _, read => .ok ⟨value, read, true⟩
  | byte :: input, value, shift, read =>
    if shift + 7 ≥ bits ∧ (shift ≥ bits ∨ byte.toNat ≥ 2 ^ (bits - shift)) then
      .error .varintOverflow
    else if byte.toNat = 0 ∧ shift ≠ 0 then .error .varintNonCanonical
    else
      let value := value + (byte.toNat % 128) * 2 ^ shift
      if byte.toNat < 128 then .ok ⟨value, read + 1, false⟩
      else readVarintLoop bits input value (shift + 7) (read + 1)

def readVarintBits (input : List UInt8) (bits : Nat) : Except Error VarintRead :=
  readVarintLoop bits input 0 0 0

/-! ### The reader -/

/-- A reader part-way through its buffer: the bytes not read yet and how many were. -/
structure Reader where
  rest : List UInt8
  pos : Nat
  deriving DecidableEq, Repr

/-- Reading a value, or failing. -/
abbrev Parse := StateT Reader (Except Error)

def Reader.new (buf : Blob) : Reader := ⟨buf, 0⟩

def pos : Parse Nat := fun r => .ok (r.pos, r)

def remaining : Parse Nat := fun r => .ok (r.rest.length, r)

/-- `Reader::take`. -/
def take (n : Nat) : Parse (List UInt8) := fun r =>
  if n ≤ r.rest.length then .ok (r.rest.take n, ⟨r.rest.drop n, r.pos + n⟩)
  else .error .unexpectedEof

def readU8 : Parse UInt8 := do
  return (← take 1).headD 0

/-- `read_array::<32>`. -/
def readArray32 : Parse Bytes32 := do
  return Bytes32.ofBytes (← take 32)

/-- `read_array::<64>`, as a signature. -/
def readSignature : Parse Signature := do
  return Signature.ofBytes (← take 64)

/-- `read_u16_le`, `read_u32_le`: the width in bytes is the argument. -/
def readLe (width : Nat) : Parse Nat := do
  return leNat (← take width)

def readVarintN (bits : Nat) : Parse Nat := fun r => do
  let v ← readVarintBits r.rest bits
  return (v.value, ⟨r.rest.drop v.len, r.pos + v.len⟩)

def readVarint : Parse Nat := readVarintN 64

/-- `Reader::read_len`: a count that has to fit both its limit and the input left. -/
def readLen (limit : Nat) (what : String) : Parse Nat := do
  let n ← readVarint
  if n > limit then throw (.limitExceeded what)
  if n > (← remaining) then throw .unexpectedEof
  return n

def readBytesPrefixed (limit : Nat) (what : String) : Parse (List UInt8) := do
  take (← readLen limit what)

/-- A loop that reads `n` values with the same reader. -/
def readMany {α : Type} (item : Parse α) : Nat → Parse (List α)
  | 0 => return []
  | n + 1 => do
    let a ← item
    return a :: (← readMany item n)

/-- Run a reader over a whole blob.  What it leaves unread is dropped. -/
def parse {α : Type} (p : Parse α) (blob : Blob) : Except Error α := do
  return (← p (Reader.new blob)).1

/-! ### The writer -/

def writeArray32 (b : Bytes32) : List UInt8 := Bytes32.toBytes b

def writeArrays (bs : List Bytes32) : List UInt8 := bs.flatMap Bytes32.toBytes

def writeBytesPrefixed (bs : List UInt8) : List UInt8 := writeVarint bs.length ++ bs

end Wownero.Archive

import Mathlib.Data.List.Lex
import Wownero.Codec
import Wownero.Ends
import Wownero.Utf8
/-!
# Portable storage

The tree of names and values every message of the peer network travels as: its reader, its writer,
and its length without writing it.  The reader keeps a position in a buffer.  Where the source
would index out of bounds a reading ends in a panic here, so that there being none can be said.
-/

namespace Wownero.Epee

open Wownero.Archive Outcome

/-! ### Values -/

/-- `Error`, as far as this format has them. -/
inductive Error where
  | unexpectedEof
  | limitExceeded (what : String)
  | invalidValue (what : String)
  | badEpeeSignature
  | unknownEpeeType (tag : UInt8)
  | recursionLimit
  | nameTooLong
  deriving DecidableEq, Repr

/-- The name of an entry: text. -/
structure Name where
  bytes : List UInt8
  text : Utf8.valid bytes = true
  deriving DecidableEq, Repr

/-- What names are ordered by. -/
def Name.key (n : Name) : List Nat := n.bytes.map (·.toNat)

/-- A value that holds no others.  Integers and doubles are their bits. -/
inductive Leaf where
  | i64 (v : BitVec 64)
  | i32 (v : BitVec 32)
  | i16 (v : BitVec 16)
  | i8 (v : BitVec 8)
  | u64 (v : BitVec 64)
  | u32 (v : BitVec 32)
  | u16 (v : BitVec 16)
  | u8 (v : BitVec 8)
  | double (bits : BitVec 64)
  | string (bytes : List UInt8)
  | bool (v : Bool)
  deriving DecidableEq, Repr

/-- `Value`. -/
inductive Value where
  | leaf (l : Leaf)
  | object (rows : List (Name × Value))
  | array (elemType : UInt8) (items : List Value)

/-- `Section`: the rows of an ordered map. -/
abbrev Section := List (Name × Value)

/-- A row put in its place, or in place of the row of its name. -/
def insertRow (name : Name) (value : Value) : Section → Section
  | [] => [(name, value)]
  | row :: rows =>
      if name.key < row.1.key then (name, value) :: row :: rows
      else if name = row.1 then (name, value) :: rows
      else row :: insertRow name value rows

/-- The type bytes. -/
def Leaf.typeByte : Leaf → UInt8
  | .i64 _ => 1
  | .i32 _ => 2
  | .i16 _ => 3
  | .i8 _ => 4
  | .u64 _ => 5
  | .u32 _ => 6
  | .u16 _ => 7
  | .u8 _ => 8
  | .double _ => 9
  | .string _ => 10
  | .bool _ => 11

/-- `type_byte`. -/
def Value.typeByte : Value → UInt8
  | .leaf l => l.typeByte
  | .object _ => 12
  | .array elemType _ => elemType

/-- `HEADER`. -/
def header : List UInt8 := [0x01, 0x11, 0x01, 0x01, 0x01, 0x01, 0x02, 0x01, 0x01]

/-- `RECURSION_LIMIT`. -/
def recursionLimit : Nat := 100

/-- `MAX_STRING_LEN`. -/
def maxStringLen : Nat := 2000000000

/-- `EPEE_VARINT_MAX`. -/
def epeeVarintMax : Nat := 2 ^ 62 - 1

/-- `ARRAY_FLAG`. -/
def arrayFlag : UInt8 := 0x80

/-! ### Writing -/

/-- `write_epee_varint`. -/
def writeEpeeVarint (v : Nat) : Except Error (List UInt8) :=
  if v ≤ 63 then .ok (leBytes 1 (4 * v))
  else if v ≤ 16383 then .ok (leBytes 2 (4 * v + 1))
  else if v ≤ 1073741823 then .ok (leBytes 4 (4 * v + 2))
  else if v ≤ epeeVarintMax then .ok (leBytes 8 (4 * v + 3))
  else .error (.limitExceeded "epee varint > 2^62 - 1")

/-- `write_scalar`, of a value that holds no others. -/
def Leaf.write : Leaf → Except Error (List UInt8)
  | .i64 v | .u64 v | .double v => .ok (leBytes 8 v.toNat)
  | .i32 v | .u32 v => .ok (leBytes 4 v.toNat)
  | .i16 v | .u16 v => .ok (leBytes 2 v.toNat)
  | .i8 v | .u8 v => .ok (leBytes 1 v.toNat)
  | .bool v => .ok [if v then 1 else 0]
  | .string bytes =>
      if maxStringLen < bytes.length then
        .error (.limitExceeded "epee string > MAX_STRING_LEN")
      else (writeEpeeVarint bytes.length).map (· ++ bytes)

mutual

/-- `write_scalar`. -/
def writeScalar : Value → Except Error (List UInt8)
  | .leaf l => l.write
  | .object rows => do return (← writeEpeeVarint rows.length) ++ (← writeRows rows)
  | .array .. => .error (.invalidValue "directly nested epee array")

/-- The items of an array. -/
def writeItems (elemType : UInt8) : List Value → Except Error (List UInt8)
  | [] => .ok []
  | item :: items => do
      if item.typeByte ≠ elemType then throw (.invalidValue "heterogeneous epee array")
      return (← writeScalar item) ++ (← writeItems elemType items)

/-- `write_entry_value`. -/
def writeEntryValue : Value → Except Error (List UInt8)
  | .array elemType items => do
      let count ← writeEpeeVarint items.length
      return (elemType ||| arrayFlag) :: count ++ (← writeItems elemType items)
  | .object rows => do
      return 12 :: ((← writeEpeeVarint rows.length) ++ (← writeRows rows))
  | .leaf l => do return l.typeByte :: (← l.write)

/-- The loop of `write_section`. -/
def writeRows : List (Name × Value) → Except Error (List UInt8)
  | [] => .ok []
  | (name, value) :: rows => do
      if 255 < name.bytes.length then throw .nameTooLong
      return UInt8.ofNat name.bytes.length :: (name.bytes ++ (← writeEntryValue value))
        ++ (← writeRows rows)

end

/-- `write_section`. -/
def writeSection (s : Section) : Except Error (List UInt8) := do
  return (← writeEpeeVarint s.length) ++ (← writeRows s)

/-- `to_bytes`. -/
def toBytes (s : Section) : Except Error (List UInt8) := do return header ++ (← writeSection s)

/-! ### The length -/

/-- `epee_varint_len`. -/
def epeeVarintLen (v : Nat) : Nat :=
  if v ≤ 63 then 1 else if v ≤ 16383 then 2 else if v ≤ 1073741823 then 4 else 8

/-- `scalar_len`, of a value that holds no others. -/
def Leaf.len : Leaf → Nat
  | .i64 _ | .u64 _ | .double _ => 8
  | .i32 _ | .u32 _ => 4
  | .i16 _ | .u16 _ => 2
  | .i8 _ | .u8 _ | .bool _ => 1
  | .string bytes => epeeVarintLen bytes.length + bytes.length

mutual

/-- `scalar_len`. -/
def scalarLen : Value → Except Error Nat
  | .leaf l => .ok l.len
  | .object rows => do return epeeVarintLen rows.length + (← rowsLen rows)
  | .array .. => .error (.invalidValue "directly nested epee array")

/-- The items of an array. -/
def itemsLen : List Value → Except Error Nat
  | [] => .ok 0
  | item :: items => do return (← scalarLen item) + (← itemsLen items)

/-- `value_len`. -/
def valueLen : Value → Except Error Nat
  | .array _ items => do return 1 + epeeVarintLen items.length + (← itemsLen items)
  | .object rows => do return 1 + (epeeVarintLen rows.length + (← rowsLen rows))
  | .leaf l => .ok (1 + l.len)

/-- The loop of `encoded_len`. -/
def rowsLen : List (Name × Value) → Except Error Nat
  | [] => .ok 0
  | (name, value) :: rows => do
      if 255 < name.bytes.length then throw .nameTooLong
      return 1 + name.bytes.length + (← valueLen value) + (← rowsLen rows)

end

/-- `encoded_len`. -/
def encodedLen (s : Section) : Except Error Nat := do
  return epeeVarintLen s.length + (← rowsLen s)

/-! ### Reading -/

/-- What ends a reading: an error, or a panic. -/
inductive Stop where
  | failed (e : Error)
  | panicked
  deriving DecidableEq, Repr

/-- `EpeeReader`.  Its depth is an argument of the functions that have one. -/
structure EpeeReader where
  buf : List UInt8
  pos : Nat
  deriving DecidableEq, Repr

abbrev Read := StateT EpeeReader (Except Stop)

variable {α β : Type}

def fail (e : Error) : Read α := fun _ => .error (.failed e)

def panicked : Read α := fun _ => .error .panicked

/-- `&self.buf[self.pos..stop]`. -/
def slice (stop : Nat) : Read (List UInt8) := fun r =>
  if r.pos ≤ stop ∧ stop ≤ r.buf.length then
    .ok ((r.buf.drop r.pos).take (stop - r.pos), r)
  else .error .panicked

/-- `take`.  A sum past `usize` is past the end as well. -/
def take (n : Nat) : Read (List UInt8) := do
  let r ← get
  if r.buf.length < r.pos + n then fail .unexpectedEof
  else
    let s ← slice (r.pos + n)
    set { r with pos := r.pos + n }
    return s

/-- `u8`. -/
def u8 : Read UInt8 := do
  match ← take 1 with
  | b :: _ => return b
  | [] => panicked

/-- `read_epee_varint`: the value, and how many bytes it takes.  The low two bits say how many. -/
def readEpeeVarint : List UInt8 → Except Error (Nat × Nat)
  | [] => .error .unexpectedEof
  | first :: rest =>
      let width := match first.toNat % 4 with
        | 0 => 1
        | 1 => 2
        | 2 => 4
        | _ => 8
      if rest.length + 1 < width then .error .unexpectedEof
      else .ok (leNat ((first :: rest).take width) / 4, width)

/-- `varint`. -/
def varint : Read Nat := do
  let r ← get
  let rest ← slice r.buf.length
  match readEpeeVarint rest with
  | .error e => fail e
  | .ok (v, n) =>
      set { r with pos := r.pos + n }
      return v

/-- `count`.  Every `u64` is a `usize`; the subtraction panics below zero. -/
def count : Read Nat := do
  let n ← varint
  let r ← get
  if r.buf.length < r.pos then panicked
  else if r.buf.length - r.pos < n then fail .unexpectedEof
  else return n

/-- An integer of this many bytes. -/
def fixed (n : Nat) : Read (BitVec (8 * n)) := do
  return BitVec.ofNat (8 * n) (leNat (← take n))

section

variable (readObject : Read Section)

/-- `scalar`. -/
def readScalar (tag : UInt8) : Read Value :=
  match tag.toNat with
  | 1 => do return .leaf (.i64 (← fixed 8))
  | 2 => do return .leaf (.i32 (← fixed 4))
  | 3 => do return .leaf (.i16 (← fixed 2))
  | 4 => do return .leaf (.i8 (← fixed 1))
  | 5 => do return .leaf (.u64 (← fixed 8))
  | 6 => do return .leaf (.u32 (← fixed 4))
  | 7 => do return .leaf (.u16 (← fixed 2))
  | 8 => do return .leaf (.u8 (← fixed 1))
  | 9 => do return .leaf (.double (← fixed 8))
  | 10 => do
      let n ← varint
      if maxStringLen < n then fail (.limitExceeded "epee string > MAX_STRING_LEN")
      else return .leaf (.string (← take n))
  | 11 => do return .leaf (.bool ((← u8) != 0))
  | 12 => do return .object (← readObject)
  | _ => fail (.unknownEpeeType tag)

/-- The items of an array. -/
def readItems (elemType : UInt8) : Nat → Read (List Value)
  | 0 => pure []
  | n + 1 => do
      let item ← readScalar readObject elemType
      return item :: (← readItems elemType n)

/-- `entry_value`. -/
def readEntryValue : Read Value := do
  let tag ← u8
  if tag &&& arrayFlag ≠ 0 then
    let elemType := tag &&& 0x7f
    let n ← count
    return .array elemType (← readItems readObject elemType n)
  else readScalar readObject tag

/-- The loop of `section`. -/
def readRows : Nat → Section → Read Section
  | 0, out => pure out
  | n + 1, out => do
      let nameLen ← u8
      let name ← take nameLen.toNat
      let value ← readEntryValue readObject
      readRows n (insertRow ⟨Utf8.repair name, Utf8.valid_repair name⟩ value out)

end

/-- `section`, with so many levels left below the limit. -/
def readSection : Nat → Read Section
  | 0 => fail .recursionLimit
  | left + 1 => do
      let n ← count
      readRows (readSection left) n []

/-- `from_bytes`. -/
def fromBytes (blob : List UInt8) : Except Stop Section :=
  if blob.length < 9 then .error (.failed .unexpectedEof)
  else if blob.take 9 ≠ header then .error (.failed .badEpeeSignature)
  else (readSection recursionLimit ⟨blob, 9⟩).map (·.1)

end Wownero.Epee

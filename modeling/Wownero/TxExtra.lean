import Mathlib.Data.List.Sort
import Wownero.Codec
import Wownero.Keys
import Wownero.Varint
/-!
# The `extra` field of a transaction

A transaction's `extra` is opaque to consensus: what of it parses is read, and a malformed field
only ends the reading.  The wallet keeps the transaction's public keys and the payment id there.
-/

namespace Wownero

open Wownero.Archive

/-! ### Fields -/

/-- `TX_EXTRA_NONCE_MAX_COUNT`. -/
def txExtraNonceMaxCount : Nat := 255

/-- `TX_EXTRA_PADDING_MAX_COUNT`. -/
def txExtraPaddingMaxCount : Nat := 255

inductive TxExtraField where
  | padding (len : Nat)
  | pubkey (key : PublicKey)
  | nonce (bytes : Blob)
  | mergeMining (depth : Nat) (merkleRoot : Hash256)
  | additionalPubkeys (keys : List PublicKey)
  | mysteriousMinergate (bytes : Blob)
  deriving DecidableEq, Repr

inductive TxExtraError where
  | badPadding
  | paddingTooLong
  | nonceTooLong
  | truncated
  | badVarint
  deriving DecidableEq, Repr

structure ParsedExtra where
  fields : List TxExtraField
  stoppedAtUnknownTag : Option UInt8 := none
  error : Option TxExtraError := none
  deriving DecidableEq, Repr

/-- `field_tag`. -/
def TxExtraField.tag : TxExtraField → UInt8
  | .padding _ => 0x00
  | .pubkey _ => 0x01
  | .nonce _ => 0x02
  | .mergeMining _ _ => 0x03
  | .additionalPubkeys _ => 0x04
  | .mysteriousMinergate _ => 0xde

/-! ### Parsing -/

/-- `read_varint`: the value and what follows it.  Unlike the archive's reader, it refuses a
    varint the end of the input cuts off. -/
def readVarintStrict (input : Blob) : Option (Nat × Blob) :=
  match readVarintBits input 64 with
  | .ok v => if v.truncated then none else some (v.value, input.drop v.len)
  | .error _ => none

/-- `extra.get(i..i + n)`, and what follows it. -/
def getSlice (n : Nat) (input : Blob) : Except TxExtraError (Blob × Blob) :=
  if n ≤ input.length then .ok (input.take n, input.drop n) else .error .truncated

/-- A length or a count in front of a field. -/
def readCount (input : Blob) : Except TxExtraError (Nat × Blob) :=
  match readVarintStrict input with
  | some found => .ok found
  | none => .error .badVarint

/-- `as_chunks::<32>`, as far as whole chunks go. -/
def chunks32 : Nat → Blob → List Bytes32
  | 0, _ => []
  | n + 1, bs => Bytes32.ofBytes (bs.take 32) :: chunks32 n (bs.drop 32)

/-- One field after its tag and what follows it, or `none` at an unknown tag. -/
def readExtraField (tag : UInt8) (input : Blob) :
    Except TxExtraError (Option (TxExtraField × Blob)) :=
  if tag = 0x00 then
    let zeros := input.takeWhile (· == 0)
    if zeros.length + 1 > txExtraPaddingMaxCount then .error .paddingTooLong
    else if zeros.length < input.length then .error .badPadding
    else .ok (some (.padding (zeros.length + 1), []))
  else if tag = 0x01 then do
    let (key, rest) ← getSlice 32 input
    return some (.pubkey (Bytes32.ofBytes key), rest)
  else if tag = 0x02 then do
    let (len, rest) ← readCount input
    if len > txExtraNonceMaxCount then throw .nonceTooLong
    let (nonce, rest) ← getSlice len rest
    return some (.nonce nonce, rest)
  else if tag = 0x03 then do
    let (len, rest) ← readCount input
    let (body, rest) ← getSlice len rest
    let (depth, body) ← readCount body
    let (root, _) ← getSlice 32 body
    return some (.mergeMining depth (Bytes32.ofBytes root), rest)
  else if tag = 0x04 then do
    let (count, rest) ← readCount input
    let (body, rest) ← getSlice (count * 32) rest
    return some (.additionalPubkeys (chunks32 count body), rest)
  else if tag = 0xde then do
    let (len, rest) ← readCount input
    let (body, rest) ← getSlice len rest
    return some (.mysteriousMinergate body, rest)
  else .ok none

/-- The loop of `parse_tx_extra`.  Every turn takes at least the tag, so the length of the input
    is fuel enough. -/
def parseExtraFields : Nat → Blob → ParsedExtra
  | 0, _ => ⟨[], none, none⟩
  | _ + 1, [] => ⟨[], none, none⟩
  | fuel + 1, tag :: input =>
      match readExtraField tag input with
      | .error e => ⟨[], none, some e⟩
      | .ok none => ⟨[], some tag, none⟩
      | .ok (some (field, rest)) =>
          let parsed := parseExtraFields fuel rest
          { parsed with fields := field :: parsed.fields }

/-- `parse_tx_extra`. -/
def parseTxExtra (extra : Blob) : ParsedExtra := parseExtraFields extra.length extra

/-- `ParsedExtra::tx_pubkey`. -/
def ParsedExtra.txPubkey (p : ParsedExtra) : Option PublicKey :=
  p.fields.findSome? fun
    | .pubkey key => some key
    | _ => none

/-- `ParsedExtra::additional_pubkeys`, with its callers' `unwrap_or(&[])`. -/
def ParsedExtra.additionalPubkeys (p : ParsedExtra) : List PublicKey :=
  (p.fields.findSome? fun
    | .additionalPubkeys keys => some keys
    | _ => none).getD []

/-- The first nonce. -/
def ParsedExtra.firstNonce (p : ParsedExtra) : Option Blob :=
  p.fields.findSome? fun
    | .nonce bytes => some bytes
    | _ => none

/-! ### Writing -/

/-- `write_field`. -/
def TxExtraField.write : TxExtraField → Blob
  | .padding len => 0x00 :: List.replicate (len - 1) 0
  | .pubkey key => 0x01 :: writeArray32 key
  | .nonce bytes => 0x02 :: writeBytesPrefixed bytes
  | .mergeMining depth merkleRoot =>
      0x03 :: writeBytesPrefixed (writeVarint depth ++ writeArray32 merkleRoot)
  | .additionalPubkeys keys => 0x04 :: writeVarint keys.length ++ writeArrays keys
  | .mysteriousMinergate bytes => 0xde :: writeBytesPrefixed bytes

/-- `serialize_tx_extra`. -/
def serializeTxExtra (fields : List TxExtraField) (sorted : Bool) : Blob :=
  let ordered := if sorted then fields.insertionSort fun f g => f.tag ≤ g.tag else fields
  ordered.flatMap TxExtraField.write

/-! ### Reading back what was written -/

/-- A varint that is not cut off is one the writer writes. -/
theorem readVarintStrict_eq_some {input rest : Blob} {v : Nat} :
    readVarintStrict input = some (v, rest) ↔ v < 2 ^ 64 ∧ input = writeVarint v ++ rest := by
  constructor
  · intro h
    unfold readVarintStrict at h
    cases hr : readVarintBits input 64 with
    | error e => rw [hr] at h; cases h
    | ok r =>
        obtain ⟨value, len, truncated⟩ := r
        rw [hr] at h
        cases truncated with
        | true => cases h
        | false =>
            obtain ⟨rfl, rfl⟩ : value = v ∧ input.drop len = rest := Prod.mk.inj (Option.some.inj h)
            obtain ⟨hfits, rest, rfl, rfl⟩ := readVarintBits_exact hr
            exact ⟨hfits, by rw [List.drop_left]⟩
  · rintro ⟨hfits, rfl⟩
    rw [readVarintStrict, readVarintBits_write (by decide) hfits]
    exact congrArg (fun bs => some (v, bs)) List.drop_left

theorem readCount_write {n : Nat} (h : n < 2 ^ 64) (rest : Blob) :
    readCount (writeVarint n ++ rest) = .ok (n, rest) := by
  rw [readCount, readVarintStrict_eq_some.mpr ⟨h, rfl⟩]

theorem getSlice_append (bs rest : Blob) : getSlice bs.length (bs ++ rest) = .ok (bs, rest) := by
  simp [getSlice]

theorem chunks32_writeArrays (keys : List Bytes32) : chunks32 keys.length (writeArrays keys) = keys := by
  induction keys with
  | nil => rfl
  | cons key keys ih =>
      have hlen : (Bytes32.toBytes key).length = 32 := length_toBytes key
      rw [writeArrays] at ih
      rw [List.length_cons, chunks32, writeArrays, List.flatMap_cons, List.take_left' hlen,
        List.drop_left' hlen, ofBytes_toBytes, ih]

/-- A field of the wallet's own making: what a transaction it builds puts in `extra`. -/
inductive TxExtraField.Plain : TxExtraField → Prop
  | pubkey (key : PublicKey) : Plain (.pubkey key)
  | nonce {bytes : Blob} (h : bytes.length ≤ txExtraNonceMaxCount) : Plain (.nonce bytes)
  | additionalPubkeys {keys : List PublicKey} (h : keys.length < 2 ^ 64) :
      Plain (.additionalPubkeys keys)

theorem readExtraField_write {field : TxExtraField} (h : field.Plain) (rest : Blob) :
    ∃ tag bytes, field.write = tag :: bytes ∧
      readExtraField tag (bytes ++ rest) = .ok (some (field, rest)) := by
  cases h with
  | pubkey key =>
      refine ⟨0x01, writeArray32 key, rfl, ?_⟩
      have hslice := getSlice_append (writeArray32 key) rest
      rw [writeArray32, length_toBytes] at hslice
      simp [readExtraField, writeArray32, hslice, ofBytes_toBytes]
  | @nonce bytes hlen =>
      refine ⟨0x02, writeBytesPrefixed bytes, rfl, ?_⟩
      have hsmall : bytes.length < 2 ^ 64 := lt_of_le_of_lt hlen (by decide)
      have hcount := readCount_write hsmall (bytes ++ rest)
      have hnot : ¬ bytes.length > txExtraNonceMaxCount := by omega
      simp [readExtraField, writeBytesPrefixed, List.append_assoc, hcount, Bind.bind, Except.bind,
        Pure.pure, Except.pure,
        hnot, getSlice_append]
  | @additionalPubkeys keys hlen =>
      refine ⟨0x04, writeVarint keys.length ++ writeArrays keys, rfl, ?_⟩
      have hcount := readCount_write hlen (writeArrays keys ++ rest)
      have hslice := getSlice_append (writeArrays keys) rest
      rw [length_writeArrays, Nat.mul_comm] at hslice
      simp [readExtraField, List.append_assoc, hcount, Bind.bind, Except.bind, hslice,
        Pure.pure, Except.pure,
        chunks32_writeArrays]

theorem parseExtraFields_write {fields : List TxExtraField} (h : ∀ f ∈ fields, f.Plain)
    {fuel : Nat} (hfuel : fields.length ≤ fuel) :
    parseExtraFields fuel (fields.flatMap TxExtraField.write) = ⟨fields, none, none⟩ := by
  induction fields generalizing fuel with
  | nil => cases fuel <;> rfl
  | cons field fields ih =>
      obtain ⟨fuel, rfl⟩ : ∃ n, fuel = n + 1 := ⟨fuel - 1, by simp at hfuel; omega⟩
      obtain ⟨tag, bytes, hwrite, hread⟩ :=
        readExtraField_write (h field (by simp)) (fields.flatMap TxExtraField.write)
      have hrest : parseExtraFields fuel (fields.flatMap TxExtraField.write) = ⟨fields, none, none⟩ :=
        ih (fun f hf => h f (by simp [hf])) (by simpa using hfuel)
      rw [List.flatMap_cons, hwrite, List.cons_append, parseExtraFields, hread]
      simp only [hrest]

theorem parseTxExtra_write {fields : List TxExtraField} (h : ∀ f ∈ fields, f.Plain) :
    parseTxExtra (fields.flatMap TxExtraField.write) = ⟨fields, none, none⟩ := by
  apply parseExtraFields_write h
  apply length_le_flatMap
  intro field
  cases field <;> simp [TxExtraField.write]

end Wownero

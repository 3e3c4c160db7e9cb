import Wownero.Codec
import Wownero.Keys
/-!
# ChaCha

The stream cipher the wallet's files are kept under, with its 64-bit counter and 64-bit nonce, and
the key stream that is laid over secret keys.  CryptoNight is a function here: nothing is asked
of it.
-/

namespace Wownero.Chacha

open Wownero.Archive

/-- `Key`. -/
abbrev Key := Bytes32

/-- `Iv`. -/
abbrev Iv := Hash8

/-- The nonce these bytes are. -/
def ivOfBytes (bytes : Blob) : Iv := Vector.ofFn fun i => bytes.getD i 0

/-- The sixteen words of the state. -/
abbrev Words := Vector UInt32 16

/-- `SIGMA`: "expand 32-byte k". -/
def sigma : Blob :=
  [0x65, 0x78, 0x70, 0x61, 0x6e, 0x64, 0x20, 0x33, 0x32, 0x2d, 0x62, 0x79, 0x74, 0x65, 0x20, 0x6b]

/-- `rotate_left`, by less than 32. -/
def rotateLeft (x : UInt32) (n : UInt32) : UInt32 := (x <<< n) ||| (x >>> (32 - n))

/-- `quarter_round`. -/
def quarterRound (a b c d : Fin 16) (x : Words) : Words :=
  let x := x.set a (x[a] + x[b])
  let x := x.set d (rotateLeft (x[d] ^^^ x[a]) 16)
  let x := x.set c (x[c] + x[d])
  let x := x.set b (rotateLeft (x[b] ^^^ x[c]) 12)
  let x := x.set a (x[a] + x[b])
  let x := x.set d (rotateLeft (x[d] ^^^ x[a]) 8)
  let x := x.set c (x[c] + x[d])
  x.set b (rotateLeft (x[b] ^^^ x[c]) 7)

/-- Columns, then diagonals. -/
def doubleRound (x : Words) : Words :=
  let x := quarterRound 0 4 8 12 x
  let x := quarterRound 1 5 9 13 x
  let x := quarterRound 2 6 10 14 x
  let x := quarterRound 3 7 11 15 x
  let x := quarterRound 0 5 10 15 x
  let x := quarterRound 1 6 11 12 x
  let x := quarterRound 2 7 8 13 x
  quarterRound 3 4 9 14 x

/-- A word of these bytes. -/
def wordAt (bytes : Blob) (i : Nat) : UInt32 := UInt32.ofNat (leNat ((bytes.drop (4 * i)).take 4))

/-- The state before the first block: the counter in words 12 and 13, the nonce behind it. -/
def initial (key : Key) (iv : Iv) : Words :=
  Vector.ofFn fun i =>
    if i.val < 4 then wordAt sigma i.val
    else if i.val < 12 then wordAt (Bytes32.toBytes key) (i.val - 4)
    else if i.val < 14 then 0
    else wordAt iv.toList (i.val - 14)

/-- The stream of one block. -/
def block (rounds : Nat) (j : Words) : Blob :=
  let x := Nat.repeat doubleRound (rounds / 2) j
  (Vector.zipWith (· + ·) x j).toList.flatMap fun w => leBytes 4 w.toNat

/-- The 64-bit counter, low word first. -/
def advance (j : Words) : Words :=
  let j := j.set 12 (j[12] + 1)
  if j[12] = 0 then j.set 13 (j[13] + 1) else j

def xorBytes (bytes stream : Blob) : Blob := List.zipWith (· ^^^ ·) bytes stream

/-- The loop of `chacha` over the chunks. -/
def chachaChunks (rounds : Nat) : Nat → Words → Blob → Blob
  | 0, _, _ => []
  | n + 1, j, data =>
      xorBytes (data.take 64) (block rounds j) ++ chachaChunks rounds n (advance j) (data.drop 64)

/-- `chacha`. -/
def chacha (rounds : Nat) (data : Blob) (key : Key) (iv : Iv) : Blob :=
  chachaChunks rounds ((data.length + 63) / 64) (initial key iv) data

/-- `chacha20`. -/
def chacha20 (data : Blob) (key : Key) (iv : Iv) : Blob := chacha 20 data key iv

section

variable (cnSlowHash : Blob → Hash256)

/-- `derive_key_stream_key`: the key and `HASH_KEY_MEMORY`, hashed. -/
def deriveKeyStreamKey (base : Key) : Key := cnSlowHash (Bytes32.toBytes base ++ [0x6b])

/-- `key_stream`. -/
def keyStream (base : Key) (iv : Iv) (bytes : Nat) : Blob :=
  chacha20 (List.replicate bytes 0) (deriveKeyStreamKey cnSlowHash base) iv

end

theorem ivOfBytes_toList (iv : Iv) : ivOfBytes iv.toList = iv := by
  rw [ivOfBytes]
  ext i hi
  rw [Vector.getElem_ofFn, List.getD_eq_getElem?_getD, Vector.getElem?_toList, Vector.getElem?_eq_getElem hi,
    Option.getD_some]

theorem length_flatMap_words (ws : List UInt32) :
    (ws.flatMap fun w => leBytes 4 w.toNat).length = 4 * ws.length := by
  induction ws with
  | nil => rfl
  | cons w ws ih =>
      rw [List.flatMap_cons, List.length_append, length_leBytes, ih, List.length_cons]
      omega

theorem length_block (rounds : Nat) (j : Words) : (block rounds j).length = 64 := by
  rw [block, length_flatMap_words, Vector.length_toList]

theorem xorBytes_xorBytes {bytes stream : Blob} (h : bytes.length ≤ stream.length) :
    xorBytes (xorBytes bytes stream) stream = bytes := by
  induction bytes generalizing stream with
  | nil => rfl
  | cons b bytes ih =>
      cases stream with
      | nil => nomatch h
      | cons s stream =>
          have hrest := ih (Nat.le_of_succ_le_succ h)
          rw [xorBytes, xorBytes, List.zipWith_cons_cons, List.zipWith_cons_cons, UInt8.xor_assoc,
            UInt8.xor_self, UInt8.xor_zero]
          exact congrArg (b :: ·) hrest

theorem length_xorBytes (bytes stream : Blob) :
    (xorBytes bytes stream).length = min bytes.length stream.length := List.length_zipWith

/-- The chunks cover the data. -/
theorem length_chachaChunks (rounds : Nat) {n : Nat} (j : Words) {data : Blob} (h : data.length ≤ 64 * n) :
    (chachaChunks rounds n j data).length = data.length := by
  induction n generalizing j data with
  | zero => rw [chachaChunks, List.length_nil]; omega
  | succ n ih =>
      rw [chachaChunks, List.length_append, length_xorBytes, length_block, List.length_take,
        ih (advance j) (by rw [List.length_drop]; omega), List.length_drop]
      omega

theorem length_chacha20 (data : Blob) (key : Key) (iv : Iv) : (chacha20 data key iv).length = data.length :=
  length_chachaChunks 20 _ (by omega)

/-- Chunk by chunk, the same stream is laid over twice. -/
theorem chachaChunks_chachaChunks (rounds : Nat) {n : Nat} (j : Words) {data : Blob}
    (h : data.length ≤ 64 * n) : chachaChunks rounds n j (chachaChunks rounds n j data) = data := by
  induction n generalizing j data with
  | zero => rw [chachaChunks, List.eq_nil_of_length_eq_zero (Nat.le_zero.mp h)]
  | succ n ih =>
      have hfirst : (data.take 64).length ≤ (block rounds j).length := by
        rw [length_block, List.length_take]
        omega
      have hlength : (xorBytes (data.take 64) (block rounds j)).length = min 64 data.length := by
        rw [length_xorBytes, length_block, List.length_take]
        omega
      have hdrop : (data.drop 64).length ≤ 64 * n := by rw [List.length_drop]; omega
      have hback := xorBytes_xorBytes hfirst
      have hrest := ih (advance j) hdrop
      by_cases hshort : data.length ≤ 64
      · have hnil : data.drop 64 = [] := List.drop_of_length_le hshort
        have hnone : chachaChunks rounds n (advance j) [] = [] :=
          List.eq_nil_of_length_eq_zero (length_chachaChunks rounds (advance j) (Nat.zero_le _))
        rw [List.take_of_length_le hshort] at hlength hback
        rw [chachaChunks, chachaChunks, hnil, hnone, List.append_nil, List.take_of_length_le hshort,
          List.take_of_length_le (by omega), hback, List.drop_of_length_le (by omega), hnone, List.append_nil]
      · have hfull : (xorBytes (data.take 64) (block rounds j)).length = 64 := by omega
        rw [chachaChunks, chachaChunks, List.take_left' hfull, List.drop_left' hfull, hback, hrest,
          List.take_append_drop]

/-- What is enciphered twice is as it was. -/
theorem chacha20_chacha20 (data : Blob) (key : Key) (iv : Iv) :
    chacha20 (chacha20 data key iv) key iv = data := by
  have hlength := length_chacha20 data key iv
  rw [chacha20, chacha] at hlength ⊢
  rw [chacha20, chacha, hlength]
  exact chachaChunks_chachaChunks 20 _ (by omega)

-- The published stream of a key and a nonce of zeros.
example : chacha20 (List.replicate 8 0) 0 (Vector.replicate 8 0) =
    [0x76, 0xb8, 0xe0, 0xad, 0xa0, 0xf1, 0x3d, 0x90] := by decide +kernel

end Wownero.Chacha

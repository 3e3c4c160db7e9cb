import Mathlib.Data.List.GetD
import Mathlib.Data.Nat.Digits.Lemmas
import Wownero.Codec
/-!
# Base 58

Text for bytes, eight bytes at a time as eleven digits, the last bytes as fewer.  A block is a number
in two bases, and each length of the one base has one length of the other: what is decoded was encoded
so, and in no other way.
-/

namespace Wownero.Base58

open Wownero Wownero.Archive

/-! ### The alphabet and the sizes -/

/-- `ALPHABET`: the digits and the letters but `0`, `I`, `O` and `l`, as their bytes. -/
def alphabet : List UInt8 :=
  [49, 50, 51, 52, 53, 54, 55, 56, 57, 65, 66, 67, 68, 69, 70, 71, 72, 74, 75, 76, 77, 78, 80, 81, 82,
    83, 84, 85, 86, 87, 88, 89, 90, 97, 98, 99, 100, 101, 102, 103, 104, 105, 106, 107, 109, 110, 111,
    112, 113, 114, 115, 116, 117, 118, 119, 120, 121, 122]

def alphabetSize : Nat := 58

/-- `ENCODED_BLOCK_SIZES`. -/
def encodedBlockSizes : List Nat := [0, 2, 3, 5, 6, 7, 9, 10, 11]

def fullBlockSize : Nat := 8

def fullEncodedBlockSize : Nat := 11

/-- `Base58Error`. -/
inductive Base58Error where
  | invalidSymbol
  | invalidLength
  | overflow
  | checksumMismatch
  | badTag
  | tooShort
  deriving DecidableEq, Repr

/-- `decoded_block_size`. -/
def decodedBlockSize (encoded : Nat) : Option Nat := encodedBlockSizes.idxOf? encoded

/-- The character of a digit. -/
def symbol (digit : Nat) : UInt8 := alphabet.getD digit 0

/-! ### Blocks -/

/-- The first `i` characters of a block, which hold the first digit until a number is written over
    them from the last one on.  A number too large would be written before the block. -/
def encodeDigits : Nat → Nat → Option Blob
  | i, 0 => some (List.replicate i (symbol 0))
  | 0, _ + 1 => none
  | i + 1, num + 1 =>
      (encodeDigits i ((num + 1) / alphabetSize)).map (· ++ [symbol ((num + 1) % alphabetSize)])

/-- `encode_block`. -/
def encodeBlock (block : Blob) : Option Blob := do
  let n ← encodedBlockSizes[block.length]?
  encodeDigits n (beNat block)

/-- The loop of `decode_block`, from the last character of the block on. -/
def decodeDigits : Blob → Nat → Nat → Except Base58Error Nat
  | [], num, _ => .ok num
  | ch :: chs, num, order =>
      match alphabet.idxOf? ch with
      | none => .error .invalidSymbol
      | some digit =>
          if order * digit > u64Max then .error .overflow
          else if num + order * digit > u64Max then .error .overflow
          else decodeDigits chs (num + order * digit) (wrap64 (order * alphabetSize))

/-- `decode_block`. -/
def decodeBlock (block : Blob) : Except Base58Error Blob :=
  match decodedBlockSize block.length with
  | none => .error .invalidLength
  | some 0 => .error .invalidLength
  | some size => do
      let num ← decodeDigits block.reverse 0 1
      if size < fullBlockSize ∧ 2 ^ (8 * size) ≤ num then .error .overflow
      else .ok (leBytes size num).reverse

/-- The blocks of `encode`: so many full ones, and what is left. -/
def encodeBlocks : Nat → Blob → Option Blob
  | 0, data => if data.length = 0 then some [] else encodeBlock data
  | n + 1, data => do
      let first ← encodeBlock (data.take fullBlockSize)
      let others ← encodeBlocks n (data.drop fullBlockSize)
      return first ++ others

/-- `encode`.  There is no outcome where a block does not hold its digits. -/
def encode (data : Blob) : Option Blob :=
  if data.length = 0 then some [] else encodeBlocks (data.length / fullBlockSize) data

/-- The blocks of `decode`: so many full ones, and what is left. -/
def decodeBlocks : Nat → Blob → Except Base58Error Blob
  | 0, enc => if enc.length = 0 then .ok [] else decodeBlock enc
  | n + 1, enc => do
      let first ← decodeBlock (enc.take fullEncodedBlockSize)
      let others ← decodeBlocks n (enc.drop fullEncodedBlockSize)
      return first ++ others

/-- `decode`. -/
def decode (enc : Blob) : Except Base58Error Blob :=
  if enc.length = 0 then .ok []
  else
    match decodedBlockSize (enc.length % fullEncodedBlockSize) with
    | none => .error .invalidLength
    | some _ => decodeBlocks (enc.length / fullEncodedBlockSize) enc

/-! ### Digits -/

theorem idxOf?_symbol : ∀ digit < 58, alphabet.idxOf? (symbol digit) = some digit := by decide

theorem symbol_of_idxOf? {ch : UInt8} {digit : Nat} (h : alphabet.idxOf? ch = some digit) :
    digit < 58 ∧ symbol digit = ch := by
  obtain ⟨hlt, hget, -⟩ := List.idxOf?_eq_some_iff.mp h
  refine ⟨hlt, ?_⟩
  rw [symbol, List.getD_eq_getElem _ _ hlt]
  exact hget

/-- The digits of a number that fits them, the last first, are what is written. -/
theorem encodeDigits_eq {i num : Nat} (h : num < 58 ^ i) :
    ∃ digits : List Nat, digits.length = i ∧ (∀ d ∈ digits, d < 58) ∧ Nat.ofDigits 58 digits = num ∧
      encodeDigits i num = some (digits.map symbol).reverse := by
  induction i generalizing num with
  | zero =>
      obtain rfl : num = 0 := by omega
      exact ⟨[], rfl, by simp, rfl, rfl⟩
  | succ i ih =>
      cases num with
      | zero =>
          refine ⟨List.replicate (i + 1) 0, List.length_replicate, ?_, ?_, ?_⟩
          · intro d hd
            rw [List.eq_of_mem_replicate hd]
            decide
          · exact Nat.ofDigits_replicate_zero
          · rw [encodeDigits, List.map_replicate, List.reverse_replicate]
      | succ num =>
          obtain ⟨digits, hlength, hsmall, hvalue, hencode⟩ := @ih ((num + 1) / 58) (by
            rw [Nat.div_lt_iff_lt_mul (by decide), ← Nat.pow_succ]
            exact h)
          refine ⟨(num + 1) % 58 :: digits, by rw [List.length_cons, hlength], ?_, ?_, ?_⟩
          · exact List.forall_mem_cons.mpr ⟨Nat.mod_lt _ (by decide), hsmall⟩
          · rw [Nat.ofDigits_cons, hvalue]
            exact Nat.mod_add_div (num + 1) 58
          · rw [encodeDigits, show (num + 1) / alphabetSize = (num + 1) / 58 from rfl, hencode,
              Option.map_some, List.map_cons, List.reverse_cons]
            rfl

/-- **No sum overflows unseen**: over the digits of a block, the last first, the loop ends in their
    number where that is a `u64`, and in an overflow everywhere else. -/
theorem decodeDigits_eq {digits : List Nat} (hsmall : ∀ d ∈ digits, d < 58) {k num : Nat}
    (hk : k + digits.length ≤ 11) (hnum : num < 2 ^ 64) :
    decodeDigits (digits.map symbol) num (58 ^ k) =
      if num + 58 ^ k * Nat.ofDigits 58 digits < 2 ^ 64 then
        .ok (num + 58 ^ k * Nat.ofDigits 58 digits)
      else .error .overflow := by
  induction digits generalizing k num with
  | nil =>
      rw [Nat.ofDigits_nil, Nat.mul_zero, Nat.add_zero, if_pos hnum]
      rfl
  | cons d digits ih =>
      obtain ⟨hd, hrest⟩ := List.forall_mem_cons.mp hsmall
      rw [List.length_cons] at hk
      have hsplit : num + 58 ^ k * Nat.ofDigits 58 (d :: digits) =
          num + 58 ^ k * d + 58 ^ (k + 1) * Nat.ofDigits 58 digits := by
        rw [Nat.ofDigits_cons]
        ring
      rw [hsplit, List.map_cons, decodeDigits, idxOf?_symbol d hd]
      simp only
      by_cases hsum : num + 58 ^ k * d < 2 ^ 64
      · rw [if_neg (by unfold u64Max; omega), if_neg (by unfold u64Max; omega)]
        cases digits with
        | nil =>
            rw [Nat.ofDigits_nil, Nat.mul_zero, Nat.add_zero, if_pos hsum]
            rfl
        | cons d' digits =>
            have hpower : 58 ^ (k + 1) < 2 ^ 64 := by
              rw [List.length_cons] at hk
              exact Nat.lt_of_le_of_lt (Nat.pow_le_pow_right (by decide) (by omega : k + 1 ≤ 10))
                (by norm_num)
            have hwrap : wrap64 (58 ^ k * alphabetSize) = 58 ^ (k + 1) := Nat.mod_eq_of_lt hpower
            rw [hwrap]
            exact ih hrest (by omega) hsum
      · rw [if_neg (by omega : ¬ num + 58 ^ k * d + _ < 2 ^ 64)]
        by_cases hproduct : 58 ^ k * d > u64Max
        · rw [if_pos hproduct]
        · rw [if_neg hproduct, if_pos (by unfold u64Max; omega)]

/-- Whatever the loop answers, it has read digits. -/
theorem digits_of_decodeDigits {chs : Blob} {num order n : Nat}
    (h : decodeDigits chs num order = .ok n) :
    ∃ digits : List Nat, (∀ d ∈ digits, d < 58) ∧ digits.map symbol = chs := by
  induction chs generalizing num order with
  | nil => exact ⟨[], by simp, rfl⟩
  | cons ch chs ih =>
      rw [decodeDigits] at h
      cases hdigit : alphabet.idxOf? ch with
      | none => rw [hdigit] at h; cases h
      | some digit =>
          rw [hdigit] at h
          simp only at h
          split_ifs at h
          obtain ⟨digits, hsmall, hmap⟩ := ih h
          obtain ⟨hlt, hsymbol⟩ := symbol_of_idxOf? hdigit
          exact ⟨digit :: digits, List.forall_mem_cons.mpr ⟨hlt, hsmall⟩,
            by rw [List.map_cons, hsymbol, hmap]⟩

/-! ### Blocks -/

/-- The sizes: a block of so many bytes, of so many digits, with the two lengths of one another. -/
inductive Sizes : Nat → Nat → Prop where
  | one : Sizes 1 2
  | two : Sizes 2 3
  | three : Sizes 3 5
  | four : Sizes 4 6
  | five : Sizes 5 7
  | six : Sizes 6 9
  | seven : Sizes 7 10
  | eight : Sizes 8 11

theorem sizes_of_bytes {size : Nat} (hpos : 0 < size) (hle : size ≤ 8) :
    ∃ n, Sizes size n ∧ encodedBlockSizes[size]? = some n := by
  interval_cases size
  · exact ⟨2, .one, rfl⟩
  · exact ⟨3, .two, rfl⟩
  · exact ⟨5, .three, rfl⟩
  · exact ⟨6, .four, rfl⟩
  · exact ⟨7, .five, rfl⟩
  · exact ⟨9, .six, rfl⟩
  · exact ⟨10, .seven, rfl⟩
  · exact ⟨11, .eight, rfl⟩

theorem decodedBlockSize_eq_some {n size : Nat} :
    decodedBlockSize n = some size ↔ n = 0 ∧ size = 0 ∨ Sizes size n := by
  unfold decodedBlockSize encodedBlockSizes
  rw [List.idxOf?_eq_some_iff]
  constructor
  · rintro ⟨hlt, hget, -⟩
    simp only [List.length_cons, List.length_nil] at hlt
    interval_cases size <;> subst hget
    · exact .inl ⟨rfl, rfl⟩
    · exact .inr .one
    · exact .inr .two
    · exact .inr .three
    · exact .inr .four
    · exact .inr .five
    · exact .inr .six
    · exact .inr .seven
    · exact .inr .eight
  · rintro (⟨rfl, rfl⟩ | hsizes)
    · exact ⟨by decide, rfl, by simp⟩
    · cases hsizes <;> exact ⟨by decide, rfl, by decide⟩

namespace Sizes

variable {size n : Nat}

theorem bounds (h : Sizes size n) : 0 < size ∧ size ≤ 8 ∧ 0 < n ∧ n ≤ 11 := by
  cases h <;> decide

theorem encoded (h : Sizes size n) : encodedBlockSizes[size]? = some n := by
  cases h <;> rfl

/-- The digits have room for the bytes. -/
theorem room (h : Sizes size n) : 256 ^ size ≤ 58 ^ n := by
  cases h <;> decide

end Sizes

theorem symbol_lt : ∀ digit < 58, symbol digit < 128 := by decide

theorem encodeBlock_eq {block : Blob} {n : Nat} (h : Sizes block.length n) :
    encodeBlock block = encodeDigits n (beNat block) := by
  rw [encodeBlock, h.encoded, Option.bind_eq_bind, Option.bind_some]

theorem beNat_lt (block : Blob) : beNat block < 256 ^ block.length := by
  have hvalue := beNat_leBytes block.length (leNat block.reverse)
  rw [← List.length_reverse, leBytes_leNat, List.reverse_reverse] at hvalue
  rw [hvalue, List.length_reverse]
  exact Nat.mod_lt _ (Nat.pow_pos (by decide))

/-- The bytes of the number of a block are the block. -/
theorem leBytes_beNat (block : Blob) : (leBytes block.length (beNat block)).reverse = block := by
  rw [beNat_eq_leNat, ← List.length_reverse, leBytes_leNat, List.reverse_reverse]

theorem two_pow_bits (size : Nat) : 2 ^ (8 * size) = 256 ^ size := by
  rw [Nat.pow_mul]

/-- **A block of digits, the last first**: its bytes where its number fits them, and an overflow
    everywhere else. -/
theorem decodeBlock_digits {digits : List Nat} (hsmall : ∀ d ∈ digits, d < 58) {size : Nat}
    (h : Sizes size digits.length) :
    decodeBlock (digits.map symbol).reverse =
      if Nat.ofDigits 58 digits < 256 ^ size then .ok (leBytes size (Nat.ofDigits 58 digits)).reverse
      else .error .overflow := by
  obtain ⟨hpos, hle, -, hn⟩ := h.bounds
  have hloop := @decodeDigits_eq digits hsmall 0 0 (by omega) (by decide)
  rw [Nat.pow_zero, Nat.one_mul, Nat.zero_add] at hloop
  have hsize : decodedBlockSize (digits.map symbol).reverse.length = some size := by
    rw [List.length_reverse, List.length_map]
    exact decodedBlockSize_eq_some.mpr (.inr h)
  have hword : 256 ^ size ≤ 2 ^ 64 := (Nat.pow_le_pow_right (by decide) hle).trans (by norm_num)
  unfold decodeBlock
  rw [hsize, List.reverse_reverse, hloop]
  obtain _ | size := size
  · omega
  · show (Except.bind _ fun num => if size + 1 < 8 ∧ 2 ^ (8 * (size + 1)) ≤ num then _ else _) = _
    rw [two_pow_bits]
    by_cases hfits : Nat.ofDigits 58 digits < 256 ^ (size + 1)
    · rw [if_pos (by omega), if_pos hfits]
      show (if _ ∧ _ then _ else _) = _
      rw [if_neg (by omega)]
    · rw [if_neg hfits]
      by_cases hshort : size + 1 < 8
      · split_ifs
        · show (if _ ∧ _ then _ else _) = _
          rw [if_pos (by omega)]
        · rfl
      · have hfull : 256 ^ (size + 1) = 2 ^ 64 := by
          obtain rfl : size = 7 := by omega
          rfl
        rw [if_neg (by omega)]
        rfl

/-- A block is written as text and read back. -/
theorem decodeBlock_encodeBlock {block : Blob} {n : Nat} (h : Sizes block.length n) :
    ∃ enc, encodeBlock block = some enc ∧ enc.length = n ∧ (∀ c ∈ enc, c < 128) ∧
      decodeBlock enc = .ok block := by
  have hfits := beNat_lt block
  obtain ⟨digits, hlength, hsmall, hvalue, hencode⟩ := encodeDigits_eq (hfits.trans_le h.room)
  refine ⟨(digits.map symbol).reverse, (encodeBlock_eq h).trans hencode, ?_, ?_, ?_⟩
  · rw [List.length_reverse, List.length_map, hlength]
  · intro c hc
    obtain ⟨d, hd, rfl⟩ := List.mem_map.mp (List.mem_reverse.mp hc)
    exact symbol_lt d (hsmall d hd)
  · rw [decodeBlock_digits hsmall (hlength ▸ h), hvalue, if_pos hfits, leBytes_beNat]

/-- What is read of a block is written as it was. -/
theorem encodeBlock_decodeBlock {enc block : Blob} (h : decodeBlock enc = .ok block) :
    Sizes block.length enc.length ∧ encodeBlock block = some enc := by
  have hwhole := h
  unfold decodeBlock at h
  split at h
  · cases h
  · cases h
  · rename_i size hnonzero hsize
    have hsizes : Sizes size enc.length := by
      rcases decodedBlockSize_eq_some.mp hsize with ⟨-, rfl⟩ | hsizes
      · exact absurd rfl hnonzero
      · exact hsizes
    obtain ⟨num, hnum, -⟩ := Outcome.bind_eq_ok.mp h
    obtain ⟨digits, hsmall, hmap⟩ := digits_of_decodeDigits hnum
    have hlength : digits.length = enc.length := by
      rw [← List.length_map, hmap, List.length_reverse]
    have hread : decodeBlock (digits.map symbol).reverse = .ok block := by
      rw [hmap, List.reverse_reverse]
      exact hwhole
    rw [decodeBlock_digits hsmall (hlength ▸ hsizes)] at hread
    split_ifs at hread with hfits
    cases hread
    have hback : (leBytes size (Nat.ofDigits 58 digits)).reverse.length = size := by
      rw [List.length_reverse, length_leBytes]
    rw [← hback] at hsizes
    refine ⟨hsizes, ?_⟩
    rw [encodeBlock_eq hsizes, beNat_leBytes, Nat.mod_eq_of_lt hfits]
    obtain ⟨digits', hlength', hsmall', hvalue', hencode⟩ :=
      encodeDigits_eq (i := enc.length) (hfits.trans_le (hback ▸ hsizes.room))
    obtain rfl : digits' = digits := Nat.ofDigits_inj_of_len_eq (by decide)
      (hlength'.trans hlength.symm) hsmall' hsmall hvalue'
    rw [hencode, hmap, List.reverse_reverse]

/-! ### Whole texts -/

theorem encodeBlocks_zero {data : Blob} {r : Nat} (h : data.length = 0 ∧ r = 0 ∨ Sizes data.length r) :
    ∃ enc, encodeBlocks 0 data = some enc ∧ enc.length = r ∧ (∀ c ∈ enc, c < 128) ∧
      decodeBlocks 0 enc = .ok data := by
  rcases h with ⟨hzero, rfl⟩ | hsizes
  · obtain rfl := List.eq_nil_of_length_eq_zero hzero
    exact ⟨[], rfl, rfl, by simp, rfl⟩
  · obtain ⟨enc, hencode, hlength, hascii, hdecode⟩ := decodeBlock_encodeBlock hsizes
    obtain ⟨hpos, -, hn, -⟩ := hsizes.bounds
    refine ⟨enc, ?_, hlength, hascii, ?_⟩
    · rw [encodeBlocks, if_neg (by omega), hencode]
    · rw [decodeBlocks, if_neg (by omega), hdecode]

/-- Any number of full blocks, and what is left, are written and read back. -/
theorem decodeBlocks_encodeBlocks {n r s : Nat} {data : Blob} (hdata : data.length = 8 * n + s)
    (hrest : s = 0 ∧ r = 0 ∨ Sizes s r) :
    ∃ enc, encodeBlocks n data = some enc ∧ enc.length = 11 * n + r ∧ (∀ c ∈ enc, c < 128) ∧
      decodeBlocks n enc = .ok data := by
  induction n generalizing data with
  | zero =>
      obtain rfl : data.length = s := by omega
      obtain ⟨enc, hencode, hlength, hascii, hdecode⟩ := encodeBlocks_zero hrest
      exact ⟨enc, hencode, by omega, hascii, hdecode⟩
  | succ n ih =>
      have hfirst : (data.take 8).length = 8 := by
        rw [List.length_take]
        omega
      obtain ⟨first, hencodeFirst, hlengthFirst, hasciiFirst, hdecodeFirst⟩ :=
        @decodeBlock_encodeBlock (data.take 8) _ (hfirst ▸ Sizes.eight)
      obtain ⟨others, hencode, hlength, hascii, hdecode⟩ := @ih (data.drop 8) (by
        rw [List.length_drop]
        omega)
      refine ⟨first ++ others, ?_, ?_, ?_, ?_⟩
      · show ((encodeBlock (data.take 8)).bind fun first => (encodeBlocks n (data.drop 8)).bind fun others =>
          some (first ++ others)) = _
        rw [hencodeFirst, Option.bind_some, hencode, Option.bind_some]
      · rw [List.length_append]
        omega
      · intro c hc
        rcases List.mem_append.mp hc with h | h
        · exact hasciiFirst c h
        · exact hascii c h
      · have htake : (first ++ others).take fullEncodedBlockSize = first :=
          List.take_left' hlengthFirst
        have hdrop : (first ++ others).drop fullEncodedBlockSize = others :=
          List.drop_left' hlengthFirst
        rw [decodeBlocks, htake, hdrop, hdecodeFirst, hdecode]
        exact congrArg Except.ok (List.take_append_drop 8 data)

/-- What is read of any number of full blocks, and what is left, is written as it was. -/
theorem encodeBlocks_decodeBlocks {n r : Nat} {enc data : Blob} (henc : enc.length = 11 * n + r)
    (hr : r < 11) (h : decodeBlocks n enc = .ok data) :
    encodeBlocks n data = some enc ∧ data.length / 8 = n := by
  induction n generalizing enc data with
  | zero =>
      rw [decodeBlocks] at h
      split_ifs at h with hzero
      · cases h
        obtain rfl := List.eq_nil_of_length_eq_zero hzero
        exact ⟨rfl, rfl⟩
      · obtain ⟨hsizes, hencode⟩ := encodeBlock_decodeBlock h
        have hshort : data.length < 8 := by
          generalize data.length = size at hsizes
          generalize enc.length = n at hsizes henc
          cases hsizes <;> omega
        have hpos := hsizes.bounds.1
        exact ⟨by rw [encodeBlocks, if_neg (by omega), hencode], by omega⟩
  | succ n ih =>
      obtain ⟨first, hfirst, h⟩ := Outcome.bind_eq_ok.mp h
      obtain ⟨others, hothers, h⟩ := Outcome.bind_eq_ok.mp h
      cases h
      obtain ⟨hsizes, hencodeFirst⟩ := encodeBlock_decodeBlock hfirst
      have hlengthFirst : first.length = 8 := by
        have htake : (enc.take fullEncodedBlockSize).length = 11 := by
          rw [List.length_take, fullEncodedBlockSize]
          omega
        rw [htake] at hsizes
        generalize first.length = size at hsizes
        cases hsizes
        rfl
      obtain ⟨hencode, hcount⟩ := ih (by rw [List.length_drop, fullEncodedBlockSize]; omega) hothers
      have htake : (first ++ others).take fullBlockSize = first := List.take_left' hlengthFirst
      have hdrop : (first ++ others).drop fullBlockSize = others := List.drop_left' hlengthFirst
      refine ⟨?_, ?_⟩
      · rw [encodeBlocks, htake, hdrop, hencodeFirst, hencode]
        exact congrArg some (List.take_append_drop fullEncodedBlockSize enc)
      · rw [List.length_append]
        omega

/-- **What is written is read back**, and is text. -/
theorem decode_encode (data : Blob) :
    ∃ enc, encode data = some enc ∧ (∀ c ∈ enc, c < 128) ∧ decode enc = .ok data := by
  by_cases hempty : data.length = 0
  · obtain rfl := List.eq_nil_of_length_eq_zero hempty
    exact ⟨[], rfl, by simp, rfl⟩
  · have hsizes : ∃ r, (data.length % 8 = 0 ∧ r = 0 ∨ Sizes (data.length % 8) r) ∧ r < 11 := by
      by_cases hzero : data.length % 8 = 0
      · exact ⟨0, .inl ⟨hzero, rfl⟩, by decide⟩
      · obtain ⟨r, hr, -⟩ := @sizes_of_bytes (data.length % 8) (by omega) (by omega)
        refine ⟨r, .inr hr, ?_⟩
        have hlt : data.length % 8 < 8 := Nat.mod_lt _ (by decide)
        generalize data.length % 8 = size at hr hlt
        cases hr <;> omega
    obtain ⟨r, hrest, hr⟩ := hsizes
    obtain ⟨enc, hencode, hlength, hascii, hdecode⟩ :=
      @decodeBlocks_encodeBlocks (data.length / 8) _ _ data (by omega) hrest
    have hmod : enc.length % fullEncodedBlockSize = r := by
      rw [hlength, fullEncodedBlockSize]
      omega
    have hdiv : enc.length / fullEncodedBlockSize = data.length / 8 := by
      rw [hlength, fullEncodedBlockSize]
      omega
    refine ⟨enc, ?_, hascii, ?_⟩
    · rw [encode, if_neg hempty]
      exact hencode
    · have hnonempty : enc.length ≠ 0 := by
        intro hzero
        rcases hrest with ⟨hmultiple, -⟩ | hsizes
        · omega
        · have := hsizes.bounds
          omega
      rw [decode, if_neg hnonempty, hmod, decodedBlockSize_eq_some.mpr (hrest.imp And.symm id), hdiv]
      exact hdecode

/-- **No two texts are the same bytes.** -/
theorem encode_decode {enc data : Blob} (h : decode enc = .ok data) : encode data = some enc := by
  unfold decode at h
  split_ifs at h with hempty
  · cases h
    obtain rfl := List.eq_nil_of_length_eq_zero hempty
    rfl
  · split at h
    · cases h
    · obtain ⟨hencode, hcount⟩ := encodeBlocks_decodeBlocks
        (r := enc.length % fullEncodedBlockSize) (Nat.div_add_mod _ _).symm
        (Nat.mod_lt _ (by decide)) h
      rw [← hcount] at hencode
      by_cases hdata : data.length = 0
      · obtain rfl := List.eq_nil_of_length_eq_zero hdata
        obtain rfl := Option.some.inj hencode
        exact absurd rfl hempty
      · rw [encode, if_neg hdata]
        exact hencode

end Wownero.Base58

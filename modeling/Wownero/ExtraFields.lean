import Mathlib.Data.List.TakeWhile
import Wownero.TxExtra
/-!
# The fields of `extra` and their bytes

A field that is read is the bytes in front of it written again, but for what a merge-mining blob
carries behind its root.  The parser is followed by its indices, as the machine adds them: a length
near the top of the word leaves the sum that ends a slice no room.
-/

namespace Wownero

open Outcome Wownero.Archive

/-! ### Fields as they are carried -/

/-- What a parse returns, and what a field of these bounds is written as. -/
def TxExtraField.Fits : TxExtraField → Prop
  | .padding len => 1 ≤ len ∧ len ≤ txExtraPaddingMaxCount
  | .pubkey _ => True
  | .nonce bytes => bytes.length ≤ txExtraNonceMaxCount
  | .mergeMining depth _ => depth < 2 ^ 64
  | .additionalPubkeys keys => keys.length * 32 < 2 ^ 64
  | .mysteriousMinergate bytes => bytes.length < 2 ^ 64

def TxExtraField.isPadding : TxExtraField → Bool
  | .padding _ => true
  | _ => false

/-- The field with a surplus in its blob, which only merge mining has room for. -/
def TxExtraField.carrying : TxExtraField → Blob → Blob
  | .mergeMining depth merkleRoot, surplus =>
      0x03 :: writeBytesPrefixed (writeVarint depth ++ writeArray32 merkleRoot ++ surplus)
  | field, _ => field.write

theorem TxExtraField.carrying_nil (field : TxExtraField) : field.carrying [] = field.write := by
  cases field with
  | mergeMining depth merkleRoot => rw [carrying, write, List.append_nil]
  | _ => rfl

theorem TxExtraField.length_carrying_pos (field : TxExtraField) (surplus : Blob) :
    0 < (field.carrying surplus).length := by
  cases field <;> exact Nat.succ_pos _

/-! ### The parser by its indices -/

/-- What ends the reading of a field: a sum or an index that stops the program, or a malformed field. -/
inductive ExtraStop where
  | overflow
  | malformed (e : TxExtraError)
  deriving DecidableEq, Repr

/-- `i + n` on a `usize`. -/
def indexAdd (i n : Nat) : Except ExtraStop Nat :=
  match checkedAdd i n with
  | some j => .ok j
  | none => .error .overflow

/-- `extra.get(i..i + n)`. -/
def sliceAt (extra : Blob) (i n : Nat) : Except ExtraStop Blob := do
  let j ← indexAdd i n
  if j ≤ extra.length then return (extra.drop i).take n
  else throw (.malformed .truncated)

/-- `read_varint(&extra[i..])`: the value and the bytes it took. -/
def countAt (extra : Blob) (i : Nat) : Except ExtraStop (Nat × Nat) :=
  if i ≤ extra.length then
    match readVarintBits (extra.drop i) 64 with
    | .ok v => if v.truncated then .error (.malformed .badVarint) else .ok (v.value, v.len)
    | .error _ => .error (.malformed .badVarint)
  else .error .overflow

/-- One turn of `parse_tx_extra` behind its tag: the field and the index after it. -/
def readFieldAt (extra : Blob) (tag : UInt8) (fieldStart : Nat) :
    Except ExtraStop (Option (TxExtraField × Nat)) := do
  let i ← indexAdd fieldStart 1
  if tag = 0x00 then
    let n := ((extra.drop i).takeWhile (· == 0)).length
    let i ← indexAdd i n
    if i - fieldStart > txExtraPaddingMaxCount then throw (.malformed .paddingTooLong)
    else if i < extra.length then throw (.malformed .badPadding)
    else return some (.padding (n + 1), i)
  else if tag = 0x01 then
    let key ← sliceAt extra i 32
    return some (.pubkey (Bytes32.ofBytes key), ← indexAdd i 32)
  else if tag = 0x02 then
    let (len, used) ← countAt extra i
    let i ← indexAdd i used
    if len > txExtraNonceMaxCount then throw (.malformed .nonceTooLong)
    else
      let nonce ← sliceAt extra i len
      return some (.nonce nonce, ← indexAdd i len)
  else if tag = 0x03 then
    let (len, used) ← countAt extra i
    let i ← indexAdd i used
    let body ← sliceAt extra i len
    let i ← indexAdd i len
    let (depth, dUsed) ← countAt body 0
    let root ← sliceAt body dUsed 32
    return some (.mergeMining depth (Bytes32.ofBytes root), i)
  else if tag = 0x04 then
    let (count, used) ← countAt extra i
    let i ← indexAdd i used
    -- `checked_mul`, and a slice of what is left: no index to overflow
    match if i ≤ extra.length then checkedMul count 32 else none with
    | none => throw (.malformed .truncated)
    | some need =>
        if need ≤ (extra.drop i).length then
          return some (.additionalPubkeys (chunks32 count ((extra.drop i).take need)), ← indexAdd i need)
        else throw (.malformed .truncated)
  else if tag = 0xde then
    let (len, used) ← countAt extra i
    let i ← indexAdd i used
    let body ← sliceAt extra i len
    return some (.mysteriousMinergate body, ← indexAdd i len)
  else return none

/-- The loop of `parse_tx_extra` by its index; `none` where the program stops or the fuel runs out. -/
def parseFieldsAt (extra : Blob) : Nat → Nat → Option ParsedExtra
  | fuel, i =>
      match extra[i]? with
      | none => some ⟨[], none, none⟩
      | some tag =>
          match fuel with
          | 0 => none
          | fuel + 1 =>
              match readFieldAt extra tag i with
              | .error .overflow => none
              | .error (.malformed e) => some ⟨[], none, some e⟩
              | .ok none => some ⟨[], some tag, none⟩
              | .ok (some (field, j)) =>
                  (parseFieldsAt extra fuel j).map fun p => { p with fields := field :: p.fields }

/-- `parse_tx_extra` with its sums checked. -/
def parseTxExtraChecked (extra : Blob) : Option ParsedExtra := parseFieldsAt extra extra.length 0

/-! ### Reading one field -/

theorem getSlice_eq_ok {n : Nat} {input bs rest : Blob} :
    getSlice n input = .ok (bs, rest) ↔ input = bs ++ rest ∧ bs.length = n := by
  unfold getSlice
  split
  · next hle =>
      constructor
      · intro h
        obtain ⟨rfl, rfl⟩ := Prod.mk.inj (Except.ok.inj h)
        exact ⟨(List.take_append_drop n input).symm, List.length_take_of_le hle⟩
      · rintro ⟨rfl, rfl⟩
        rw [List.take_left, List.drop_left]
  · next hgt =>
      constructor
      · exact fun h => nomatch h
      · rintro ⟨rfl, rfl⟩
        rw [List.length_append] at hgt
        omega

theorem readCount_eq_ok {input rest : Blob} {n : Nat} :
    readCount input = .ok (n, rest) ↔ n < 2 ^ 64 ∧ input = writeVarint n ++ rest := by
  rw [← readVarintStrict_eq_some, readCount]
  cases readVarintStrict input with
  | none => exact ⟨fun h => (by cases h), fun h => by cases h⟩
  | some found => rw [Except.ok.injEq, Option.some.injEq]

theorem writeArrays_chunks32 {n : Nat} {bs : Blob} (h : bs.length = n * 32) :
    writeArrays (chunks32 n bs) = bs ∧ (chunks32 n bs).length = n := by
  induction n generalizing bs with
  | zero =>
      obtain rfl : bs = [] := List.eq_nil_of_length_eq_zero (by omega)
      exact ⟨rfl, rfl⟩
  | succ n ih =>
      have htake : (bs.take 32).length = 32 := List.length_take_of_le (by omega)
      have hdrop : (bs.drop 32).length = n * 32 := by
        rw [List.length_drop]
        omega
      obtain ⟨hwrite, hlen⟩ := ih hdrop
      refine ⟨?_, by rw [chunks32, List.length_cons, hlen]⟩
      rw [chunks32, writeArrays, List.flatMap_cons, toBytes_ofBytes htake]
      rw [writeArrays] at hwrite
      rw [hwrite, List.take_append_drop]

/-- The zeros of a padding run to the end. -/
theorem zeros_of_all {input : Blob} (h : ¬(input.takeWhile (· == 0)).length < input.length) :
    input = List.replicate (input.takeWhile (· == 0)).length 0 := by
  have hall : input.takeWhile (· == 0) = input :=
    (List.takeWhile_prefix _).eq_of_length_le (by omega)
  rw [hall]
  refine List.eq_replicate_length.mpr fun b hb => ?_
  rw [← hall] at hb
  have hzero := List.mem_takeWhile_imp hb
  exact beq_iff_eq.mp hzero

/-- What a field is read from is the field, carried. -/
theorem readExtraField_exact {tag : UInt8} {input rest : Blob} {field : TxExtraField}
    (hinput : input.length < 2 ^ 64) (h : readExtraField tag input = .ok (some (field, rest))) :
    ∃ surplus, tag :: input = field.carrying surplus ++ rest ∧ field.Fits ∧
      (field.isPadding = true → rest = []) ∧
      (surplus ≠ [] → ∃ depth root, field = .mergeMining depth root) := by
  by_cases hpad : tag = 0x00
  · -- padding takes everything that is left
    rw [readExtraField, if_pos hpad, if_ok_iff, if_ok_iff] at h
    obtain ⟨hlong, hbad, hfound⟩ := h
    obtain ⟨rfl, rfl⟩ := Prod.mk.inj (Option.some.inj (Except.ok.inj hfound))
    refine ⟨[], ?_, ⟨by omega, by omega⟩, fun _ => rfl, fun hne => absurd rfl hne⟩
    rw [hpad, TxExtraField.carrying_nil, TxExtraField.write, List.append_nil, Nat.add_sub_cancel,
      ← zeros_of_all hbad]
  by_cases hkey : tag = 0x01
  · rw [readExtraField, if_neg hpad, if_pos hkey] at h
    simp only [bind_eq_ok, pure_eq_ok] at h
    obtain ⟨⟨key, rest'⟩, hslice, hfound⟩ := h
    obtain ⟨rfl, rfl⟩ := Prod.mk.inj (Option.some.inj hfound)
    obtain ⟨rfl, hlen⟩ := getSlice_eq_ok.mp hslice
    refine ⟨[], ?_, trivial, (fun hpadding => by cases hpadding), fun hne => absurd rfl hne⟩
    rw [hkey, TxExtraField.carrying_nil, TxExtraField.write, writeArray32, toBytes_ofBytes hlen]
    rfl
  by_cases hnonce : tag = 0x02
  · rw [readExtraField, if_neg hpad, if_neg hkey, if_pos hnonce] at h
    obtain ⟨⟨len, rest₁⟩, hcount, hchecked⟩ := bind_eq_ok.mp h
    obtain ⟨-, rfl⟩ := readCount_eq_ok.mp hcount
    dsimp only at hchecked
    split at hchecked
    · cases hchecked
    · next hlong =>
      simp only [bind_eq_ok, pure_eq_ok] at hchecked
      obtain ⟨⟨bytes, rest₂⟩, hslice, hfound⟩ := hchecked
      obtain ⟨rfl, rfl⟩ := Prod.mk.inj (Option.some.inj hfound)
      obtain ⟨rfl, rfl⟩ := getSlice_eq_ok.mp hslice
      refine ⟨[], ?_, Nat.le_of_not_lt hlong, (fun hpadding => by cases hpadding), fun hne => absurd rfl hne⟩
      rw [hnonce, TxExtraField.carrying_nil, TxExtraField.write, writeBytesPrefixed, List.cons_append,
        List.append_assoc]
  by_cases hmerge : tag = 0x03
  · rw [readExtraField, if_neg hpad, if_neg hkey, if_neg hnonce, if_pos hmerge] at h
    simp only [bind_eq_ok, pure_eq_ok] at h
    obtain ⟨⟨len, rest₁⟩, hcount, ⟨body, rest₂⟩, hslice, ⟨depth, body'⟩, hdepth, ⟨root, surplus⟩, hroot,
      hfound⟩ := h
    obtain ⟨rfl, rfl⟩ := Prod.mk.inj (Option.some.inj hfound)
    obtain ⟨-, rfl⟩ := readCount_eq_ok.mp hcount
    obtain ⟨rfl, rfl⟩ := getSlice_eq_ok.mp hslice
    obtain ⟨hfits, rfl⟩ := readCount_eq_ok.mp hdepth
    obtain ⟨rfl, hlen⟩ := getSlice_eq_ok.mp hroot
    refine ⟨surplus, ?_, hfits, (fun hpadding => by cases hpadding), fun _ => ⟨_, _, rfl⟩⟩
    simp only [hmerge, TxExtraField.carrying, writeArray32, toBytes_ofBytes hlen, writeBytesPrefixed,
      List.cons_append, List.append_assoc]
  by_cases hkeys : tag = 0x04
  · rw [readExtraField, if_neg hpad, if_neg hkey, if_neg hnonce, if_neg hmerge, if_pos hkeys] at h
    simp only [bind_eq_ok, pure_eq_ok] at h
    obtain ⟨⟨count, rest₁⟩, hcount, ⟨body, rest₂⟩, hslice, hfound⟩ := h
    obtain ⟨rfl, rfl⟩ := Prod.mk.inj (Option.some.inj hfound)
    obtain ⟨-, rfl⟩ := readCount_eq_ok.mp hcount
    obtain ⟨rfl, hlen⟩ := getSlice_eq_ok.mp hslice
    obtain ⟨hwrite, hnum⟩ := writeArrays_chunks32 hlen
    refine ⟨[], ?_, ?_, (fun hpadding => by cases hpadding), fun hne => absurd rfl hne⟩
    · simp only [hkeys, TxExtraField.carrying_nil, TxExtraField.write, hnum, hwrite, List.cons_append,
        List.append_assoc]
    · rw [List.length_append, List.length_append] at hinput
      rw [TxExtraField.Fits, hnum]
      omega
  by_cases hgate : tag = 0xde
  · rw [readExtraField, if_neg hpad, if_neg hkey, if_neg hnonce, if_neg hmerge, if_neg hkeys,
      if_pos hgate] at h
    simp only [bind_eq_ok, pure_eq_ok] at h
    obtain ⟨⟨len, rest₁⟩, hcount, ⟨bytes, rest₂⟩, hslice, hfound⟩ := h
    obtain ⟨rfl, rfl⟩ := Prod.mk.inj (Option.some.inj hfound)
    obtain ⟨hfits, rfl⟩ := readCount_eq_ok.mp hcount
    obtain ⟨rfl, rfl⟩ := getSlice_eq_ok.mp hslice
    refine ⟨[], ?_, hfits, (fun hpadding => by cases hpadding), fun hne => absurd rfl hne⟩
    rw [hgate, TxExtraField.carrying_nil, TxExtraField.write, writeBytesPrefixed, List.cons_append,
      List.append_assoc]
  · rw [readExtraField, if_neg hpad, if_neg hkey, if_neg hnonce, if_neg hmerge, if_neg hkeys,
      if_neg hgate] at h
    cases h

/-- A field, carried, is read back; padding only where nothing follows it. -/
theorem readExtraField_carrying {field : TxExtraField} (h : field.Fits) {surplus rest : Blob}
    (hroom : (field.carrying surplus).length < 2 ^ 64) (hlast : field.isPadding = true → rest = []) :
    ∃ tag bytes, field.carrying surplus = tag :: bytes ∧
      readExtraField tag (bytes ++ rest) = .ok (some (field, rest)) := by
  have hslice (bs rest : Blob) {n : Nat} (hn : bs.length = n) : getSlice n (bs ++ rest) = .ok (bs, rest) :=
    getSlice_eq_ok.mpr ⟨rfl, hn⟩
  cases field with
  | padding len =>
      obtain rfl := hlast rfl
      refine ⟨_, _, rfl, ?_⟩
      have hwhile : (List.replicate (len - 1) (0 : UInt8)).takeWhile (· == 0) = List.replicate (len - 1) 0 := by
        rw [List.takeWhile_replicate]
        rfl
      have hbounds : 1 ≤ len ∧ len ≤ txExtraPaddingMaxCount := h
      simp only [readExtraField, if_true, List.append_nil, hwhile, List.length_replicate]
      rw [if_neg (by omega), if_neg (Nat.lt_irrefl _), Nat.sub_add_cancel hbounds.1]
  | pubkey key =>
      refine ⟨_, _, rfl, ?_⟩
      rw [readExtraField, if_neg (by decide), if_pos rfl, writeArray32, hslice _ _ (length_toBytes key),
        ok_bind]
      dsimp only
      rw [ofBytes_toBytes]
      rfl
  | nonce bytes =>
      refine ⟨_, _, rfl, ?_⟩
      have hshort : bytes.length ≤ txExtraNonceMaxCount := h
      have hfits : bytes.length < 2 ^ 64 := Nat.lt_of_le_of_lt hshort (by decide)
      rw [readExtraField, if_neg (by decide), if_neg (by decide), if_pos rfl, writeBytesPrefixed,
        List.append_assoc, readCount_write hfits, ok_bind]
      dsimp only
      rw [if_neg (Nat.not_lt.mpr hshort), hslice _ _ rfl]
      rfl
  | mergeMining depth root =>
      refine ⟨_, _, rfl, ?_⟩
      have hdepth : depth < 2 ^ 64 := h
      rw [readExtraField, if_neg (by decide), if_neg (by decide), if_neg (by decide), if_pos rfl]
      obtain ⟨body, hbody⟩ : ∃ body, writeVarint depth ++ writeArray32 root ++ surplus = body := ⟨_, rfl⟩
      have hfits : body.length < 2 ^ 64 := by
        rw [TxExtraField.carrying, hbody, writeBytesPrefixed, List.length_cons, List.length_append] at hroom
        omega
      have hcount := readCount_write hfits (body ++ rest)
      have hinner := readCount_write hdepth (writeArray32 root ++ surplus)
      rw [List.append_assoc] at hbody
      rw [hbody] at hinner
      simp only [hbody, List.append_assoc, writeBytesPrefixed, hcount, ok_bind, hslice body rest rfl, hinner,
        hslice (writeArray32 root) surplus (length_toBytes root)]
      rw [writeArray32, ofBytes_toBytes]
      rfl
  | additionalPubkeys keys =>
      refine ⟨0x04, writeVarint keys.length ++ writeArrays keys, rfl, ?_⟩
      have hkeys : keys.length * 32 < 2 ^ 64 := h
      have hlen : (writeArrays keys).length = keys.length * 32 := by
        rw [length_writeArrays, Nat.mul_comm]
      rw [readExtraField, if_neg (by decide), if_neg (by decide), if_neg (by decide), if_neg (by decide),
        if_pos rfl, List.append_assoc, readCount_write (by omega), ok_bind]
      dsimp only
      rw [hslice _ _ hlen, ok_bind, chunks32_writeArrays]
      rfl
  | mysteriousMinergate bytes =>
      refine ⟨_, _, rfl, ?_⟩
      have hfits : bytes.length < 2 ^ 64 := h
      rw [readExtraField, if_neg (by decide), if_neg (by decide), if_neg (by decide), if_neg (by decide),
        if_neg (by decide), if_pos rfl, writeBytesPrefixed, List.append_assoc, readCount_write hfits, ok_bind]
      dsimp only
      rw [hslice _ _ rfl]
      rfl

/-! ### The run of the parser -/

/-- The bytes of fields, each with its surplus. -/
def carried (segments : List (TxExtraField × Blob)) : Blob := segments.flatMap fun s => s.1.carrying s.2

theorem carried_cons (s : TxExtraField × Blob) (segments : List (TxExtraField × Blob)) :
    carried (s :: segments) = s.1.carrying s.2 ++ carried segments := List.flatMap_cons

/-- The fields a parse returns stand at the front of its input. -/
theorem parseExtraFields_found {fuel : Nat} {input : Blob} (hinput : input.length < 2 ^ 64) :
    ∃ segments : List (TxExtraField × Blob), (parseExtraFields fuel input).fields = segments.map Prod.fst ∧
      carried segments <+: input ∧
      ∀ s ∈ segments, s.1.Fits ∧ (s.2 ≠ [] → ∃ depth root, s.1 = .mergeMining depth root) := by
  induction fuel generalizing input with
  | zero => exact ⟨[], rfl, List.nil_prefix, fun s hs => nomatch hs⟩
  | succ fuel ih =>
      cases input with
      | nil => exact ⟨[], rfl, List.nil_prefix, fun s hs => nomatch hs⟩
      | cons tag input =>
          rw [parseExtraFields]
          rw [List.length_cons] at hinput
          cases hread : readExtraField tag input with
          | error e => exact ⟨[], rfl, List.nil_prefix, fun s hs => nomatch hs⟩
          | ok found =>
              rcases found with - | ⟨field, rest⟩
              · exact ⟨[], rfl, List.nil_prefix, fun s hs => nomatch hs⟩
              · obtain ⟨surplus, hbytes, hfits, -, honly⟩ := readExtraField_exact (by omega) hread
                have hrest : rest.length < 2 ^ 64 := by
                  have hlen := congrArg List.length hbytes
                  rw [List.length_append, List.length_cons] at hlen
                  omega
                obtain ⟨segments, hfields, hprefix, hsurplus⟩ := ih hrest
                refine ⟨(field, surplus) :: segments, by rw [List.map_cons, ← hfields], ?_, ?_⟩
                · rw [hbytes, carried_cons]
                  exact (List.prefix_append_right_inj _).mpr hprefix
                · exact List.forall_mem_cons.mpr ⟨⟨hfits, honly⟩, hsurplus⟩

/-! ### The indices -/

/-- The index stands where `rest` is left. -/
def At (extra : Blob) (i : Nat) (rest : Blob) : Prop := i ≤ extra.length ∧ extra.drop i = rest

section

variable {extra rest : Blob} {i : Nat}

theorem At.eq_sub (h : At extra i rest) : i = extra.length - rest.length := by
  obtain ⟨hle, rfl⟩ := h
  rw [List.length_drop]
  omega

theorem At.add {bs : Blob} (h : At extra i (bs ++ rest)) : At extra (i + bs.length) rest := by
  obtain ⟨hle, hdrop⟩ := h
  refine ⟨?_, by rw [← List.drop_drop, hdrop, List.drop_left]⟩
  have hlen := congrArg List.length hdrop
  rw [List.length_drop, List.length_append] at hlen
  omega

theorem indexAdd_eq {n : Nat} (h : i + n < 2 ^ 64) : indexAdd i n = .ok (i + n) := by
  rw [indexAdd, checkedAdd_eq_some.mpr ⟨rfl, by unfold u64Max; omega⟩]

theorem indexAdd_overflow {n : Nat} (h : 2 ^ 64 ≤ i + n) : indexAdd i n = .error .overflow := by
  rw [indexAdd, checkedAdd, if_neg (by unfold u64Max; omega)]

/-- A slice by its indices is the slice of what is left. -/
theorem sliceAt_cases {n : Nat} (h : At extra i rest) (hsum : i + n < 2 ^ 64) :
    (∃ e, sliceAt extra i n = .error (.malformed e) ∧ getSlice n rest = .error e) ∨
      ∃ bs rest', rest = bs ++ rest' ∧ bs.length = n ∧ sliceAt extra i n = .ok bs ∧
        getSlice n rest = .ok (bs, rest') ∧ indexAdd i n = .ok (extra.length - rest'.length) := by
  obtain ⟨hle, rfl⟩ := h
  rw [sliceAt, indexAdd_eq hsum, ok_bind, getSlice, List.length_drop]
  by_cases hfits : i + n ≤ extra.length
  · refine .inr ⟨(extra.drop i).take n, (extra.drop i).drop n, (List.take_append_drop n _).symm, ?_, ?_, ?_, ?_⟩
    · rw [List.length_take, List.length_drop]
      omega
    · rw [if_pos hfits]
      rfl
    · rw [if_pos (by omega)]
    · rw [List.length_drop, List.length_drop, show i + n = extra.length - (extra.length - i - n) by omega]
  · refine .inl ⟨.truncated, ?_, ?_⟩
    · rw [if_neg hfits]
      rfl
    · rw [if_neg (by omega)]

/-- A length by its index is the length at the front of what is left. -/
theorem countAt_cases (hlen : extra.length < 2 ^ 63) (h : At extra i rest) :
    (∃ e, countAt extra i = .error (.malformed e) ∧ readCount rest = .error e) ∨
      ∃ n rest', n < 2 ^ 64 ∧ rest = writeVarint n ++ rest' ∧
        countAt extra i = .ok (n, (writeVarint n).length) ∧ readCount rest = .ok (n, rest') ∧
        indexAdd i (writeVarint n).length = .ok (i + (writeVarint n).length) ∧
        At extra (i + (writeVarint n).length) rest' := by
  cases hcount : readCount rest with
  | error e =>
      refine .inl ⟨e, ?_, rfl⟩
      obtain ⟨hle, rfl⟩ := h
      rw [readCount, readVarintStrict] at hcount
      rw [countAt, if_pos hle]
      cases hread : readVarintBits (extra.drop i) 64 with
      | error e' =>
          rw [hread] at hcount
          cases hcount
          rfl
      | ok v =>
          rw [hread] at hcount
          obtain ⟨value, len, truncated⟩ := v
          cases truncated with
          | true => cases hcount; rfl
          | false => cases hcount
  | ok found =>
      obtain ⟨n, rest'⟩ := found
      obtain ⟨hn, rfl⟩ := readCount_eq_ok.mp hcount
      have hafter := h.add
      have hle := hafter.1
      refine .inr ⟨n, rest', hn, rfl, ?_, rfl, indexAdd_eq (by omega), hafter⟩
      rw [countAt, if_pos h.1, h.2, readVarintBits_write (by decide) hn]
      rfl

end

/-- A merge-mining or minergate length that reaches past the end of the word. -/
def OverlongAt (tag : UInt8) (i : Nat) (input : Blob) : Prop :=
  (tag = 0x03 ∨ tag = 0xde) ∧ ∃ len rest, len < 2 ^ 64 ∧ input = writeVarint len ++ rest ∧
    2 ^ 64 ≤ i + (writeVarint len).length + len

/-- What the parser by suffixes reads, with the index that stands after it. -/
def placed (extra : Blob) :
    Except TxExtraError (Option (TxExtraField × Blob)) → Except ExtraStop (Option (TxExtraField × Nat))
  | .error e => .error (.malformed e)
  | .ok none => .ok none
  | .ok (some (field, rest)) => .ok (some (field, extra.length - rest.length))

section

variable {extra input : Blob} {i : Nat} {tag : UInt8}

theorem readFieldAt_eq (hlen : extra.length < 2 ^ 63) (hat : At extra i (tag :: input))
    (hfits : ¬OverlongAt tag (i + 1) input) :
    readFieldAt extra tag i = placed extra (readExtraField tag input) := by
  have hnext : At extra (i + 1) input := At.add (show At extra i ([tag] ++ input) from hat)
  have hi : i + 1 ≤ extra.length := hnext.1
  rw [readFieldAt, indexAdd_eq (by omega), ok_bind]
  by_cases hpad : tag = 0x00
  · rw [if_pos hpad, readExtraField, if_pos hpad, hnext.2]
    have hzeros : (input.takeWhile (· == 0)).length ≤ input.length := (List.takeWhile_prefix _).length_le
    have hsub := hnext.eq_sub
    dsimp only
    rw [indexAdd_eq (by omega), ok_bind]
    by_cases hlong : (input.takeWhile (· == 0)).length + 1 > txExtraPaddingMaxCount
    · rw [if_pos hlong, if_pos (by omega)]
      rfl
    rw [if_neg hlong, if_neg (by omega)]
    by_cases hbad : (input.takeWhile (· == 0)).length < input.length
    · rw [if_pos hbad, if_pos (by omega)]
      rfl
    · rw [if_neg hbad, if_neg (by omega), show i + 1 + (input.takeWhile (· == 0)).length = extra.length - 0 by omega]
      rfl
  rw [if_neg hpad, readExtraField, if_neg hpad]
  by_cases hkey : tag = 0x01
  · rw [if_pos hkey, if_pos hkey]
    rcases sliceAt_cases hnext (show i + 1 + 32 < 2 ^ 64 by omega) with
      ⟨e, hslice, hget⟩ | ⟨bs, rest, -, -, hslice, hget, hindex⟩
    · rw [hslice, hget]
      rfl
    · rw [hslice, hget, ok_bind, ok_bind, hindex]
      rfl
  rw [if_neg hkey, if_neg hkey]
  by_cases hnonce : tag = 0x02
  · rw [if_pos hnonce, if_pos hnonce]
    rcases countAt_cases hlen hnext with
      ⟨e, hcount, hread⟩ | ⟨n, rest, -, -, hcount, hread, hindex, hrest⟩
    · rw [hcount, hread]
      rfl
    rw [hcount, hread, ok_bind, ok_bind]
    dsimp only
    rw [hindex, ok_bind]
    by_cases hlong : n > txExtraNonceMaxCount
    · rw [if_pos hlong, if_pos hlong]
      rfl
    rw [if_neg hlong, if_neg hlong]
    have hshort : n ≤ 255 := Nat.le_of_not_lt hlong
    have hle := hrest.1
    rcases sliceAt_cases hrest (show _ + n < 2 ^ 64 by omega) with
      ⟨e, hslice, hget⟩ | ⟨bs, rest', -, -, hslice, hget, hindex⟩
    · rw [hslice, hget]
      rfl
    · rw [hslice, hget, ok_bind, ok_bind, hindex]
      rfl
  rw [if_neg hnonce, if_neg hnonce]
  have hroom (htag : tag = 0x03 ∨ tag = 0xde) {n : Nat} {rest : Blob} (hn : n < 2 ^ 64)
      (hinput : input = writeVarint n ++ rest) : i + 1 + (writeVarint n).length + n < 2 ^ 64 := by
    by_contra hover
    exact hfits ⟨htag, n, rest, hn, hinput, by omega⟩
  by_cases hmerge : tag = 0x03
  · rw [if_pos hmerge, if_pos hmerge]
    rcases countAt_cases hlen hnext with
      ⟨e, hcount, hread⟩ | ⟨n, rest, hn, hinput, hcount, hread, hindex, hrest⟩
    · rw [hcount, hread]
      rfl
    rw [hcount, hread, ok_bind, ok_bind]
    dsimp only
    rw [hindex, ok_bind]
    rcases sliceAt_cases hrest (hroom (.inl hmerge) hn hinput) with
      ⟨e, hslice, hget⟩ | ⟨body, rest', rfl, hbody, hslice, hget, hindex⟩
    · rw [hslice, hget]
      rfl
    rw [hslice, hget, ok_bind, ok_bind, hindex, ok_bind]
    dsimp only
    have hshort : body.length < 2 ^ 63 := by
      have hle := hrest.add.1
      omega
    rcases countAt_cases hshort ⟨Nat.zero_le _, rfl⟩ with
      ⟨e, hdepth, hread⟩ | ⟨depth, body', -, -, hdepth, hread, -, hroot⟩
    · rw [List.drop_zero] at hread
      rw [hdepth, hread]
      rfl
    rw [List.drop_zero] at hread
    rw [hdepth, hread, ok_bind, ok_bind]
    dsimp only
    have hle := hroot.1
    rw [Nat.zero_add] at hroot hle
    rcases sliceAt_cases hroot (show _ + 32 < 2 ^ 64 by omega) with
      ⟨e, hslice, hget⟩ | ⟨root, surplus, -, -, hslice, hget, -⟩
    · rw [hslice, hget]
      rfl
    · rw [hslice, hget]
      rfl
  rw [if_neg hmerge, if_neg hmerge]
  by_cases hkeys : tag = 0x04
  · rw [if_pos hkeys, if_pos hkeys]
    rcases countAt_cases hlen hnext with
      ⟨e, hcount, hread⟩ | ⟨n, rest, hn, -, hcount, hread, hindex, hrest⟩
    · rw [hcount, hread]
      rfl
    rw [hcount, hread, ok_bind, ok_bind]
    dsimp only
    rw [hindex, ok_bind]
    obtain ⟨hle, hdrop⟩ := hrest
    have hleft : rest.length ≤ extra.length := by
      rw [← hdrop, List.length_drop]
      omega
    rw [if_pos hle, hdrop, checkedMul, getSlice]
    by_cases hfits : n * 32 ≤ rest.length
    · rw [if_pos (show n * 32 ≤ u64Max by unfold u64Max; omega), if_pos hfits]
      dsimp only
      rw [if_pos hfits, ok_bind]
      have hsum : i + 1 + (writeVarint n).length + n * 32 ≤ extra.length := by
        rw [← hdrop, List.length_drop] at hfits
        omega
      rw [indexAdd_eq (by omega), ok_bind]
      have hend : i + 1 + (writeVarint n).length + n * 32 = extra.length - (rest.drop (n * 32)).length := by
        rw [List.length_drop, ← hdrop, List.length_drop]
        omega
      rw [hend]
      rfl
    · rw [if_neg hfits]
      by_cases hword : n * 32 ≤ u64Max
      · rw [if_pos hword]
        dsimp only
        rw [if_neg hfits]
        rfl
      · rw [if_neg hword]
        rfl
  rw [if_neg hkeys, if_neg hkeys]
  by_cases hgate : tag = 0xde
  · rw [if_pos hgate, if_pos hgate]
    rcases countAt_cases hlen hnext with
      ⟨e, hcount, hread⟩ | ⟨n, rest, hn, hinput, hcount, hread, hindex, hrest⟩
    · rw [hcount, hread]
      rfl
    rw [hcount, hread, ok_bind, ok_bind]
    dsimp only
    rw [hindex, ok_bind]
    rcases sliceAt_cases hrest (hroom (.inr hgate) hn hinput) with
      ⟨e, hslice, hget⟩ | ⟨bs, rest', -, -, hslice, hget, hindex⟩
    · rw [hslice, hget]
      rfl
    · rw [hslice, hget, ok_bind, ok_bind, hindex]
      rfl
  · rw [if_neg hgate, if_neg hgate]
    rfl

/-- The sum that ends the slice leaves the word. -/
theorem readFieldAt_overlong (hlen : extra.length < 2 ^ 63) (hat : At extra i (tag :: input))
    (hover : OverlongAt tag (i + 1) input) : readFieldAt extra tag i = .error .overflow := by
  have hnext : At extra (i + 1) input := At.add (show At extra i ([tag] ++ input) from hat)
  have hi : i + 1 ≤ extra.length := hnext.1
  obtain ⟨htag, n, rest, hn, hinput, hsum⟩ := hover
  have hread : readCount input = .ok (n, rest) := readCount_eq_ok.mpr ⟨hn, hinput⟩
  rcases countAt_cases hlen hnext with
    ⟨e, -, hread'⟩ | ⟨n', rest', -, -, hcount, hread', hindex, -⟩
  · rw [hread] at hread'
    nomatch hread'
  · obtain ⟨rfl, rfl⟩ := Prod.mk.inj (Except.ok.inj (hread.symm.trans hread'))
    have hslice : sliceAt extra (i + 1 + (writeVarint n).length) n = .error .overflow := by
      rw [sliceAt, indexAdd_overflow hsum]
      rfl
    rw [readFieldAt, indexAdd_eq (by omega), ok_bind]
    rcases htag with rfl | rfl
    · rw [if_neg (by decide), if_neg (by decide), if_neg (by decide), if_pos rfl, hcount, ok_bind]
      dsimp only
      rw [hindex, ok_bind, hslice]
      rfl
    · rw [if_neg (by decide), if_neg (by decide), if_neg (by decide), if_neg (by decide),
        if_neg (by decide), if_pos rfl, hcount, ok_bind]
      dsimp only
      rw [hindex, ok_bind, hslice]
      rfl

end

/-! ### Overlong fields -/

/-- Behind fields that are read, a merge-mining or minergate length whose end leaves the word. -/
def OverlongFrom (i : Nat) (input : Blob) : Prop :=
  ∃ (segments : List (TxExtraField × Blob)) (tag : UInt8) (rest : Blob),
    (∀ s ∈ segments, s.1.Fits ∧ s.1.isPadding = false) ∧ input = carried segments ++ tag :: rest ∧
      OverlongAt tag (i + (carried segments).length + 1) rest

section

variable {extra input : Blob} {i : Nat} {tag : UInt8}

theorem overlongFrom_nil : ¬OverlongFrom i [] := by
  rintro ⟨segments, tag, rest, -, hinput, -⟩
  have hlen := congrArg List.length hinput
  rw [List.length_append, List.length_cons, List.length_nil] at hlen
  omega

/-- At the front of a field that is read, what is overlong lies behind it. -/
theorem overlongFrom_cons (hinput : input.length < 2 ^ 63) (hhere : ¬OverlongAt tag (i + 1) input) :
    OverlongFrom i (tag :: input) ↔ ∃ field rest, readExtraField tag input = .ok (some (field, rest)) ∧
      OverlongFrom (i + (input.length + 1 - rest.length)) rest := by
  constructor
  · rintro ⟨segments, tag', rest, hfits, hsplit, hover⟩
    cases segments with
    | nil =>
        obtain ⟨rfl, rfl⟩ := List.cons.inj hsplit
        exact absurd hover hhere
    | cons s segments =>
        obtain ⟨⟨hfield, hpadding⟩, htail⟩ := List.forall_mem_cons.mp hfits
        rw [carried_cons, List.append_assoc] at hsplit
        rw [carried_cons, List.length_append] at hover
        have hlen := congrArg List.length hsplit
        rw [List.length_append, List.length_cons] at hlen
        have hlast : s.1.isPadding = true → carried segments ++ tag' :: rest = [] :=
          fun h => absurd (h.symm.trans hpadding) (by decide)
        obtain ⟨t, bytes, hwrite, hread⟩ := readExtraField_carrying hfield
          (show (s.1.carrying s.2).length < 2 ^ 64 by omega) hlast
        rw [hwrite, List.cons_append] at hsplit
        obtain ⟨rfl, rfl⟩ := List.cons.inj hsplit
        refine ⟨s.1, _, hread, segments, tag', rest, htail, rfl, ?_⟩
        rw [show i + ((bytes ++ (carried segments ++ tag' :: rest)).length + 1 -
            (carried segments ++ tag' :: rest).length) + (carried segments).length + 1 =
          i + ((s.1.carrying s.2).length + (carried segments).length) + 1 by omega]
        exact hover
  · rintro ⟨field, rest, hread, segments, tag', rest', hfits, rfl, hover⟩
    obtain ⟨surplus, hbytes, hfield, hlast, -⟩ := readExtraField_exact (by omega) hread
    have hpadding : field.isPadding = false := by
      cases hcase : field.isPadding with
      | false => rfl
      | true =>
          have hempty := congrArg List.length (hlast hcase)
          rw [List.length_append, List.length_cons, List.length_nil] at hempty
          omega
    have hlen := congrArg List.length hbytes
    rw [List.length_append, List.length_cons] at hlen
    refine ⟨(field, surplus) :: segments, tag', rest', ?_, ?_, ?_⟩
    · exact List.forall_mem_cons.mpr ⟨⟨hfield, hpadding⟩, hfits⟩
    · rw [hbytes, carried_cons, List.append_assoc]
    · rw [carried_cons, List.length_append,
        show i + ((field.carrying surplus).length + (carried segments).length) + 1 =
          i + (input.length + 1 - (carried segments ++ tag' :: rest').length) + (carried segments).length + 1
          by omega]
      exact hover

end

/-- From any index on, the parser stops exactly before an overlong field. -/
theorem parseFieldsAt_run {extra input : Blob} {fuel i : Nat} (hlen : extra.length < 2 ^ 63)
    (hat : At extra i input) (hfuel : input.length ≤ fuel) :
    (OverlongFrom i input → parseFieldsAt extra fuel i = none) ∧
      (¬OverlongFrom i input → parseFieldsAt extra fuel i = some (parseExtraFields fuel input)) := by
  have hended {fuel i : Nat} (hat : At extra i []) : parseFieldsAt extra fuel i = some ⟨[], none, none⟩ := by
    have hnone : extra[i]? = none := by
      rw [List.getElem?_eq_none_iff, ← List.drop_eq_nil_iff]
      exact hat.2
    rw [parseFieldsAt, hnone]
  induction fuel generalizing i input with
  | zero =>
      obtain rfl : input = [] := List.eq_nil_of_length_eq_zero (by omega)
      exact ⟨fun h => absurd h overlongFrom_nil, fun _ => hended hat⟩
  | succ fuel ih =>
      cases input with
      | nil => exact ⟨fun h => absurd h overlongFrom_nil, fun _ => hended hat⟩
      | cons tag input =>
          have hhead : extra[i]? = some tag := by
            rw [← List.head?_drop, hat.2]
            rfl
          have hshort : input.length + 1 ≤ extra.length := by
            rw [← List.length_cons (a := tag), ← hat.2, List.length_drop]
            exact Nat.sub_le _ _
          rw [List.length_cons] at hfuel
          rw [parseFieldsAt, hhead]
          dsimp only
          by_cases hhere : OverlongAt tag (i + 1) input
          · rw [readFieldAt_overlong hlen hat hhere]
            refine ⟨fun _ => rfl, fun hnot => absurd ?_ hnot⟩
            exact ⟨[], tag, input, List.forall_mem_nil _, rfl, hhere⟩
          · rw [readFieldAt_eq hlen hat hhere, overlongFrom_cons (by omega) hhere, parseExtraFields]
            cases hread : readExtraField tag input with
            | error e => exact ⟨(by rintro ⟨_, _, h, -⟩; cases h), fun _ => rfl⟩
            | ok found =>
                rcases found with - | ⟨field, rest⟩
                · exact ⟨(by rintro ⟨_, _, h, -⟩; cases h), fun _ => rfl⟩
                · obtain ⟨surplus, hbytes, -⟩ := readExtraField_exact (by omega) hread
                  have hnext : At extra (i + (field.carrying surplus).length) rest :=
                    At.add (hbytes ▸ hat)
                  have hbytesLen := congrArg List.length hbytes
                  rw [List.length_append, List.length_cons] at hbytesLen
                  have hpos := field.length_carrying_pos surplus
                  obtain ⟨hover, hclear⟩ := ih hnext (by omega)
                  have hindex : i + (input.length + 1 - rest.length) = i + (field.carrying surplus).length := by
                    omega
                  rw [placed, ← hnext.eq_sub]
                  dsimp only
                  constructor
                  · rintro ⟨field', rest', hread', hfar⟩
                    obtain ⟨rfl, rfl⟩ := Prod.mk.inj (Option.some.inj (Except.ok.inj hread'))
                    rw [hindex] at hfar
                    rw [hover hfar, Option.map_none]
                  · intro hnot
                    have hrest : ¬OverlongFrom (i + (field.carrying surplus).length) rest := by
                      rw [← hindex]
                      exact fun hfar => hnot ⟨field, rest, rfl, hfar⟩
                    rw [hclear hrest, Option.map_some]

theorem readExtraField_overlong {tag : UInt8} {i : Nat} {input : Blob} (hlen : i + input.length < 2 ^ 63)
    (h : OverlongAt tag i input) : readExtraField tag input = .error .truncated := by
  obtain ⟨htag, n, rest, hn, rfl, hsum⟩ := h
  rw [List.length_append] at hlen
  have hslice : getSlice n rest = .error .truncated := by
    rw [getSlice, if_neg (by omega)]
  rcases htag with rfl | rfl
  · rw [readExtraField, if_neg (by decide), if_neg (by decide), if_neg (by decide), if_pos rfl,
      readCount_write hn, ok_bind]
    dsimp only
    rw [hslice]
    rfl
  · rw [readExtraField, if_neg (by decide), if_neg (by decide), if_neg (by decide), if_neg (by decide),
      if_neg (by decide), if_pos rfl, readCount_write hn, ok_bind]
    dsimp only
    rw [hslice]
    rfl

/-- Where the sum wraps round, an overlong field is a field cut off. -/
theorem parseExtraFields_overlong {fuel i : Nat} {input : Blob} (hlen : i + input.length < 2 ^ 63)
    (hfuel : input.length ≤ fuel) (h : OverlongFrom i input) :
    (parseExtraFields fuel input).error = some .truncated := by
  induction fuel generalizing i input with
  | zero =>
      obtain rfl : input = [] := List.eq_nil_of_length_eq_zero (by omega)
      exact absurd h overlongFrom_nil
  | succ fuel ih =>
      cases input with
      | nil => exact absurd h overlongFrom_nil
      | cons tag input =>
          rw [List.length_cons] at hlen hfuel
          rw [parseExtraFields]
          by_cases hhere : OverlongAt tag (i + 1) input
          · rw [readExtraField_overlong (by omega) hhere]
          · obtain ⟨field, rest, hread, hfar⟩ := (overlongFrom_cons (by omega) hhere).mp h
            obtain ⟨surplus, hbytes, -⟩ := readExtraField_exact (by omega) hread
            have hbytesLen := congrArg List.length hbytes
            rw [List.length_append, List.length_cons] at hbytesLen
            have hpos := field.length_carrying_pos surplus
            rw [hread]
            exact ih (by omega) (by omega) hfar

/-! ### The whole field -/

/-- Somewhere behind fields that are read stands a merge-mining or minergate length that, added to its
    index, leaves the word. -/
def Overlong (extra : Blob) : Prop := OverlongFrom 0 extra

/-- Parsing `extra` stays within its words and its bytes, and what it returns is the front of them. -/
structure ExtraSound (extra : Blob) : Prop where
  computed : parseTxExtraChecked extra = some (parseTxExtra extra)
  rewritten : ∃ segments : List (TxExtraField × Blob),
    (parseTxExtra extra).fields = segments.map Prod.fst ∧ carried segments <+: extra ∧
      (serializeTxExtra (parseTxExtra extra).fields false <+: extra ∨
        ∃ s ∈ segments, s.2 ≠ [] ∧ ∃ depth root, s.1 = .mergeMining depth root)

theorem parseTxExtraChecked_run {extra : Blob} (hlen : extra.length < 2 ^ 63) :
    (Overlong extra → parseTxExtraChecked extra = none) ∧
      (¬Overlong extra → parseTxExtraChecked extra = some (parseTxExtra extra)) :=
  parseFieldsAt_run hlen ⟨Nat.zero_le _, rfl⟩ (Nat.le_refl _)

theorem carried_of_no_surplus {segments : List (TxExtraField × Blob)} (h : ∀ s ∈ segments, s.2 = []) :
    carried segments = serializeTxExtra (segments.map Prod.fst) false := by
  induction segments with
  | nil => rfl
  | cons s segments ih =>
      obtain ⟨hs, htail⟩ := List.forall_mem_cons.mp h
      have hrest := ih htail
      rw [serializeTxExtra] at hrest ⊢
      rw [carried_cons, hs, TxExtraField.carrying_nil, hrest]
      rfl

theorem extraSound_iff {extra : Blob} (hlen : extra.length < 2 ^ 63) :
    ExtraSound extra ↔ ¬Overlong extra := by
  obtain ⟨hover, hclear⟩ := parseTxExtraChecked_run hlen
  constructor
  · intro hsound hlong
    have hcomputed := hsound.computed
    rw [hover hlong] at hcomputed
    nomatch hcomputed
  · intro hshort
    refine ⟨hclear hshort, ?_⟩
    obtain ⟨segments, hfields, hprefix, hsegments⟩ :=
      @parseExtraFields_found extra.length extra (by omega)
    refine ⟨segments, hfields, hprefix, ?_⟩
    by_cases hnone : ∀ s ∈ segments, s.2 = []
    · rw [carried_of_no_surplus hnone, ← hfields] at hprefix
      exact .inl hprefix
    · obtain ⟨s, hs, hsurplus⟩ : ∃ s ∈ segments, s.2 ≠ [] := by simpa using hnone
      exact .inr ⟨s, hs, hsurplus, (hsegments s hs).2 hsurplus⟩

/-! ### Round trips -/

/-- The bounds a writer keeps; padding counts its own tag, but nothing makes it. -/
def TxExtraField.Bounded : TxExtraField → Prop
  | .padding len => len ≤ txExtraPaddingMaxCount
  | field => field.Fits

/-- Fields in an order that can be read back: padding last. -/
structure Arranged (fields : List TxExtraField) : Prop where
  bounded : ∀ f ∈ fields, f.Bounded
  paddingLast : ∀ front f back, fields = front ++ f :: back → f.isPadding = true → back = []
  room : (serializeTxExtra fields false).length < 2 ^ 63

theorem TxExtraField.fits_of_bounded {field : TxExtraField} (h : field.Bounded) (hne : field ≠ .padding 0) :
    field.Fits := by
  cases field with
  | padding len =>
      refine ⟨?_, h⟩
      by_contra hzero
      obtain rfl : len = 0 := by omega
      exact hne rfl
  | _ => exact h

theorem parseExtraFields_arranged {fields : List TxExtraField} (hfits : ∀ f ∈ fields, f.Fits)
    (hlast : ∀ front f back, fields = front ++ f :: back → f.isPadding = true → back = [])
    (hroom : (fields.flatMap TxExtraField.write).length < 2 ^ 64) {fuel : Nat} (hfuel : fields.length ≤ fuel) :
    parseExtraFields fuel (fields.flatMap TxExtraField.write) = ⟨fields, none, none⟩ := by
  induction fields generalizing fuel with
  | nil => cases fuel <;> rfl
  | cons field fields ih =>
      cases fuel with
      | zero => exact absurd hfuel (by simp)
      | succ fuel =>
          obtain ⟨hfield, htail⟩ := List.forall_mem_cons.mp hfits
          rw [List.flatMap_cons, List.length_append] at hroom
          have hpadding : field.isPadding = true → fields.flatMap TxExtraField.write = [] := by
            intro hpad
            rw [hlast [] field fields rfl hpad]
            rfl
          rw [← TxExtraField.carrying_nil] at hroom
          obtain ⟨tag, bytes, hwrite, hread⟩ :=
            readExtraField_carrying hfield (show (field.carrying []).length < 2 ^ 64 by omega) hpadding
          have hrest := ih htail (fun front f back hsplit => hlast (field :: front) f back (by rw [hsplit]; rfl))
            (by omega) (Nat.le_of_succ_le_succ hfuel)
          rw [List.flatMap_cons, ← TxExtraField.carrying_nil, hwrite, List.cons_append, parseExtraFields, hread]
          dsimp only
          rw [hrest]

theorem serializeTxExtra_roundTrip {fields : List TxExtraField} (h : Arranged fields) :
    parseTxExtraChecked (serializeTxExtra fields false) = some ⟨fields, none, none⟩ ↔
      .padding 0 ∉ fields := by
  have hroom := h.room
  constructor
  · intro hparse hzero
    have hclear : ¬Overlong (serializeTxExtra fields false) := by
      intro hlong
      rw [(parseTxExtraChecked_run hroom).1 hlong] at hparse
      nomatch hparse
    rw [(parseTxExtraChecked_run hroom).2 hclear, Option.some.injEq] at hparse
    obtain ⟨segments, hfields, -, hsegments⟩ :=
      @parseExtraFields_found (serializeTxExtra fields false).length (serializeTxExtra fields false) (by omega)
    rw [← parseTxExtra, hparse] at hfields
    dsimp only at hfields
    rw [hfields] at hzero
    obtain ⟨s, hs, hfirst⟩ := List.mem_map.mp hzero
    have hfits := (hsegments s hs).1
    rw [hfirst] at hfits
    exact absurd hfits.1 (by decide)
  · intro hzero
    have hfits : ∀ f ∈ fields, f.Fits := fun f hf =>
      TxExtraField.fits_of_bounded (h.bounded f hf) fun heq => hzero (heq ▸ hf)
    have hparse : parseTxExtra (serializeTxExtra fields false) = ⟨fields, none, none⟩ := by
      refine parseExtraFields_arranged hfits h.paddingLast ?_ (length_le_flatMap ?_ fields)
      · rw [serializeTxExtra] at hroom
        exact Nat.lt_trans hroom (by decide)
      · intro field hempty
        have hpos := field.length_carrying_pos []
        rw [TxExtraField.carrying_nil, hempty] at hpos
        exact absurd hpos (Nat.lt_irrefl 0)
    have hclear : ¬Overlong (serializeTxExtra fields false) := by
      intro hlong
      have herror := parseExtraFields_overlong (by rwa [Nat.zero_add]) (Nat.le_refl _) hlong
      rw [← parseTxExtra, hparse] at herror
      nomatch herror
    rw [(parseTxExtraChecked_run hroom).2 hclear, hparse]

/-! ### The sorted form -/

section

variable {α β : Type} [LE β] [DecidableEq β]

/-- A reordering by a key that keeps the order of what has the same key. -/
structure StableBy (key : α → β) (out l : List α) : Prop where
  perm : out.Perm l
  sorted : out.Pairwise fun a b => key a ≤ key b
  stable : ∀ k, out.filter (key · = k) = l.filter (key · = k)

/-- What looks at one key finds the same in a stable reordering. -/
theorem StableBy.findSome? {γ : Type} {key : α → β} {out l : List α} (h : StableBy key out l) (k : β)
    {g : α → Option γ} (hg : ∀ a, key a ≠ k → g a = none) : out.findSome? g = l.findSome? g := by
  have honly (l : List α) : l.findSome? g = (l.filter (key · = k)).findSome? g := by
    induction l with
    | nil => rfl
    | cons a l ih =>
        rw [List.filter_cons]
        split
        · rw [List.findSome?_cons, List.findSome?_cons, ih]
        · next hkey =>
            have hne : key a ≠ k := fun heq => hkey (decide_eq_true heq)
            rw [List.findSome?_cons, hg a hne, ih]
  rw [honly out, h.stable, ← honly l]

/-- Insertion sort keeps the order of equal keys. -/
theorem insertionSort_stableBy [DecidableLE β] (htotal : ∀ a b : β, a ≤ b ∨ b ≤ a)
    (htrans : ∀ a b c : β, a ≤ b → b ≤ c → a ≤ c) (key : α → β) (l : List α) :
    StableBy key (l.insertionSort fun a b => key a ≤ key b) l where
  perm := List.perm_insertionSort _ l
  sorted := by
    have : Std.Total fun a b : α => key a ≤ key b := ⟨fun a b => htotal (key a) (key b)⟩
    have : IsTrans α fun a b => key a ≤ key b := ⟨fun a b c => htrans (key a) (key b) (key c)⟩
    exact List.pairwise_insertionSort _ l
  stable := by
    intro k
    -- equal keys are in order already, so sorting leaves them a sublist
    have hequal : (l.filter (key · = k)).Pairwise fun a b => key a ≤ key b := by
      refine List.pairwise_of_forall_mem_list fun a ha b hb => ?_
      have hka : key a = k := by simpa using List.of_mem_filter ha
      have hkb : key b = k := by simpa using List.of_mem_filter hb
      rw [hka, hkb]
      exact (htotal k k).elim id id
    have hsub := (List.sublist_insertionSort hequal List.filter_sublist).filter (key · = k)
    simp only [List.filter_filter, Bool.and_self] at hsub
    have hlen := ((List.perm_insertionSort (fun a b => key a ≤ key b) l).filter (key · = k)).length_eq
    exact (hsub.eq_of_length hlen.symm).symm

end

/-- `ParsedExtra::payment_id`. -/
def ParsedExtra.paymentId (p : ParsedExtra) : Option Hash256 :=
  p.fields.findSome? fun
    | .nonce bytes =>
        if bytes.length = 33 ∧ bytes.head? = some 0x00 then some (Bytes32.ofBytes bytes.tail) else none
    | _ => none

/-- `ParsedExtra::encrypted_payment_id`. -/
def ParsedExtra.encryptedPaymentId (p : ParsedExtra) : Option Hash8 :=
  p.fields.findSome? fun
    | .nonce bytes =>
        if h : bytes.length = 9 ∧ bytes.head? = some 0x01 then
          some ⟨bytes.tail.toArray, by rw [List.size_toArray, List.length_tail, h.1]⟩
        else none
    | _ => none

/-- What the fields say of keys and payment ids. -/
structure SaysAs (parsed : ParsedExtra) (fields : List TxExtraField) : Prop where
  txPubkey : parsed.txPubkey = (⟨fields, none, none⟩ : ParsedExtra).txPubkey
  additionalPubkeys : parsed.additionalPubkeys = (⟨fields, none, none⟩ : ParsedExtra).additionalPubkeys
  paymentId : parsed.paymentId = (⟨fields, none, none⟩ : ParsedExtra).paymentId
  encryptedPaymentId : parsed.encryptedPaymentId = (⟨fields, none, none⟩ : ParsedExtra).encryptedPaymentId

/-- Each accessor looks at one tag. -/
theorem StableBy.saysAs {parsed : ParsedExtra} {fields : List TxExtraField}
    (h : StableBy TxExtraField.tag parsed.fields fields) : SaysAs parsed fields where
  txPubkey := h.findSome? 0x01 fun f hf => by cases f <;> first | rfl | exact absurd rfl hf
  additionalPubkeys := by
    unfold ParsedExtra.additionalPubkeys
    rw [h.findSome? 0x04 fun f hf => by cases f <;> first | rfl | exact absurd rfl hf]
  paymentId := h.findSome? 0x02 fun f hf => by cases f <;> first | rfl | exact absurd rfl hf
  encryptedPaymentId := h.findSome? 0x02 fun f hf => by cases f <;> first | rfl | exact absurd rfl hf

/-- Without padding the sorted form is read back as the stable reordering by tag. -/
theorem serializeTxExtra_sorted {fields : List TxExtraField} (h : Arranged fields)
    (hpadding : ∀ f ∈ fields, f.isPadding = false) :
    ∃ sorted, parseTxExtraChecked (serializeTxExtra fields true) = some ⟨sorted, none, none⟩ ∧
      StableBy TxExtraField.tag sorted fields ∧ SaysAs ⟨sorted, none, none⟩ fields := by
  have hstable := insertionSort_stableBy UInt8.le_total (fun a b c => UInt8.le_trans) TxExtraField.tag fields
  obtain ⟨sorted, hsorted⟩ : ∃ sorted, fields.insertionSort (fun f g => f.tag ≤ g.tag) = sorted := ⟨_, rfl⟩
  rw [hsorted] at hstable
  have hmem (f : TxExtraField) : f ∈ sorted ↔ f ∈ fields := hstable.perm.mem_iff
  have hnone : ∀ f ∈ sorted, f.isPadding = false := fun f hf => hpadding f ((hmem f).mp hf)
  have hsame : serializeTxExtra fields true = serializeTxExtra sorted false := by
    rw [serializeTxExtra, serializeTxExtra, if_pos rfl, hsorted]
    rfl
  have harranged : Arranged sorted := by
    refine ⟨fun f hf => h.bounded f ((hmem f).mp hf), ?_, ?_⟩
    · intro front f back hsplit hpad
      have hf : f ∈ sorted := by
        rw [hsplit]
        exact List.mem_append_right front List.mem_cons_self
      rw [hnone f hf] at hpad
      nomatch hpad
    · have hlen : (serializeTxExtra sorted false).length = (serializeTxExtra fields false).length :=
        (hstable.perm.flatMap_right TxExtraField.write).length_eq
      rw [hlen]
      exact h.room
  have hzero : .padding 0 ∉ sorted := by
    intro hf
    nomatch hnone _ hf
  rw [hsame]
  exact ⟨sorted, (serializeTxExtra_roundTrip harranged).mpr hzero, hstable, hstable.saysAs⟩

/-- Parsing `extra` stays within its words and bytes, and returns the front of them, exactly where no
    overlong field is reached; padding last, what is written is read back unless it is a padding of no
    bytes; without padding the sorted form is read back as the stable reordering by tag. -/
theorem txExtra_exact (extra : Blob) (fields : List TxExtraField) :
    (extra.length < 2 ^ 63 → (ExtraSound extra ↔ ¬Overlong extra)) ∧
    (Arranged fields →
      (parseTxExtraChecked (serializeTxExtra fields false) = some ⟨fields, none, none⟩ ↔
        .padding 0 ∉ fields)) ∧
    (Arranged fields → (∀ f ∈ fields, f.isPadding = false) →
      ∃ sorted, parseTxExtraChecked (serializeTxExtra fields true) = some ⟨sorted, none, none⟩ ∧
        StableBy TxExtraField.tag sorted fields ∧ SaysAs ⟨sorted, none, none⟩ fields) :=
  ⟨fun hlen => extraSound_iff hlen, fun h => serializeTxExtra_roundTrip h,
    fun h hpadding => serializeTxExtra_sorted h hpadding⟩

/-- A nonce written before a key is read behind it. -/
theorem txExtra_exact_two : ∃ sorted,
    parseTxExtraChecked (serializeTxExtra [.nonce [1, 2], .pubkey 8] true) = some ⟨sorted, none, none⟩ ∧
      StableBy TxExtraField.tag sorted [.nonce [1, 2], .pubkey 8] ∧
      SaysAs ⟨sorted, none, none⟩ [.nonce [1, 2], .pubkey 8] := by
  have hnone : ∀ f ∈ [TxExtraField.nonce [1, 2], .pubkey 8], f.isPadding = false := by decide
  refine (txExtra_exact [] [.nonce [1, 2], .pubkey 8]).2.2 ⟨?_, ?_, by decide⟩ hnone
  · intro f hf
    rcases List.mem_pair.mp hf with rfl | rfl
    · exact show 2 ≤ txExtraNonceMaxCount by decide
    · exact trivial
  · intro front f back hsplit hpad
    have hf : f ∈ [TxExtraField.nonce [1, 2], .pubkey 8] := by
      rw [hsplit]
      exact List.mem_append_right front List.mem_cons_self
    rw [hnone f hf] at hpad
    nomatch hpad

/-- A merge-mining length of `2 ^ 64 - 1`, eleven bytes in all. -/
theorem txExtra_overflows :
    parseTxExtraChecked (0x03 :: writeVarint 18446744073709551615) = none ∧
      ¬ExtraSound (0x03 :: writeVarint 18446744073709551615) ∧
      parseTxExtra (0x03 :: writeVarint 18446744073709551615) = ⟨[], none, some .truncated⟩ := by
  have hnone : parseTxExtraChecked (0x03 :: writeVarint 18446744073709551615) = none := by decide
  refine ⟨hnone, fun hsound => ?_, by decide⟩
  have hcomputed := hsound.computed
  rw [hnone] at hcomputed
  nomatch hcomputed

end Wownero

import Wownero.Codec
/-!
# The varint is canonical

One byte string for each value of a width: the reader takes what the writer writes, a part of it when
the input ends too early, and nothing else.  No shift it makes leaves its word.
-/

namespace Wownero.Archive

/-- The loop of `varint_len`; the value is fuel enough. -/
def varintLenLoop : Nat → Nat → Nat → Nat
  | 0, _, n => n
  | fuel + 1, v, n => if v ≥ 0x80 then varintLenLoop fuel (v / 128) (n + 1) else n

/-- `varint_len`. -/
def varintLen (v : Nat) : Nat := varintLenLoop v v 1

/-- `<<` on a word: a shift of the whole width or more overflows. -/
def checkedShl (width x n : Nat) : Option Nat := if n < width then some (x * 2 ^ n % 2 ^ width) else none

/-- Whether a digit is over the bound of its place. -/
def overWords (bits byte shift : Nat) : Option Bool :=
  if shift + 7 ≥ bits then
    if shift ≥ bits then some true
    else (checkedShl 32 1 (bits - shift)).map fun bound => decide (byte ≥ bound)
  else some false

/-- `read_varint_bits` in words, as the machine has them; `none` is a shift or a sum that overflows. -/
def readVarintWords (bits : Nat) : List UInt8 → Nat → Nat → Nat → Option (Except Error VarintRead)
  | [], value, _, read => some (.ok ⟨value, read, true⟩)
  | byte :: input, value, shift, read => do
      if shift + 7 ≥ 2 ^ 32 then none
      else
        let tooLarge ← overWords bits byte.toNat shift
        if tooLarge then some (.error .varintOverflow)
        else if byte.toNat = 0 ∧ shift ≠ 0 then some (.error .varintNonCanonical)
        else
          let part ← checkedShl 64 (byte.toNat &&& 0x7f) shift
          let value := value ||| part
          if byte.toNat &&& 0x80 = 0 then some (.ok ⟨value, read + 1, false⟩)
          else readVarintWords bits input value (shift + 7) (read + 1)

/-! ### The writer -/

/-- The fuel of the writer is enough. -/
theorem writeVarintLoop_fuel {fuel fuel' v : Nat} (h : v ≤ fuel) (h' : v ≤ fuel') :
    writeVarintLoop fuel v = writeVarintLoop fuel' v := by
  induction fuel generalizing fuel' v with
  | zero =>
      obtain rfl : v = 0 := by omega
      cases fuel' <;> rfl
  | succ fuel ih =>
      cases fuel' with
      | zero =>
          obtain rfl : v = 0 := by omega
          rfl
      | succ fuel' =>
          rw [writeVarintLoop, writeVarintLoop]
          split_ifs with hlarge
          · rw [@ih fuel' (v / 128) (by omega) (by omega)]
          · rfl

theorem writeVarint_of_lt {v : Nat} (h : v < 128) : writeVarint v = [UInt8.ofNat v] := by
  cases v with
  | zero => rfl
  | succ v => rw [writeVarint, writeVarintLoop, if_neg (by omega)]

theorem writeVarint_of_ge {v : Nat} (h : 128 ≤ v) :
    writeVarint v = UInt8.ofNat (v % 128 + 128) :: writeVarint (v / 128) := by
  cases v with
  | zero => omega
  | succ v =>
      rw [writeVarint, writeVarintLoop, if_pos h, writeVarint,
        @writeVarintLoop_fuel v ((v + 1) / 128) _ (by omega) (Nat.le_refl _)]

theorem varintLenLoop_eq (fuel : Nat) {v n : Nat} (h : v ≤ fuel) :
    varintLenLoop fuel v (n + 1) = n + (writeVarint v).length := by
  induction fuel generalizing v n with
  | zero =>
      obtain rfl : v = 0 := by omega
      rfl
  | succ fuel ih =>
      rw [varintLenLoop]
      split
      case isTrue hlarge =>
        rw [ih (by omega), writeVarint_of_ge hlarge, List.length_cons]
        omega
      case isFalse hsmall =>
        rw [writeVarint_of_lt (by omega), List.length_singleton]

theorem varintLen_eq (v : Nat) : varintLen v = (writeVarint v).length := by
  rw [varintLen, varintLenLoop_eq v (Nat.le_refl v), Nat.zero_add]

/-! ### The reader -/

/-- A varint that is read to its end is one the writer writes. -/
theorem readVarintLoop_exact {bits : Nat} {input : Blob} {acc shift read v len : Nat}
    (h : readVarintLoop bits input acc shift read = .ok ⟨v, len, false⟩) :
    ∃ w rest, v = acc + w * 2 ^ shift ∧ input = writeVarint w ++ rest ∧
      len = read + (writeVarint w).length ∧ (shift ≠ 0 → w ≠ 0) := by
  induction input generalizing acc shift read with
  | nil => cases h
  | cons byte input ih =>
      rw [readVarintLoop] at h
      split_ifs at h with hover hcanon hlast
      · cases h
        have hbyte : writeVarint byte.toNat = [byte] := by
          rw [writeVarint_of_lt hlast, UInt8.ofNat_toNat]
        refine ⟨byte.toNat, input, by rw [Nat.mod_eq_of_lt hlast], by rw [hbyte]; rfl, ?_, ?_⟩
        · rw [hbyte]
          rfl
        · exact fun hshift hzero => hcanon ⟨hzero, hshift⟩
      · obtain ⟨w, rest, hv, hinput, hlen, hnonzero⟩ := ih h
        have hw : w ≠ 0 := hnonzero (by omega)
        have hlt := UInt8.toNat_lt byte
        have hwrite : writeVarint (byte.toNat % 128 + 128 * w) = byte :: writeVarint w := by
          rw [writeVarint_of_ge (by omega), show (byte.toNat % 128 + 128 * w) % 128 + 128 = byte.toNat by omega,
            show (byte.toNat % 128 + 128 * w) / 128 = w by omega, UInt8.ofNat_toNat]
        refine ⟨byte.toNat % 128 + 128 * w, rest, ?_, ?_, ?_, fun _ => by omega⟩
        · rw [hv, Nat.pow_add]
          ring
        · rw [hwrite, hinput]
          rfl
        · rw [hwrite, hlen, List.length_cons]
          omega


/-- A digit that is not the last leaves room for another above it. -/
theorem room_of_continues {bits shift b : Nat} (hcontinues : 128 ≤ b)
    (hover : ¬ (shift + 7 ≥ bits ∧ (shift ≥ bits ∨ b ≥ 2 ^ (bits - shift)))) : shift + 7 < bits := by
  by_contra hge
  apply hover
  refine ⟨by omega, Or.inr ?_⟩
  calc 2 ^ (bits - shift) ≤ 2 ^ 7 := Nat.pow_le_pow_right (by decide) (by omega)
    _ ≤ b := hcontinues

section

variable {bits : Nat}

/-- Input that ends too early is the front of a value of the width, by induction from the digit it
    ends in. -/
theorem readVarintLoop_truncated {input : Blob} {acc shift read value len : Nat} (hshift : shift < bits)
    (h : readVarintLoop bits input acc shift read = .ok ⟨value, len, true⟩) :
    ∃ w, w ≠ 0 ∧ w < 2 ^ (bits - shift) ∧ input <+: writeVarint w ∧ input ≠ writeVarint w := by
  induction input generalizing acc shift read with
  | nil =>
      have hroom : 2 ^ 1 ≤ 2 ^ (bits - shift) := Nat.pow_le_pow_right (by decide) (by omega)
      exact ⟨1, Nat.one_ne_zero, by omega, List.nil_prefix, Ne.symm (writeVarint_ne_nil 1)⟩
  | cons byte input ih =>
      rw [readVarintLoop] at h
      split_ifs at h with hover hcanon hlast
      · cases h
      have hlt := UInt8.toNat_lt byte
      have hroom := room_of_continues (Nat.not_lt.mp hlast) hover
      obtain ⟨w, hw, hfits, hfront, hne⟩ := ih hroom h
      have hwrite : writeVarint (byte.toNat % 128 + 128 * w) = byte :: writeVarint w := by
        rw [writeVarint_of_ge (by omega), show (byte.toNat % 128 + 128 * w) % 128 + 128 = byte.toNat by omega,
          show (byte.toNat % 128 + 128 * w) / 128 = w by omega, UInt8.ofNat_toNat]
      have hsplit : 2 ^ (bits - shift) = 128 * 2 ^ (bits - (shift + 7)) := by
        rw [show bits - shift = 7 + (bits - (shift + 7)) by omega, Nat.pow_add]
      refine ⟨byte.toNat % 128 + 128 * w, by omega, by omega, ?_, ?_⟩
      · rw [hwrite]
        exact List.cons_prefix_cons.mpr ⟨rfl, hfront⟩
      · rw [hwrite]
        exact fun heq => hne (List.cons.inj heq).2

/-- The front of a value of the width is input that ends too early. -/
theorem readVarintLoop_of_prefix {input : Blob} {w : Nat} (acc shift read : Nat)
    (hfits : w < 2 ^ (bits - shift)) (hfront : input <+: writeVarint w) (hne : input ≠ writeVarint w) :
    ∃ value len, readVarintLoop bits input acc shift read = .ok ⟨value, len, true⟩ := by
  induction input generalizing w acc shift read with
  | nil => exact ⟨acc, read, rfl⟩
  | cons byte input ih =>
      by_cases hsmall : w < 128
      · rw [writeVarint_of_lt hsmall, List.cons_prefix_cons] at hfront
        obtain ⟨rfl, hnil⟩ := hfront
        rw [writeVarint_of_lt hsmall, List.prefix_nil.mp hnil] at hne
        exact absurd rfl hne
      · rw [writeVarint_of_ge (by omega), List.cons_prefix_cons] at hfront
        rw [writeVarint_of_ge (by omega)] at hne
        obtain ⟨rfl, hrest⟩ := hfront
        have hbyte : (UInt8.ofNat (w % 128 + 128)).toNat = w % 128 + 128 := by
          rw [UInt8.toNat_ofNat']
          omega
        have hroom : 7 < bits - shift := by
          by_contra hle
          have hpow : 2 ^ (bits - shift) ≤ 2 ^ 7 := Nat.pow_le_pow_right (by decide) (by omega)
          omega
        have hsplit : 2 ^ (bits - shift) = 128 * 2 ^ (bits - (shift + 7)) := by
          rw [show bits - shift = 7 + (bits - (shift + 7)) by omega, Nat.pow_add]
        rw [readVarintLoop, hbyte, if_neg (by omega), if_neg (by omega), if_neg (by omega)]
        exact ih _ _ _ (by omega) hrest fun heq => hne (by rw [heq])

/-- What is read to its end is a value of the width, written at the front. -/
theorem readVarintBits_exact {input : Blob} {value len : Nat}
    (h : readVarintBits input bits = .ok ⟨value, len, false⟩) :
    value < 2 ^ bits ∧ ∃ rest, input = writeVarint value ++ rest ∧ len = (writeVarint value).length := by
  have hfits : value < 2 ^ bits :=
    readVarintLoop_lt (by rw [Nat.zero_min]; exact Nat.one_pos) h
  obtain ⟨w, rest, hvalue, hinput, hlen, -⟩ := readVarintLoop_exact h
  obtain rfl : value = w := by omega
  exact ⟨hfits, rest, hinput, by omega⟩

theorem readVarintBits_write (hbits : 0 < bits) {v : Nat} {rest : Blob} (hv : v < 2 ^ bits) :
    readVarintBits (writeVarint v ++ rest) bits = .ok ⟨v, (writeVarint v).length, false⟩ := by
  have hread : readVarintLoop bits (writeVarintLoop v v ++ rest) 0 0 0 =
      .ok ⟨0 + v * 2 ^ 0, 0 + (writeVarintLoop v v).length, false⟩ :=
    readVarintLoop_write hbits v 0 0 (Nat.le_refl v) hv (fun h => absurd rfl h)
  rw [readVarintBits, writeVarint, hread, Nat.pow_zero, Nat.mul_one, Nat.zero_add, Nat.zero_add]

theorem readVarintBits_truncated_iff (hbits : 0 < bits) {input : Blob} :
    (∃ value len, readVarintBits input bits = .ok ⟨value, len, true⟩) ↔
      ∃ v < 2 ^ bits, input <+: writeVarint v ∧ input ≠ writeVarint v := by
  constructor
  · rintro ⟨value, len, h⟩
    obtain ⟨w, -, hfits, hfront, hne⟩ := readVarintLoop_truncated hbits h
    exact ⟨w, hfits, hfront, hne⟩
  · rintro ⟨v, hfits, hfront, hne⟩
    exact readVarintLoop_of_prefix 0 0 0 hfits hfront hne

/-- Input that neither begins with a value of the width nor ends inside one is refused. -/
theorem readVarintBits_error_iff (hbits : 0 < bits) {input : Blob} :
    (∃ e, readVarintBits input bits = .error e) ↔
      ¬ (∃ v < 2 ^ bits, writeVarint v <+: input) ∧
        ¬ ∃ v < 2 ^ bits, input <+: writeVarint v ∧ input ≠ writeVarint v := by
  rw [← readVarintBits_truncated_iff hbits]
  constructor
  · rintro ⟨e, he⟩
    refine ⟨?_, ?_⟩
    · rintro ⟨v, hv, rest, rfl⟩
      rw [readVarintBits_write hbits hv] at he
      cases he
    · rintro ⟨value, len, h⟩
      rw [h] at he
      cases he
  · rintro ⟨hwhole, hpart⟩
    cases h : readVarintBits input bits with
    | error e => exact ⟨e, rfl⟩
    | ok found =>
        obtain ⟨value, len, truncated⟩ := found
        cases truncated with
        | true => exact absurd ⟨value, len, h⟩ hpart
        | false =>
            obtain ⟨hfits, rest, hinput, -⟩ := readVarintBits_exact h
            exact absurd ⟨value, hfits, rest, hinput.symm⟩ hwhole

/-! ### The words -/

theorem and_low (b : Nat) : b &&& 0x7f = b % 128 := Nat.and_two_pow_sub_one_eq_mod b 7

/-- The top bit of a byte. -/
theorem and_high {b : Nat} (h : b < 256) : b &&& 0x80 = 0 ↔ b < 128 := by
  have hall : ∀ b : Fin 256, b.val &&& 0x80 = 0 ↔ b.val < 128 := by decide +kernel
  exact hall ⟨b, h⟩

theorem checkedShl_eq {width x n : Nat} (hn : n < width) (hx : x * 2 ^ n < 2 ^ width) :
    checkedShl width x n = some (x * 2 ^ n) := by
  rw [checkedShl, if_pos hn, Nat.mod_eq_of_lt hx]

/-- The bound of the last digit, as the machine shifts it. -/
theorem overWords_eq (b : Nat) {shift : Nat} (hshift : shift < bits) :
    overWords bits b shift =
      some (decide (shift + 7 ≥ bits ∧ (shift ≥ bits ∨ b ≥ 2 ^ (bits - shift)))) := by
  unfold overWords
  split
  case isTrue hlast =>
    have hpow : 2 ^ (bits - shift) ≤ 2 ^ 7 := Nat.pow_le_pow_right (by decide) (by omega)
    rw [if_neg (by omega), checkedShl_eq (by omega) (by omega), Option.map_some, Nat.one_mul,
      Option.some.injEq, decide_eq_decide]
    exact ⟨fun h => ⟨hlast, Or.inr h⟩, fun h => h.2.resolve_left (Nat.not_le.mpr hshift)⟩
  case isFalse hlast =>
    rw [Option.some.injEq, eq_comm, decide_eq_false_iff_not]
    exact fun h => hlast h.1

/-- A digit that passed the bound stays below the width. -/
theorem digit_fits {shift b : Nat} (hshift : shift < bits)
    (hover : ¬ (shift + 7 ≥ bits ∧ (shift ≥ bits ∨ b ≥ 2 ^ (bits - shift)))) :
    b % 128 * 2 ^ shift < 2 ^ bits := by
  have hdigit : b % 128 < 2 ^ (bits - shift) := by
    by_cases hroom : shift + 7 ≥ bits
    · have hsmall : b < 2 ^ (bits - shift) := by
        by_contra hge
        exact hover ⟨hroom, Or.inr (by omega)⟩
      exact Nat.lt_of_le_of_lt (Nat.mod_le _ _) hsmall
    · have hpow : 2 ^ 7 ≤ 2 ^ (bits - shift) := Nat.pow_le_pow_right (by decide) (by omega)
      omega
  calc b % 128 * 2 ^ shift < 2 ^ (bits - shift) * 2 ^ shift :=
        Nat.mul_lt_mul_of_pos_right hdigit (Nat.pow_pos (by decide))
    _ = 2 ^ bits := by rw [← Nat.pow_add, Nat.sub_add_cancel (Nat.le_of_lt hshift)]

/-- The words are exact: what is read so far lies below the shift, and the shift below the width. -/
theorem readVarintWords_eq (hle : bits ≤ 64) (input : Blob) {acc shift read : Nat}
    (hacc : acc < 2 ^ shift) (hshift : shift < bits) :
    readVarintWords bits input acc shift read = some (readVarintLoop bits input acc shift read) := by
  induction input generalizing acc shift read with
  | nil => rfl
  | cons byte input ih =>
      have hbyte := UInt8.toNat_lt byte
      rw [readVarintWords, readVarintLoop, if_neg (by omega), overWords_eq _ hshift,
        Option.bind_eq_bind, Option.bind_some]
      by_cases hover : shift + 7 ≥ bits ∧ (shift ≥ bits ∨ byte.toNat ≥ 2 ^ (bits - shift))
      · rw [if_pos (decide_eq_true hover), if_pos hover]
      rw [if_neg (by rwa [decide_eq_true_eq]), if_neg hover]
      by_cases hcanon : byte.toNat = 0 ∧ shift ≠ 0
      · rw [if_pos hcanon, if_pos hcanon]
      have hdigit := digit_fits hshift hover
      have hword : 2 ^ bits ≤ 2 ^ 64 := Nat.pow_le_pow_right (by decide) hle
      have hor : acc ||| byte.toNat % 128 * 2 ^ shift = acc + byte.toNat % 128 * 2 ^ shift := by
        rw [Nat.or_comm, Nat.add_comm, Nat.mul_comm, Nat.two_pow_add_eq_or_of_lt hacc]
      rw [if_neg hcanon, if_neg hcanon, and_low, checkedShl_eq (by omega) (by omega),
        Option.bind_eq_bind, Option.bind_some, hor]
      by_cases hlast : byte.toNat < 128
      · rw [if_pos ((and_high hbyte).mpr hlast), if_pos hlast]
      · rw [if_neg (mt (and_high hbyte).mp hlast), if_neg hlast]
        apply ih
        · rw [Nat.pow_add]
          have hlow : byte.toNat % 128 < 128 := Nat.mod_lt _ (by decide)
          have hmul : (byte.toNat % 128 + 1) * 2 ^ shift ≤ 128 * 2 ^ shift :=
            Nat.mul_le_mul_right _ hlow
          rw [Nat.add_mul, Nat.one_mul] at hmul
          omega
        · exact room_of_continues (Nat.not_lt.mp hlast) hover

end

/-- One encoding for each value of a width: a value that is written is read back, whatever follows;
    what is read to its end is a written value of the width; the input ends too early exactly when it is
    the front of one; all other input is refused; and no shift leaves its word. -/
theorem varint_canonical {bits : Nat} (hbits : 1 ≤ bits) (hle : bits ≤ 64) :
    (∀ (v : Nat) (rest : Blob), v < 2 ^ bits →
      readVarintBits (writeVarint v ++ rest) bits = .ok ⟨v, varintLen v, false⟩) ∧
    (∀ (input : Blob) (value len : Nat), readVarintBits input bits = .ok ⟨value, len, false⟩ →
      value < 2 ^ bits ∧ len ≤ input.length ∧ input.take len = writeVarint value) ∧
    (∀ input : Blob, (∃ value len, readVarintBits input bits = .ok ⟨value, len, true⟩) ↔
      ∃ v < 2 ^ bits, input <+: writeVarint v ∧ input ≠ writeVarint v) ∧
    (∀ input : Blob, (∃ e, readVarintBits input bits = .error e) ↔
      ¬ (∃ v < 2 ^ bits, writeVarint v <+: input) ∧
        ¬ ∃ v < 2 ^ bits, input <+: writeVarint v ∧ input ≠ writeVarint v) ∧
    ∀ input : Blob, readVarintWords bits input 0 0 0 = some (readVarintBits input bits) := by
  refine ⟨fun v rest hv => ?_, fun input value len h => ?_, fun input =>
    readVarintBits_truncated_iff hbits, fun input => readVarintBits_error_iff hbits, fun input => ?_⟩
  · rw [varintLen_eq]
    exact readVarintBits_write hbits hv
  · obtain ⟨hfits, rest, rfl, rfl⟩ := readVarintBits_exact h
    exact ⟨hfits, by rw [List.length_append]; exact Nat.le_add_right _ _, List.take_left⟩
  · exact readVarintWords_eq hle input Nat.one_pos hbits

/-- At the widest the bytes of `300`, with others behind. -/
theorem varint_canonical_wide : readVarintBits (writeVarint 300 ++ [7]) 64 = .ok ⟨300, 2, false⟩ :=
  (varint_canonical (by decide) (Nat.le_refl 64)).1 300 [7] (by decide)

end Wownero.Archive

import Mathlib.Data.List.Basic
import Mathlib.Data.Nat.Basic
import Wownero.Utf8
/-!
# Addresses as text

How an address of either kind is written and read: four decimal numbers, or eight hexadecimal ones
of which the longest run of zeros is left out.  An address that was written is read back.
-/

namespace IpText

/-! ### Places of a number -/

/-- The last `n` places of a number in a base, highest first. -/
def places (base : Nat) : Nat → Nat → List Nat
  | 0, _ => []
  | n + 1, v => places base n (v / base) ++ [v % base]

/-- The number of these places. -/
def ofPlaces (base : Nat) (ds : List Nat) : Nat := ds.foldl (fun acc d => acc * base + d) 0

theorem length_places (base n v : Nat) : (places base n v).length = n := by
  induction n generalizing v with
  | zero => rfl
  | succ n ih => rw [places, List.length_append, ih, List.length_singleton]

theorem places_lt {base : Nat} (hbase : 0 < base) {n v d : Nat} (h : d ∈ places base n v) :
    d < base := by
  induction n generalizing v with
  | zero => cases h
  | succ n ih =>
      rw [places, List.mem_append, List.mem_singleton] at h
      rcases h with hinit | rfl
      · exact ih hinit
      · exact Nat.mod_lt _ hbase

theorem ofPlaces_snoc (base : Nat) (ds : List Nat) (d : Nat) :
    ofPlaces base (ds ++ [d]) = ofPlaces base ds * base + d := by
  rw [ofPlaces, List.foldl_append]
  rfl

theorem ofPlaces_places (base n v : Nat) : ofPlaces base (places base n v) = v % base ^ n := by
  induction n generalizing v with
  | zero => rw [Nat.pow_zero, Nat.mod_one]; rfl
  | succ n ih =>
      rw [places, ofPlaces_snoc, ih, Nat.pow_succ, Nat.mul_comm (base ^ n), Nat.mod_mul,
        Nat.mul_comm, Nat.add_comm]

/-! ### Digits -/

/-- The digit of a number below sixteen. -/
def digit (d : Nat) : UInt8 := UInt8.ofNat (if d < 10 then 48 + d else 87 + d)

/-- The number of a digit, of either case. -/
def value (b : UInt8) : Option Nat :=
  if 48 ≤ b ∧ b ≤ 57 then some (b.toNat - 48)
  else if 97 ≤ b ∧ b ≤ 102 then some (b.toNat - 87)
  else if 65 ≤ b ∧ b ≤ 70 then some (b.toNat - 55)
  else none

/-- Whether a byte is a digit in a base. -/
def isDigit (base : Nat) (b : UInt8) : Bool :=
  match value b with
  | some d => d < base
  | none => false

/-- A number without leading zeros, of at most so many digits and one more. -/
def numeral (base : Nat) : Nat → Nat → List UInt8
  | 0, v => [digit v]
  | n + 1, v => if v < base then [digit v] else numeral base n (v / base) ++ [digit (v % base)]

/-- The number of these digits. -/
def ofDigits (base : Nat) (bs : List UInt8) : Nat :=
  ofPlaces base (bs.map fun b => (value b).getD 0)

theorem value_digit {d : Nat} (h : d < 16) : value (digit d) = some d := by
  have hall : ∀ d : Fin 16, value (digit d.val) = some d.val := by decide
  exact hall ⟨d, h⟩

/-- What the digits of a number are like. -/
structure Digits (base : Nat) (bs : List UInt8) : Prop where
  nonempty : bs ≠ []
  digits : ∀ b ∈ bs, isDigit base b = true

variable {base : Nat}

theorem isDigit_digit (hbase : base ≤ 16) {d : Nat} (h : d < base) : isDigit base (digit d) = true := by
  rw [isDigit, value_digit (Nat.lt_of_lt_of_le h hbase)]
  exact decide_eq_true h

theorem digits_numeral (hbase : base ≤ 16) (hpos : 1 < base) {n v : Nat} (h : v < base ^ (n + 1)) :
    Digits base (numeral base n v) := by
  induction n generalizing v with
  | zero =>
      rw [Nat.pow_one] at h
      refine ⟨List.cons_ne_nil _ _, fun b hb => ?_⟩
      rw [List.mem_singleton.mp hb]
      exact isDigit_digit hbase h
  | succ n ih =>
      rw [numeral]
      split
      case isTrue hlt =>
        refine ⟨List.cons_ne_nil _ _, fun b hb => ?_⟩
        rw [List.mem_singleton.mp hb]
        exact isDigit_digit hbase hlt
      case isFalse hge =>
        have hdiv : v / base < base ^ (n + 1) :=
          Nat.div_lt_of_lt_mul (by rwa [Nat.pow_succ, Nat.mul_comm] at h)
        refine ⟨by simp, fun b hb => ?_⟩
        rw [List.mem_append, List.mem_singleton] at hb
        rcases hb with hinit | rfl
        · exact (ih hdiv).digits b hinit
        · exact isDigit_digit hbase (Nat.mod_lt _ (by omega))

theorem decimal_digits {n v : Nat} (h : v < 10 ^ (n + 1)) : Digits 10 (numeral 10 n v) :=
  digits_numeral (by decide) (by decide) h

theorem hex_digits {n v : Nat} (h : v < 16 ^ (n + 1)) : Digits 16 (numeral 16 n v) :=
  digits_numeral (by decide) (by decide) h

theorem length_numeral (base n v : Nat) : (numeral base n v).length ≤ n + 1 := by
  induction n generalizing v with
  | zero => exact Nat.le_refl _
  | succ n ih =>
      rw [numeral]
      split
      · exact Nat.le_add_left _ _
      · rw [List.length_append]
        exact Nat.succ_le_succ (ih _)

theorem ofDigits_numeral (hbase : base ≤ 16) (hpos : 1 < base) {n v : Nat}
    (h : v < base ^ (n + 1)) : ofDigits base (numeral base n v) = v := by
  induction n generalizing v with
  | zero =>
      rw [Nat.pow_one] at h
      have hv := value_digit (Nat.lt_of_lt_of_le h hbase)
      simp [numeral, ofDigits, ofPlaces, hv]
  | succ n ih =>
      rw [numeral]
      split
      case isTrue hlt =>
        have hv := value_digit (Nat.lt_of_lt_of_le hlt hbase)
        simp [ofDigits, ofPlaces, hv]
      case isFalse hge =>
        have hdiv : v / base < base ^ (n + 1) :=
          Nat.div_lt_of_lt_mul (by rwa [Nat.pow_succ, Nat.mul_comm] at h)
        have hmod : v % base < base := Nat.mod_lt _ (by omega)
        have hv := value_digit (Nat.lt_of_lt_of_le hmod hbase)
        have hsnoc : ofDigits base (numeral base n (v / base) ++ [digit (v % base)])
            = ofDigits base (numeral base n (v / base)) * base + v % base := by
          rw [ofDigits, List.map_append, List.map_cons, List.map_nil, ofPlaces_snoc, hv]
          rfl
        rw [hsnoc, ih hdiv, Nat.mul_comm]
        exact Nat.div_add_mod v base

/-- A number of more than one digit does not begin with a zero. -/
theorem numeral_no_zero (hbase : base ≤ 16) {n v : Nat} (hv : 0 < v) (h : v < base ^ (n + 1)) :
    (numeral base n v).head? ≠ some 48 := by
  have hhead : ∀ d : Nat, 0 < d → d < 16 → digit d ≠ 48 := by
    intro d hd hlt
    have hall : ∀ d : Fin 16, 0 < d.val → digit d.val ≠ 48 := by decide
    exact hall ⟨d, hlt⟩ hd
  induction n generalizing v with
  | zero =>
      rw [Nat.pow_one] at h
      intro hzero
      exact hhead v hv (Nat.lt_of_lt_of_le h hbase) (Option.some.inj hzero)
  | succ n ih =>
      rw [numeral]
      split
      case isTrue hlt =>
        intro hzero
        exact hhead v hv (Nat.lt_of_lt_of_le hlt hbase) (Option.some.inj hzero)
      case isFalse hge =>
        rcases Nat.eq_zero_or_pos base with hzero | hpos
        · rw [hzero, Nat.zero_pow (Nat.succ_pos _)] at h
          exact absurd h (Nat.not_lt_zero _)
        have hdiv : v / base < base ^ (n + 1) :=
          Nat.div_lt_of_lt_mul (by rwa [Nat.pow_succ, Nat.mul_comm] at h)
        have hne : numeral base n (v / base) ≠ [] := by
          intro hnil
          cases n with
          | zero => exact List.cons_ne_nil _ _ hnil
          | succ n =>
              rw [numeral] at hnil
              split at hnil <;> simp at hnil
        rw [List.head?_append_of_ne_nil _ hne]
        exact ih (Nat.div_pos (Nat.le_of_not_lt hge) hpos) hdiv

/-! ### Reading numbers -/

/-- A reader of text: what it finds, and what is left. -/
abbrev Reader (α : Type) := List UInt8 → Option (α × List UInt8)

/-- One given byte. -/
def readByte (b : UInt8) : Reader Unit
  | [] => none
  | b' :: bs => if b' = b then some ((), bs) else none

/-- A number: all the digits there are, no more than `maxDigits`, the number below `limit`, and
leading zeros only where they may be. -/
def readNumber (base maxDigits : Nat) (allowZeroPrefix : Bool) (limit : Nat) : Reader Nat :=
  fun bs =>
    let ds := bs.takeWhile (isDigit base)
    if maxDigits < ds.length then none
    else if ds = [] then none
    else if !allowZeroPrefix && ds.head? = some 48 && 1 < ds.length then none
    else if ofDigits base ds < limit then some (ofDigits base ds, bs.dropWhile (isDigit base))
    else none

/-- What may follow a number: nothing, or no digit. -/
def Stops (base : Nat) (rest : List UInt8) : Prop := ∀ b ∈ rest.head?, isDigit base b = false

theorem stops_nil : Stops base [] := fun _ h => by cases h

theorem stops_cons {b : UInt8} {rest : List UInt8} (h : isDigit base b = false) :
    Stops base (b :: rest) := by
  intro b' hb'
  rw [← Option.some.inj hb']
  exact h

theorem takeWhile_digits {bs rest : List UInt8} (hds : ∀ b ∈ bs, isDigit base b = true)
    (hrest : Stops base rest) : (bs ++ rest).takeWhile (isDigit base) = bs := by
  rw [List.takeWhile_append_of_pos hds]
  cases rest with
  | nil => rw [List.takeWhile_nil, List.append_nil]
  | cons b rest =>
      have hstop := hrest b rfl
      rw [List.takeWhile_cons_of_neg (by simp [hstop]), List.append_nil]

theorem dropWhile_digits {bs rest : List UInt8} (hds : ∀ b ∈ bs, isDigit base b = true)
    (hrest : Stops base rest) : (bs ++ rest).dropWhile (isDigit base) = rest := by
  rw [List.dropWhile_append_of_pos hds]
  cases rest with
  | nil => rfl
  | cons b rest =>
      have hstop := hrest b rfl
      rw [List.dropWhile_cons_of_neg (by simp [hstop])]

/-- A number that was written is read back. -/
theorem readNumber_numeral (hbase : base ≤ 16) (hpos : 1 < base) {n v limit : Nat} (zeros : Bool)
    (h : v < base ^ (n + 1)) (hlimit : v < limit) {rest : List UInt8} (hrest : Stops base rest) :
    readNumber base (n + 1) zeros limit (numeral base n v ++ rest) = some (v, rest) := by
  obtain ⟨hne, hds⟩ := digits_numeral hbase hpos h
  have hlen := length_numeral base n v
  have hzero : (!zeros && (numeral base n v).head? = some 48 && 1 < (numeral base n v).length)
      = false := by
    rcases Nat.eq_zero_or_pos v with rfl | hv
    · have hone : (numeral base n 0).length = 1 := by
        cases n with
        | zero => rfl
        | succ n => rw [numeral, if_pos (by omega)]; rfl
      rw [hone]
      simp
    · have hhead := numeral_no_zero hbase hv h
      simp [hhead]
  unfold readNumber
  simp only [takeWhile_digits hds hrest, dropWhile_digits hds hrest, hzero,
    ofDigits_numeral hbase hpos h]
  rw [if_neg (by omega), if_neg hne, if_neg (by simp), if_pos hlimit]

/-! ### Addresses -/

/-- An address of either kind, its octets in order. -/
inductive Ip where
  | v4 (ip : BitVec 32)
  | v6 (ip : BitVec 128)
  deriving DecidableEq, Repr

/-- The four numbers of an address of the older kind. -/
def octets (ip : BitVec 32) : List Nat := places 256 4 ip.toNat

/-- The eight numbers of an address of the newer kind. -/
def segments (ip : BitVec 128) : List Nat := places 65536 8 ip.toNat

/-- Numbers with a byte between them.  The first number has index zero. -/
def separated (sep : UInt8) : Nat → List (List UInt8) → List UInt8
  | _, [] => []
  | index, t :: ts => (if index = 0 then t else sep :: t) ++ separated sep (index + 1) ts

/-- How an address of the older kind is written. -/
def ipv4Text (ip : BitVec 32) : List UInt8 := separated 46 0 ((octets ip).map (numeral 10 2))

/-- A stretch of segments. -/
structure Span where
  start : Nat
  len : Nat
  deriving DecidableEq, Repr

/-- The first of the longest runs of zeros. -/
def longestRun : Nat → Span → Span → List Nat → Span
  | _, _, longest, [] => longest
  | i, current, longest, s :: ss =>
      if s = 0 then
        let current : Span := if current.len = 0 then ⟨i, 1⟩ else ⟨current.start, current.len + 1⟩
        longestRun (i + 1) current (if longest.len < current.len then current else longest) ss
      else longestRun (i + 1) ⟨0, 0⟩ longest ss

/-- Some segments, written. -/
def segmentsText (ss : List Nat) : List UInt8 := separated 58 0 (ss.map (numeral 16 3))

/-- How an address of the newer kind is written. -/
def ipv6Text (ip : BitVec 128) : List UInt8 :=
  if ip.toNat / 2 ^ 32 = 0xffff then
    58 :: 58 :: (numeral 16 3 0xffff ++ 58 :: ipv4Text (BitVec.ofNat 32 ip.toNat))
  else
    let ss := segments ip
    let zeroes := longestRun 0 ⟨0, 0⟩ ⟨0, 0⟩ ss
    if 1 < zeroes.len then
      segmentsText (ss.take zeroes.start)
        ++ 58 :: 58 :: segmentsText (ss.drop (zeroes.start + zeroes.len))
    else segmentsText ss

/-- How an address is written. -/
def Ip.text : Ip → List UInt8
  | .v4 ip => ipv4Text ip
  | .v6 ip => ipv6Text ip

/-! ### Reading addresses -/

variable {α : Type}

/-- What follows a separator, or comes first. -/
def readSeparator (sep : UInt8) (index : Nat) (inner : Reader α) : Reader α := fun bs =>
  if index = 0 then inner bs else (readByte sep bs).bind fun out => inner out.2

/-- So many decimal numbers. -/
def readOctets : Nat → Nat → Reader (List Nat)
  | _, 0, bs => some ([], bs)
  | index, n + 1, bs => do
      let (d, bs) ← readSeparator 46 index (readNumber 10 3 false 256) bs
      let (ds, bs) ← readOctets (index + 1) n bs
      return (d :: ds, bs)

/-- An address of the older kind. -/
def readIpv4 : Reader (BitVec 32) := fun bs =>
  (readOctets 0 4 bs).map fun out => (BitVec.ofNat 32 (ofPlaces 256 out.1), out.2)

/-- As many segments as there are, up to so many: whether they end in an address of the older kind,
and what is left. -/
def readGroups : Nat → Nat → List UInt8 → List Nat × Bool × List UInt8
  | _, 0, bs => ([], false, bs)
  | index, left + 1, bs =>
      match if left = 0 then none else readSeparator 58 index readIpv4 bs with
      | some (ip, rest) => ([ip.toNat / 65536, ip.toNat % 65536], true, rest)
      | none =>
          match readSeparator 58 index (readNumber 16 4 true 65536) bs with
          | some (g, rest) =>
              let more := readGroups (index + 1) left rest
              (g :: more.1, more.2)
          | none => ([], false, bs)

/-- The part behind a double colon. -/
def readTail (head : List Nat) : Reader (BitVec 128) := fun bs =>
  let tail := readGroups 0 (8 - (head.length + 1)) bs
  let all := head ++ List.replicate (8 - tail.1.length - head.length) 0 ++ tail.1
  some (BitVec.ofNat 128 (ofPlaces 65536 all), tail.2.2)

/-- All segments, or those before a double colon and those behind it. -/
def readIpv6 : Reader (BitVec 128) := fun bs =>
  let head := readGroups 0 8 bs
  if head.1.length = 8 then some (BitVec.ofNat 128 (ofPlaces 65536 head.1), head.2.2)
  else if head.2.1 then none
  else (readByte 58 head.2.2).bind fun out => (readByte 58 out.2).bind fun out =>
    readTail head.1 out.2

/-- An address of either kind. -/
def readIp : Reader Ip := fun bs =>
  match readIpv4 bs with
  | some (ip, rest) => some (.v4 ip, rest)
  | none => (readIpv6 bs).map fun out => (.v6 out.1, out.2)

/-- A whole text. -/
def whole (r : Reader α) (bs : List UInt8) : Option α :=
  match r bs with
  | some (a, []) => some a
  | _ => none

/-- `IpAddr::from_str`. -/
def parseIp (bs : List UInt8) : Option Ip := whole readIp bs

/-- `Ipv4Addr::from_str`. -/
def parseIpv4 (bs : List UInt8) : Option (BitVec 32) :=
  if 15 < bs.length then none else whole readIpv4 bs

/-! ### What was written is read back -/

theorem isDigit_dot : isDigit 10 46 = false := by decide

theorem isDigit_colon : isDigit 16 58 = false ∧ isDigit 10 58 = false := by decide

theorem readOctets_text {ds : List Nat} (hds : ∀ d ∈ ds, d < 256) (index : Nat)
    {rest : List UInt8} (hrest : Stops 10 rest) :
    readOctets index ds.length (separated 46 index (ds.map (numeral 10 2)) ++ rest)
      = some (ds, rest) := by
  induction ds generalizing index with
  | nil => rfl
  | cons d ds ih =>
      have hd := hds d List.mem_cons_self
      have hstop : Stops 10 (separated 46 (index + 1) (ds.map (numeral 10 2)) ++ rest) := by
        cases ds with
        | nil => exact hrest
        | cons d' ds =>
            rw [List.map_cons, separated, if_neg (Nat.succ_ne_zero _)]
            exact stops_cons isDigit_dot
      have hnumber : readNumber 10 3 false 256 (numeral 10 2 d
          ++ (separated 46 (index + 1) (ds.map (numeral 10 2)) ++ rest))
          = some (d, separated 46 (index + 1) (ds.map (numeral 10 2)) ++ rest) :=
        readNumber_numeral (by decide) (by decide) false (Nat.lt_trans hd (by decide)) hd hstop
      have hread : readSeparator 46 index (readNumber 10 3 false 256)
          (separated 46 index ((d :: ds).map (numeral 10 2)) ++ rest)
          = some (d, separated 46 (index + 1) (ds.map (numeral 10 2)) ++ rest) := by
        rw [List.map_cons, separated, List.append_assoc, readSeparator]
        split
        · exact hnumber
        · exact hnumber
      rw [List.length_cons, readOctets, hread]
      show (readOctets (index + 1) ds.length _).bind _ = _
      rw [ih (fun d' hd' => hds d' (List.mem_cons_of_mem _ hd'))]
      rfl

theorem readIpv4_text (ip : BitVec 32) {rest : List UInt8} (hrest : Stops 10 rest) :
    readIpv4 (ipv4Text ip ++ rest) = some (ip, rest) := by
  have hlt : ∀ d ∈ octets ip, d < 256 := fun d hd => places_lt (by decide) hd
  have hread := readOctets_text hlt 0 hrest
  have hlen : (octets ip).length = 4 := length_places _ _ _
  rw [hlen] at hread
  have hback : BitVec.ofNat 32 (ofPlaces 256 (octets ip)) = ip := by
    rw [octets, ofPlaces_places]
    have hmod : ip.toNat % 256 ^ 4 = ip.toNat := Nat.mod_eq_of_lt ip.isLt
    rw [hmod, BitVec.ofNat_toNat, BitVec.setWidth_eq]
  rw [readIpv4, ipv4Text, hread, Option.map_some, hback]

/-- What may follow the segments that are read: nothing, or a double colon. -/
def Breaks (rest : List UInt8) : Prop := rest = [] ∨ ∃ more, rest = 58 :: 58 :: more

/-- What may follow a segment. -/
def Colon (rest : List UInt8) : Prop := rest = [] ∨ ∃ more, rest = 58 :: more

theorem Breaks.colon {rest : List UInt8} (h : Breaks rest) : Colon rest :=
  h.imp_right fun ⟨more, heq⟩ => ⟨58 :: more, heq⟩

theorem Colon.stops {rest : List UInt8} (h : Colon rest) : Stops 16 rest := by
  rcases h with rfl | ⟨more, rfl⟩
  · exact stops_nil
  · exact stops_cons isDigit_colon.1

theorem dot_not_hex {b : UInt8} (h : isDigit 16 b = true) : b ≠ 46 := by
  rintro rfl
  revert h
  decide

/-- Decimal digits that begin a segment are not followed by a dot. -/
theorem no_dot {ds rest : List UInt8} (hds : ∀ b ∈ ds, isDigit 16 b = true) (hrest : Colon rest) :
    readByte 46 ((ds ++ rest).dropWhile (isDigit 10)) = none := by
  induction ds with
  | nil =>
      rcases hrest with rfl | ⟨more, rfl⟩
      · rfl
      · rw [List.nil_append, List.dropWhile_cons_of_neg (by simp [isDigit_colon.2])]
        rfl
  | cons b ds ih =>
      rw [List.cons_append]
      by_cases hdec : isDigit 10 b = true
      · rw [List.dropWhile_cons_of_pos hdec]
        exact ih fun b' hb' => hds b' (List.mem_cons_of_mem _ hb')
      · rw [List.dropWhile_cons_of_neg hdec, readByte,
          if_neg (dot_not_hex (hds b List.mem_cons_self))]

theorem readNumber_rest {base maxDigits limit v : Nat} {zeros : Bool} {bs rest : List UInt8}
    (h : readNumber base maxDigits zeros limit bs = some (v, rest)) :
    rest = bs.dropWhile (isDigit base) := by
  unfold readNumber at h
  simp only at h
  split at h
  · cases h
  split at h
  · cases h
  split at h
  · cases h
  split at h
  · cases h
    rfl
  · cases h

/-- A segment begins no address of the older kind. -/
theorem readIpv4_segment {ds rest : List UInt8} (hds : ∀ b ∈ ds, isDigit 16 b = true)
    (hrest : Colon rest) : readIpv4 (ds ++ rest) = none := by
  have hnone : readOctets 0 4 (ds ++ rest) = none := by
    rw [readOctets, readSeparator, if_pos rfl]
    cases hread : readNumber 10 3 false 256 (ds ++ rest) with
    | none => rfl
    | some out =>
        obtain ⟨v, rest'⟩ := out
        have hdot := no_dot hds hrest
        rw [← readNumber_rest hread] at hdot
        show (readOctets 1 3 rest').bind _ = none
        rw [readOctets, readSeparator, if_neg Nat.one_ne_zero, hdot]
        rfl
  rw [readIpv4, hnone]
  rfl

theorem readIpv4_colon {rest : List UInt8} (hrest : Colon rest) : readIpv4 rest = none :=
  @readIpv4_segment [] rest (fun _ h => absurd h List.not_mem_nil) hrest

theorem readNumber_colon {base maxDigits limit : Nat} {zeros : Bool} {rest : List UInt8}
    (hbase : isDigit base 58 = false) (hrest : Colon rest) :
    readNumber base maxDigits zeros limit rest = none := by
  have hnil : rest.takeWhile (isDigit base) = [] := by
    rcases hrest with rfl | ⟨more, rfl⟩
    · rfl
    · rw [List.takeWhile_cons_of_neg (by simp [hbase])]
  unfold readNumber
  simp [hnil]

theorem readSeparator_breaks {inner : Reader α} (hinner : ∀ rest, Colon rest → inner rest = none)
    (index : Nat) {rest : List UInt8} (hrest : Breaks rest) :
    readSeparator 58 index inner rest = none := by
  rw [readSeparator]
  split
  · exact hinner rest hrest.colon
  · rcases hrest with rfl | ⟨more, rfl⟩
    · rfl
    · exact hinner (58 :: more) (.inr ⟨more, rfl⟩)

/-- Segments that were written are read back, and no more than they. -/
theorem readGroups_text {gs : List Nat} (hgs : ∀ g ∈ gs, g < 65536) (index : Nat) {left : Nat}
    (hleft : gs.length ≤ left) {rest : List UInt8} (hrest : Breaks rest) :
    readGroups index left (separated 58 index (gs.map (numeral 16 3)) ++ rest)
      = (gs, false, rest) := by
  induction gs generalizing index left with
  | nil =>
      cases left with
      | zero => rfl
      | succ left =>
          have hv4 : readSeparator 58 index readIpv4 rest = none :=
            readSeparator_breaks (fun _ => readIpv4_colon) index hrest
          have hv6 : readSeparator 58 index (readNumber 16 4 true 65536) rest = none :=
            readSeparator_breaks (fun r hr => readNumber_colon isDigit_colon.1 hr) index hrest
          rw [List.map_nil, separated, List.nil_append, readGroups, hv4, hv6]
          simp
  | cons g gs ih =>
      obtain ⟨left, rfl⟩ := Nat.exists_eq_succ_of_ne_zero
        (Nat.ne_of_gt (Nat.lt_of_lt_of_le (Nat.succ_pos _) hleft))
      have hg := hgs g List.mem_cons_self
      have hpow : g < 16 ^ (3 + 1) := hg
      set more := separated 58 (index + 1) (gs.map (numeral 16 3)) ++ rest with hmore
      have hcolon : Colon more := by
        cases gs with
        | nil => exact hrest.colon
        | cons g' gs =>
            rw [hmore, List.map_cons, separated, if_neg (Nat.succ_ne_zero _)]
            exact .inr ⟨_, rfl⟩
      have hds := (hex_digits hpow).digits
      have hsep : ∀ {β : Type} (inner : Reader β), readSeparator 58 index inner
          (separated 58 index ((g :: gs).map (numeral 16 3)) ++ rest)
          = inner (numeral 16 3 g ++ more) := by
        intro β inner
        rw [List.map_cons, separated, List.append_assoc, readSeparator]
        split <;> rfl
      have hnumber : readNumber 16 4 true 65536 (numeral 16 3 g ++ more) = some (g, more) :=
        readNumber_numeral (by decide) (by decide) true hpow hg hcolon.stops
      rw [readGroups, hsep, hsep, readIpv4_segment hds hcolon, hnumber]
      have hih := ih (fun g' hg' => hgs g' (List.mem_cons_of_mem _ hg')) (index + 1)
        (Nat.le_of_succ_le_succ hleft)
      rw [← hmore] at hih
      simp [hih]

/-! ### The run of zeros -/

/-- A stretch of zeros within these segments. -/
def Zeros (ss : List Nat) (z : Span) : Prop :=
  z.start + z.len ≤ ss.length ∧ ∀ k < z.len, ss[z.start + k]? = some 0

theorem zeros_nil (ss : List Nat) : Zeros ss ⟨0, 0⟩ :=
  ⟨Nat.zero_le _, fun _ hk => absurd hk (Nat.not_lt_zero _)⟩

theorem ite_zeros {ss : List Nat} {c : Prop} [Decidable c] {z z' : Span} (hz : Zeros ss z)
    (hz' : Zeros ss z') : Zeros ss (if c then z else z') := by
  split
  · exact hz
  · exact hz'

/-- What was seen of the segments up to here: the run that ends here, and the longest. -/
theorem longestRun_zeros {all seen rest : List Nat} (hall : all = seen ++ rest) {current longest : Span}
    (hcurrent : Zeros all current) (hends : current.len = 0 ∨ current.start + current.len = seen.length)
    (hlongest : Zeros all longest) :
    Zeros all (longestRun seen.length current longest rest) := by
  induction rest generalizing seen current longest with
  | nil => exact hlongest
  | cons s ss ih =>
      have hnext : all = (seen ++ [s]) ++ ss := by
        rw [hall, List.append_assoc]
        rfl
      have hlen : (seen ++ [s]).length = seen.length + 1 := List.length_append
      have hhere : all[seen.length]? = some s := by
        rw [hall, List.getElem?_append_right (Nat.le_refl _), Nat.sub_self]
        rfl
      have hroom : seen.length + 1 ≤ all.length := by
        rw [hnext, List.length_append, hlen]
        exact Nat.le_add_right _ _
      rw [longestRun]
      split
      case isFalse =>
        have hrun := ih hnext (zeros_nil all) (.inl rfl) hlongest
        rwa [hlen] at hrun
      case isTrue hzero =>
        rw [hzero] at hhere
        have hgrown : ∀ z : Span, z = (if current.len = 0 then ⟨seen.length, 1⟩
            else ⟨current.start, current.len + 1⟩) →
            Zeros all z ∧ z.start + z.len = seen.length + 1 := by
          rintro z rfl
          split
          case isTrue hnone =>
            refine ⟨⟨hroom, fun k hk => ?_⟩, rfl⟩
            rw [Nat.lt_one_iff.mp hk]
            exact hhere
          case isFalse hsome =>
            have hend := hends.resolve_left hsome
            have hwhole : current.start + (current.len + 1) = seen.length + 1 := by omega
            refine ⟨⟨hwhole ▸ hroom, fun k hk => ?_⟩, hwhole⟩
            rcases Nat.lt_succ_iff_lt_or_eq.mp hk with hlt | rfl
            · exact hcurrent.2 k hlt
            · rw [hend]
              exact hhere
        obtain ⟨hz, hzend⟩ := hgrown _ rfl
        rw [← hlen]
        exact ih hnext hz (.inr (by rw [hzend, hlen])) (ite_zeros hz hlongest)

/-- What is left when a stretch of zeros is left out is enough. -/
theorem zeros_between {ss : List Nat} {z : Span} (h : Zeros ss z) :
    ss.take z.start ++ List.replicate z.len 0 ++ ss.drop (z.start + z.len) = ss := by
  have hmid : (ss.drop z.start).take z.len = List.replicate z.len 0 := by
    refine List.ext_getElem? fun k => ?_
    rw [List.getElem?_take, List.getElem?_drop, List.getElem?_replicate]
    split
    case isTrue hk => exact h.2 k hk
    case isFalse => rfl
  rw [← hmid, List.append_assoc, ← List.drop_drop, List.take_append_drop, List.take_append_drop]

/-! ### Both kinds -/

theorem segments_lt {ip : BitVec 128} {g : Nat} (h : g ∈ segments ip) : g < 65536 :=
  places_lt (by decide) h

theorem ofPlaces_segments (ip : BitVec 128) :
    BitVec.ofNat 128 (ofPlaces 65536 (segments ip)) = ip := by
  have hmod : ip.toNat % 65536 ^ 8 = ip.toNat := Nat.mod_eq_of_lt ip.isLt
  rw [segments, ofPlaces_places, hmod, BitVec.ofNat_toNat, BitVec.setWidth_eq]

theorem readIpv6_double {bs more : List UInt8} {head : List Nat}
    (h : readGroups 0 8 bs = (head, false, 58 :: 58 :: more)) (hlen : head.length ≠ 8) :
    readIpv6 bs = readTail head more := by
  unfold readIpv6
  rw [h]
  simp only
  rw [if_neg hlen, if_neg (by simp)]
  rfl

/-- An address that maps one of the older kind: a double colon, a segment, and that address. -/
theorem readIpv6_mapped {ip : BitVec 128} (h : ip.toNat / 2 ^ 32 = 0xffff) :
    readIpv6 (58 :: 58 :: (numeral 16 3 0xffff ++ 58 :: ipv4Text (BitVec.ofNat 32 ip.toNat)))
      = some (ip, []) := by
  set v4 := BitVec.ofNat 32 ip.toNat with hv4
  set bs := numeral 16 3 0xffff ++ 58 :: ipv4Text v4 with hbs
  have hhead : readGroups 0 8 (58 :: 58 :: bs) = ([], false, 58 :: 58 :: bs) :=
    @readGroups_text [] (fun _ h => absurd h List.not_mem_nil) 0 8 (Nat.zero_le _) _ (.inr ⟨bs, rfl⟩)
  have hpow : 0xffff < 16 ^ (3 + 1) := by decide
  have hcolon : Colon (58 :: ipv4Text v4) := .inr ⟨_, rfl⟩
  have hds := (hex_digits hpow).digits
  have hnumber : readNumber 16 4 true 65536 bs = some (0xffff, 58 :: ipv4Text v4) :=
    readNumber_numeral (by decide) (by decide) true hpow (by decide) hcolon.stops
  have hip : readIpv4 (ipv4Text v4) = some (v4, []) := by
    have hread : readIpv4 (ipv4Text v4 ++ []) = some (v4, []) := readIpv4_text v4 stops_nil
    rwa [List.append_nil] at hread
  have htail : readGroups 0 7 bs
      = ([0xffff, v4.toNat / 65536, v4.toNat % 65536], true, []) := by
    rw [readGroups, readSeparator, readSeparator, if_pos rfl, if_pos rfl,
      readIpv4_segment hds hcolon, hnumber]
    show (0xffff :: (readGroups 1 6 (58 :: ipv4Text v4)).1, (readGroups 1 6 (58 :: ipv4Text v4)).2)
      = _
    have hrest : readGroups 1 6 (58 :: ipv4Text v4)
        = ([v4.toNat / 65536, v4.toNat % 65536], true, []) := by
      have hsep : readSeparator 58 1 readIpv4 (58 :: ipv4Text v4) = some (v4, []) := by
        rw [readSeparator, if_neg Nat.one_ne_zero, readByte, if_pos rfl]
        exact hip
      rw [readGroups, if_neg (by decide), hsep]
    rw [hrest]
  have hwhole : ofPlaces 65536
      [0, 0, 0, 0, 0, 0xffff, v4.toNat / 65536, v4.toNat % 65536] = ip.toNat := by
    have hlow : v4.toNat = ip.toNat % 2 ^ 32 := BitVec.toNat_ofNat _ _
    rw [hlow]
    simp only [ofPlaces, List.foldl_cons, List.foldl_nil]
    omega
  have hback : BitVec.ofNat 128 (ofPlaces 65536
      [0, 0, 0, 0, 0, 0xffff, v4.toNat / 65536, v4.toNat % 65536]) = ip := by
    rw [hwhole, BitVec.ofNat_toNat, BitVec.setWidth_eq]
  rw [readIpv6_double hhead (by decide)]
  show some (BitVec.ofNat 128 (ofPlaces 65536 ([]
    ++ List.replicate (8 - (readGroups 0 7 bs).1.length - 0) 0 ++ (readGroups 0 7 bs).1)),
    (readGroups 0 7 bs).2.2) = _
  rw [htail]
  show some (BitVec.ofNat 128 (ofPlaces 65536
    [0, 0, 0, 0, 0, 0xffff, v4.toNat / 65536, v4.toNat % 65536]), ([] : List UInt8)) = _
  rw [hback]

/-- Segments around a double colon. -/
theorem readIpv6_around {head tail : List Nat} (hhead : ∀ g ∈ head, g < 65536)
    (htail : ∀ g ∈ tail, g < 65536) (hroom : head.length + tail.length + 1 < 8) :
    readIpv6 (segmentsText head ++ 58 :: 58 :: segmentsText tail)
      = some (BitVec.ofNat 128 (ofPlaces 65536
          (head ++ List.replicate (8 - tail.length - head.length) 0 ++ tail)), []) := by
  have hfirst : readGroups 0 8 (segmentsText head ++ 58 :: 58 :: segmentsText tail)
      = (head, false, 58 :: 58 :: segmentsText tail) :=
    readGroups_text hhead 0 (by omega) (.inr ⟨_, rfl⟩)
  have hsecond : readGroups 0 (8 - (head.length + 1)) (segmentsText tail ++ [])
      = (tail, false, []) := readGroups_text htail 0 (by omega) (.inl rfl)
  rw [List.append_nil] at hsecond
  rw [readIpv6_double hfirst (by omega), readTail, hsecond]

/-- All eight segments. -/
theorem readIpv6_all {ss : List Nat} (hss : ∀ g ∈ ss, g < 65536) (hlen : ss.length = 8) :
    readIpv6 (segmentsText ss) = some (BitVec.ofNat 128 (ofPlaces 65536 ss), []) := by
  have hread : readGroups 0 8 (segmentsText ss ++ []) = (ss, false, []) :=
    readGroups_text hss 0 (by omega) (.inl rfl)
  rw [List.append_nil] at hread
  unfold readIpv6
  rw [hread]
  simp only
  rw [if_pos hlen]

theorem readIpv6_text (ip : BitVec 128) : readIpv6 (ipv6Text ip) = some (ip, []) := by
  unfold ipv6Text
  split
  case isTrue hmapped => exact readIpv6_mapped hmapped
  case isFalse =>
    have hlen : (segments ip).length = 8 := length_places _ _ _
    have hzeros : Zeros (segments ip) (longestRun 0 ⟨0, 0⟩ ⟨0, 0⟩ (segments ip)) :=
      @longestRun_zeros _ [] _ rfl _ _ (zeros_nil _) (.inl rfl) (zeros_nil _)
    simp only
    set z := longestRun 0 ⟨0, 0⟩ ⟨0, 0⟩ (segments ip)
    split
    case isFalse =>
      rw [readIpv6_all (fun g hg => segments_lt hg) hlen, ofPlaces_segments]
    case isTrue hlong =>
      have hroom := hzeros.1
      have hhead : ((segments ip).take z.start).length = z.start := by
        rw [List.length_take]
        omega
      have htail : ((segments ip).drop (z.start + z.len)).length = 8 - (z.start + z.len) := by
        rw [List.length_drop, hlen]
      rw [readIpv6_around (fun g hg => segments_lt (List.mem_of_mem_take hg))
        (fun g hg => segments_lt (List.mem_of_mem_drop hg)) (by omega)]
      have hgap : 8 - ((segments ip).drop (z.start + z.len)).length
          - ((segments ip).take z.start).length = z.len := by omega
      rw [hgap, zeros_between hzeros, ofPlaces_segments]

/-- No address of the newer kind begins with one of the older. -/
theorem readIpv4_ipv6Text (ip : BitVec 128) : readIpv4 (ipv6Text ip) = none := by
  have hcolon : ∀ more, readIpv4 (58 :: more) = none := fun more =>
    readIpv4_colon (.inr ⟨more, rfl⟩)
  have hsegments : ∀ (ss : List Nat) (rest : List UInt8), (∀ g ∈ ss, g < 65536) → Colon rest →
      readIpv4 (segmentsText ss ++ rest) = none := by
    intro ss rest hss hrest
    cases ss with
    | nil => exact readIpv4_colon hrest
    | cons g gs =>
        have hpow : g < 16 ^ (3 + 1) := hss g List.mem_cons_self
        have hds := (hex_digits hpow).digits
        rw [segmentsText, List.map_cons, separated, if_pos rfl, List.append_assoc]
        refine readIpv4_segment hds ?_
        cases gs with
        | nil => exact hrest
        | cons g' gs =>
            rw [List.map_cons, separated, if_neg (Nat.succ_ne_zero _)]
            exact .inr ⟨_, rfl⟩
  unfold ipv6Text
  split
  · exact hcolon _
  · simp only
    split
    · exact hsegments _ _ (fun g hg => segments_lt (List.mem_of_mem_take hg)) (.inr ⟨_, rfl⟩)
    · have hall := hsegments (segments ip) [] (fun g hg => segments_lt hg) (.inl rfl)
      rwa [List.append_nil] at hall

/-- An address that was written is read back. -/
theorem parseIp_text (ip : Ip) : parseIp ip.text = some ip := by
  cases ip with
  | v4 ip =>
      have hread : readIpv4 (ipv4Text ip ++ []) = some (ip, []) := readIpv4_text ip stops_nil
      rw [List.append_nil] at hread
      rw [Ip.text, parseIp, whole, readIp, hread]
  | v6 ip =>
      rw [Ip.text, parseIp, whole, readIp, readIpv4_ipv6Text, readIpv6_text]
      rfl

end IpText

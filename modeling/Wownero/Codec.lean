import Mathlib.Data.List.Induction
import Mathlib.Tactic.Ring
import Wownero.Outcome
import Wownero.Transaction
/-!
# Reading back what was written

A parsed transaction, written and parsed again, has the prefix it had.  Readers are composed the
way the archive composes them: each takes exactly the bytes its writer produced and leaves what
follows.  The other half is that a reader finds nothing its type has no room for.
-/

namespace Wownero.Archive

open Outcome

variable {α β : Type}

theorem run_bind {p : Parse α} {f : α → Parse β} {r r' : Reader} {a : α}
    (h : p r = .ok (a, r')) : (p >>= f) r = f a r' := by
  show (p r >>= fun x => f x.1 x.2) = _
  rw [h]
  rfl

theorem run_bind_eq_ok {p : Parse α} {f : α → Parse β} {r : Reader} {out : β × Reader} :
    (p >>= f) r = .ok out ↔ ∃ a r', p r = .ok (a, r') ∧ f a r' = .ok out := by
  constructor
  · intro h
    have hbind : (p r >>= fun x => f x.1 x.2) = .ok out := h
    obtain ⟨⟨a, r'⟩, hp, hf⟩ := bind_eq_ok.mp hbind
    exact ⟨a, r', hp, hf⟩
  · rintro ⟨a, r', hp, hf⟩
    rw [run_bind hp]
    exact hf

theorem run_remaining (r : Reader) : remaining r = .ok (r.rest.length, r) := rfl

theorem run_pure {a : α} {r : Reader} : (pure a : Parse α) r = .ok (a, r) := rfl

/-! ### Readers against writers -/

/-- A reader takes these bytes off the front, whatever follows them. -/
def Reads (p : Parse α) (bytes : Blob) (a : α) : Prop :=
  ∀ rest pos, p ⟨bytes ++ rest, pos⟩ = .ok (a, ⟨rest, pos + bytes.length⟩)

theorem reads_pure (a : α) : Reads (pure a) [] a := fun _ _ => rfl

theorem Reads.bind {p : Parse α} {f : α → Parse β} {bs cs : Blob} {a : α} {b : β}
    (hp : Reads p bs a) (hf : Reads (f a) cs b) : Reads (p >>= f) (bs ++ cs) b := by
  intro rest pos
  rw [List.append_assoc, run_bind (hp (cs ++ rest) pos), hf rest, List.length_append, Nat.add_assoc]

theorem Reads.map {p : Parse α} {bs : Blob} {a : α} (hp : Reads p bs a) (f : α → β) :
    Reads (p >>= fun x => pure (f x)) bs (f a) := by
  have h := hp.bind (f := fun x => pure (f x)) (reads_pure (f a))
  rwa [List.append_nil] at h

theorem Reads.of_eq {p : Parse α} {bs bs' : Blob} {a : α} (h : Reads p bs a) (heq : bs = bs') :
    Reads p bs' a := heq ▸ h

/-- A reader may look at how much is left. -/
theorem Reads.remaining {f : Nat → Parse α} {bs : Blob} {a : α}
    (h : ∀ n, bs.length ≤ n → Reads (f n) bs a) : Reads (remaining >>= f) bs a := by
  intro rest pos
  rw [run_bind (run_remaining _)]
  exact h _ (by rw [List.length_append]; omega) rest pos

theorem reads_take (bs : Blob) : Reads (take bs.length) bs bs := by
  intro rest pos
  simp [take]

theorem reads_u8 (b : UInt8) : Reads readU8 [b] b := (reads_take [b]).map (·.headD 0)

theorem beNat_append (xs ys : List UInt8) : beNat (xs ++ ys) = beNat xs * 256 ^ ys.length + beNat ys := by
  unfold beNat
  induction ys using List.reverseRecOn with
  | nil => simp
  | append_singleton ys y ih =>
      rw [← List.append_assoc, List.foldl_append, List.foldl_cons, List.foldl_nil, ih,
        List.foldl_append, List.foldl_cons, List.foldl_nil, List.length_append,
        List.length_singleton, Nat.pow_succ]
      ring

theorem length_leBytes (n v : Nat) : (leBytes n v).length = n := by
  induction n generalizing v with
  | zero => rfl
  | succ n ih => simp [leBytes, ih]

theorem beNat_leBytes (n v : Nat) : beNat (leBytes n v).reverse = v % 256 ^ n := by
  induction n generalizing v with
  | zero => simp [leBytes, beNat, Nat.mod_one]
  | succ n ih =>
      rw [leBytes, List.reverse_cons, beNat_append, ih, Nat.pow_succ, Nat.mul_comm (256 ^ n) 256,
        Nat.mod_mul]
      simp [beNat]
      ring

theorem length_toBytes (b : Bytes32) : (Bytes32.toBytes b).length = 32 := by
  rw [Bytes32.toBytes, List.length_reverse, length_leBytes]

theorem ofBytes_toBytes (b : Bytes32) : Bytes32.ofBytes (Bytes32.toBytes b) = b := by
  have hlt : b.toNat < 256 ^ 32 := b.isLt
  rw [Bytes32.ofBytes, Bytes32.toBytes, beNat_leBytes, Nat.mod_eq_of_lt hlt]
  exact BitVec.eq_of_toNat_eq (by rw [BitVec.toNat_ofNat, Nat.mod_eq_of_lt b.isLt])

theorem leNat_leBytes (n v : Nat) : leNat (leBytes n v) = v % 256 ^ n := by
  induction n generalizing v with
  | zero => simp [leBytes, leNat, Nat.mod_one]
  | succ n ih =>
      have hlow : (UInt8.ofNat v).toNat = v % 256 := UInt8.toNat_ofNat'
      rw [leBytes, leNat, ih, hlow, Nat.pow_succ, Nat.mul_comm (256 ^ n) 256, Nat.mod_mul]

theorem leNat_lt (bs : List UInt8) : leNat bs < 256 ^ bs.length := by
  induction bs with
  | nil => simp [leNat]
  | cons b bs ih =>
      have hb := b.toNat_lt
      rw [leNat, List.length_cons, Nat.pow_succ]
      omega

theorem leBytes_leNat (bs : List UInt8) : leBytes bs.length (leNat bs) = bs := by
  induction bs with
  | nil => rfl
  | cons b bs ih =>
      have hb := b.toNat_lt
      have hlow : UInt8.ofNat (b.toNat + 256 * leNat bs) = b := by
        rw [← UInt8.toNat_inj, UInt8.toNat_ofNat']
        omega
      have hhigh : (b.toNat + 256 * leNat bs) / 256 = leNat bs := by omega
      rw [List.length_cons, leNat, leBytes, hlow, hhigh, ih]

theorem beNat_eq_leNat (bs : List UInt8) : beNat bs = leNat bs.reverse := by
  have h := beNat_leBytes bs.reverse.length (leNat bs.reverse)
  rwa [leBytes_leNat, List.reverse_reverse, Nat.mod_eq_of_lt (leNat_lt _)] at h

theorem toBytes_ofBytes {bs : List UInt8} (h : bs.length = 32) :
    Bytes32.toBytes (Bytes32.ofBytes bs) = bs := by
  have hlt : leNat bs.reverse < 2 ^ 256 := by
    have := leNat_lt bs.reverse
    rw [List.length_reverse, h] at this
    exact this
  have hlen : bs.reverse.length = 32 := by rw [List.length_reverse, h]
  rw [Bytes32.toBytes, Bytes32.ofBytes, BitVec.toNat_ofNat, beNat_eq_leNat, Nat.mod_eq_of_lt hlt,
    ← hlen, leBytes_leNat, List.reverse_reverse]

theorem reads_array32 (b : Bytes32) : Reads readArray32 (writeArray32 b) b := by
  have h := (reads_take (writeArray32 b)).map Bytes32.ofBytes
  rw [writeArray32, length_toBytes, ofBytes_toBytes] at h
  exact h

/-- The last digit of a varint. -/
theorem readVarintLoop_last {bits v acc shift read : Nat} {rest : Blob} (hbits : 0 < bits) (hv : v < 128)
    (hfits : v < 2 ^ (bits - shift)) (hzero : shift ≠ 0 → v ≠ 0) :
    readVarintLoop bits (UInt8.ofNat v :: rest) acc shift read =
      .ok ⟨acc + v * 2 ^ shift, read + 1, false⟩ := by
  have hbyte : (UInt8.ofNat v).toNat = v := by
    rw [UInt8.toNat_ofNat']
    omega
  have hshift : ¬ shift ≥ bits := by
    intro h
    rw [Nat.sub_eq_zero_of_le h, Nat.pow_zero] at hfits
    exact hzero (by omega) (by omega)
  rw [readVarintLoop, hbyte, if_neg (by omega), if_neg (by tauto), Nat.mod_eq_of_lt hv, if_pos hv]

/-- The varint, digit by digit. -/
theorem readVarintLoop_write {bits : Nat} (hbits : 0 < bits) (fuel : Nat) {v shift : Nat} (acc read : Nat)
    {rest : Blob} (hfuel : v ≤ fuel) (hfits : v < 2 ^ (bits - shift)) (hzero : shift ≠ 0 → v ≠ 0) :
    readVarintLoop bits (writeVarintLoop fuel v ++ rest) acc shift read =
      .ok ⟨acc + v * 2 ^ shift, read + (writeVarintLoop fuel v).length, false⟩ := by
  induction fuel generalizing v acc shift read with
  | zero =>
      rw [writeVarintLoop]
      exact readVarintLoop_last hbits (by omega) hfits hzero
  | succ fuel ih =>
      rw [writeVarintLoop]
      split_ifs with hbig
      · -- A digit with more to come: there is room for seven bits and some above.
        have hroom : 7 < bits - shift := by
          by_contra hle
          have hpow : 2 ^ (bits - shift) ≤ 2 ^ 7 := Nat.pow_le_pow_right (by omega) (by omega)
          omega
        have hsplit : 2 ^ (bits - shift) = 2 ^ (bits - (shift + 7)) * 128 := by
          rw [show bits - shift = bits - (shift + 7) + 7 by omega, Nat.pow_add]
        have hbyte : (UInt8.ofNat (v % 128 + 128)).toNat = v % 128 + 128 := by
          rw [UInt8.toNat_ofNat']
          omega
        have hrest : v / 128 < 2 ^ (bits - (shift + 7)) := by
          rw [Nat.div_lt_iff_lt_mul (by omega), ← hsplit]
          exact hfits
        have hnext := ih (acc + v % 128 * 2 ^ shift) (read + 1) (by omega) hrest (by omega)
        have hvalue : acc + v % 128 * 2 ^ shift + v / 128 * 2 ^ (shift + 7) = acc + v * 2 ^ shift := by
          calc acc + v % 128 * 2 ^ shift + v / 128 * 2 ^ (shift + 7)
              = acc + (128 * (v / 128) + v % 128) * 2 ^ shift := by rw [Nat.pow_add]; ring
            _ = acc + v * 2 ^ shift := by rw [Nat.div_add_mod]
        rw [List.cons_append, readVarintLoop, hbyte, if_neg (by omega), if_neg (by omega),
          if_neg (by omega), show (v % 128 + 128) % 128 = v % 128 by omega, hnext, hvalue,
          List.length_cons, Nat.add_assoc read 1, Nat.add_comm 1]
      · exact readVarintLoop_last hbits (by omega) hfits hzero

theorem reads_varintN {bits v : Nat} (hbits : 0 < bits) (h : v < 2 ^ bits) :
    Reads (readVarintN bits) (writeVarint v) v := by
  intro rest pos
  have hread : readVarintLoop bits (writeVarintLoop v v ++ rest) 0 0 0 =
      .ok ⟨0 + v * 2 ^ 0, 0 + (writeVarintLoop v v).length, false⟩ :=
    readVarintLoop_write hbits v 0 0 (Nat.le_refl v) h (fun h => absurd rfl h)
  show (readVarintBits (writeVarint v ++ rest) bits >>= _) = _
  rw [readVarintBits, writeVarint, hread]
  simp only [Nat.zero_add, Nat.pow_zero, Nat.mul_one]
  show Except.ok _ = _
  rw [List.drop_left]

theorem reads_varint {v : Nat} (h : v < 2 ^ 64) : Reads readVarint (writeVarint v) v :=
  reads_varintN (by omega) h

/-- The last digit of a varint of more than 64 bits. -/
theorem readVarintLoop_last_overflow {v acc shift read : Nat} {rest : Blob} (hv : v < 128)
    (hbig : 2 ^ (64 - shift) ≤ v) :
    readVarintLoop 64 (UInt8.ofNat v :: rest) acc shift read = .error .varintOverflow := by
  have hroom : 64 - shift < 7 := by
    by_contra hge
    have hpow : 2 ^ 7 ≤ 2 ^ (64 - shift) := Nat.pow_le_pow_right (by omega) (by omega)
    omega
  have hbyte : (UInt8.ofNat v).toNat = v := by
    rw [UInt8.toNat_ofNat']
    omega
  rw [readVarintLoop, hbyte, if_pos ⟨by omega, Or.inr hbig⟩]

/-- A varint of more than 64 bits is refused. -/
theorem readVarintLoop_overflow (fuel : Nat) {v acc shift read : Nat} {rest : Blob}
    (hfuel : v ≤ fuel) (hbig : 2 ^ (64 - shift) ≤ v) :
    readVarintLoop 64 (writeVarintLoop fuel v ++ rest) acc shift read =
      .error .varintOverflow := by
  induction fuel generalizing v acc shift read with
  | zero =>
      rw [writeVarintLoop]
      exact readVarintLoop_last_overflow (by omega) hbig
  | succ fuel ih =>
      rw [writeVarintLoop]
      split_ifs with hmore
      · have hbyte : (UInt8.ofNat (v % 128 + 128)).toNat = v % 128 + 128 := by
          rw [UInt8.toNat_ofNat']
          omega
        rw [List.cons_append, readVarintLoop, hbyte]
        by_cases hroom : shift + 7 ≥ 64
        · have hpow : 2 ^ (64 - shift) ≤ 2 ^ 7 := Nat.pow_le_pow_right (by omega) (by omega)
          rw [if_pos ⟨hroom, Or.inr (by omega)⟩]
        · have hsplit : 2 ^ (64 - shift) = 2 ^ (64 - (shift + 7)) * 128 := by
            rw [show 64 - shift = 64 - (shift + 7) + 7 by omega, Nat.pow_add]
          have hrest : 2 ^ (64 - (shift + 7)) ≤ v / 128 := by
            rw [Nat.le_div_iff_mul_le (by omega), ← hsplit]
            exact hbig
          rw [if_neg (by omega), if_neg (by omega), if_neg (by omega)]
          exact ih (by omega) hrest
      · exact readVarintLoop_last_overflow (by omega) hbig

/-- What a written varint is read back as, if it is read at all. -/
theorem readVarint_write {v v' : Nat} {rest : Blob} {start : Nat} {r : Reader}
    (h : readVarint ⟨writeVarint v ++ rest, start⟩ = .ok (v', r)) :
    v' = v ∧ r = ⟨rest, start + (writeVarint v).length⟩ := by
  by_cases hv : v < 2 ^ 64
  · rw [reads_varint hv rest start] at h
    cases h
    exact ⟨rfl, rfl⟩
  · obtain ⟨found, hfound, _⟩ := bind_eq_ok.mp h
    rw [readVarintBits, writeVarint,
      readVarintLoop_overflow v (Nat.le_refl v) (Nat.le_of_not_lt hv)] at hfound
    cases hfound

theorem readLen_write {n n' limit : Nat} {what : String} {rest : Blob} {start : Nat} {r : Reader}
    (h : readLen limit what ⟨writeVarint n ++ rest, start⟩ = .ok (n', r)) :
    n' = n ∧ r = ⟨rest, start + (writeVarint n).length⟩ := by
  unfold readLen at h
  obtain ⟨m, r₁, hm, h⟩ := run_bind_eq_ok.mp h
  obtain ⟨rfl, rfl⟩ := readVarint_write hm
  split_ifs at h
  · cases h
  obtain ⟨left, r₂, hleft, h⟩ := run_bind_eq_ok.mp h
  cases hleft
  split_ifs at h
  · cases h
  · cases h
    exact ⟨rfl, rfl⟩

/-- A length, and what it is the length of. -/
theorem Reads.length {n limit : Nat} {what : String} {f : Nat → Parse α} {bs : Blob} {a : α}
    (hn : n < 2 ^ 64) (hlimit : n ≤ limit) (hlen : n ≤ bs.length) (hf : Reads (f n) bs a) :
    Reads (readLen limit what >>= f) (writeVarint n ++ bs) a := by
  intro rest pos
  have hread : readLen limit what ⟨writeVarint n ++ (bs ++ rest), pos⟩ =
      .ok (n, ⟨bs ++ rest, pos + (writeVarint n).length⟩) := by
    unfold readLen
    rw [run_bind (reads_varint hn (bs ++ rest) pos), if_neg (by omega)]
    dsimp only
    rw [run_bind (run_remaining _),
      if_neg (by rw [List.length_append]; omega)]
    rfl
  rw [List.append_assoc, run_bind hread, hf rest, List.length_append, Nat.add_assoc]

theorem reads_bytesPrefixed {bs : Blob} {limit : Nat} {what : String} (hn : bs.length < 2 ^ 64)
    (hlimit : bs.length ≤ limit) :
    Reads (readBytesPrefixed limit what) (writeBytesPrefixed bs) bs :=
  Reads.length hn hlimit (Nat.le_refl _) (reads_take bs)

theorem reads_many {item : Parse α} {write : α → Blob} {l : List α}
    (h : ∀ a ∈ l, Reads item (write a) a) : Reads (readMany item l.length) (l.flatMap write) l := by
  induction l with
  | nil => exact reads_pure []
  | cons a l ih =>
      rw [List.flatMap_cons, List.length_cons, readMany]
      exact (h a List.mem_cons_self).bind
        ((ih fun b hb => h b (List.mem_cons_of_mem a hb)).map (a :: ·))

/-- A list behind its length.  Every element takes a byte at least. -/
theorem length_le_flatMap {write : α → Blob} (hne : ∀ a, write a ≠ []) (l : List α) :
    l.length ≤ (l.flatMap write).length := by
  induction l with
  | nil => exact Nat.le_refl 0
  | cons a l ih =>
      have hpos := List.length_pos_iff.mpr (hne a)
      rw [List.flatMap_cons, List.length_append, List.length_cons]
      omega

/-! ### What a reader finds -/

/-- Whatever a reader finds satisfies `Q`. -/
def Finds (p : Parse α) (Q : α → Prop) : Prop := ∀ r a r', p r = .ok (a, r') → Q a

theorem Finds.found {p : Parse α} {Q : α → Prop} {r r' : Reader} {a : α} (h : p r = .ok (a, r'))
    (hp : Finds p Q) : Q a := hp r a r' h

theorem finds_pure {Q : α → Prop} {a : α} (h : Q a) : Finds (pure a) Q := by
  intro r b r' hp
  cases hp
  exact h

theorem Finds.bind {p : Parse α} {f : α → Parse β} {Q : α → Prop} {R : β → Prop}
    (hp : Finds p Q) (hf : ∀ a, Q a → Finds (f a) R) : Finds (p >>= f) R := by
  intro r b r' h
  obtain ⟨a, r₁, ha, hb⟩ := run_bind_eq_ok.mp h
  exact hf a (hp r a r₁ ha) r₁ b r' hb

theorem finds_any (p : Parse α) : Finds p fun _ => True := fun _ _ _ _ => trivial

theorem finds_throw {Q : α → Prop} (e : Error) : Finds (throw e : Parse α) Q := by
  intro r a r' h
  cases h

theorem finds_guard {c : Prop} [Decidable c] {e : Error} {p : Parse α} {Q : α → Prop}
    (h : ¬c → Finds p Q) : Finds (if c then throw e else p) Q := by
  split_ifs with hc
  · exact finds_throw e
  · exact h hc

theorem readVarintLoop_lt {bits : Nat} {input : List UInt8} {acc shift read : Nat} {found : VarintRead}
    (hacc : acc < 2 ^ min shift bits) (h : readVarintLoop bits input acc shift read = .ok found) :
    found.value < 2 ^ bits := by
  induction input generalizing acc shift read with
  | nil =>
      cases h
      exact lt_of_lt_of_le hacc (Nat.pow_le_pow_right (by omega) (by omega))
  | cons byte input ih =>
      rw [readVarintLoop] at h
      split_ifs at h with hover hcanon hlast
      all_goals
        have hbyte := UInt8.toNat_lt byte
        have hdigit : byte.toNat % 128 < 2 ^ (min (shift + 7) bits - shift) := by
          by_cases hroom : shift + 7 ≥ bits
          · have hsmall : byte.toNat < 2 ^ (bits - shift) := by
              by_contra hle
              exact hover ⟨hroom, Or.inr (by omega)⟩
            rw [show min (shift + 7) bits - shift = bits - shift by omega]
            exact lt_of_le_of_lt (Nat.mod_le _ _) hsmall
          · rw [show min (shift + 7) bits - shift = 7 by omega]
            exact Nat.mod_lt _ (by omega)
        have hshift : shift < bits := by
          by_contra hle
          exact hover ⟨by omega, Or.inl (by omega)⟩
        have hsum : acc + byte.toNat % 128 * 2 ^ shift < 2 ^ min (shift + 7) bits := by
          rw [show min shift bits = shift by omega] at hacc
          have hmul : (byte.toNat % 128 + 1) * 2 ^ shift ≤
              2 ^ (min (shift + 7) bits - shift) * 2 ^ shift := Nat.mul_le_mul_right _ hdigit
          rw [← Nat.pow_add, show min (shift + 7) bits - shift + shift = min (shift + 7) bits by omega]
            at hmul
          rw [Nat.add_mul, Nat.one_mul] at hmul
          omega
      · cases h
        exact lt_of_lt_of_le hsum (Nat.pow_le_pow_right (by omega) (by omega))
      · exact ih hsum h

theorem finds_varintN (bits : Nat) : Finds (readVarintN bits) fun v => v < 2 ^ bits := by
  intro r v r' h
  obtain ⟨found, hfound, heq⟩ := bind_eq_ok.mp h
  cases heq
  refine readVarintLoop_lt ?_ hfound
  rw [Nat.zero_min]
  exact Nat.one_pos

theorem finds_varint : Finds readVarint fun v => v < 2 ^ 64 := finds_varintN 64

theorem finds_length (limit : Nat) (what : String) : Finds (readLen limit what) fun n => n < 2 ^ 64 := by
  unfold readLen
  refine finds_varint.bind fun n hn => ?_
  refine finds_guard fun _ => ?_
  refine (finds_any _).bind fun left _ => ?_
  exact finds_guard fun _ => finds_pure hn

theorem finds_take (n : Nat) : Finds (take n) fun bs => bs.length = n := by
  intro r bs r' h
  unfold take at h
  split_ifs at h with hle
  cases h
  rw [List.length_take]
  omega

theorem finds_bytesPrefixed (limit : Nat) (what : String) :
    Finds (readBytesPrefixed limit what) fun bs => bs.length < 2 ^ 64 := by
  refine (finds_length limit what).bind fun n hn => ?_
  intro r bs r' h
  rw [finds_take n r bs r' h]
  exact hn

theorem finds_many {item : Parse α} {Q : α → Prop} (h : Finds item Q) (n : Nat) :
    Finds (readMany item n) fun l => l.length = n ∧ ∀ a ∈ l, Q a := by
  induction n with
  | zero => exact finds_pure ⟨rfl, nofun⟩
  | succ n ih =>
      rw [readMany]
      refine h.bind fun a ha => ih.bind fun l hl => finds_pure ⟨by simp [hl.1], ?_⟩
      intro b hb
      rcases List.mem_cons.mp hb with rfl | hb
      · exact ha
      · exact hl.2 b hb

end Wownero.Archive

namespace Wownero

open Outcome Wownero.Archive

/-! ### The transaction prefix -/

/-- The numbers of a target have room in their types. -/
def TxOutTarget.Fits : TxOutTarget → Prop
  | .toScript keys script => keys.length < 2 ^ 64 ∧ script.length < 2 ^ 64
  | _ => True

def TxIn.Fits : TxIn → Prop
  | .gen height => height < 2 ^ 64
  | .toKey amount keyOffsets _ =>
      amount < 2 ^ 64 ∧ keyOffsets.length < 2 ^ 64 ∧ ∀ offset ∈ keyOffsets, offset < 2 ^ 64
  | .toScript _ prevout sigset => prevout < 2 ^ 64 ∧ sigset.length < 2 ^ 64
  | .toScriptHash _ prevout script sigset =>
      prevout < 2 ^ 64 ∧ script.Fits ∧ sigset.length < 2 ^ 64

def TxOut.Fits (o : TxOut) : Prop := o.amount < 2 ^ 64 ∧ o.target.Fits

structure TransactionPrefix.Fits (p : TransactionPrefix) : Prop where
  version : p.version = 1 ∨ p.version = 2
  unlockTime : p.unlockTime < 2 ^ 64
  vin : p.vin.length < 2 ^ 64 ∧ ∀ input ∈ p.vin, input.Fits
  vout : p.vout.length < 2 ^ 64 ∧ ∀ o ∈ p.vout, o.Fits
  extra : p.extra.length < 2 ^ 64

theorem TxOutTarget.write_ne_nil (target : TxOutTarget) : target.write ≠ [] := by
  cases target <;> exact nofun

theorem TxIn.write_ne_nil (input : TxIn) : input.write ≠ [] := by
  cases input <;> exact nofun

theorem writeVarint_ne_nil (v : Nat) : writeVarint v ≠ [] := by
  unfold writeVarint
  cases v with
  | zero => exact nofun
  | succ v =>
      rw [writeVarintLoop]
      split_ifs <;> exact nofun

theorem TxOut.write_ne_nil (o : TxOut) : o.write ≠ [] := by
  rw [TxOut.write]
  exact List.append_ne_nil_of_left_ne_nil (writeVarint_ne_nil _) _

theorem length_writeArrays (keys : List Bytes32) : (writeArrays keys).length = 32 * keys.length := by
  unfold writeArrays
  induction keys with
  | nil => rfl
  | cons key keys ih =>
      rw [List.flatMap_cons, List.length_append, length_toBytes, ih, List.length_cons]
      omega

theorem TxOutTarget.reads {target : TxOutTarget} (h : target.Fits) :
    Reads TxOutTarget.read target.write target := by
  unfold TxOutTarget.read
  cases target with
  | toKey key => exact (reads_u8 0x02).bind ((reads_array32 key).map _)
  | toTaggedKey key viewTag =>
      exact (reads_u8 0x03).bind ((reads_array32 key).bind ((reads_u8 viewTag).map _))
  | toScript keys script =>
      obtain ⟨hkeys, hscript⟩ := h
      refine (reads_u8 0x00).bind ?_
      refine Reads.of_eq ?_ (List.append_assoc _ _ _).symm
      refine Reads.remaining fun n hn => ?_
      have hlen := length_writeArrays keys
      rw [List.length_append, List.length_append, hlen] at hn
      refine Reads.length hkeys (by omega) (by rw [List.length_append, hlen]; omega) ?_
      refine (reads_many fun key _ => reads_array32 key).bind ?_
      refine Reads.remaining fun n hn => (reads_bytesPrefixed hscript ?_).map _
      rw [writeBytesPrefixed, List.length_append] at hn
      omega
  | toScriptHash hash => exact (reads_u8 0x01).bind ((reads_array32 hash).map _)

theorem reads_sigset {sigset : Blob} (h : sigset.length < 2 ^ 64) {α : Type} (f : Blob → α) :
    Reads (remaining >>= fun n => readBytesPrefixed n "sigset" >>= fun s => pure (f s))
      (writeBytesPrefixed sigset) (f sigset) := by
  refine Reads.remaining fun n hn => (reads_bytesPrefixed h ?_).map f
  rw [writeBytesPrefixed, List.length_append] at hn
  omega

theorem TxIn.reads {input : TxIn} (h : input.Fits) : Reads TxIn.read input.write input := by
  unfold TxIn.read
  cases input with
  | gen height => exact (reads_u8 0xff).bind ((reads_varint h).map _)
  | toKey amount keyOffsets kImage =>
      obtain ⟨hamount, hlength, hoffsets⟩ := h
      have hbytes : [0x02] ++ (writeVarint amount ++ (writeVarint keyOffsets.length ++
          (keyOffsets.flatMap writeVarint ++ writeArray32 kImage))) =
          (TxIn.toKey amount keyOffsets kImage).write := by
        simp [TxIn.write]
      refine Reads.of_eq ((reads_u8 0x02).bind ((reads_varint hamount).bind ?_)) hbytes
      refine Reads.remaining fun n hn => ?_
      have hle := length_le_flatMap writeVarint_ne_nil keyOffsets
      rw [List.length_append, List.length_append] at hn
      refine Reads.length hlength (by omega) (by rw [List.length_append]; omega) ?_
      exact (reads_many fun offset hoffset => reads_varint (hoffsets offset hoffset)).bind
        ((reads_array32 kImage).map _)
  | toScript prev prevout sigset =>
      obtain ⟨hprevout, hsigset⟩ := h
      exact Reads.of_eq ((reads_u8 0x00).bind ((reads_array32 prev).bind
        ((reads_varint hprevout).bind (reads_sigset hsigset _)))) (by simp [TxIn.write])
  | toScriptHash prev prevout script sigset =>
      obtain ⟨hprevout, hscript, hsigset⟩ := h
      exact Reads.of_eq ((reads_u8 0x01).bind ((reads_array32 prev).bind
        ((reads_varint hprevout).bind ((TxOutTarget.reads hscript).bind
          (reads_sigset hsigset _))))) (by simp [TxIn.write])

theorem TxOut.reads {o : TxOut} (h : o.Fits) : Reads TxOut.read o.write o :=
  (reads_varint h.1).bind ((TxOutTarget.reads h.2).map (TxOut.mk o.amount))

/-- A list behind its length, with something after it. -/
theorem reads_counted {α β : Type} {item : Parse α} {write : α → Blob} {what : String} {l : List α}
    {f : List α → Parse β} {bs : Blob} {b : β} (hlen : l.length < 2 ^ 64)
    (hne : ∀ a, write a ≠ []) (hitem : ∀ a ∈ l, Reads item (write a) a) (hf : Reads (f l) bs b) :
    Reads (remaining >>= fun left => readLen left what >>= fun n => readMany item n >>= f)
      (writeVarint l.length ++ (l.flatMap write ++ bs)) b := by
  refine Reads.remaining fun n hn => ?_
  have hle := length_le_flatMap hne l
  rw [List.length_append, List.length_append] at hn
  exact Reads.length hlen (by omega) (by rw [List.length_append]; omega) ((reads_many hitem).bind hf)

/-- **A prefix reads back.** -/
theorem TransactionPrefix.reads {p : TransactionPrefix} (h : p.Fits) :
    Reads TransactionPrefix.read p.write p := by
  have hversion : p.version < 2 ^ 64 := by
    have := h.version
    omega
  have hguard : ¬(p.version = 0 ∨ p.version > currentTransactionVersion) := by
    rw [currentTransactionVersion]
    have := h.version
    omega
  have hbytes : writeVarint p.version ++ (writeVarint p.unlockTime ++
      (writeVarint p.vin.length ++ (p.vin.flatMap TxIn.write ++
        (writeVarint p.vout.length ++
          (p.vout.flatMap TxOut.write ++ writeBytesPrefixed p.extra))))) = p.write := by
    simp [TransactionPrefix.write]
  refine Reads.of_eq ?_ hbytes
  unfold TransactionPrefix.read
  refine (reads_varint hversion).bind ?_
  rw [if_neg hguard]
  refine (reads_varint h.unlockTime).bind ?_
  refine reads_counted h.vin.1 TxIn.write_ne_nil (fun input hin => TxIn.reads (h.vin.2 input hin)) ?_
  refine reads_counted h.vout.1 TxOut.write_ne_nil (fun o ho => TxOut.reads (h.vout.2 o ho)) ?_
  refine Reads.remaining fun n hn => (reads_bytesPrefixed h.extra ?_).map _
  rw [writeBytesPrefixed, List.length_append] at hn
  omega

/-! ### What is parsed has room -/

theorem TxOutTarget.finds : Finds TxOutTarget.read TxOutTarget.Fits := by
  unfold TxOutTarget.read
  refine (finds_any readU8).bind fun tag _ => ?_
  split_ifs
  · exact (finds_any _).bind fun key _ => finds_pure trivial
  · exact (finds_any _).bind fun key _ => (finds_any _).bind fun tag _ => finds_pure trivial
  · refine (finds_any _).bind fun left _ => (finds_length _ _).bind fun n hn => ?_
    refine (finds_many (finds_any _) n).bind fun keys hkeys => ?_
    refine (finds_any _).bind fun left _ => (finds_bytesPrefixed _ _).bind fun script hscript => ?_
    exact finds_pure ⟨by rw [hkeys.1]; exact hn, hscript⟩
  · exact (finds_any _).bind fun key _ => finds_pure trivial
  · exact finds_throw _

theorem TxIn.finds : Finds TxIn.read TxIn.Fits := by
  unfold TxIn.read
  refine (finds_any readU8).bind fun tag _ => ?_
  split_ifs
  · exact finds_varint.bind fun height h => finds_pure h
  · refine finds_varint.bind fun amount hamount => ?_
    refine (finds_any _).bind fun left _ => (finds_length _ _).bind fun n hn => ?_
    refine (finds_many finds_varint n).bind fun offsets hoffsets => ?_
    refine (finds_any _).bind fun image _ => ?_
    exact finds_pure ⟨hamount, by rw [hoffsets.1]; exact hn, hoffsets.2⟩
  · refine (finds_any _).bind fun prev _ => finds_varint.bind fun prevout hprevout => ?_
    refine (finds_any _).bind fun left _ => (finds_bytesPrefixed _ _).bind fun sigset hsigset => ?_
    exact finds_pure ⟨hprevout, hsigset⟩
  · refine (finds_any _).bind fun prev _ => finds_varint.bind fun prevout hprevout => ?_
    refine TxOutTarget.finds.bind fun script hscript => ?_
    refine (finds_any _).bind fun left _ => (finds_bytesPrefixed _ _).bind fun sigset hsigset => ?_
    exact finds_pure ⟨hprevout, hscript, hsigset⟩
  · exact finds_throw _

theorem TxOut.finds : Finds TxOut.read TxOut.Fits := by
  unfold TxOut.read
  exact finds_varint.bind fun amount hamount =>
    TxOutTarget.finds.bind fun target htarget => finds_pure ⟨hamount, htarget⟩

theorem TransactionPrefix.finds : Finds TransactionPrefix.read TransactionPrefix.Fits := by
  unfold TransactionPrefix.read
  refine finds_varint.bind fun version _ => ?_
  refine finds_guard fun hversion => ?_
  refine finds_varint.bind fun unlockTime hunlock => ?_
  refine (finds_any _).bind fun left _ => (finds_length _ _).bind fun nVin hnVin => ?_
  refine (finds_many TxIn.finds nVin).bind fun vin hvin => ?_
  refine (finds_any _).bind fun left _ => (finds_length _ _).bind fun nVout hnVout => ?_
  refine (finds_many TxOut.finds nVout).bind fun vout hvout => ?_
  refine (finds_any _).bind fun left _ => (finds_bytesPrefixed _ _).bind fun extra hextra => ?_
  refine finds_pure ⟨?_, hunlock, ⟨by rw [hvin.1]; exact hnVin, hvin.2⟩,
    ⟨by rw [hvout.1]; exact hnVout, hvout.2⟩, hextra⟩
  rw [currentTransactionVersion] at hversion
  show version = 1 ∨ version = 2
  omega

/-! ### The transaction -/

/-- Only a version-2 transaction with inputs has signatures of the RingCT kind. -/
def Transaction.RctPlaced (tx : Transaction) : Prop :=
  tx.rctSignatures.ty ≠ .null → tx.txPrefix.version = 2 ∧ tx.txPrefix.vin ≠ []

/-- A transaction is read behind its prefix. -/
theorem Transaction.read_prefix {r r' : Reader} {tx : Transaction}
    (h : Transaction.read r = .ok (tx, r')) :
    ∃ r₁, TransactionPrefix.read r = .ok (tx.txPrefix, r₁) ∧ tx.RctPlaced := by
  unfold Transaction.read at h
  obtain ⟨start, r₀, hpos, h⟩ := run_bind_eq_ok.mp h
  cases hpos
  obtain ⟨p, r₁, hpre, h⟩ := run_bind_eq_ok.mp h
  have hversion := (TransactionPrefix.finds _ _ _ hpre).version
  have hbehind : tx.txPrefix = p ∧ tx.RctPlaced := by
    refine Finds.found (Q := fun tx => tx.txPrefix = p ∧ tx.RctPlaced) h ?_
    refine (finds_any pos).bind fun here _ => ?_
    split_ifs with hone hempty
    · exact (finds_any _).bind fun signatures _ => finds_pure ⟨rfl, fun h => absurd rfl h⟩
    · exact finds_pure ⟨rfl, fun h => absurd rfl h⟩
    · refine finds_guard fun _ => ?_
      refine (finds_any _).bind fun base _ => (finds_any _).bind fun here _ => ?_
      have hplaced : p.version = 2 ∧ p.vin ≠ [] := ⟨by omega, by simpa using hempty⟩
      dsimp only
      split_ifs
      · exact (finds_any _).bind fun rv _ => finds_pure ⟨rfl, fun _ => hplaced⟩
      · exact (finds_any _).bind fun rv _ => finds_pure ⟨rfl, fun _ => hplaced⟩
  obtain ⟨rfl, hplaced⟩ := hbehind
  exact ⟨r₁, hpre, hplaced⟩

theorem fromBlob_read {blob : Blob} {tx : Transaction} (h : Transaction.fromBlob blob = .ok tx) :
    ∃ r', Transaction.read (Reader.new blob) = .ok (tx, r') := by
  simp only [Transaction.fromBlob, parse, bind_eq_ok, pure_eq_ok] at h
  obtain ⟨_, ⟨⟨parsed, r'⟩, hread, rfl⟩, _, _, rfl⟩ := h
  exact ⟨r', hread⟩

theorem fromBlob_fits {blob : Blob} {tx : Transaction} (h : Transaction.fromBlob blob = .ok tx) :
    tx.txPrefix.Fits ∧ tx.RctPlaced := by
  obtain ⟨r', hread⟩ := fromBlob_read h
  obtain ⟨r₁, hpre, hplaced⟩ := Transaction.read_prefix hread
  exact ⟨TransactionPrefix.finds _ _ _ hpre, hplaced⟩

/-- What a transaction is read from begins with its prefix. -/
theorem fromBlob_prefix {p : TransactionPrefix} (hp : p.Fits) {rest : Blob} {tx : Transaction}
    (h : Transaction.fromBlob (p.write ++ rest) = .ok tx) : tx.txPrefix = p := by
  obtain ⟨r', hread⟩ := fromBlob_read h
  obtain ⟨r₁, hpre, _⟩ := Transaction.read_prefix hread
  have hreads := TransactionPrefix.reads hp rest 0
  rw [Reader.new, hreads] at hpre
  cases hpre
  rfl

/-- A coinbase that is read at all is read back with its one input. -/
theorem fromBlob_gen {p : TransactionPrefix} {height : Nat} (hvin : p.vin = [.gen height])
    {rest : Blob} {tx : Transaction} (h : Transaction.fromBlob (p.write ++ rest) = .ok tx) :
    tx.txPrefix.vin = [.gen height] := by
  obtain ⟨r', hread⟩ := fromBlob_read h
  obtain ⟨r₁, hpre, _⟩ := Transaction.read_prefix hread
  have hbytes : p.write ++ rest = writeVarint p.version ++ (writeVarint p.unlockTime ++
      (writeVarint 1 ++ (0xff :: (writeVarint height ++ (writeVarint p.vout.length ++
        (p.vout.flatMap TxOut.write ++ (writeBytesPrefixed p.extra ++ rest))))))) := by
    simp [TransactionPrefix.write, hvin, TxIn.write]
  unfold TransactionPrefix.read at hpre
  rw [Reader.new, hbytes] at hpre
  obtain ⟨version, r₂, hversion, hpre⟩ := run_bind_eq_ok.mp hpre
  obtain ⟨rfl, rfl⟩ := readVarint_write hversion
  split_ifs at hpre with hguard
  · cases hpre
  obtain ⟨unlockTime, r₃, hunlock, hpre⟩ := run_bind_eq_ok.mp hpre
  obtain ⟨rfl, rfl⟩ := readVarint_write hunlock
  obtain ⟨left, r₄, hleft, hpre⟩ := run_bind_eq_ok.mp hpre
  cases hleft
  obtain ⟨n, r₅, hn, hpre⟩ := run_bind_eq_ok.mp hpre
  obtain ⟨rfl, rfl⟩ := readLen_write hn
  obtain ⟨vin, r₆, hinputs, hpre⟩ := run_bind_eq_ok.mp hpre
  have hvin' : vin = [.gen height] := by
    rw [readMany] at hinputs
    obtain ⟨input, r₇, hinput, hinputs⟩ := run_bind_eq_ok.mp hinputs
    cases hinputs
    unfold TxIn.read at hinput
    obtain ⟨tag, r₈, htag, hinput⟩ := run_bind_eq_ok.mp hinput
    rw [← List.singleton_append, reads_u8 0xff] at htag
    cases htag
    rw [if_pos rfl] at hinput
    obtain ⟨claimed, r₉, hclaimed, hinput⟩ := run_bind_eq_ok.mp hinput
    cases hinput
    rw [(readVarint_write hclaimed).1]
  subst hvin'
  refine Finds.found (Q := fun q => q.vin = [.gen height]) hpre ?_
  refine (finds_any _).bind fun left _ => (finds_any _).bind fun nVout _ => ?_
  refine (finds_any _).bind fun vout _ => (finds_any _).bind fun left _ => ?_
  exact (finds_any _).bind fun extra _ => finds_pure rfl

/-- **A transaction written and parsed again** has the prefix it had. -/
theorem reparsed_prefix {blob : Blob} {tx tx' : Transaction}
    (h : Transaction.fromBlob blob = .ok tx) (h' : Transaction.fromBlob tx.write = .ok tx') :
    tx'.txPrefix = tx.txPrefix :=
  fromBlob_prefix (fromBlob_fits h).1 h'

end Wownero

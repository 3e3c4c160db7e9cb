import Wownero.Base58
import Wownero.Consensus
import Wownero.TxExtra
import Wownero.Varint
/-!
# Addresses

An address as text: a prefix that tells the network and the kind, two keys, the payment id of an
integrated one and four bytes of a hash, in base 58.  Each address has one text and each text that is
read one address.
-/

namespace Wownero

open Wownero.Archive Wownero.Base58

/-! ### Prefixes -/

/-- `CRYPTONOTE_PUBLIC_ADDRESS_BASE58_PREFIX`. -/
def Network.addressPrefix : Network → Nat
  | .mainnet | .fakechain => 4146
  | .testnet => 53
  | .stagenet => 24

/-- `CRYPTONOTE_PUBLIC_INTEGRATED_ADDRESS_BASE58_PREFIX`. -/
def Network.integratedPrefix : Network → Nat
  | .mainnet | .fakechain => 6810
  | .testnet => 54
  | .stagenet => 25

/-- `CRYPTONOTE_PUBLIC_SUBADDRESS_BASE58_PREFIX`. -/
def Network.subaddressPrefix : Network → Nat
  | .mainnet | .fakechain => 12208
  | .testnet => 63
  | .stagenet => 36

inductive AddressKind where
  | standard
  | integrated
  | subaddress
  deriving DecidableEq, Repr

/-- A decoded address. -/
structure Address where
  network : Network
  kind : AddressKind
  keys : AccountPublicAddress
  paymentId : Option Hash8
  deriving DecidableEq, Repr

inductive AddressError where
  | base58 (e : Base58Error)
  | unknownPrefix (tag : Nat)
  | badLength (length : Nat)
  deriving DecidableEq, Repr

/-- `Address::prefix`. -/
def prefixOf (network : Network) : AddressKind → Nat
  | .standard => network.addressPrefix
  | .integrated => network.integratedPrefix
  | .subaddress => network.subaddressPrefix

/-- The networks `classify` tries, in its order. -/
def classifyFrom (tag : Nat) : List Network → Option (Network × AddressKind)
  | [] => none
  | net :: nets =>
      if tag = net.addressPrefix then some (net, .standard)
      else if tag = net.integratedPrefix then some (net, .integrated)
      else if tag = net.subaddressPrefix then some (net, .subaddress)
      else classifyFrom tag nets

/-- `classify`. -/
def classify (tag : Nat) : Option (Network × AddressKind) :=
  classifyFrom tag [.mainnet, .testnet, .stagenet]

/-! ### Texts -/

def addrChecksumSize : Nat := 4

/-- `try_into` of eight bytes. -/
def hash8OfBytes (bs : Blob) : Hash8 := Vector.ofFn fun i => bs.getD i 0

section

variable (cnFastHash : Blob → Hash256)

/-- The first bytes of a hash, which an address ends in. -/
def addrChecksum (body : Blob) : Blob := (Bytes32.toBytes (cnFastHash body)).take addrChecksumSize

/-- `encode_addr`. -/
def encodeAddr (tag : Nat) (data : Blob) : Option Blob :=
  let buf := writeVarint tag ++ data
  encode (buf ++ addrChecksum cnFastHash buf)

/-- `decode_addr`. -/
def decodeAddr (addr : Blob) : Except Base58Error (Nat × Blob) := do
  let blob ← decode addr
  if blob.length ≤ addrChecksumSize then .error .tooShort
  else
    let body := blob.take (blob.length - addrChecksumSize)
    if blob.drop (blob.length - addrChecksumSize) ≠ addrChecksum cnFastHash body then
      .error .checksumMismatch
    else
      match readVarintStrict body with
      | none => .error .badTag
      | some (tag, data) => .ok (tag, data)

/-- `Address::encode`. -/
def Address.encode (a : Address) : Option Blob :=
  encodeAddr cnFastHash (prefixOf a.network a.kind)
    (Bytes32.toBytes a.keys.spendPublicKey ++ Bytes32.toBytes a.keys.viewPublicKey ++
      match a.paymentId with
      | some id => id.toList
      | none => [])

/-- `Address::decode`. -/
def Address.decode (s : Blob) : Except AddressError Address :=
  match decodeAddr cnFastHash s with
  | .error e => .error (.base58 e)
  | .ok (tag, data) =>
      match classify tag with
      | none => .error (.unknownPrefix tag)
      | some (network, kind) =>
          if data.length ≠ (if kind = .integrated then 72 else 64) then
            .error (.badLength data.length)
          else
            .ok { network, kind,
                  keys := ⟨Bytes32.ofBytes (data.take 32), Bytes32.ofBytes ((data.drop 32).take 32)⟩,
                  paymentId :=
                    if kind = .integrated then some (hash8OfBytes ((data.drop 64).take 8)) else none }

end

/-! ### Prefixes and networks -/

/-- An address of one of the three networks, with a payment id where it is an integrated one. -/
structure Address.WellFormed (a : Address) : Prop where
  network : a.network ≠ .fakechain
  paymentId : a.paymentId.isSome ↔ a.kind = .integrated

theorem prefixOf_lt (network : Network) (kind : AddressKind) : prefixOf network kind < 2 ^ 64 := by
  cases network <;> cases kind <;> decide

/-- The nine prefixes are nine. -/
theorem classify_prefixOf {network : Network} (h : network ≠ .fakechain) (kind : AddressKind) :
    classify (prefixOf network kind) = some (network, kind) := by
  cases network <;> first | exact absurd rfl h | (cases kind <;> rfl)

theorem prefixOf_classify {tag : Nat} {network : Network} {kind : AddressKind}
    (h : classify tag = some (network, kind)) : network ≠ .fakechain ∧ prefixOf network kind = tag := by
  unfold classify classifyFrom classifyFrom classifyFrom classifyFrom at h
  split_ifs at h <;> cases h <;> (subst_vars; exact ⟨by decide, rfl⟩)

theorem length_hash8 (id : Hash8) : id.toList.length = 8 := Vector.length_toList

theorem hash8OfBytes_toList (id : Hash8) : hash8OfBytes id.toList = id := by
  unfold hash8OfBytes
  refine Vector.ext fun i hi => ?_
  rw [Vector.getElem_ofFn, List.getD_eq_getElem _ _ (by rw [length_hash8]; exact hi)]
  exact Vector.getElem_toList _

theorem toList_hash8OfBytes {bs : Blob} (h : bs.length = 8) : (hash8OfBytes bs).toList = bs := by
  refine List.ext_getElem ((length_hash8 _).trans h.symm) fun i _ hi => ?_
  have hentry : (hash8OfBytes bs)[i] = bs.getD i 0 := Vector.getElem_ofFn _
  rw [Vector.getElem_toList]
  exact hentry.trans (List.getD_eq_getElem _ _ hi)

/-! ### The checksum -/

section

variable {cnFastHash : Blob → Hash256}

theorem length_addrChecksum (body : Blob) : (addrChecksum cnFastHash body).length = 4 := by
  rw [addrChecksum, List.length_take, length_toBytes]
  rfl

theorem decodeAddr_encodeAddr {tag : Nat} (htag : tag < 2 ^ 64) (data : Blob) :
    ∃ s, encodeAddr cnFastHash tag data = some s ∧ (∀ c ∈ s, c < 128) ∧
      decodeAddr cnFastHash s = .ok (tag, data) := by
  obtain ⟨body, hbody⟩ : ∃ body, body = writeVarint tag ++ data := ⟨_, rfl⟩
  obtain ⟨s, hencode, hascii, hdecode⟩ := decode_encode (body ++ addrChecksum cnFastHash body)
  refine ⟨s, ?_, hascii, ?_⟩
  · rw [encodeAddr, ← hbody]
    exact hencode
  · have hlength : (body ++ addrChecksum cnFastHash body).length - addrChecksumSize = body.length := by
      rw [List.length_append, length_addrChecksum]
      rfl
    have hnonempty : 0 < body.length := by
      rw [hbody, List.length_append]
      exact Nat.add_pos_left (List.length_pos_iff.mpr (writeVarint_ne_nil tag)) _
    have hread : readVarintStrict body = some (tag, data) :=
      readVarintStrict_eq_some.mpr ⟨htag, hbody⟩
    have hlong : ¬ (body ++ addrChecksum cnFastHash body).length ≤ addrChecksumSize := by
      rw [List.length_append, length_addrChecksum, addrChecksumSize]
      omega
    show (decode s).bind _ = _
    rw [hdecode]
    show (if _ ≤ addrChecksumSize then _ else _) = _
    rw [if_neg hlong, hlength, List.take_left, List.drop_left, if_neg (not_not.mpr rfl), hread]

theorem encodeAddr_decodeAddr {s data : Blob} {tag : Nat}
    (h : decodeAddr cnFastHash s = .ok (tag, data)) : encodeAddr cnFastHash tag data = some s := by
  obtain ⟨blob, hblob, h⟩ := Outcome.bind_eq_ok.mp h
  dsimp only at h
  split_ifs at h with hshort hsum
  obtain ⟨body, hbody⟩ : ∃ body, body = blob.take (blob.length - addrChecksumSize) := ⟨_, rfl⟩
  simp only [← hbody] at h hsum
  cases hread : readVarintStrict body with
  | none => rw [hread] at h; cases h
  | some r =>
      rw [hread] at h
      cases h
      obtain ⟨-, hwhole⟩ := readVarintStrict_eq_some.mp hread
      have hblobWhole : body ++ addrChecksum cnFastHash body = blob := by
        rw [← not_not.mp hsum, hbody, List.take_append_drop]
      rw [encodeAddr, ← hwhole, hblobWhole]
      exact encode_decode hblob

/-! ### Whole addresses -/

/-- The bytes behind the prefix. -/
theorem length_body (keys : AccountPublicAddress) (tail : Blob) :
    (Bytes32.toBytes keys.spendPublicKey ++ Bytes32.toBytes keys.viewPublicKey ++ tail).length =
      64 + tail.length := by
  rw [List.length_append, List.length_append, length_toBytes, length_toBytes]

/-- Two keys are the first bytes they were read from. -/
theorem toBytes_keys {data : Blob} (h : 64 ≤ data.length) :
    Bytes32.toBytes (Bytes32.ofBytes (data.take 32)) ++
        Bytes32.toBytes (Bytes32.ofBytes ((data.drop 32).take 32)) = data.take 64 := by
  rw [toBytes_ofBytes (by rw [List.length_take]; omega),
    toBytes_ofBytes (by rw [List.length_take, List.length_drop]; omega)]
  exact (List.take_add (i := 32) (j := 32)).symm

theorem Address.decode_encode {a : Address} (h : a.WellFormed) :
    ∃ s, a.encode cnFastHash = some s ∧ (∀ c ∈ s, c < 128) ∧ Address.decode cnFastHash s = .ok a := by
  obtain ⟨tail, htail⟩ : ∃ tail, tail = (match a.paymentId with
    | some id => id.toList
    | none => []) := ⟨_, rfl⟩
  obtain ⟨s, hencode, hascii, hdecode⟩ := @decodeAddr_encodeAddr cnFastHash _
    (prefixOf_lt a.network a.kind)
    (Bytes32.toBytes a.keys.spendPublicKey ++ Bytes32.toBytes a.keys.viewPublicKey ++ tail)
  refine ⟨s, ?_, hascii, ?_⟩
  · rw [Address.encode, ← htail]
    exact hencode
  · have hspend := length_toBytes a.keys.spendPublicKey
    have hview := length_toBytes a.keys.viewPublicKey
    have hkeys : (Bytes32.toBytes a.keys.spendPublicKey ++ Bytes32.toBytes a.keys.viewPublicKey).length =
        64 := by
      rw [List.length_append, hspend, hview]
    have hlength : 64 + tail.length = if a.kind = .integrated then 72 else 64 := by
      cases hid : a.paymentId with
      | none =>
          have hkind : a.kind ≠ .integrated := fun hkind => by
            have := h.paymentId.mpr hkind
            rw [hid] at this
            cases this
          rw [if_neg hkind, htail, hid]
          rfl
      | some id =>
          rw [if_pos (h.paymentId.mp (by rw [hid]; rfl)), htail, hid]
          simp only [length_hash8]
    unfold Address.decode
    rw [hdecode]
    simp only
    rw [classify_prefixOf h.network]
    simp only
    rw [length_body, if_neg (not_not.mpr hlength), List.append_assoc, List.take_left' hspend,
      List.drop_left' hspend, List.take_left' hview, ofBytes_toBytes, ofBytes_toBytes,
      ← List.append_assoc, List.drop_left' hkeys]
    obtain ⟨network, kind, keys, paymentId⟩ := a
    cases paymentId with
    | none =>
        have hkind : kind ≠ .integrated := fun hkind => nomatch h.paymentId.mpr hkind
        simp only
        rw [if_neg hkind]
    | some id =>
        have hkind : kind = .integrated := h.paymentId.mp rfl
        simp only at htail ⊢
        rw [if_pos hkind, htail, List.take_of_length_le (Nat.le_of_eq (length_hash8 id)),
          hash8OfBytes_toList]

theorem Address.encode_decode {s : Blob} {a : Address} (h : Address.decode cnFastHash s = .ok a) :
    a.WellFormed ∧ a.encode cnFastHash = some s := by
  unfold Address.decode at h
  cases haddr : decodeAddr cnFastHash s with
  | error e => rw [haddr] at h; cases h
  | ok r =>
      obtain ⟨tag, data⟩ := r
      rw [haddr] at h
      simp only at h
      cases hclass : classify tag with
      | none => rw [hclass] at h; cases h
      | some found =>
          obtain ⟨network, kind⟩ := found
          rw [hclass] at h
          simp only at h
          obtain ⟨hnetwork, htag⟩ := prefixOf_classify hclass
          have hencoded := encodeAddr_decodeAddr haddr
          rw [← htag] at hencoded
          split_ifs at h with hkind hlength hlength
          · cases h
            have hlast : ((data.drop 64).take 8).length = 8 := by
              rw [List.length_take, List.length_drop]
              omega
            have htail : (data.drop 64).take 8 = data.drop 64 :=
              List.take_of_length_le (by rw [List.length_drop]; omega)
            refine ⟨⟨hnetwork, iff_of_true rfl hkind⟩, ?_⟩
            rw [Address.encode]
            simp only
            rw [toBytes_keys (by omega), toList_hash8OfBytes hlast, htail, List.take_append_drop]
            exact hencoded
          · cases h
            refine ⟨⟨hnetwork, iff_of_false Bool.false_ne_true hkind⟩, ?_⟩
            rw [Address.encode]
            simp only
            rw [toBytes_keys (by omega), List.append_nil, List.take_of_length_le (by omega)]
            exact hencoded

end

/-- **Addresses are unambiguous text.**  Bytes and their text in base 58 determine one another, a
    block of digits is its number or an overflow, and an address and its text determine one another,
    whatever the hash. -/
theorem addresses_unambiguous (cnFastHash : Blob → Hash256) :
    (∀ data, ∃ s, Base58.encode data = some s ∧ (∀ c ∈ s, c < 128) ∧ Base58.decode s = .ok data) ∧
      (∀ s data, Base58.decode s = .ok data → Base58.encode data = some s) ∧
      (∀ (digits : List Nat) (size : Nat), (∀ d ∈ digits, d < 58) → Sizes size digits.length →
        decodeBlock (digits.map symbol).reverse =
          if Nat.ofDigits 58 digits < 256 ^ size then
            .ok (leBytes size (Nat.ofDigits 58 digits)).reverse
          else .error .overflow) ∧
      (∀ a : Address, a.WellFormed → ∃ s, a.encode cnFastHash = some s ∧ (∀ c ∈ s, c < 128) ∧
        Address.decode cnFastHash s = .ok a) ∧
      ∀ s a, Address.decode cnFastHash s = .ok a → a.WellFormed ∧ a.encode cnFastHash = some s :=
  ⟨Base58.decode_encode, fun _ _ => Base58.encode_decode,
    fun _ _ hsmall hsizes => decodeBlock_digits hsmall hsizes, fun _ => Address.decode_encode,
    fun _ _ => Address.encode_decode⟩

/-- An integrated address of the test network, under a hash of zeros. -/
theorem addresses_unambiguous_integrated :
    let a : Address := ⟨.testnet, .integrated, ⟨1, 2⟩, some (Vector.replicate 8 7)⟩
    ∃ s, a.encode (fun _ => 0) = some s ∧ Address.decode (fun _ => 0) s = .ok a := by
  obtain ⟨s, hencode, -, hdecode⟩ := (addresses_unambiguous fun _ => 0).2.2.2.1
    ⟨.testnet, .integrated, ⟨1, 2⟩, some (Vector.replicate 8 7)⟩ ⟨by decide, by decide⟩
  exact ⟨s, hencode, hdecode⟩

end Wownero

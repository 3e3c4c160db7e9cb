import Wownero.Chacha
import Wownero.Sections
import Wownero.Wallet
/-!
# Key data

The keys of an account as a keys file holds them: the secret ones under a key stream, all of them in
a section of portable storage.
-/

namespace Wownero

open Wownero.Archive Chacha

/-! ### The account -/

/-- `AccountKeys`, with the members that only the keys file asks for. -/
structure StoredKeys extends AccountKeys where
  multisigKeys : List SecretKey
  encryptionIv : Iv
  deriving DecidableEq, Repr

/-- `AccountBase`. -/
structure AccountBase where
  keys : StoredKeys
  creationTimestamp : BitVec 64
  deriving DecidableEq, Repr

/-- `AccountError`. -/
inductive AccountError where
  | epee (e : Epee.Stop)
  | missing (field : String)
  | badLength (field : String) (got want : Nat)
  | keyMismatch (which : String)
  deriving DecidableEq, Repr

/-- `SECRET_KEY_LEN`. -/
def secretKeyLen : Nat := 32

/-- `AccountKeys::verify`. -/
def Crypto.verify (C : Crypto) (k : AccountKeys) : Except AccountError Unit := do
  let view := C.secretKeyToPublicKey k.viewSecretKey
  if view ≠ some k.accountAddress.viewPublicKey then throw (.keyMismatch "view")
  if !k.isViewOnly then
    let spend := C.secretKeyToPublicKey k.spendSecretKey
    if spend ≠ some k.accountAddress.spendPublicKey then throw (.keyMismatch "spend")
  return ()

/-! ### The key stream -/

/-- The zip of `apply`. -/
def xorKey (k : SecretKey) (stream : Blob) : SecretKey :=
  Bytes32.ofBytes (xorBytes (Bytes32.toBytes k) (stream.take secretKeyLen))

/-- Keys one behind the other under a stream. -/
def xorKeys : List SecretKey → Blob → List SecretKey
  | [], _ => []
  | k :: ks, stream => xorKey k stream :: xorKeys ks (stream.drop secretKeyLen)

namespace StoredKeys

variable (cnSlowHash : Blob → Hash256)

/-- `xor_with_key_stream`. -/
def xorWithKeyStream (k : StoredKeys) (key : Key) : StoredKeys :=
  let n := secretKeyLen * (2 + k.multisigKeys.length)
  let stream := keyStream cnSlowHash key k.encryptionIv n
  { k with
    spendSecretKey := xorKey k.spendSecretKey stream
    viewSecretKey := xorKey k.viewSecretKey (stream.drop secretKeyLen)
    multisigKeys := xorKeys k.multisigKeys (stream.drop (2 * secretKeyLen)) }

/-- `encrypt`. -/
def encrypt (k : StoredKeys) (key : Key) (iv : Iv) : StoredKeys :=
  xorWithKeyStream cnSlowHash { k with encryptionIv := iv } key

/-- `decrypt`. -/
def decrypt (k : StoredKeys) (key : Key) : StoredKeys := xorWithKeyStream cnSlowHash k key

end StoredKeys

theorem xorKey_xorKey {stream : Blob} (h : secretKeyLen ≤ stream.length) (k : SecretKey) :
    xorKey (xorKey k stream) stream = k := by
  have hkey : (Bytes32.toBytes k).length ≤ (stream.take secretKeyLen).length := by
    rw [length_toBytes, List.length_take]
    exact Nat.le_min.mpr ⟨Nat.le_refl _, h⟩
  have hlength : (xorBytes (Bytes32.toBytes k) (stream.take secretKeyLen)).length = 32 := by
    rw [length_xorBytes, Nat.min_eq_left hkey, length_toBytes]
  rw [xorKey, xorKey, toBytes_ofBytes hlength, xorBytes_xorBytes hkey, ofBytes_toBytes]

theorem length_xorKeys (ks : List SecretKey) (stream : Blob) : (xorKeys ks stream).length = ks.length := by
  induction ks generalizing stream with
  | nil => rfl
  | cons k ks ih => rw [xorKeys, List.length_cons, List.length_cons, ih]

theorem xorKeys_xorKeys {ks : List SecretKey} {stream : Blob} (h : secretKeyLen * ks.length ≤ stream.length) :
    xorKeys (xorKeys ks stream) stream = ks := by
  induction ks generalizing stream with
  | nil => rfl
  | cons k ks ih =>
      rw [List.length_cons, Nat.mul_succ] at h
      have hrest : secretKeyLen * ks.length ≤ (stream.drop secretKeyLen).length := by
        rw [List.length_drop]
        omega
      rw [xorKeys, xorKeys, xorKey_xorKey (by omega), ih hrest]

namespace StoredKeys

variable (cnSlowHash : Blob → Hash256)

/-- The stream covers every key, and what lies under it twice is as it was. -/
theorem xorWithKeyStream_xorWithKeyStream (k : StoredKeys) (key : Key) :
    (k.xorWithKeyStream cnSlowHash key).xorWithKeyStream cnSlowHash key = k := by
  have hlength : (keyStream cnSlowHash key k.encryptionIv (secretKeyLen * (2 + k.multisigKeys.length))).length =
      secretKeyLen * (2 + k.multisigKeys.length) := by
    rw [keyStream, length_chacha20, List.length_replicate]
  generalize hstream : keyStream cnSlowHash key k.encryptionIv
    (secretKeyLen * (2 + k.multisigKeys.length)) = stream at hlength
  rw [Nat.mul_add] at hlength
  have hspend : secretKeyLen ≤ stream.length := by omega
  have hview : secretKeyLen ≤ (stream.drop secretKeyLen).length := by
    rw [List.length_drop]
    omega
  have hmultisig : secretKeyLen * k.multisigKeys.length ≤ (stream.drop (2 * secretKeyLen)).length := by
    rw [List.length_drop]
    omega
  have hfirst : k.xorWithKeyStream cnSlowHash key = { k with
      spendSecretKey := xorKey k.spendSecretKey stream
      viewSecretKey := xorKey k.viewSecretKey (stream.drop secretKeyLen)
      multisigKeys := xorKeys k.multisigKeys (stream.drop (2 * secretKeyLen)) } := by
    rw [xorWithKeyStream, hstream]
  rw [hfirst, xorWithKeyStream]
  dsimp only
  rw [length_xorKeys, hstream, xorKey_xorKey hspend, xorKey_xorKey hview, xorKeys_xorKeys hmultisig]

theorem decrypt_encrypt (k : StoredKeys) (key : Key) (iv : Iv) :
    (k.encrypt cnSlowHash key iv).decrypt cnSlowHash key = { k with encryptionIv := iv } :=
  xorWithKeyStream_xorWithKeyStream cnSlowHash _ key

end StoredKeys

section

variable (cnSlowHash : Blob → Hash256)

/-- `account.keys.encrypt`. -/
def AccountBase.encrypt (a : AccountBase) (key : Key) (iv : Iv) : AccountBase :=
  { a with keys := a.keys.encrypt cnSlowHash key iv }

/-- `account.keys.decrypt`. -/
def AccountBase.decrypt (a : AccountBase) (key : Key) : AccountBase :=
  { a with keys := a.keys.decrypt cnSlowHash key }

/-- `account`, with another nonce. -/
def AccountBase.withIv (a : AccountBase) (iv : Iv) : AccountBase :=
  { a with keys := { a.keys with encryptionIv := iv } }

theorem AccountBase.decrypt_encrypt (a : AccountBase) (key : Key) (iv : Iv) :
    (a.encrypt cnSlowHash key iv).decrypt cnSlowHash key = a.withIv iv := by
  rw [AccountBase.decrypt, AccountBase.encrypt, StoredKeys.decrypt_encrypt, AccountBase.withIv]

end

/-! ### The blob -/

namespace AccountBase

open Epee

/-- The name of a field. -/
def named (field : String) : Name := .ofChars field.toList

/-- Bytes, as a value. -/
def bytesValue (bytes : Blob) : Value := .leaf (.string bytes)

/-- `m_account_address`. -/
def addressSection (a : AccountPublicAddress) : Section :=
  let address := insertRow (named "m_spend_public_key") (bytesValue (Bytes32.toBytes a.spendPublicKey)) []
  insertRow (named "m_view_public_key") (bytesValue (Bytes32.toBytes a.viewPublicKey)) address

/-- `m_keys`.  The keys of a multisig account are one string. -/
def keysSection (k : StoredKeys) : Section :=
  let keys := insertRow (named "m_account_address") (.object (addressSection k.accountAddress)) []
  let keys := insertRow (named "m_spend_secret_key") (bytesValue (Bytes32.toBytes k.spendSecretKey)) keys
  let keys := insertRow (named "m_view_secret_key") (bytesValue (Bytes32.toBytes k.viewSecretKey)) keys
  let keys := insertRow (named "m_multisig_keys")
    (bytesValue (k.multisigKeys.flatMap Bytes32.toBytes)) keys
  insertRow (named "m_encryption_iv") (bytesValue k.encryptionIv.toList) keys

/-- The section of `to_key_data`. -/
def keySection (a : AccountBase) : Section :=
  let root := insertRow (named "m_keys") (.object (keysSection a.keys)) []
  insertRow (named "m_creation_timestamp") (.leaf (.u64 a.creationTimestamp)) root

/-- `to_key_data`. -/
def toKeyData (a : AccountBase) : Except AccountError Blob :=
  (toBytes a.keySection).mapError fun e => .epee (.failed e)

/-- `fixed`. -/
def fixed (s : Section) (field : String) (want : Nat) : Except AccountError Blob :=
  match (lookup (named field) s).bind Value.asBytes with
  | none => .error (.missing field)
  | some b => if b.length = want then .ok b else .error (.badLength field b.length want)

/-- `get(field).and_then(Value::as_object)`, or an error that names the field. -/
def object (s : Section) (field : String) : Except AccountError Section :=
  match (lookup (named field) s).bind Value.asObject with
  | none => .error (.missing field)
  | some rows => .ok rows

/-- Whole keys out of bytes. -/
def asChunks : Nat → Blob → List SecretKey
  | 0, _ => []
  | n + 1, bytes => Bytes32.ofBytes (bytes.take secretKeyLen) :: asChunks n (bytes.drop secretKeyLen)

/-- The member `m_multisig_keys`, which may be missing. -/
def multisigKeysOf (s : Section) : Except AccountError (List SecretKey) :=
  match (lookup (named "m_multisig_keys") s).bind Value.asBytes with
  | none => .ok []
  | some b =>
      if b.length % secretKeyLen = 0 then .ok (asChunks (b.length / secretKeyLen) b)
      else .error (.badLength "m_multisig_keys" b.length secretKeyLen)

/-- The member `m_encryption_iv`, which may be missing. -/
def encryptionIvOf (s : Section) : Except AccountError Iv :=
  match (lookup (named "m_encryption_iv") s).bind Value.asBytes with
  | none => .ok (Vector.replicate 8 0)
  | some b => if b.length = 8 then .ok (ivOfBytes b) else .error (.badLength "m_encryption_iv" b.length 8)

/-- `from_key_data`. -/
def fromKeyData (blob : Blob) : Except AccountError AccountBase := do
  let root ← (fromBytes blob).mapError .epee
  let keys ← object root "m_keys"
  let address ← object keys "m_account_address"
  let spendPublicKey ← fixed address "m_spend_public_key" 32
  let viewPublicKey ← fixed address "m_view_public_key" 32
  let spendSecretKey ← fixed keys "m_spend_secret_key" 32
  let viewSecretKey ← fixed keys "m_view_secret_key" 32
  let multisigKeys ← multisigKeysOf keys
  let encryptionIv ← encryptionIvOf keys
  return {
    keys := {
      accountAddress := ⟨Bytes32.ofBytes spendPublicKey, Bytes32.ofBytes viewPublicKey⟩
      spendSecretKey := Bytes32.ofBytes spendSecretKey
      viewSecretKey := Bytes32.ofBytes viewSecretKey
      multisigKeys := multisigKeys
      encryptionIv := encryptionIv }
    creationTimestamp := ((lookup (named "m_creation_timestamp") root).bind Value.asU64).getD 0 }

theorem asChunks_flatMap (ks : List SecretKey) : asChunks ks.length (ks.flatMap Bytes32.toBytes) = ks := by
  induction ks with
  | nil => rfl
  | cons k ks ih =>
      have hlength : (Bytes32.toBytes k).length = secretKeyLen := length_toBytes k
      rw [List.length_cons, asChunks, List.flatMap_cons, List.take_left' hlength, List.drop_left' hlength,
        ofBytes_toBytes, ih]

theorem lookup_addressSection (a : AccountPublicAddress) :
    lookup (named "m_spend_public_key") (addressSection a) =
        some (bytesValue (Bytes32.toBytes a.spendPublicKey)) ∧
      lookup (named "m_view_public_key") (addressSection a) =
        some (bytesValue (Bytes32.toBytes a.viewPublicKey)) := by
  constructor
  · rw [addressSection, lookup_insertRow, if_neg (by decide), lookup_insertRow, if_pos rfl]
  · rw [addressSection, lookup_insertRow, if_pos rfl]

theorem lookup_keysSection (k : StoredKeys) :
    lookup (named "m_account_address") (keysSection k) = some (.object (addressSection k.accountAddress)) ∧
      lookup (named "m_spend_secret_key") (keysSection k) =
        some (bytesValue (Bytes32.toBytes k.spendSecretKey)) ∧
      lookup (named "m_view_secret_key") (keysSection k) =
        some (bytesValue (Bytes32.toBytes k.viewSecretKey)) ∧
      lookup (named "m_multisig_keys") (keysSection k) =
        some (bytesValue (k.multisigKeys.flatMap Bytes32.toBytes)) ∧
      lookup (named "m_encryption_iv") (keysSection k) = some (bytesValue k.encryptionIv.toList) := by
  refine ⟨?_, ?_, ?_, ?_, ?_⟩
  · rw [keysSection, lookup_insertRow, if_neg (by decide), lookup_insertRow, if_neg (by decide),
      lookup_insertRow, if_neg (by decide), lookup_insertRow, if_neg (by decide), lookup_insertRow, if_pos rfl]
  · rw [keysSection, lookup_insertRow, if_neg (by decide), lookup_insertRow, if_neg (by decide),
      lookup_insertRow, if_neg (by decide), lookup_insertRow, if_pos rfl]
  · rw [keysSection, lookup_insertRow, if_neg (by decide), lookup_insertRow, if_neg (by decide),
      lookup_insertRow, if_pos rfl]
  · rw [keysSection, lookup_insertRow, if_neg (by decide), lookup_insertRow, if_pos rfl]
  · rw [keysSection, lookup_insertRow, if_pos rfl]

theorem lookup_keySection (a : AccountBase) :
    lookup (named "m_keys") a.keySection = some (.object (keysSection a.keys)) ∧
      lookup (named "m_creation_timestamp") a.keySection = some (.leaf (.u64 a.creationTimestamp)) := by
  constructor
  · rw [keySection, lookup_insertRow, if_neg (by decide), lookup_insertRow, if_pos rfl]
  · rw [keySection, lookup_insertRow, if_pos rfl]

theorem length_flatMap_toBytes (ks : List SecretKey) : (ks.flatMap Bytes32.toBytes).length = 32 * ks.length := by
  induction ks with
  | nil => rfl
  | cons k ks ih =>
      rw [List.flatMap_cons, List.length_append, length_toBytes, ih, List.length_cons]
      omega

theorem names_short : ∀ field ∈ ["m_keys", "m_creation_timestamp", "m_account_address",
    "m_spend_public_key", "m_view_public_key", "m_spend_secret_key", "m_view_secret_key",
    "m_multisig_keys", "m_encryption_iv"], (named field).bytes.length ≤ 255 := by decide

/-- The section is within the limits of the format. -/
theorem holds_keySection {a : AccountBase} (h : 32 * a.keys.multisigKeys.length ≤ maxStringLen) :
    Holds 99 2 a.keySection := by
  have hshort := names_short
  simp only [List.mem_cons, List.not_mem_nil, or_false, forall_eq_or_imp, forall_eq] at hshort
  obtain ⟨hkeys, hstamp, haddress, hspendPublic, hviewPublic, hspend, hview, hmultisig, hiv⟩ := hshort
  have hfits (k : Bytes32) : (Bytes32.toBytes k).length ≤ maxStringLen := by
    rw [length_toBytes]
    decide
  have hmany : (a.keys.multisigKeys.flatMap Bytes32.toBytes).length ≤ maxStringLen := by
    rw [length_flatMap_toBytes]
    exact h
  have height : a.keys.encryptionIv.toList.length ≤ maxStringLen := by
    rw [Vector.length_toList]
    decide
  have hpublic : Holds 97 2 (addressSection a.keys.accountAddress) :=
    ((holds_nil 97).insert (by decide) hspendPublic (by exact hfits _)).insert (by decide) hviewPublic
      (by exact hfits _)
  have hsecret : Holds 98 5 (keysSection a.keys) :=
    (((((holds_nil 98).insert (by decide) haddress (by exact hpublic.1)).insert (by decide) hspend
      (by exact hfits _)).insert (by decide) hview (by exact hfits _)).insert (by decide) hmultisig
      (by exact hmany)).insert (by decide) hiv (by exact height)
  exact ((holds_nil 99).insert (by decide) hkeys (by exact hsecret.1)).insert (by decide) hstamp (by trivial)

theorem fixed_of_lookup {s : Section} {field : String} {k : Bytes32}
    (h : lookup (named field) s = some (bytesValue (Bytes32.toBytes k))) :
    fixed s field 32 = .ok (Bytes32.toBytes k) := by
  rw [fixed, h]
  exact if_pos (length_toBytes k)

/-- What is written has no more keys than a string can hold. -/
theorem multisigKeys_le {a : AccountBase} {blob : Blob} (h : a.toKeyData = .ok blob) :
    32 * a.keys.multisigKeys.length ≤ maxStringLen := by
  obtain ⟨hkeys, -⟩ := lookup_keySection a
  obtain ⟨-, -, -, hmultisig, -⟩ := lookup_keysSection a.keys
  unfold toKeyData toBytes at h
  cases hsection : writeSection a.keySection with
  | error e =>
      rw [hsection] at h
      nomatch h
  | ok out =>
      obtain ⟨_, hrows⟩ := writeRows_of_writeSection hsection
      obtain ⟨_, hobject⟩ := writeEntryValue_of_writeRows hrows (mem_of_lookup hkeys)
      obtain ⟨_, hinner⟩ := writeRows_of_object hobject
      obtain ⟨_, hstring⟩ := writeEntryValue_of_writeRows hinner (mem_of_lookup hmultisig)
      rw [← length_flatMap_toBytes]
      exact length_le_of_written hstring

/-- The keys of an account are read back from their blob. -/
theorem fromKeyData_toKeyData {a : AccountBase} {blob : Blob} (h : a.toKeyData = .ok blob) :
    fromKeyData blob = .ok a := by
  have hholds := holds_keySection (multisigKeys_le h)
  obtain ⟨out, hwrite, hread, -⟩ := blob_written (fun _ h => h) (fun _ h => h) hholds.1
  rw [toKeyData, hwrite] at h
  obtain rfl := Except.ok.inj h
  obtain ⟨hkeys, hstamp⟩ := lookup_keySection a
  obtain ⟨haddress, hspend, hview, hmultisig, hiv⟩ := lookup_keysSection a.keys
  obtain ⟨hspendPublic, hviewPublic⟩ := lookup_addressSection a.keys.accountAddress
  have hchunks : multisigKeysOf (keysSection a.keys) = .ok a.keys.multisigKeys := by
    have hlength := length_flatMap_toBytes a.keys.multisigKeys
    have hwhole : (a.keys.multisigKeys.flatMap Bytes32.toBytes).length % secretKeyLen = 0 := by
      rw [hlength]
      exact Nat.mul_mod_right 32 _
    have hcount : (a.keys.multisigKeys.flatMap Bytes32.toBytes).length / secretKeyLen =
        a.keys.multisigKeys.length := by
      rw [hlength]
      exact Nat.mul_div_cancel_left _ (by decide)
    rw [multisigKeysOf, hmultisig]
    dsimp only [Option.bind_some, bytesValue, Value.asBytes]
    rw [if_pos hwhole, hcount, asChunks_flatMap]
  have hnonce : encryptionIvOf (keysSection a.keys) = .ok a.keys.encryptionIv := by
    rw [encryptionIvOf, hiv]
    dsimp only [Option.bind_some, bytesValue, Value.asBytes]
    rw [if_pos (Vector.length_toList), ivOfBytes_toList]
  have hroot : object a.keySection "m_keys" = .ok (keysSection a.keys) := by
    rw [object, hkeys]
    rfl
  have hinner : object (keysSection a.keys) "m_account_address" =
      .ok (addressSection a.keys.accountAddress) := by
    rw [object, haddress]
    rfl
  have htime : ((lookup (named "m_creation_timestamp") a.keySection).bind Value.asU64).getD 0 =
      a.creationTimestamp := by
    rw [hstamp]
    rfl
  rw [fromKeyData, hread]
  show (object a.keySection "m_keys" >>= fun keys => _) = _
  rw [hroot]
  show (object (keysSection a.keys) "m_account_address" >>= fun address => _) = _
  rw [hinner]
  show (fixed (addressSection a.keys.accountAddress) "m_spend_public_key" 32 >>= fun b => _) = _
  rw [fixed_of_lookup hspendPublic]
  show (fixed (addressSection a.keys.accountAddress) "m_view_public_key" 32 >>= fun b => _) = _
  rw [fixed_of_lookup hviewPublic]
  show (fixed (keysSection a.keys) "m_spend_secret_key" 32 >>= fun b => _) = _
  rw [fixed_of_lookup hspend]
  show (fixed (keysSection a.keys) "m_view_secret_key" 32 >>= fun b => _) = _
  rw [fixed_of_lookup hview]
  show (multisigKeysOf (keysSection a.keys) >>= fun ks => encryptionIvOf (keysSection a.keys) >>= fun iv => _) = _
  rw [hchunks, hnonce]
  simp only [ofBytes_toBytes, htime]
  rfl

end AccountBase

end Wownero

import Wownero.JsonReading
import Wownero.KeyData
import Wownero.Sample
/-!
# The keys file

The keys and the settings of a wallet as one JSON object, enciphered.  The object is text, and its
characters are kept as one byte each.  What reads text as a value is a function here.
-/

namespace Wownero

open Wownero.Archive Chacha AccountBase

/-! ### JSON that a wallet holds -/

/-- A number an integer type holds; no other. -/
def Exact : Json.Value → Prop
  | .int n => -2 ^ 63 ≤ n ∧ n < 2 ^ 64
  | .real .. => False
  | _ => True

/-- Strings, integers and what is made of them, in ordered maps. -/
def Held (v : Json.Value) : Prop := v.Canonical ∧ v.Each Exact

/-- Characters that a byte stands for. -/
def Latin (c : Char) : Prop := c.toNat < 256

instance : DecidablePred Latin := fun _ => inferInstanceAs (Decidable (_ < _))

/-- What is decided of every character of a text holds of each. -/
theorem forall_of_all {p : Char → Prop} [DecidablePred p] {cs : List Char}
    (h : cs.all (fun c => decide (p c)) = true) : ∀ c ∈ cs, p c :=
  fun c hc => of_decide_eq_true (List.all_eq_true.mp h c hc)

/-- What is asked of the reader of JSON: it reads what was written, its objects are ordered maps, and
a character that is not in a text stands in it as an escape, which is longer. -/
structure FaithfulReader (fromStr : List Char → Option Json.Value) : Prop where
  reads : ∀ {v}, Held v → fromStr (Json.write v) = some v
  ordered : ∀ {text v}, fromStr text = some v → v.Canonical
  escapes : ∀ {text v}, fromStr text = some v → Held v → (∀ c ∈ text, Latin c) → ¬v.All Latin →
    (Json.write v).length < text.length

/-- `Value::as_u64`. -/
def asU64 : Json.Value → Option Nat
  | .int n => if 0 ≤ n then some n.toNat else none
  | _ => none

/-- `Value::as_i64`. -/
def asI64 : Json.Value → Option Int
  | .int n => if n < 2 ^ 63 then some n else none
  | _ => none

/-- `Value::as_bool`. -/
def asBool : Json.Value → Option Bool
  | .bool b => some b
  | _ => none

/-- `u64_member`. -/
def u64Member (m : Json.Members) (name : String) : Option Nat := do
  let v ← Json.get name m
  asU64 v <|> (asI64 v).map toU64

/-- `bool_member`. -/
def boolMember (m : Json.Members) (name : String) : Option Bool := do
  let v ← Json.get name m
  asBool v <|> (u64Member m name).map (· != 0)

/-! ### The file -/

/-- `KeysFileError`. -/
inductive KeysFileError where
  | container (e : Archive.Error)
  | notJson
  | noKeyData
  | account (e : AccountError)
  | multisig
  | onDevice (device : Nat)
  deriving DecidableEq, Repr

/-- `KeysFile`: the settings are every member but the keys. -/
structure KeysFile where
  account : AccountBase
  settings : Json.Members

/-- `MAX_ACCOUNT_DATA`. -/
def maxAccountData : Nat := 2 ^ 20

/-- `bytes_to_latin1`. -/
def bytesToLatin1 (b : Blob) : List Char := b.map fun c => Char.ofNat c.toNat

/-- `latin1_to_bytes`. -/
def latin1ToBytes (s : List Char) : Blob := s.map fun c => UInt8.ofNat c.toNat

/-- `parse_container`. -/
def parseContainer : Parse (Iv × Blob) := do
  let iv ← take 8
  let data ← readBytesPrefixed maxAccountData "keys file account_data"
  return (ivOfBytes iv, data)

/-- `nettype_of`. -/
def nettypeOf : Network → Int
  | .mainnet => 0
  | .testnet => 1
  | .stagenet => 2
  | .fakechain => 3

/-- The settings of a wallet that was just created, in the order they are put. -/
def newSettings (network : Network) (seedLanguage : String) : Json.Members :=
  [("seed_language", .string seedLanguage),
    ("nettype", .int (nettypeOf network)),
    ("watch_only", .int 0),
    ("multisig", .int 0),
    ("multisig_threshold", .int 0),
    ("encrypted_secret_keys", .int 1),
    ("key_on_device", .int 0),
    ("ask_password", .int 1),
    ("refresh_height", .int 0),
    ("skip_to_height", .int 0),
    ("subaddress_lookahead_major", .int 50),
    ("subaddress_lookahead_minor", .int 200),
    ("auto_refresh", .int 1),
    ("store_tx_info", .int 1),
    ("device_name", .string ""),
    ("device_derivation_path", .string "")]

/-- `KeysFile::new`. -/
def KeysFile.new (account : AccountBase) (network : Network) (seedLanguage : String) : KeysFile :=
  ⟨account, Json.ofList (newSettings network seedLanguage)⟩

section

variable (fromStr : List Char → Option Json.Value)

/-- `parse_json`: up to the first zero. -/
def parseJson (plaintext : Blob) : Option Json.Members :=
  match fromStr (bytesToLatin1 (plaintext.takeWhile (· != 0))) with
  | some (.object m) => some m
  | _ => none

variable (C : Crypto) (cnSlowHash : Blob → Hash256)

/-- `key_data`, taken out of the members. -/
def keyDataOf (m : Json.Members) : Except KeysFileError Blob :=
  match Json.get "key_data" m with
  | some (.string s) => .ok (latin1ToBytes s.toList)
  | _ => .error .noKeyData

/-- The members in a blob, as `open_with_key` finds them. -/
def KeysFile.membersIn (blob : Blob) (key : Key) : Except KeysFileError Json.Members := do
  let (iv, ciphertext) ← (parse parseContainer blob).mapError .container
  match parseJson fromStr (chacha20 ciphertext key iv) with
  | some m => return m
  | none => throw .notJson

/-- `open_with_key`. -/
def KeysFile.openWithKey (blob : Blob) (key : Key) : Except KeysFileError KeysFile := do
  let members ← KeysFile.membersIn fromStr blob key
  let keyData ← keyDataOf members
  let settings := Json.remove "key_data" members
  if (boolMember settings "multisig").getD false then throw .multisig
  let device := (u64Member settings "key_on_device").getD 0
  if device ≠ 0 then throw (.onDevice device)
  let account ← (fromKeyData keyData).mapError .account
  let account :=
    if (u64Member settings "encrypted_secret_keys").getD 0 ≠ 0 then
      account.decrypt cnSlowHash key
    else account
  (C.verify account.keys.toAccountKeys).mapError .account
  return ⟨account, settings⟩

/-- The members that `to_blob_with_key` writes. -/
def KeysFile.members (kf : KeysFile) (key : Key) (keyIv : Iv) : Except KeysFileError Json.Members := do
  let keyData ← (kf.account.encrypt cnSlowHash key keyIv).toKeyData.mapError .account
  let json := Json.insert "key_data" (.string (String.ofList (bytesToLatin1 keyData))) kf.settings
  return Json.insert "encrypted_secret_keys" (.int 1) json

/-- The plaintext of a blob. -/
def plaintextOf (m : Json.Members) : Blob := latin1ToBytes (Json.write (.object m))

/-- `to_blob_with_key`. -/
def KeysFile.toBlobWithKey (kf : KeysFile) (key : Key) (iv keyIv : Iv) : Except KeysFileError Blob := do
  let ciphertext := chacha20 (plaintextOf (← kf.members cnSlowHash key keyIv)) key iv
  return iv.toList ++ writeBytesPrefixed ciphertext

end

/-! ### Characters and bytes -/

theorem toNat_byteChar : ∀ n < 256, (Char.ofNat n).toNat = n := by decide +kernel

theorem latin_bytesToLatin1 (b : Blob) : ∀ c ∈ bytesToLatin1 b, Latin c := by
  intro c hc
  obtain ⟨x, -, rfl⟩ := List.mem_map.mp hc
  rw [Latin, toNat_byteChar _ x.toNat_lt]
  exact x.toNat_lt

theorem latin1ToBytes_bytesToLatin1 (b : Blob) : latin1ToBytes (bytesToLatin1 b) = b := by
  have hbyte : ∀ x ∈ b, UInt8.ofNat (Char.ofNat x.toNat).toNat = id x := fun x _ => by
    rw [toNat_byteChar _ x.toNat_lt, UInt8.ofNat_toNat, id]
  rw [latin1ToBytes, bytesToLatin1, List.map_map]
  exact (List.map_congr_left hbyte).trans (List.map_id b)

/-- What a character is after it was a byte. -/
def truncated (c : Char) : Char := Char.ofNat (c.toNat % 256)

theorem truncated_of_latin {c : Char} (h : Latin c) : truncated c = c := by
  rw [truncated, Nat.mod_eq_of_lt h, Char.ofNat_toNat]

/-- A text, kept as bytes and read. -/
theorem bytesToLatin1_latin1ToBytes (text : List Char) :
    bytesToLatin1 (latin1ToBytes text) = text.map truncated := by
  rw [latin1ToBytes, bytesToLatin1, List.map_map]
  refine List.map_congr_left fun c _ => ?_
  rw [Function.comp_apply, UInt8.toNat_ofNat', truncated]

theorem map_truncated_of_latin {text : List Char} (h : ∀ c ∈ text, Latin c) : text.map truncated = text :=
  (List.map_congr_left fun c hc => truncated_of_latin (h c hc)).trans (List.map_id text)

/-- A text in which no character is cut to a zero is read to its end. -/
theorem takeWhile_latin1ToBytes {text : List Char} (h : ∀ c ∈ text, c.toNat % 256 ≠ 0) :
    (latin1ToBytes text).takeWhile (· != 0) = latin1ToBytes text := by
  refine List.takeWhile_eq_self_iff.mpr fun x hx => ?_
  obtain ⟨c, hc, rfl⟩ := List.mem_map.mp hx
  rw [bne_iff_ne]
  intro hzero
  refine h c hc ?_
  have hnat := congrArg UInt8.toNat hzero
  rwa [UInt8.toNat_ofNat'] at hnat

/-! ### The container -/

theorem parse_container {iv : Iv} {data : Blob} (h : data.length ≤ maxAccountData) :
    parse parseContainer (iv.toList ++ writeBytesPrefixed data) = .ok (iv, data) := by
  have hnonce : Reads (take 8) iv.toList iv.toList := by
    have hread := reads_take iv.toList
    rwa [Vector.length_toList] at hread
  have hlength : data.length < 2 ^ 64 := Nat.lt_of_le_of_lt h (by decide)
  have hread : Reads parseContainer (iv.toList ++ writeBytesPrefixed data) (ivOfBytes iv.toList, data) :=
    hnonce.bind ((reads_bytesPrefixed hlength h).map fun data => (ivOfBytes iv.toList, data))
  have hrun := hread [] 0
  rw [List.append_nil, ivOfBytes_toList] at hrun
  rw [parse, Reader.new, hrun]
  rfl

section

variable {fromStr : List Char → Option Json.Value} {cnSlowHash : Blob → Hash256}

/-- Deciphered, a blob holds the text it was made of, each character cut to a byte. -/
theorem membersIn_written {m : Json.Members} {key : Key} {iv : Iv}
    (hsize : (plaintextOf m).length ≤ maxAccountData) :
    KeysFile.membersIn fromStr (iv.toList ++ writeBytesPrefixed (chacha20 (plaintextOf m) key iv)) key =
      match parseJson fromStr (plaintextOf m) with
      | some m => .ok m
      | none => .error .notJson := by
  have hlength : (chacha20 (plaintextOf m) key iv).length ≤ maxAccountData := by
    rw [length_chacha20]
    exact hsize
  rw [KeysFile.membersIn, parse_container hlength]
  show (match parseJson fromStr (chacha20 (chacha20 (plaintextOf m) key iv) key iv) with
    | some m => pure m
    | none => throw .notJson : Except KeysFileError Json.Members) = _
  rw [chacha20_chacha20]
  rfl

/-- Text without other characters is read as it was written. -/
theorem parseJson_written (hfromStr : FaithfulReader fromStr) {m : Json.Members}
    (hheld : Held (.object m)) (hlatin : (Json.Value.object m).All Latin) :
    parseJson fromStr (plaintextOf m) = some m := by
  have htext : ∀ c ∈ Json.write (.object m), Latin c :=
    Json.forall_mem_write (fun c _ h => Nat.lt_trans h (by decide))
      (hlatin.mono fun v h c hc _ => h c hc)
  have hzero : ∀ c ∈ Json.write (.object m), c.toNat % 256 ≠ 0 := by
    intro c hc
    rw [Nat.mod_eq_of_lt (htext c hc)]
    have hlow := Json.le_of_mem_write hc
    omega
  rw [parseJson, plaintextOf, takeWhile_latin1ToBytes hzero, bytesToLatin1_latin1ToBytes,
    map_truncated_of_latin htext, hfromStr.reads hheld]

end

/-! ### Opened again -/

namespace KeysFile

/-- The settings that are written: the secret keys are said to be encrypted. -/
def saved (kf : KeysFile) : Json.Members := Json.insert "encrypted_secret_keys" (.int 1) kf.settings

/-- What a file is opened as: the keys under another nonce, the settings as they were written. -/
def reopened (kf : KeysFile) (keyIv : Iv) : KeysFile :=
  ⟨kf.account.withIv keyIv, kf.saved⟩

/-- A wallet that can be opened: its keys belong together and are its own, and the settings hold no
others. -/
structure Usable (C : Crypto) (kf : KeysFile) : Prop where
  held : Held (.object kf.settings)
  noKeyData : Json.get "key_data" kf.settings = none
  verified : C.verify kf.account.keys.toAccountKeys = .ok ()
  notMultisig : (boolMember kf.settings "multisig").getD false = false
  notOnDevice : (u64Member kf.settings "key_on_device").getD 0 = 0

section

variable {C : Crypto} {fromStr : List Char → Option Json.Value} {cnSlowHash : Blob → Hash256}
  {kf : KeysFile} {key : Key} {keyIv : Iv} {m : Json.Members}

/-- Keys that a string can hold are written. -/
theorem exists_members (h : 32 * kf.account.keys.multisigKeys.length ≤ Epee.maxStringLen) :
    ∃ m, kf.members cnSlowHash key keyIv = .ok m := by
  have hlength : 32 * (kf.account.encrypt cnSlowHash key keyIv).keys.multisigKeys.length ≤ Epee.maxStringLen := by
    rw [AccountBase.encrypt, StoredKeys.encrypt, StoredKeys.xorWithKeyStream]
    dsimp only
    rw [length_xorKeys]
    exact h
  obtain ⟨keyData, hwrite, -⟩ := Epee.blob_written (fun _ h => h) (fun _ h => h) (holds_keySection hlength).1
  rw [members, toKeyData, hwrite]
  exact ⟨_, rfl⟩

/-- The members that are written are the settings and the keys. -/
theorem members_eq (h : kf.members cnSlowHash key keyIv = .ok m) : ∃ keyData,
    (kf.account.encrypt cnSlowHash key keyIv).toKeyData = .ok keyData ∧
      m = Json.insert "encrypted_secret_keys" (.int 1)
        (Json.insert "key_data" (.string (String.ofList (bytesToLatin1 keyData))) kf.settings) := by
  unfold members at h
  cases hdata : (kf.account.encrypt cnSlowHash key keyIv).toKeyData with
  | error e =>
      rw [hdata] at h
      nomatch h
  | ok keyData =>
      rw [hdata] at h
      exact ⟨keyData, rfl, (Except.ok.inj h).symm⟩

/-- What is opened has the members that were found, less the keys. -/
theorem settings_of_opened {blob : Blob} {found : Json.Members} {kf' : KeysFile}
    (hfound : membersIn fromStr blob key = .ok found)
    (hopen : openWithKey fromStr C cnSlowHash blob key = .ok kf') :
    kf'.settings = Json.remove "key_data" found := by
  unfold openWithKey at hopen
  rw [hfound] at hopen
  dsimp only [bind, Except.bind, pure, Except.pure] at hopen
  split at hopen
  · nomatch hopen
  split at hopen
  · nomatch hopen
  split at hopen
  · nomatch hopen
  split at hopen
  · nomatch hopen
  split at hopen
  · nomatch hopen
  rw [← Except.ok.inj hopen]

theorem get_saved_of_ne {name : String} (hne : name ≠ "encrypted_secret_keys") :
    Json.get name kf.saved = Json.get name kf.settings := Json.get_insert_of_ne hne _ _

theorem u64Member_saved_of_ne {name : String} (hne : name ≠ "encrypted_secret_keys") :
    u64Member kf.saved name = u64Member kf.settings name := by
  rw [u64Member, get_saved_of_ne hne, u64Member]

theorem boolMember_saved_of_ne {name : String} (hne : name ≠ "encrypted_secret_keys") :
    boolMember kf.saved name = boolMember kf.settings name := by
  rw [boolMember, get_saved_of_ne hne, u64Member_saved_of_ne hne, boolMember]

variable (hkf : Usable C kf)

include hkf

theorem ascending_settings : Json.Ascending kf.settings := (Json.each_object.mp hkf.held.1).1

/-- The keys found among the members, and what is left without them. -/
theorem found_members (h : kf.members cnSlowHash key keyIv = .ok m) : ∃ keyData,
    (kf.account.encrypt cnSlowHash key keyIv).toKeyData = .ok keyData ∧ Json.Ascending m ∧
      Json.get "key_data" m = some (.string (String.ofList (bytesToLatin1 keyData))) ∧
      Json.remove "key_data" m = kf.saved := by
  obtain ⟨keyData, hdata, rfl⟩ := members_eq h
  have hput := Json.ascending_insert "key_data" (.string (String.ofList (bytesToLatin1 keyData)))
    (ascending_settings hkf)
  refine ⟨keyData, hdata, Json.ascending_insert _ _ hput, ?_, ?_⟩
  · rw [Json.get_insert_of_ne (by decide), Json.get_insert_self]
  · rw [Json.remove_insert_of_ne (by decide) _ hput, Json.remove_insert_self, Json.remove_of_get hkf.noKeyData,
      saved]

omit hkf in
/-- Found are the keys, and settings of a wallet whose secret keys are encrypted: the file is opened. -/
theorem openWithKey_of_found {keyData : Blob} {blob : Blob} {found settings : Json.Members}
    (hverified : C.verify kf.account.keys.toAccountKeys = .ok ())
    (hdata : (kf.account.encrypt cnSlowHash key keyIv).toKeyData = .ok keyData)
    (hfound : membersIn fromStr blob key = .ok found)
    (hget : Json.get "key_data" found = some (.string (String.ofList (bytesToLatin1 keyData))))
    (hremove : Json.remove "key_data" found = settings)
    (hmultisig : (boolMember settings "multisig").getD false = false)
    (hdevice : (u64Member settings "key_on_device").getD 0 = 0)
    (hencrypted : (u64Member settings "encrypted_secret_keys").getD 0 = 1) :
    openWithKey fromStr C cnSlowHash blob key = .ok ⟨kf.account.withIv keyIv, settings⟩ := by
  have hkeyData : keyDataOf found = .ok keyData := by
    rw [keyDataOf, hget]
    dsimp only
    rw [String.toList_ofList, latin1ToBytes_bytesToLatin1]
  unfold openWithKey
  rw [hfound]
  show (keyDataOf found >>= fun keyData => _) = _
  rw [hkeyData, hremove]
  show (if (boolMember settings "multisig").getD false = true then _ else _) = _
  rw [hmultisig, if_neg (by decide)]
  show (if (u64Member settings "key_on_device").getD 0 ≠ 0 then _ else _) = _
  rw [hdevice, if_neg (by decide)]
  show ((fromKeyData keyData).mapError KeysFileError.account >>= fun account => _) = _
  rw [fromKeyData_toKeyData hdata, hencrypted]
  show ((C.verify (((kf.account.encrypt cnSlowHash key keyIv).decrypt cnSlowHash key).keys.toAccountKeys)).mapError
    KeysFileError.account >>= fun _ => _) = _
  rw [AccountBase.decrypt_encrypt]
  show ((C.verify kf.account.keys.toAccountKeys).mapError KeysFileError.account >>= fun _ => _) = _
  rw [hverified]
  rfl

omit hkf in
theorem u64Member_saved : (u64Member kf.saved "encrypted_secret_keys").getD 0 = 1 := by
  rw [u64Member, saved, Json.get_insert_self]
  rfl

/-- Given back the members that were written, the file is opened. -/
theorem openWithKey_of_members (hm : kf.members cnSlowHash key keyIv = .ok m) {blob : Blob}
    (hfound : membersIn fromStr blob key = .ok m) :
    openWithKey fromStr C cnSlowHash blob key = .ok (kf.reopened keyIv) := by
  obtain ⟨keyData, hdata, -, hget, hremove⟩ := found_members hkf hm
  refine openWithKey_of_found hkf.verified hdata hfound hget hremove ?_ ?_ u64Member_saved
  · rw [boolMember_saved_of_ne (by decide), hkf.notMultisig]
  · rw [u64Member_saved_of_ne (by decide), hkf.notOnDevice]

/-- The members are the settings as they are saved and one that holds the keys. -/
theorem members_eq_insert (h : kf.members cnSlowHash key keyIv = .ok m) : ∃ keyData,
    (kf.account.encrypt cnSlowHash key keyIv).toKeyData = .ok keyData ∧
      m = Json.insert "key_data" (.string (String.ofList (bytesToLatin1 keyData))) kf.saved := by
  obtain ⟨keyData, hdata, hascending, hget, hremove⟩ := found_members hkf h
  refine ⟨keyData, hdata, ?_⟩
  rw [← hremove, Json.insert_remove hascending hget]

theorem held_members (h : kf.members cnSlowHash key keyIv = .ok m) : Held (.object m) := by
  obtain ⟨keyData, -, rfl⟩ := members_eq h
  have hput := Json.ascending_insert "key_data" (.string (String.ofList (bytesToLatin1 keyData)))
    (ascending_settings hkf)
  have hall {p : Json.Value → Prop} (hstring : ∀ s, p (.string s)) (hone : p (.int 1))
      (hsettings : ∀ x ∈ kf.settings, x.2.Each p) : ∀ x ∈ Json.insert "encrypted_secret_keys" (.int 1)
        (Json.insert "key_data" (.string (String.ofList (bytesToLatin1 keyData))) kf.settings), x.2.Each p := by
    intro x hx
    rcases Json.mem_insert hx with rfl | hx
    · exact hone
    rcases Json.mem_insert hx with rfl | hx
    · exact hstring _
    · exact hsettings x hx
  exact ⟨Json.each_object.mpr ⟨Json.ascending_insert _ _ hput,
      hall (fun _ => trivial) trivial (Json.each_object.mp hkf.held.1).2⟩,
    Json.each_object.mpr ⟨trivial, hall (fun _ => trivial) ⟨by decide, by decide⟩ (Json.each_object.mp hkf.held.2).2⟩⟩

/-- What holds of the settings as they are saved and of the keys holds of all members. -/
theorem forall_mem_members (h : kf.members cnSlowHash key keyIv = .ok m) {p : String × Json.Value → Prop}
    (hkeys : ∀ keyData, p ("key_data", .string (String.ofList (bytesToLatin1 keyData))))
    (hsaved : ∀ x ∈ kf.saved, p x) : ∀ x ∈ m, p x := by
  obtain ⟨keyData, -, rfl⟩ := members_eq_insert hkf h
  intro x hx
  rcases Json.mem_insert hx with rfl | hx
  · exact hkeys keyData
  · exact hsaved x hx

omit hkf in
theorem latin_keyData (keyData : Blob) : (∀ c ∈ "key_data".toList, Latin c) ∧
    (Json.Value.string (String.ofList (bytesToLatin1 keyData))).All Latin := by
  refine ⟨forall_of_all (by decide), ?_⟩
  show ∀ c ∈ (String.ofList _).toList, Latin c
  rw [String.toList_ofList]
  exact latin_bytesToLatin1 keyData

theorem latin_members (h : kf.members cnSlowHash key keyIv = .ok m) :
    (Json.Value.object m).All Latin ↔ (Json.Value.object kf.saved).All Latin := by
  obtain ⟨keyData, -, -, -, hremove⟩ := found_members hkf h
  rw [Json.all_object, Json.all_object]
  constructor
  · intro hall x hx
    rw [← hremove] at hx
    exact hall x (List.mem_of_mem_filter hx)
  · exact forall_mem_members hkf h latin_keyData

end

end KeysFile

/-- What is read of a text that was kept as bytes is read of one with no other characters, and no
longer. -/
theorem exists_text_of_parseJson {fromStr : List Char → Option Json.Value} {m found : Json.Members}
    (h : parseJson fromStr (plaintextOf m) = some found) : ∃ text, fromStr text = some (.object found) ∧
      (∀ c ∈ text, Latin c) ∧ text.length ≤ (Json.write (.object m)).length := by
  have hprefix := (List.takeWhile_prefix (l := plaintextOf m) (· != 0)).length_le
  rw [parseJson] at h
  split at h
  · next hread =>
      rw [Option.some.inj h] at hread
      refine ⟨_, hread, latin_bytesToLatin1 _, ?_⟩
      rw [plaintextOf, latin1ToBytes, List.length_map] at hprefix
      rw [bytesToLatin1, List.length_map]
      exact hprefix
  · nomatch h

/-- A keys file is opened as it was saved, from the key data that were written, just when no name and
no string of its settings has a character that is not a byte. -/
theorem keysFile_reopened (C : Crypto) (cnSlowHash : Blob → Hash256) {fromStr : List Char → Option Json.Value}
    (hfromStr : FaithfulReader fromStr) {kf : KeysFile} (hkf : kf.Usable C) (key : Key) (iv keyIv : Iv)
    {m : Json.Members} (hm : kf.members cnSlowHash key keyIv = .ok m)
    (hsize : (plaintextOf m).length ≤ maxAccountData) :
    (Json.Value.object kf.saved).All Latin ↔
      ∃ blob found, kf.toBlobWithKey cnSlowHash key iv keyIv = .ok blob ∧
        KeysFile.openWithKey fromStr C cnSlowHash blob key = .ok (kf.reopened keyIv) ∧
        KeysFile.membersIn fromStr blob key = .ok found ∧
        Json.get "key_data" found = Json.get "key_data" m := by
  have hblob : kf.toBlobWithKey cnSlowHash key iv keyIv =
      .ok (iv.toList ++ writeBytesPrefixed (chacha20 (plaintextOf m) key iv)) := by
    rw [KeysFile.toBlobWithKey, hm]
    rfl
  have hheld := KeysFile.held_members hkf hm
  constructor
  · intro hlatin
    have hparse := parseJson_written hfromStr hheld ((KeysFile.latin_members hkf hm).mpr hlatin)
    have hfound : KeysFile.membersIn fromStr
        (iv.toList ++ writeBytesPrefixed (chacha20 (plaintextOf m) key iv)) key = .ok m := by
      rw [membersIn_written hsize, hparse]
    exact ⟨_, m, hblob, KeysFile.openWithKey_of_members hkf hm hfound, hfound, rfl⟩
  · rintro ⟨blob, found, hwritten, hopen, hfound, hdata⟩
    obtain rfl := Except.ok.inj (hblob.symm.trans hwritten)
    obtain ⟨keyData, -, hinsert⟩ := KeysFile.members_eq_insert hkf hm
    have hsettings : kf.saved = Json.remove "key_data" found := KeysFile.settings_of_opened hfound hopen
    rw [membersIn_written hsize] at hfound
    split at hfound
    · next hparse =>
        rw [Except.ok.inj hfound] at hparse
        obtain ⟨text, hread, htext, hlength⟩ := exists_text_of_parseJson hparse
        have hascending := (Json.each_object.mp (hfromStr.ordered hread)).1
        have hsame : found = m := by
          have hget : Json.get "key_data" found =
              some (.string (String.ofList (bytesToLatin1 keyData))) := by
            rw [hdata, hinsert, Json.get_insert_self]
          rw [← Json.insert_remove hascending hget, ← hsettings, ← hinsert]
        rw [hsame] at hread
        refine (KeysFile.latin_members hkf hm).mp (by_contra fun hnot => ?_)
        exact absurd (hfromStr.escapes hread hheld htext hnot) (by omega)
    · nomatch hfound

/-- The reader of the library is such a reader. -/
theorem faithfulReader_read : FaithfulReader Json.read where
  reads h := Json.read_write h.1
  ordered h := Json.canonical_of_read h
  escapes hread _ htext hnot := by
    refine Json.length_lt_of_read (fun c _ h => Nat.lt_trans h (by decide)) hread htext fun hall => hnot ?_
    refine hall.mono fun v h c hc => by_contra fun hlatin => hlatin (h c hc ?_)
    have hhigh : ¬c.toNat < 256 := hlatin
    have hother {x : Char} (hx : x.toNat < 256) : c ≠ x := fun heq => hhigh (heq ▸ hx)
    exact Json.escape_self (hother (by decide)) (hother (by decide)) (by omega)

theorem nettypeOf_fits (network : Network) : -2 ^ 63 ≤ nettypeOf network ∧ nettypeOf network < 2 ^ 64 := by
  cases network <;> decide

/-- A new wallet can be opened, whatever its language. -/
theorem KeysFile.usable_new {C : Crypto} {account : AccountBase} (network : Network) (seedLanguage : String)
    (h : C.verify account.keys.toAccountKeys = .ok ()) :
    (KeysFile.new account network seedLanguage).Usable C := by
  have hnet := nettypeOf_fits network
  have hsettings : (KeysFile.new account network seedLanguage).settings =
      Json.ofList (newSettings network seedLanguage) := by rw [KeysFile.new]
  have hcanonical : ∀ m ∈ newSettings network seedLanguage, m.2.Canonical := by
    simp [newSettings, Json.Value.Canonical, Json.Value.Each, Json.Value.Ordered]
  have hexact : ∀ m ∈ newSettings network seedLanguage, m.2.Each Exact := by
    simpa [newSettings, Json.Value.Each, Exact] using hnet
  constructor
  case held =>
    rw [hsettings]
    exact ⟨Json.each_object.mpr ⟨Json.ascending_ofList _, fun m hm => hcanonical m (Json.mem_ofList hm)⟩,
      Json.each_object.mpr ⟨trivial, fun m hm => hexact m (Json.mem_ofList hm)⟩⟩
  case noKeyData =>
    rw [hsettings, Json.get_ofList]
    simp [newSettings, Json.get]
  case verified => exact h
  case notMultisig =>
    rw [hsettings, boolMember, u64Member, Json.get_ofList]
    simp [newSettings, Json.get_cons, asBool, asU64]
  case notOnDevice =>
    rw [hsettings, u64Member, Json.get_ofList]
    simp [newSettings, Json.get_cons, asU64]

/-! ### Other scripts -/

/-- A character that a byte stands for, or of which the last byte stands for one that is written as
itself. -/
def CutPlainly (c : Char) : Prop :=
  Latin c ∨ 32 ≤ c.toNat % 256 ∧ c.toNat % 256 ≠ 34 ∧ c.toNat % 256 ≠ 92

instance : DecidablePred CutPlainly := fun _ => inferInstanceAs (Decidable (_ ∨ _))

theorem escape_of_latin {c : Char} (h : Latin c) : (Json.escape c).map truncated = Json.escape c := by
  refine map_truncated_of_latin fun x hx => ?_
  rcases Json.escape_cases c with ⟨heq, -⟩ | hprintable
  · rw [heq, List.mem_singleton] at hx
    rwa [hx]
  · exact Nat.lt_trans (hprintable x hx).2 (by decide)

theorem escape_truncated {c : Char} (h : CutPlainly c) :
    (Json.escape c).map truncated = Json.escape (truncated c) := by
  rcases h with h | ⟨hlow, hquote, hslash⟩
  · rw [escape_of_latin h, truncated_of_latin h]
  · by_cases hlatin : Latin c
    · rw [escape_of_latin hlatin, truncated_of_latin hlatin]
    have hnat : (truncated c).toNat = c.toNat % 256 := toNat_byteChar _ (Nat.mod_lt _ (by decide))
    have hself : Json.escape (truncated c) = [truncated c] :=
      Json.escape_self (fun heq => hquote (by rw [← hnat, heq]; rfl))
        (fun heq => hslash (by rw [← hnat, heq]; rfl)) (by omega)
    have hhigh : ¬c.toNat < 256 := hlatin
    have hother {x : Char} (hx : x.toNat < 256) : c ≠ x := fun heq => hhigh (heq ▸ hx)
    rw [hself, Json.escape_self (hother (by decide)) (hother (by decide)) (by omega), List.map_singleton]

/-- The names in it are of characters that a byte stands for. -/
def LatinNames : Json.Value → Prop
  | .object members => ∀ m ∈ members, ∀ c ∈ m.1.toList, Latin c
  | _ => True

theorem mapString_truncated {s : String} (h : ∀ c ∈ s.toList, Latin c) : Json.mapString truncated s = s := by
  rw [Json.mapString, map_truncated_of_latin h, String.ofList_toList]

theorem mapMembers_truncated {members : Json.Members} (h : LatinNames (.object members)) :
    Json.mapMembers truncated members = members.map fun m => (m.1, m.2.mapChars truncated) := by
  rw [Json.mapMembers_eq]
  exact List.map_congr_left fun m hm => by rw [mapString_truncated (h m hm)]

/-- What is held is held when its strings are cut. -/
theorem held_mapChars {v : Json.Value} (hnames : v.Each LatinNames) (hheld : Held v) :
    Held (v.mapChars truncated) := by
  obtain ⟨hcanonical, hexact⟩ := hheld
  induction v using Json.Value.induct with
  | null | bool | int | real | string => exact ⟨hcanonical, hexact⟩
  | array items ih =>
      obtain ⟨-, hnames⟩ := Json.each_array.mp hnames
      have hitems : ∀ v ∈ items.map (Json.Value.mapChars truncated), Held v := by
        intro v hv
        obtain ⟨v', hv', rfl⟩ := List.mem_map.mp hv
        exact ih v' hv' (hnames v' hv') ((Json.each_array.mp hcanonical).2 v' hv')
          ((Json.each_array.mp hexact).2 v' hv')
      rw [Json.Value.mapChars, Json.mapItems_eq]
      exact ⟨Json.each_array.mpr ⟨trivial, fun v hv => (hitems v hv).1⟩,
        Json.each_array.mpr ⟨trivial, fun v hv => (hitems v hv).2⟩⟩
  | object members ih =>
      obtain ⟨hself, hnames⟩ := Json.each_object.mp hnames
      obtain ⟨hascending, hcanonical⟩ := Json.each_object.mp hcanonical
      have hmembers : ∀ m ∈ members.map (fun m => (m.1, m.2.mapChars truncated)), Held m.2 := by
        intro m hm
        obtain ⟨m', hm', rfl⟩ := List.mem_map.mp hm
        exact ih m' hm' (hnames m' hm') (hcanonical m' hm') ((Json.each_object.mp hexact).2 m' hm')
      rw [Json.Value.mapChars, mapMembers_truncated hself]
      exact ⟨Json.each_object.mpr ⟨List.pairwise_map.mpr hascending, fun m hm => (hmembers m hm).1⟩,
        Json.each_object.mpr ⟨trivial, fun m hm => (hmembers m hm).2⟩⟩

/-- Members of which the strings are cut. -/
def cutMembers (ms : Json.Members) : Json.Members := ms.map fun m => (m.1, m.2.mapChars truncated)

theorem get_cutMembers (name : String) (ms : Json.Members) :
    Json.get name (cutMembers ms) = (Json.get name ms).map (Json.Value.mapChars truncated) := by
  induction ms with
  | nil => rfl
  | cons m ms ih =>
      rw [cutMembers, List.map_cons, Json.get_cons, Json.get_cons]
      split
      · rfl
      · exact ih

theorem remove_cutMembers (name : String) (ms : Json.Members) :
    Json.remove name (cutMembers ms) = cutMembers (Json.remove name ms) := by
  rw [Json.remove, cutMembers, List.filter_map, cutMembers, Json.remove]
  rfl

theorem u64Member_cutMembers (name : String) (ms : Json.Members) :
    u64Member (cutMembers ms) name = u64Member ms name := by
  rw [u64Member, get_cutMembers, u64Member]
  cases Json.get name ms with
  | none => rfl
  | some v => cases v <;> rfl

theorem boolMember_cutMembers (name : String) (ms : Json.Members) :
    boolMember (cutMembers ms) name = boolMember ms name := by
  rw [boolMember, get_cutMembers, u64Member_cutMembers, boolMember]
  cases Json.get name ms with
  | none => rfl
  | some v => cases v <;> rfl

section

variable {C : Crypto} {fromStr : List Char → Option Json.Value} {cnSlowHash : Blob → Hash256}
  {kf : KeysFile} {m : Json.Members}

/-- Text of which no character is cut to one that means something is read with its strings cut. -/
theorem parseJson_cut (hfromStr : FaithfulReader fromStr) (hheld : Held (.object m))
    (hnames : (Json.Value.object m).Each LatinNames) (hplain : (Json.Value.object m).All CutPlainly) :
    parseJson fromStr (plaintextOf m) = some (cutMembers m) := by
  have hcut : (Json.write (.object m)).map truncated = Json.write (.object (cutMembers m)) := by
    rw [Json.map_write (fun c h => truncated_of_latin (Nat.lt_trans h (by decide)))
      (hplain.mono fun v h c hc => escape_truncated (h c hc)), Json.Value.mapChars,
      mapMembers_truncated (Json.each_object.mp hnames).1, cutMembers]
  have hzero : ∀ c ∈ Json.write (.object m), c.toNat % 256 ≠ 0 := by
    intro c hc hzero
    have hmem : truncated c ∈ Json.write (.object (cutMembers m)) := by
      rw [← hcut]
      exact List.mem_map_of_mem hc
    have hlow := Json.le_of_mem_write hmem
    rw [truncated, hzero] at hlow
    exact absurd hlow (by decide)
  have hheldCut := held_mapChars hnames hheld
  rw [Json.Value.mapChars, mapMembers_truncated (Json.each_object.mp hnames).1, ← cutMembers] at hheldCut
  rw [parseJson, plaintextOf, takeWhile_latin1ToBytes hzero, bytesToLatin1_latin1ToBytes, hcut,
    hfromStr.reads hheldCut]

/-- A wallet of which the settings hold other characters, none of them cut to one that means
something, is opened with every string cut. -/
theorem openWithKey_cut (hfromStr : FaithfulReader fromStr) (hkf : kf.Usable C) {key : Key} (iv : Iv)
    {keyIv : Iv} (hm : kf.members cnSlowHash key keyIv = .ok m) (hsize : (plaintextOf m).length ≤ maxAccountData)
    (hnames : (Json.Value.object kf.saved).Each LatinNames)
    (hplain : (Json.Value.object kf.saved).All CutPlainly) :
    KeysFile.openWithKey fromStr C cnSlowHash
        (iv.toList ++ writeBytesPrefixed (chacha20 (plaintextOf m) key iv)) key =
      .ok ⟨kf.account.withIv keyIv, cutMembers kf.saved⟩ := by
  obtain ⟨keyData, hdata, -, hget, hremove⟩ := KeysFile.found_members hkf hm
  obtain ⟨hnamesSelf, hnames⟩ := Json.each_object.mp hnames
  have hnamesAll : (Json.Value.object m).Each LatinNames := Json.each_object.mpr
    ⟨KeysFile.forall_mem_members hkf hm (fun keyData => (KeysFile.latin_keyData keyData).1) hnamesSelf,
      KeysFile.forall_mem_members hkf hm (fun _ => trivial) hnames⟩
  have hplainAll : (Json.Value.object m).All CutPlainly := by
    rw [Json.all_object] at hplain ⊢
    refine KeysFile.forall_mem_members hkf hm (fun keyData => ?_) hplain
    obtain ⟨hname, hstring⟩ := KeysFile.latin_keyData keyData
    exact ⟨fun c hc => .inl (hname c hc), fun c hc => .inl (hstring c hc)⟩
  have hfound : KeysFile.membersIn fromStr
      (iv.toList ++ writeBytesPrefixed (chacha20 (plaintextOf m) key iv)) key = .ok (cutMembers m) := by
    rw [membersIn_written hsize, parseJson_cut hfromStr (KeysFile.held_members hkf hm) hnamesAll hplainAll]
  refine KeysFile.openWithKey_of_found hkf.verified hdata hfound ?_ ?_ ?_ ?_ ?_
  · rw [get_cutMembers, hget, Option.map_some, Json.Value.mapChars, Json.mapString, String.toList_ofList,
      map_truncated_of_latin (latin_bytesToLatin1 keyData)]
  · rw [remove_cutMembers, hremove]
  · rw [boolMember_cutMembers, KeysFile.boolMember_saved_of_ne (by decide), hkf.notMultisig]
  · rw [u64Member_cutMembers, KeysFile.u64Member_saved_of_ne (by decide), hkf.notOnDevice]
  · rw [u64Member_cutMembers, KeysFile.u64Member_saved]

end

namespace Sample

/-- A wallet that was just created, with its seed in this language. -/
def created (seedLanguage : String) : KeysFile :=
  .new ⟨⟨⟨⟨16, 8⟩, Crypto.scalarBytes 2, Crypto.scalarBytes 1⟩, [], Vector.replicate 8 0⟩, 1700000000⟩
    .mainnet seedLanguage

theorem created_usable (seedLanguage : String) : (created seedLanguage).Usable crypto :=
  KeysFile.usable_new .mainnet seedLanguage (by decide)

/-- The members of such a wallet, under a key and a nonce. -/
def createdMembers (seedLanguage : String) : Json.Members :=
  ((created seedLanguage).members digest 7 (Vector.replicate 8 2)).toOption.getD []

theorem createdMembers_eq (seedLanguage : String) :
    (created seedLanguage).members digest 7 (Vector.replicate 8 2) = .ok (createdMembers seedLanguage) := by
  obtain ⟨m, hm⟩ := @KeysFile.exists_members digest (created seedLanguage) 7 (Vector.replicate 8 2)
    (Nat.zero_le _)
  rw [createdMembers, hm]
  rfl

theorem length_createdKeys : (((created "").account.encrypt digest 7 (Vector.replicate 8 2)).toKeyData.toOption.getD
    []).length ≤ 1000 := by decide +kernel

/-- Such a file is small. -/
theorem length_created {seedLanguage : String} (h : seedLanguage.toList.length ≤ 100) :
    (plaintextOf (createdMembers seedLanguage)).length ≤ maxAccountData := by
  obtain ⟨keyData, hdata, heq⟩ := KeysFile.members_eq (createdMembers_eq seedLanguage)
  have hkeys : keyData.length ≤ 1000 := by
    have hshort := length_createdKeys
    rw [show (created "").account = (created seedLanguage).account from rfl, hdata] at hshort
    exact hshort
  have hstring := Json.length_writeString_le (String.ofList (bytesToLatin1 keyData))
  have hbytes : (bytesToLatin1 keyData).length = keyData.length := List.length_map _
  rw [String.toList_ofList, hbytes] at hstring
  have hlanguage := Json.length_writeString_le seedLanguage
  have hmarked := Json.length_write_insert_le "encrypted_secret_keys" (.int 1)
    (Json.insert "key_data" (.string (String.ofList (bytesToLatin1 keyData))) (created seedLanguage).settings)
  have hput := Json.length_write_insert_le "key_data" (.string (String.ofList (bytesToLatin1 keyData)))
    (created seedLanguage).settings
  have hsettings := Json.length_write_ofList_le (newSettings .mainnet seedLanguage)
  have hsum : ((newSettings .mainnet seedLanguage).map fun m =>
      (Json.writeString m.1).length + (Json.write m.2).length + 2).sum =
        (Json.writeString "seed_language").length + (Json.writeString seedLanguage).length + 2 +
          ((newSettings .mainnet "").tail.map fun m =>
            (Json.writeString m.1).length + (Json.write m.2).length + 2).sum := rfl
  have hothers : ((newSettings .mainnet "").tail.map fun m =>
      (Json.writeString m.1).length + (Json.write m.2).length + 2).sum ≤ 1000 := by decide
  have hnames : (Json.writeString "seed_language").length + (Json.writeString "key_data").length +
      (Json.writeString "encrypted_secret_keys").length + (Json.write (.int 1)).length ≤ 1000 := by
    decide
  rw [hsum] at hsettings
  rw [Json.write.eq_def (.string _)] at hput
  rw [plaintextOf, latin1ToBytes, List.length_map, heq, maxAccountData]
  dsimp only [created, KeysFile.new] at *
  omega

theorem settings_created (seedLanguage : String) :
    (created seedLanguage).settings = Json.ofList (newSettings .mainnet seedLanguage) := by
  rw [created, KeysFile.new]

theorem mem_saved {seedLanguage : String} {x : String × Json.Value} (hx : x ∈ (created seedLanguage).saved) :
    x ∈ newSettings .mainnet seedLanguage := by
  rcases Json.mem_insert hx with rfl | hx
  · simp [newSettings]
  · rw [settings_created] at hx
    exact Json.mem_ofList hx

/-- The names of the settings, which are flat. -/
theorem latin_newSettings (seedLanguage : String) : ∀ x ∈ newSettings .mainnet seedLanguage,
    (∀ c ∈ x.1.toList, Latin c) ∧ (x.2 = .string seedLanguage ∨ ∃ n, x.2 = .int n ∨ x.2 = .string "") := by
  have hall : ((newSettings .mainnet "").map Prod.fst).all
      (fun name => name.toList.all fun c => decide (Latin c)) = true := by decide
  have hnames : ∀ name ∈ (newSettings .mainnet "").map Prod.fst, ∀ c ∈ name.toList, Latin c :=
    fun name hname => forall_of_all (List.all_eq_true.mp hall name hname)
  have hsame : (newSettings .mainnet seedLanguage).map Prod.fst = (newSettings .mainnet "").map Prod.fst := rfl
  have hvalues : ∀ x ∈ newSettings .mainnet seedLanguage,
      x.2 = .string seedLanguage ∨ ∃ n, x.2 = .int n ∨ x.2 = .string "" := by simp [newSettings]
  intro x hx
  have hname : x.1 ∈ (newSettings .mainnet "").map Prod.fst := by
    rw [← hsame]
    exact List.mem_map_of_mem hx
  exact ⟨hnames x.1 hname, hvalues x hx⟩

/-- What holds of the characters of the language holds of those of the settings. -/
theorem all_saved {p : Char → Prop} (hlatin : ∀ c, Latin c → p c) {seedLanguage : String}
    (h : ∀ c ∈ seedLanguage.toList, p c) : (Json.Value.object (created seedLanguage).saved).All p := by
  refine Json.all_object.mpr fun x hx => ?_
  obtain ⟨hname, hvalue⟩ := latin_newSettings seedLanguage x (mem_saved hx)
  refine ⟨fun c hc => hlatin c (hname c hc), ?_⟩
  rcases hvalue with heq | ⟨n, heq | heq⟩
  · rw [heq]
    exact h
  · rw [heq]
    exact fun c hc => nomatch hc
  · rw [heq]
    exact fun c hc => nomatch hc

/-- The text of a wallet whose seed is in English, and the keys in it, are as they were. -/
theorem english_reopened : ∃ blob found,
    (created "English").toBlobWithKey digest 7 (Vector.replicate 8 1) (Vector.replicate 8 2) = .ok blob ∧
      KeysFile.openWithKey Json.read crypto digest blob 7 =
        .ok ((created "English").reopened (Vector.replicate 8 2)) ∧
      KeysFile.membersIn Json.read blob 7 = .ok found ∧
      Json.get "key_data" found = Json.get "key_data" (createdMembers "English") :=
  (keysFile_reopened crypto digest faithfulReader_read (created_usable "English") 7 (Vector.replicate 8 1)
    (Vector.replicate 8 2) (createdMembers_eq "English") (length_created (by decide))).mp
    (all_saved (fun _ h => h) (forall_of_all (by decide)))

/-- A wallet whose seed is in Russian says afterwards that it is in no language there is. -/
theorem russian_lost : (created "русский язык").Usable crypto ∧
    (plaintextOf (createdMembers "русский язык")).length ≤ maxAccountData ∧
    ∃ blob kf, (created "русский язык").toBlobWithKey digest 7 (Vector.replicate 8 1) (Vector.replicate 8 2) =
        .ok blob ∧
      KeysFile.openWithKey Json.read crypto digest blob 7 = .ok kf ∧
      Json.get "seed_language" kf.settings = some (.string "@CAA:89 O7K:") ∧
      kf ≠ (created "русский язык").reopened (Vector.replicate 8 2) := by
  have hsize : (plaintextOf (createdMembers "русский язык")).length ≤ maxAccountData :=
    length_created (by decide)
  have hmembers := createdMembers_eq "русский язык"
  have hnames : (Json.Value.object (created "русский язык").saved).Each LatinNames := by
    refine Json.each_object.mpr ⟨fun x hx => (latin_newSettings _ x (mem_saved hx)).1, fun x hx => ?_⟩
    rcases (latin_newSettings _ x (mem_saved hx)).2 with heq | ⟨n, heq | heq⟩ <;> rw [heq] <;> exact trivial
  have hopened := openWithKey_cut faithfulReader_read (created_usable "русский язык") (Vector.replicate 8 1)
    hmembers hsize hnames (all_saved (fun _ h => .inl h) (forall_of_all (by decide)))
  have hbefore : Json.get "seed_language" (created "русский язык").saved = some (.string "русский язык") := by
    rw [KeysFile.get_saved_of_ne (by decide), settings_created, Json.get_ofList]
    simp [newSettings, Json.get_cons]
  have hafter : Json.get "seed_language" (cutMembers (created "русский язык").saved) =
      some (.string "@CAA:89 O7K:") := by
    rw [get_cutMembers, hbefore, Option.map_some, Json.Value.mapChars]
    rfl
  refine ⟨created_usable _, hsize, _, _, ?_, hopened, hafter, fun heq => ?_⟩
  · rw [KeysFile.toBlobWithKey, hmembers]
    rfl
  · have hsame := congrArg (fun kf => Json.get "seed_language" kf.settings) heq
    dsimp only [KeysFile.reopened] at hsame
    rw [hafter, hbefore] at hsame
    exact absurd (Json.Value.string.inj (Option.some.inj hsame)) (by decide)

end Sample

end Wownero

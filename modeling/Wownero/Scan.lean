import Wownero.TxExtra
/-!
# Scanning a transaction for the wallet's outputs

Whether an output was paid to one of the wallet's addresses, and what it holds.  The key of the
whole transaction is tried first and the output's own additional key second; the view tag rules
most candidates out before the lookup in the subaddress table, and only a hit has its amount
decoded and compared with its commitment.
-/

namespace Wownero

open Wownero.Archive

/-! ### The subaddress table -/

/-- Spend public key to index.  `filled` says how far each account has been expanded. -/
structure SubaddressTable where
  bySpendKey : List (PublicKey × SubaddressIndex) := []
  filled : List Nat := []
  deriving DecidableEq, Repr

/-- `SubaddressTable::get`.  A key filed twice is looked up where it was filed last. -/
def SubaddressTable.get (t : SubaddressTable) (spendKey : PublicKey) : Option SubaddressIndex :=
  t.bySpendKey.lookup spendKey

section Filling

variable (C : Crypto) (address : AccountPublicAddress) (viewSecret : SecretKey)

/-- One derived address put in the table. -/
def insertSubaddress (rows : List (PublicKey × SubaddressIndex)) (index : SubaddressIndex) :
    List (PublicKey × SubaddressIndex) :=
  match C.getSubaddress address viewSecret index with
  | some sub => (sub.spendPublicKey, index) :: rows
  | none => rows

/-- The rows of one account, from where it was filled to up to `minor`. -/
def fillAccount (minor : Nat) (rows : List (PublicKey × SubaddressIndex)) (account : Nat × Nat) :
    List (PublicKey × SubaddressIndex) :=
  (List.range' account.2 (minor - account.2)).foldl
    (fun rows n => insertSubaddress C address viewSecret rows ⟨.ofNat account.1, .ofNat n⟩) rows

/-- `SubaddressTable::extend`. -/
def SubaddressTable.extend (t : SubaddressTable) (major minor : Nat) : SubaddressTable :=
  let filled := t.filled ++ List.replicate (major - t.filled.length) 0
  let accounts := (List.range major).map fun m => (m, filled.getD m 0)
  { bySpendKey := accounts.foldl (fillAccount C address viewSecret minor) t.bySpendKey
    filled := filled.mapIdx fun m n => if m < major then max n minor else n }

/-- `SubaddressTable::new`. -/
def SubaddressTable.new (major minor : Nat) : SubaddressTable :=
  SubaddressTable.extend C address viewSecret {} major minor

/-- Every key the table files belongs to the subaddress it is filed under. -/
def SubaddressTable.Faithful (t : SubaddressTable) : Prop :=
  ∀ row ∈ t.bySpendKey, ∃ sub,
    C.getSubaddress address viewSecret row.2 = some sub ∧ sub.spendPublicKey = row.1

end Filling

/-! ### What a scan finds -/

/-- What the wallet learned about one output that belongs to it. -/
structure Received where
  outputIndex : Nat
  publicKey : PublicKey
  subaddress : SubaddressIndex
  amount : Nat
  mask : Bytes32
  keyImage : Option KeyImage
  derivation : KeyDerivation
  hadViewTag : Bool
  deriving DecidableEq, Repr

inductive ScanError where
  | noTxPublicKey
  | commitmentMismatch (index : Nat)
  | missingEcdhInfo (index : Nat)
  | missingOutPk (index : Nat)
  deriving DecidableEq, Repr

/-- The text of a `ScanError`. -/
def ScanError.text : ScanError → String
  | .noTxPublicKey => "the transaction has no public key in tx_extra"
  | .commitmentMismatch index =>
      s!"output {index} decoded to an amount its commitment does not match"
  | .missingEcdhInfo index => s!"output {index} has no matching ecdhInfo entry"
  | .missingOutPk index => s!"output {index} has no matching outPk entry"

/-- The keys scanning needs.  A view-only wallet has no spend key. -/
structure ScanKeys where
  address : AccountPublicAddress
  viewSecretKey : SecretKey
  spendSecretKey : Option SecretKey
  subaddresses : SubaddressTable
  deriving DecidableEq, Repr

/-- The key derivations scanning one transaction needs. -/
structure Derivations where
  main : Option KeyDerivation
  additional : List (Option KeyDerivation)
  deriving DecidableEq, Repr

/-- Whether the first input creates money. -/
def Transaction.isCoinbase (tx : Transaction) : Bool :=
  match tx.txPrefix.vin with
  | .gen _ :: _ => true
  | _ => false

variable (C : Crypto)

/-! ### The scan -/

/-- The derivations under these public keys. -/
def derivationsUnder (txPubKey : PublicKey) (additional : List PublicKey) (view : SecretKey) :
    Derivations :=
  ⟨C.generateKeyDerivation txPubKey view, additional.map fun k => C.generateKeyDerivation k view⟩

/-- `derivations_for`. -/
def derivationsFor (tx : Transaction) (view : SecretKey) : Option Derivations :=
  let extra := parseTxExtra tx.txPrefix.extra
  extra.txPubkey.map fun txPubKey => derivationsUnder C txPubKey extra.additionalPubkeys view

/-- The commitment `outPk` stands for: eight times it for type 8, and the entry itself for every
    other type. -/
def fullCommitment (ty : RctType) (outPk : EcPoint) : Option EcPoint :=
  if ty.isBpPlusLegacy then C.scalarmult8 outPk else some outPk

/-- The amount and the mask `ecdhInfo` hides, as the type lays it out. -/
def ecdhDecode (ty : RctType) (ecdh : EcdhInfo) (shared : EcScalar) : Option (Nat × Nat) :=
  if ty.hasShortEcdh then some (C.ecdhDecodeShort ecdh.amount shared)
  else C.ecdhDecodeLegacy ecdh.mask ecdh.amount shared

/-- `decode_amount`. -/
def decodeAmount (tx : Transaction) (index : Nat) (derivation : KeyDerivation)
    (clearAmount : Nat) : Except ScanError (Nat × Bytes32) :=
  let rct := tx.rctSignatures
  if tx.txPrefix.version < 2 ∨ rct.ty.isNull then .ok (clearAmount, 0)
  else
    match rct.ecdhInfo[index]?, rct.outPk[index]? with
    | none, _ => .error (.missingEcdhInfo index)
    | some _, none => .error (.missingOutPk index)
    | some ecdh, some outPk =>
        match ecdhDecode C rct.ty ecdh (C.derivationToScalar derivation index),
            fullCommitment C rct.ty outPk with
        | some (amount, mask), some commitment =>
            if C.commitmentMatches amount mask commitment then
              .ok (amount, Crypto.scalarBytes mask)
            else .error (.commitmentMismatch index)
        | _, _ => .error (.commitmentMismatch index)

/-- `output_key_image`. -/
def outputKeyImage (outKey : PublicKey) (derivation : KeyDerivation) (index : Nat)
    (subaddress : SubaddressIndex) (keys : ScanKeys) (spendSecretKey : SecretKey) :
    Option KeyImage :=
  let x := C.deriveSecretKey derivation index spendSecretKey
  let x := if subaddress.isMain then x
    else C.scAdd x (C.subaddressSecretKey keys.viewSecretKey subaddress)
  C.generateKeyImage outKey x

/-- Which of the wallet's addresses an output key belongs to under a derivation. -/
def ownedUnder (keys : ScanKeys) (index : Nat) (outKey : PublicKey) (viewTag : Option UInt8)
    (d : KeyDerivation) : Option SubaddressIndex :=
  if viewTag.any fun tag => C.deriveViewTag d index != tag then none
  else (C.deriveSubaddressPublicKey outKey d index).bind keys.subaddresses.get

/-- The loop over the candidate derivations of one output.  The first that finds an address
    decides, also when what it decodes is nothing. -/
def scanCandidates (tx : Transaction) (keys : ScanKeys) (index clearAmount : Nat)
    (outKey : PublicKey) (viewTag : Option UInt8) :
    List KeyDerivation → Except ScanError (Option Received)
  | [] => .ok none
  | d :: ds =>
      match ownedUnder C keys index outKey viewTag d with
      | none => scanCandidates tx keys index clearAmount outKey viewTag ds
      | some subaddress => do
          let (amount, mask) ← decodeAmount C tx index d clearAmount
          if amount = 0 then return none
          return some
            { outputIndex := index
              publicKey := outKey
              subaddress := subaddress
              amount := amount
              mask := mask
              keyImage := keys.spendSecretKey.bind fun s =>
                outputKeyImage C outKey d index subaddress keys s
              derivation := d
              hadViewTag := viewTag.isSome }

/-- The key and the view tag of an output a wallet can own. -/
def TxOutTarget.scannable : TxOutTarget → Option (PublicKey × Option UInt8)
  | .toKey key => some (key, none)
  | .toTaggedKey key viewTag => some (key, some viewTag)
  | _ => none

/-- One turn of the loop over the outputs. -/
def scanOutput (tx : Transaction) (keys : ScanKeys) (d : Derivations) (index : Nat)
    (out : TxOut) : Except ScanError (Option Received) :=
  match out.target.scannable with
  | none => .ok none
  | some (outKey, viewTag) =>
      scanCandidates C tx keys index out.amount outKey viewTag
        ([d.main, d.additional[index]?.join].filterMap id)

def scanOutputs (tx : Transaction) (keys : ScanKeys) (d : Derivations) :
    Nat → List TxOut → Except ScanError (List Received)
  | _, [] => .ok []
  | index, out :: outs => do
      let found ← scanOutput C tx keys d index out
      return found.toList ++ (← scanOutputs tx keys d (index + 1) outs)

/-- `scan_transaction_with`. -/
def scanTransactionWith (tx : Transaction) (keys : ScanKeys) (ready : Option Derivations) :
    Except ScanError (List Received) :=
  let extra := parseTxExtra tx.txPrefix.extra
  match extra.txPubkey with
  | none => .error .noTxPublicKey
  | some txPubKey =>
      let d := ready.getD (derivationsUnder C txPubKey extra.additionalPubkeys keys.viewSecretKey)
      scanOutputs C tx keys d 0 tx.txPrefix.vout

/-- `scan_transaction`. -/
def scanTransaction (tx : Transaction) (keys : ScanKeys) : Except ScanError (List Received) :=
  scanTransactionWith C tx keys none

/-- A nonce of nine bytes that starts with one holds an encrypted payment id. -/
def encryptedPaymentId : Blob → Option Hash8
  | 0x01 :: id => if h : id.length = 8 then some ⟨id.toArray, by simpa using h⟩ else none
  | _ => none

/-- `payment_id`. -/
def paymentId (tx : Transaction) (viewSecretKey : SecretKey) : Option Hash8 := do
  let extra := parseTxExtra tx.txPrefix.extra
  let encrypted ← encryptedPaymentId (← extra.firstNonce)
  let derivation ← C.generateKeyDerivation (← extra.txPubkey) viewSecretKey
  let id := C.encryptPaymentId encrypted derivation
  if id = Vector.replicate 8 0 then none else return id

/-- Derivations computed ahead of time change nothing about what a scan finds. -/
theorem scanTransactionWith_ready (tx : Transaction) (keys : ScanKeys) :
    scanTransactionWith C tx keys (derivationsFor C tx keys.viewSecretKey) =
      scanTransaction C tx keys := by
  unfold scanTransaction scanTransactionWith derivationsFor
  cases hkey : (parseTxExtra tx.txPrefix.extra).txPubkey with
  | none => simp only [hkey]
  | some txPubKey => simp only [hkey, Option.map_some, Option.getD_some, Option.getD_none]

end Wownero

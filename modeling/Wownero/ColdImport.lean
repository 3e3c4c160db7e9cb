import Wownero.Sample
import Wownero.Wallet
/-!
# Outputs handed to a cold wallet

A wallet that has never asked a node is told of its outputs by the other half, and derives their key
images.  The list is resized before an output is looked at, and the outputs are written over one by
one, each after a derivation of its own that may fail.  A failure keeps what was done before it, and
leaves the indexes as they were.
-/

namespace Wownero

/-! ### What is handed over -/

/-- `ExportedTransferDetails`. -/
structure ExportedTransferDetails where
  publicKey : PublicKey
  internalOutputIndex : Nat
  globalOutputIndex : Nat
  txPublicKey : PublicKey
  flags : UInt8
  amount : Nat
  additionalTxKeys : List PublicKey
  subaddress : SubaddressIndex
  deriving DecidableEq, Repr

/-- `ExportedOutputs`: outputs of the exporter from `offset` on, and how many it has. -/
structure ExportedOutputs where
  offset : Nat
  total : Nat
  outputs : List ExportedTransferDetails
  deriving DecidableEq, Repr

/-- `flags::SPENT`. -/
def flagSpent : UInt8 := 1

/-- `flags::FROZEN`. -/
def flagFrozen : UInt8 := 2

/-- `IDENTITY_MASK`. -/
def identityMask : Bytes32 := Bytes32.ofBytes (1 :: List.replicate 31 0)

/-- What an import can be refused for. -/
inductive OfflineError where
  | hotWallet
  | watchOnly
  | offsetTooLarge
  | offsetPastTotal
  | importOmitsOutputs
  | keyMismatch (index : Nat)
  deriving DecidableEq, Repr

def OfflineError.text : OfflineError → String
  | .hotWallet => "Hot wallets cannot import outputs"
  | .watchOnly => "wallet is watch-only and cannot export key images"
  | .offsetTooLarge => "Offset larger than known outputs"
  | .offsetPastTotal => "Offset is larger than total outputs"
  | .importOmitsOutputs =>
      "Imported outputs omit more outputs that we know of. Try using export_outputs all"
  | .keyMismatch index =>
      s!"key_image generated ephemeral public key not matched with output_key at index {index}; " ++
        "this wallet's keys do not match the outputs it holds"

/-- `Session`, as far as an import reads and writes it. -/
structure Session where
  account : AccountKeys
  watchOnly : Bool
  state : WalletState
  dirty : Bool
  deriving DecidableEq, Repr

/-- `is_view_only`. -/
def Session.isViewOnly (s : Session) : Bool := s.watchOnly || s.account.isViewOnly

/-- `usize::try_from` of a `u64`, where a word has 64 bits. -/
def toUsize (n : Nat) : Option Nat := if n ≤ u64Max then some n else none

section

variable (C : Crypto)

/-! ### One output -/

/-- `one_time_key_from`. -/
def oneTimeKeyFrom (account : AccountKeys) (derivation : KeyDerivation) (outputIndex : Nat)
    (subaddress : SubaddressIndex) : SecretKey :=
  let x := C.deriveSecretKey derivation outputIndex account.spendSecretKey
  if subaddress.isMain then x
  else C.scAdd x (C.subaddressSecretKey account.viewSecretKey subaddress)

/-- `derive_for_output`: the first of the two derivations that gives the public key. -/
def deriveForOutput (account : AccountKeys) (subaddress : SubaddressIndex) (publicKey : PublicKey)
    (txPublicKey : PublicKey) (additional : List PublicKey) (outputIndex : Nat) :
    Option (KeyDerivation × SecretKey) :=
  let candidates := [C.generateKeyDerivation txPublicKey account.viewSecretKey,
    ((toUsize outputIndex).bind fun i => additional[i]?).bind fun k =>
      C.generateKeyDerivation k account.viewSecretKey]
  (candidates.filterMap id).findSome? fun d =>
    let secret := oneTimeKeyFrom C account d outputIndex subaddress
    if C.secretKeyToPublicKey secret = some publicKey then some (d, secret) else none

/-- `blank_transfer`. -/
def blankTransfer : Transfer where
  blockHeight := 0
  txid := nullHash
  internalOutputIndex := 0
  globalOutputIndex := 0
  publicKey := 0
  derivation := 0
  txPublicKey := 0
  additionalTxKeys := []
  keyImage := none
  keyImageRequest := false
  mask := 0
  amount := 0
  subaddress := .main
  spent := false
  spentHeight := 0
  unlockTime := 0
  isCoinbase := false
  timestamp := 0
  paymentId := none
  frozen := false

/-- What is written for an output. -/
def ExportedTransferDetails.transfer (etd : ExportedTransferDetails) (derivation : KeyDerivation)
    (keyImage : KeyImage) : Transfer where
  blockHeight := 0
  txid := nullHash
  internalOutputIndex := etd.internalOutputIndex
  globalOutputIndex := etd.globalOutputIndex
  publicKey := etd.publicKey
  derivation := derivation
  txPublicKey := etd.txPublicKey
  additionalTxKeys := etd.additionalTxKeys
  keyImage := some keyImage
  keyImageRequest := true
  mask := identityMask
  amount := etd.amount
  subaddress := etd.subaddress
  spent := etd.flags &&& flagSpent != 0
  spentHeight := 0
  unlockTime := 0
  isCoinbase := false
  timestamp := 0
  paymentId := none
  frozen := etd.flags &&& flagFrozen != 0

/-- The output with its derivation and its key image, if the account's keys give its key. -/
def derivedTransfer (account : AccountKeys) (etd : ExportedTransferDetails) : Option Transfer := do
  let (derivation, secret) ← deriveForOutput C account etd.subaddress etd.publicKey etd.txPublicKey
    etd.additionalTxKeys etd.internalOutputIndex
  let keyImage ← C.generateKeyImage etd.publicKey secret
  return etd.transfer derivation keyImage

/-- Whether an output is held already. -/
def Transfer.holds (held : Transfer) (etd : ExportedTransferDetails) : Bool :=
  held.keyImage.isSome && held.internalOutputIndex == etd.internalOutputIndex &&
    held.publicKey == etd.publicKey

/-- Whether the output held at an index is the one described. -/
def heldAt (transfers : List Transfer) (i : Nat) (etd : ExportedTransferDetails) : Bool :=
  (transfers[i]?).any (·.holds etd)

/-! ### All of them -/

/-- The loop of `import_outputs`, from an index on. -/
def importFrom (account : AccountKeys) (originalSize : Nat) :
    Nat → List Transfer → List ExportedTransferDetails → Except OfflineError Unit × List Transfer
  | _, transfers, [] => (.ok (), transfers)
  | i, transfers, etd :: etds =>
      if i < originalSize ∧ heldAt transfers i etd = true then
        importFrom account originalSize (i + 1) transfers etds
      else
        match derivedTransfer C account etd with
        | none => (.error (.keyMismatch i), transfers)
        | some t => importFrom account originalSize (i + 1) (transfers.set i t) etds

/-- The list, made as long as the outputs need or cut to the exporter's total. -/
def resizeFor (transfers : List Transfer) (described total : Nat) : List Transfer :=
  if transfers.length < described then
    transfers ++ List.replicate (described - transfers.length) blankTransfer
  else if total < transfers.length then transfers.take total
  else transfers

/-- What is checked before anything is changed: where the outputs start, and how many there are. -/
def Session.checkImport (s : Session) (outputs : ExportedOutputs) :
    Except OfflineError (Nat × Nat) :=
  if s.state.everRefreshed then .error .hotWallet
  else if s.isViewOnly then .error .watchOnly
  else
    match toUsize outputs.offset, toUsize outputs.total with
    | none, _ => .error .offsetTooLarge
    | some _, none => .error .offsetPastTotal
    | some offset, some total =>
        if s.state.transfers.length < offset then .error .importOmitsOutputs
        else if total < offset + outputs.outputs.length then .error .offsetPastTotal
        else .ok (offset, total)

/-- The session with its list as the loop left it. -/
def Session.imported (s : Session) (transfers : List Transfer) : Session :=
  { s with state := { s.state with transfers := transfers }.reindex, dirty := true }

/-- `import_outputs`. -/
def Session.importOutputs (s : Session) (outputs : ExportedOutputs) :
    Except OfflineError Nat × Session :=
  match s.checkImport outputs with
  | .error e => (.error e, s)
  | .ok (offset, total) =>
      let resized := resizeFor s.state.transfers (offset + outputs.outputs.length) total
      match importFrom C s.account s.state.transfers.length offset resized outputs.outputs with
      | (.error e, transfers) =>
          (.error e, { s with state := { s.state with transfers := transfers } })
      | (.ok (), transfers) => (.ok transfers.length, s.imported transfers)

/-! ### What the loop writes -/

variable {C} {account : AccountKeys} {n : Nat}

/-- A key image of a public key. -/
def Crypto.IsKeyImage (C : Crypto) (pub : PublicKey) (keyImage : KeyImage) : Prop :=
  ∃ sec, C.secretKeyToPublicKey sec = some pub ∧ C.generateKeyImage pub sec = some keyImage

/-- An output that holds the key image of its key. -/
def Transfer.ImageRight (C : Crypto) (t : Transfer) : Prop :=
  ∃ k, t.keyImage = some k ∧ C.IsKeyImage t.publicKey k

theorem deriveForOutput_spec {subaddress : SubaddressIndex} {publicKey txPublicKey : PublicKey}
    {additional : List PublicKey} {outputIndex : Nat} {derivation : KeyDerivation}
    {secret : SecretKey}
    (h : deriveForOutput C account subaddress publicKey txPublicKey additional outputIndex =
      some (derivation, secret)) : C.secretKeyToPublicKey secret = some publicKey := by
  obtain ⟨d, _, hd⟩ := List.exists_of_findSome?_eq_some h
  simp only at hd
  split_ifs at hd with hkey
  cases hd
  exact hkey

theorem derivedTransfer_spec {etd : ExportedTransferDetails} {t : Transfer}
    (h : derivedTransfer C account etd = some t) :
    t.holds etd = true ∧ t.ImageRight C := by
  simp only [derivedTransfer, Option.bind_eq_bind, Option.bind_eq_some_iff, Option.pure_def,
    Option.some.injEq] at h
  obtain ⟨⟨derivation, secret⟩, hderive, keyImage, himage, rfl⟩ := h
  refine ⟨?_, keyImage, rfl, secret, deriveForOutput_spec hderive, himage⟩
  simp [Transfer.holds, ExportedTransferDetails.transfer]

theorem Transfer.holds_iff {t : Transfer} {etd : ExportedTransferDetails} :
    t.holds etd = true ↔ t.keyImage.isSome = true ∧
      t.internalOutputIndex = etd.internalOutputIndex ∧ t.publicKey = etd.publicKey := by
  rw [Transfer.holds, Bool.and_eq_true, Bool.and_eq_true, beq_iff_eq, beq_iff_eq, and_assoc]

theorem heldAt_iff {transfers : List Transfer} {i : Nat} {etd : ExportedTransferDetails} :
    heldAt transfers i etd = true ↔ ∃ t, transfers[i]? = some t ∧ t.holds etd = true := by
  rw [heldAt, Option.any_eq_true]

theorem heldAt_set {transfers : List Transfer} {i j : Nat} {t : Transfer}
    {etd : ExportedTransferDetails} (h : i ≠ j) :
    heldAt (transfers.set i t) j etd = heldAt transfers j etd := by
  rw [heldAt, heldAt, List.getElem?_set_ne h]

theorem importFrom_cons {i : Nat} {transfers : List Transfer} {etd : ExportedTransferDetails}
    {etds : List ExportedTransferDetails} :
    importFrom C account n i transfers (etd :: etds) =
      if i < n ∧ heldAt transfers i etd = true then
        importFrom C account n (i + 1) transfers etds
      else
        match derivedTransfer C account etd with
        | none => (.error (.keyMismatch i), transfers)
        | some t => importFrom C account n (i + 1) (transfers.set i t) etds := rfl

@[simp] theorem length_importFrom {i : Nat} {transfers : List Transfer}
    {etds : List ExportedTransferDetails} :
    (importFrom C account n i transfers etds).2.length = transfers.length := by
  induction etds generalizing i transfers with
  | nil => rfl
  | cons etd etds ih =>
      rw [importFrom_cons]
      split_ifs
      · exact ih
      · cases derivedTransfer C account etd with
        | none => rfl
        | some t => exact ih.trans List.length_set

/-- What comes before the outputs, and what comes after them, stays. -/
theorem importFrom_frame {i k : Nat} {transfers : List Transfer}
    {etds : List ExportedTransferDetails} (h : k < i ∨ i + etds.length ≤ k) :
    (importFrom C account n i transfers etds).2[k]? = transfers[k]? := by
  induction etds generalizing i transfers with
  | nil => rfl
  | cons etd etds ih =>
      rw [List.length_cons] at h
      have hrest : k < i + 1 ∨ i + 1 + etds.length ≤ k := by omega
      rw [importFrom_cons]
      split_ifs
      · exact ih hrest
      · cases derivedTransfer C account etd with
        | none => rfl
        | some t => exact (ih hrest).trans (List.getElem?_set_ne (by omega))

/-- It goes through exactly when every output is held or derived. -/
theorem importFrom_ok_iff {i : Nat} {transfers : List Transfer}
    {etds : List ExportedTransferDetails} :
    (importFrom C account n i transfers etds).1 = .ok () ↔
      ∀ j etd, etds[j]? = some etd → (i + j < n ∧ heldAt transfers (i + j) etd = true) ∨
        (derivedTransfer C account etd).isSome = true := by
  induction etds generalizing i transfers with
  | nil => exact iff_of_true rfl nofun
  | cons etd etds ih =>
      -- The head, and the others one index further on.
      have hsplit : (∀ j etd', (etd :: etds)[j]? = some etd' →
          (i + j < n ∧ heldAt transfers (i + j) etd' = true) ∨
            (derivedTransfer C account etd').isSome = true) ↔
          ((i < n ∧ heldAt transfers i etd = true) ∨
            (derivedTransfer C account etd).isSome = true) ∧
          ∀ j etd', etds[j]? = some etd' →
            (i + 1 + j < n ∧ heldAt transfers (i + 1 + j) etd' = true) ∨
              (derivedTransfer C account etd').isSome = true := by
        constructor
        · intro h
          refine ⟨h 0 etd rfl, fun j etd' hget => ?_⟩
          rw [Nat.add_assoc, Nat.add_comm 1 j]
          exact h (j + 1) etd' hget
        · rintro ⟨hhead, hrest⟩ j etd' hget
          cases j with
          | zero =>
              cases hget
              exact hhead
          | succ j =>
              rw [Nat.add_comm j 1, ← Nat.add_assoc]
              exact hrest j etd' hget
      rw [hsplit]
      rw [importFrom_cons]
      split_ifs with hheld
      · rw [ih]
        exact ⟨fun h => ⟨Or.inl hheld, h⟩, And.right⟩
      · cases hderive : derivedTransfer C account etd with
        | none =>
            refine iff_of_false nofun ?_
            rintro ⟨hknown | hsome, _⟩
            · exact hheld hknown
            · cases hsome
        | some t =>
            simp only [ih, Option.isSome_some, or_true, true_and]
            refine forall₃_congr fun j etd' _ => ?_
            rw [heldAt_set (by omega)]

/-- What is at the index of an output afterwards. -/
theorem importFrom_at {i j : Nat} {transfers : List Transfer}
    {etds : List ExportedTransferDetails} {etd : ExportedTransferDetails}
    (hok : (importFrom C account n i transfers etds).1 = .ok ()) (hget : etds[j]? = some etd)
    (hlen : i + j < transfers.length) :
    (importFrom C account n i transfers etds).2[i + j]? =
      if i + j < n ∧ heldAt transfers (i + j) etd = true then transfers[i + j]?
      else derivedTransfer C account etd := by
  induction etds generalizing i j transfers with
  | nil => cases hget
  | cons head etds ih =>
      cases j with
      | zero =>
          cases hget
          rw [Nat.add_zero] at hlen ⊢
          rw [importFrom_cons] at hok ⊢
          split_ifs with hheld
          · exact importFrom_frame (Or.inl (Nat.lt_succ_self i))
          · cases hderive : derivedTransfer C account etd with
            | none => simp [hheld, hderive] at hok
            | some t =>
                refine (importFrom_frame (Or.inl (Nat.lt_succ_self i))).trans ?_
                rw [List.getElem?_set_self hlen]
      | succ j =>
          have hindex : i + (j + 1) = i + 1 + j := by omega
          rw [hindex] at hlen ⊢
          rw [List.getElem?_cons_succ] at hget
          rw [importFrom_cons] at hok ⊢
          by_cases hheld : i < n ∧ heldAt transfers i head = true
          · rw [if_pos hheld] at hok ⊢
            exact ih hok hget hlen
          · rw [if_neg hheld] at hok ⊢
            cases hderive : derivedTransfer C account head with
            | none =>
                rw [hderive] at hok
                cases hok
            | some t =>
                rw [hderive] at hok
                simp only at hok ⊢
                rw [ih hok hget (by rwa [List.length_set]), heldAt_set (by omega),
                  List.getElem?_set_ne (by omega)]

/-- Where every output is held, nothing is written. -/
theorem importFrom_held {i : Nat} {transfers : List Transfer} {etds : List ExportedTransferDetails}
    (h : ∀ j etd, etds[j]? = some etd → i + j < n ∧ heldAt transfers (i + j) etd = true) :
    importFrom C account n i transfers etds = (.ok (), transfers) := by
  induction etds generalizing i with
  | nil => rfl
  | cons etd etds ih =>
      have hhead := h 0 etd rfl
      rw [Nat.add_zero] at hhead
      rw [importFrom_cons]
      rw [if_pos hhead]
      refine ih fun j etd' hget => ?_
      rw [Nat.add_assoc, Nat.add_comm 1 j]
      exact h (j + 1) etd' hget

/-- The first of the outputs that is not held. -/
def firstNew (transfers : List Transfer) : Nat → List ExportedTransferDetails →
    Option ExportedTransferDetails
  | _, [] => none
  | i, etd :: etds =>
      if heldAt transfers i etd = true then firstNew transfers (i + 1) etds else some etd

theorem firstNew_spec {transfers : List Transfer} {i : Nat} {etds : List ExportedTransferDetails}
    {etd : ExportedTransferDetails} (h : firstNew transfers i etds = some etd) :
    ∃ j, etds[j]? = some etd ∧ ¬ heldAt transfers (i + j) etd = true := by
  induction etds generalizing i with
  | nil => cases h
  | cons head etds ih =>
      unfold firstNew at h
      split_ifs at h with hheld
      · obtain ⟨j, hget, hnot⟩ := ih h
        refine ⟨j + 1, hget, ?_⟩
        rwa [Nat.add_comm j 1, ← Nat.add_assoc]
      · cases h
        exact ⟨0, rfl, hheld⟩

/-- A failure changed nothing exactly when it is the first new output that cannot be derived:
    whatever was written before it was not held. -/
theorem importFrom_failed_iff {i : Nat} {transfers : List Transfer}
    {etds : List ExportedTransferDetails} {e : OfflineError}
    (hfail : (importFrom C account n i transfers etds).1 = .error e)
    (hlen : i + etds.length ≤ transfers.length) (hsize : transfers.length ≤ n) :
    (importFrom C account n i transfers etds).2 = transfers ↔
      ∃ etd, firstNew transfers i etds = some etd ∧ derivedTransfer C account etd = none := by
  induction etds generalizing i with
  | nil => cases hfail
  | cons etd etds ih =>
      rw [List.length_cons] at hlen
      have hi : i < transfers.length := by omega
      rw [importFrom_cons] at hfail ⊢
      unfold firstNew
      by_cases hheld : heldAt transfers i etd = true
      · rw [if_pos ⟨Nat.lt_of_lt_of_le hi hsize, hheld⟩] at hfail ⊢
        rw [if_pos hheld]
        exact ih hfail (by omega)
      · rw [if_neg (fun h => hheld h.2)] at hfail ⊢
        rw [if_neg hheld]
        cases hderive : derivedTransfer C account etd with
        | none => exact iff_of_true rfl ⟨etd, rfl, hderive⟩
        | some t =>
            refine iff_of_false ?_ ?_
            · intro hsame
              have hat : (importFrom C account n (i + 1) (transfers.set i t) etds).2[i]? =
                  some t := (importFrom_frame (Or.inl (Nat.lt_succ_self i))).trans
                    (List.getElem?_set_self hi)
              simp only at hsame
              rw [hsame] at hat
              exact hheld (heldAt_iff.mpr ⟨t, hat, (derivedTransfer_spec hderive).1⟩)
            · rintro ⟨etd', heq, hnone⟩
              cases heq
              rw [hderive] at hnone
              cases hnone

/-! ### The list, resized -/

theorem getElem?_resizeFor {transfers : List Transfer} {described total i : Nat}
    (htotal : described ≤ total) (hi : i < transfers.length) (hdescribed : i < described) :
    (resizeFor transfers described total)[i]? = transfers[i]? := by
  unfold resizeFor
  split_ifs
  · exact List.getElem?_append_left hi
  · exact List.getElem?_take_of_lt (Nat.lt_of_lt_of_le hdescribed htotal)
  · rfl

theorem le_length_resizeFor {transfers : List Transfer} {described total : Nat}
    (htotal : described ≤ total) : described ≤ (resizeFor transfers described total).length := by
  unfold resizeFor
  split_ifs
  · rw [List.length_append, List.length_replicate]
    omega
  · rw [List.length_take]
    omega
  · omega

theorem length_resizeFor_eq_iff {transfers : List Transfer} {described total : Nat} :
    (resizeFor transfers described total).length = transfers.length ↔
      described ≤ transfers.length ∧ transfers.length ≤ total := by
  unfold resizeFor
  split_ifs
  · rw [List.length_append, List.length_replicate]
    omega
  · rw [List.length_take]
    omega
  · omega

theorem length_resizeFor_le {transfers : List Transfer} {described total : Nat}
    (htotal : described ≤ total) : (resizeFor transfers described total).length ≤ total := by
  unfold resizeFor
  split_ifs
  · rw [List.length_append, List.length_replicate]
    omega
  · rw [List.length_take]
    omega
  · omega

/-- The outputs that are held are held in the resized list. -/
theorem held_resizeFor {transfers : List Transfer} {described total i : Nat}
    {etd : ExportedTransferDetails} (htotal : described ≤ total) (hdescribed : i < described) :
    (i < transfers.length ∧ heldAt (resizeFor transfers described total) i etd = true) ↔
      heldAt transfers i etd = true := by
  constructor
  · rintro ⟨hi, hheld⟩
    rwa [heldAt, getElem?_resizeFor htotal hi hdescribed] at hheld
  · intro hheld
    obtain ⟨t, ht, _⟩ := heldAt_iff.mp hheld
    have hi := (List.getElem?_eq_some_iff.mp ht).1
    refine ⟨hi, ?_⟩
    rwa [heldAt, getElem?_resizeFor htotal hi hdescribed]

theorem resizeFor_of_fits {transfers : List Transfer} {described total : Nat}
    (hdescribed : described ≤ transfers.length) (htotal : transfers.length ≤ total) :
    resizeFor transfers described total = transfers := by
  rw [resizeFor, if_neg (Nat.not_lt.mpr hdescribed), if_neg (Nat.not_lt.mpr htotal)]

/-! ### The import as a whole -/

theorem checkImport_eq_ok {s : Session} {outputs : ExportedOutputs} {offset total : Nat} :
    s.checkImport outputs = .ok (offset, total) ↔
      (s.state.everRefreshed = false ∧ s.isViewOnly = false ∧ outputs.offset ≤ u64Max ∧
        outputs.total ≤ u64Max ∧ outputs.offset ≤ s.state.transfers.length ∧
        outputs.offset + outputs.outputs.length ≤ outputs.total) ∧
      offset = outputs.offset ∧ total = outputs.total := by
  unfold Session.checkImport toUsize
  split_ifs with hhot hview hoffset htotal
  · exact iff_of_false nofun fun h => Bool.noConfusion (h.1.1.symm.trans hhot)
  · exact iff_of_false nofun fun h => Bool.noConfusion (h.1.2.1.symm.trans hview)
  · simp only
    split_ifs with hknown hpast
    · exact iff_of_false nofun fun h => Nat.not_le.mpr hknown h.1.2.2.2.2.1
    · exact iff_of_false nofun fun h => Nat.not_le.mpr hpast h.1.2.2.2.2.2
    · constructor
      · rintro ⟨⟩
        exact ⟨⟨by simpa using hhot, by simpa using hview, hoffset, htotal,
          Nat.not_lt.mp hknown, Nat.not_lt.mp hpast⟩, rfl, rfl⟩
      · rintro ⟨_, rfl, rfl⟩
        rfl
  · exact iff_of_false nofun fun h => htotal h.1.2.2.2.1
  · exact iff_of_false nofun fun h => hoffset h.1.2.2.1

/-- What an import is to be: refused, it changes nothing; accepted, every output is at its index
    with the key image of its key, what comes before them stays, and a second time changes
    nothing. -/
def Session.ImportsCleanly (C : Crypto) (s : Session) (outputs : ExportedOutputs) : Prop :=
  match s.importOutputs C outputs with
  | (.error _, s') => s'.state.transfers = s.state.transfers ∧
      s'.state.byKeyImage = s.state.byKeyImage ∧ s'.state.byPublicKey = s.state.byPublicKey
  | (.ok size, s') =>
      (∀ j etd, outputs.outputs[j]? = some etd → ∃ t,
        s'.state.transfers[outputs.offset + j]? = some t ∧ t.publicKey = etd.publicKey ∧
          t.internalOutputIndex = etd.internalOutputIndex ∧ t.ImageRight C) ∧
      (∀ i < outputs.offset, s'.state.transfers[i]? = s.state.transfers[i]?) ∧
      s'.importOutputs C outputs = (.ok size, s')

/-- A refusal that left another list behind. -/
theorem not_importsCleanly {s : Session} {outputs : ExportedOutputs} {e : OfflineError}
    (herror : (s.importOutputs C outputs).1 = .error e)
    (hkept : (s.importOutputs C outputs).2.state.transfers ≠ s.state.transfers) :
    ¬ s.ImportsCleanly C outputs := by
  intro hclean
  unfold Session.ImportsCleanly at hclean
  cases hrun : s.importOutputs C outputs with
  | mk result s' =>
      rw [hrun] at herror hkept hclean
      simp only at herror
      subst herror
      exact hkept hclean.1

/-- When it is: nothing is begun; or every output is held with its key image or else can be
    derived; or the list keeps its size and the first output not held cannot be derived. -/
def Session.ImportSafe (C : Crypto) (s : Session) (outputs : ExportedOutputs) : Prop :=
  (s.checkImport outputs).isOk = false ∨
  (∀ j etd, outputs.outputs[j]? = some etd →
    (∃ t, s.state.transfers[outputs.offset + j]? = some t ∧ t.holds etd = true ∧
      t.ImageRight C) ∨
    (heldAt s.state.transfers (outputs.offset + j) etd = false ∧
      (derivedTransfer C s.account etd).isSome = true)) ∨
  (outputs.offset + outputs.outputs.length ≤ s.state.transfers.length ∧
    s.state.transfers.length ≤ outputs.total ∧
    ∃ etd, firstNew s.state.transfers outputs.offset outputs.outputs = some etd ∧
      derivedTransfer C s.account etd = none)

section

variable {s s' : Session} {outputs : ExportedOutputs}

/-- The list an import starts from. -/
def Session.resized (s : Session) (outputs : ExportedOutputs) : List Transfer :=
  resizeFor s.state.transfers (outputs.offset + outputs.outputs.length) outputs.total

/-- What the loop of an import does to it. -/
def Session.loop (C : Crypto) (s : Session) (outputs : ExportedOutputs) :
    Except OfflineError Unit × List Transfer :=
  importFrom C s.account s.state.transfers.length outputs.offset (s.resized outputs) outputs.outputs

theorem importOutputs_eq (hcheck : s.checkImport outputs = .ok (outputs.offset, outputs.total)) :
    s.importOutputs C outputs =
      match s.loop C outputs with
      | (.error e, transfers) =>
          (.error e, { s with state := { s.state with transfers := transfers } })
      | (.ok (), transfers) => (.ok transfers.length, s.imported transfers) := by
  rw [Session.importOutputs, hcheck]
  rfl

theorem past_of_checkImport
    (hcheck : s.checkImport outputs = .ok (outputs.offset, outputs.total)) :
    outputs.offset + outputs.outputs.length ≤ outputs.total :=
  (checkImport_eq_ok.mp hcheck).1.2.2.2.2.2

theorem held_resized (hcheck : s.checkImport outputs = .ok (outputs.offset, outputs.total))
    {j : Nat} {etd : ExportedTransferDetails} (hget : outputs.outputs[j]? = some etd) :
    (outputs.offset + j < s.state.transfers.length ∧
        heldAt (s.resized outputs) (outputs.offset + j) etd = true) ↔
      heldAt s.state.transfers (outputs.offset + j) etd = true := by
  have hpast := past_of_checkImport hcheck
  have hj := (List.getElem?_eq_some_iff.mp hget).1
  exact held_resizeFor hpast (by omega)

/-- What is at the index of an output after the loop. -/
theorem loop_at (hcheck : s.checkImport outputs = .ok (outputs.offset, outputs.total))
    (hok : (s.loop C outputs).1 = .ok ()) {j : Nat} {etd : ExportedTransferDetails}
    (hget : outputs.outputs[j]? = some etd) :
    ∃ t, (s.loop C outputs).2[outputs.offset + j]? = some t ∧ t.holds etd = true ∧
      (s.state.transfers[outputs.offset + j]? = some t ∨
        (heldAt s.state.transfers (outputs.offset + j) etd = false ∧
          derivedTransfer C s.account etd = some t)) := by
  have hpast := past_of_checkImport hcheck
  have hj := (List.getElem?_eq_some_iff.mp hget).1
  have hlen : outputs.offset + j < (s.resized outputs).length :=
    Nat.lt_of_lt_of_le (by omega) (le_length_resizeFor hpast)
  have hat := importFrom_at hok hget hlen
  rw [Session.loop, hat]
  by_cases hheld : heldAt s.state.transfers (outputs.offset + j) etd = true
  · rw [if_pos ((held_resized hcheck hget).mpr hheld)]
    obtain ⟨t, ht, hholds⟩ := heldAt_iff.mp hheld
    have hi := (List.getElem?_eq_some_iff.mp ht).1
    exact ⟨t, (getElem?_resizeFor hpast hi (by omega)).trans ht, hholds, Or.inl ht⟩
  · rw [if_neg (mt (held_resized hcheck hget).mp hheld)]
    rcases importFrom_ok_iff.mp hok j etd hget with hknown | hsome
    · exact absurd ((held_resized hcheck hget).mp hknown) hheld
    · obtain ⟨t, ht⟩ := Option.isSome_iff_exists.mp hsome
      exact ⟨t, ht, (derivedTransfer_spec ht).1, Or.inr ⟨by simpa using hheld, ht⟩⟩

/-- Imported once more, the same outputs change nothing. -/
theorem importOutputs_again {size : Nat} (h : s.importOutputs C outputs = (.ok size, s')) :
    s'.importOutputs C outputs = (.ok size, s') := by
  cases hcheck : s.checkImport outputs with
  | error e =>
      rw [Session.importOutputs, hcheck] at h
      cases h
  | ok places =>
      obtain ⟨offset, total⟩ := places
      obtain ⟨hdoor, rfl, rfl⟩ := checkImport_eq_ok.mp hcheck
      obtain ⟨hhot, hview, hoffset, htotal, hknown, hpast⟩ := hdoor
      rw [importOutputs_eq hcheck] at h
      cases hloop : s.loop C outputs with
      | mk result transfers =>
          rw [hloop] at h
          cases result with
          | error e => cases h
          | ok u =>
              cases h
              have hlength : transfers.length = (s.resized outputs).length := by
                rw [← @length_importFrom C s.account s.state.transfers.length outputs.offset
                  (s.resized outputs) outputs.outputs]
                exact congrArg (fun r => r.2.length) hloop.symm
              have hle := @le_length_resizeFor s.state.transfers _ _ hpast
              have hge := @length_resizeFor_le s.state.transfers _ _ hpast
              rw [← Session.resized, ← hlength] at hle hge
              have hcheck' : (s.imported transfers).checkImport outputs =
                  .ok (outputs.offset, outputs.total) := by
                refine checkImport_eq_ok.mpr
                  ⟨⟨hhot, hview, hoffset, htotal, Nat.le_trans ?_ hle, hpast⟩, rfl, rfl⟩
                exact Nat.le_add_right _ _
              have hloop' : (s.imported transfers).loop C outputs = (.ok (), transfers) := by
                have hresized : (s.imported transfers).resized outputs = transfers :=
                  resizeFor_of_fits hle hge
                rw [Session.loop, hresized]
                refine importFrom_held fun j etd hget => ?_
                obtain ⟨t, ht, hholds, _⟩ := loop_at hcheck (congrArg Prod.fst hloop) hget
                rw [hloop] at ht
                exact ⟨(List.getElem?_eq_some_iff.mp ht).1, heldAt_iff.mpr ⟨t, ht, hholds⟩⟩
              rw [importOutputs_eq hcheck', hloop']
              rfl

/-- **A failed import changes nothing**, and one that succeeds does what it says, exactly when it is
    safe. -/
theorem import_outputs_iff (C : Crypto) (s : Session) (outputs : ExportedOutputs) :
    s.ImportsCleanly C outputs ↔ s.ImportSafe C outputs := by
  unfold Session.ImportsCleanly Session.ImportSafe
  cases hcheck : s.checkImport outputs with
  | error e =>
      have himport : s.importOutputs C outputs = (.error e, s) := by
        rw [Session.importOutputs, hcheck]
      rw [himport]
      exact iff_of_true ⟨rfl, rfl, rfl⟩ (Or.inl rfl)
  | ok places =>
      obtain ⟨offset, total⟩ := places
      obtain ⟨hdoor, rfl, rfl⟩ := checkImport_eq_ok.mp hcheck
      have hknown := hdoor.2.2.2.2.1
      have hpast := hdoor.2.2.2.2.2
      have hbegun : ¬ (Except.ok (outputs.offset, outputs.total) :
          Except OfflineError (Nat × Nat)).isOk = false := nofun
      rw [or_iff_right hbegun]
      cases hloop : s.loop C outputs with
      | mk result transfers =>
          have himport := @importOutputs_eq C s outputs hcheck
          rw [hloop] at himport
          cases result with
          | error e =>
              rw [himport]
              -- An output that is not held could not be derived.
              have hstuck : ¬ ∀ j etd, outputs.outputs[j]? = some etd →
                  (∃ t, s.state.transfers[outputs.offset + j]? = some t ∧ t.holds etd = true ∧
                    t.ImageRight C) ∨
                  (heldAt s.state.transfers (outputs.offset + j) etd = false ∧
                    (derivedTransfer C s.account etd).isSome = true) := by
                intro hall
                have hok : (s.loop C outputs).1 = .ok () := by
                  refine importFrom_ok_iff.mpr fun j etd hget => ?_
                  rcases hall j etd hget with ⟨t, ht, hholds, _⟩ | ⟨_, hsome⟩
                  · exact Or.inl ((held_resized hcheck hget).mpr (heldAt_iff.mpr ⟨t, ht, hholds⟩))
                  · exact Or.inr hsome
                rw [hloop] at hok
                cases hok
              rw [or_iff_right hstuck]
              have hsize := congrArg (fun r => r.2.length) hloop
              simp only [Session.loop, length_importFrom] at hsize
              constructor
              · rintro ⟨hsame, _⟩
                simp only at hsame
                rw [hsame] at hsize hloop
                obtain ⟨hdescribed, htotal⟩ := length_resizeFor_eq_iff.mp hsize
                have hresized : s.resized outputs = s.state.transfers :=
                  resizeFor_of_fits hdescribed htotal
                rw [Session.loop, hresized] at hloop
                exact ⟨hdescribed, htotal, (importFrom_failed_iff (congrArg Prod.fst hloop)
                  hdescribed (Nat.le_refl _)).mp (congrArg Prod.snd hloop)⟩
              · rintro ⟨hdescribed, htotal, hfirst⟩
                have hresized : s.resized outputs = s.state.transfers :=
                  resizeFor_of_fits hdescribed htotal
                rw [Session.loop, hresized] at hloop
                refine ⟨?_, rfl, rfl⟩
                have hsame := (importFrom_failed_iff (congrArg Prod.fst hloop) hdescribed
                  (Nat.le_refl _)).mpr hfirst
                rw [hloop] at hsame
                exact hsame
          | ok u =>
              have hagain := importOutputs_again himport
              simp only at himport hagain
              rw [himport]
              have hat := fun {j : Nat} {etd : ExportedTransferDetails}
                (hget : outputs.outputs[j]? = some etd) =>
                  loop_at hcheck (congrArg Prod.fst hloop) hget
              rw [hloop] at hat
              have hbelow : ∀ i < outputs.offset, transfers[i]? = s.state.transfers[i]? := by
                intro i hi
                have hframe := @importFrom_frame C s.account s.state.transfers.length
                  outputs.offset i (s.resized outputs) outputs.outputs (Or.inl hi)
                rw [← Session.loop, hloop] at hframe
                exact hframe.trans (getElem?_resizeFor hpast (by omega) (by omega))
              -- Nothing that was not held was left underived.
              have hgone : ¬ (outputs.offset + outputs.outputs.length ≤ s.state.transfers.length ∧
                  s.state.transfers.length ≤ outputs.total ∧ ∃ etd,
                    firstNew s.state.transfers outputs.offset outputs.outputs = some etd ∧
                      derivedTransfer C s.account etd = none) := by
                rintro ⟨_, _, etd, hfirst, hnone⟩
                obtain ⟨j, hget, hnot⟩ := firstNew_spec hfirst
                obtain ⟨t, _, hholds, hwas | ⟨_, hderived⟩⟩ := hat hget
                · exact hnot (heldAt_iff.mpr ⟨t, hwas, hholds⟩)
                · rw [hnone] at hderived
                  cases hderived
              rw [or_iff_left hgone]
              constructor
              · rintro ⟨hright, _⟩ j etd hget
                obtain ⟨t, ht, hholds, hwas | ⟨hnot, hderived⟩⟩ := hat hget
                · obtain ⟨t', ht', _, _, himage⟩ := hright j etd hget
                  cases ht.symm.trans ht'
                  exact Or.inl ⟨t, hwas, hholds, himage⟩
                · exact Or.inr ⟨hnot, Option.isSome_iff_exists.mpr ⟨t, hderived⟩⟩
              · intro hall
                refine ⟨fun j etd hget => ?_, hbelow, hagain⟩
                obtain ⟨t, ht, hholds, hcase⟩ := hat hget
                obtain ⟨_, hindex, hkey⟩ := Transfer.holds_iff.mp hholds
                refine ⟨t, ht, hkey, hindex, ?_⟩
                rcases hcase with hwas | ⟨_, hderived⟩
                · rcases hall j etd hget with ⟨t', ht', _, himage⟩ | ⟨hnot, _⟩
                  · cases hwas.symm.trans ht'
                    exact himage
                  · rw [← Bool.not_eq_true] at hnot
                    exact absurd (heldAt_iff.mpr ⟨t, hwas, hholds⟩) hnot
                · exact (derivedTransfer_spec hderived).2

end

end

namespace Sample

/-- A cold wallet that holds nothing yet. -/
def coldWallet : Session where
  account := ⟨⟨10, 5⟩, Crypto.scalarBytes 2, Crypto.scalarBytes 1⟩
  watchOnly := false
  state := WalletState.new ⟨⟨10, 5⟩, Crypto.scalarBytes 2, Crypto.scalarBytes 1⟩ ⟨[], []⟩ 0
    nullHash none
  dirty := false

/-- One output, of another wallet. -/
def foreignOutputs : ExportedOutputs := ⟨0, 1, [⟨24, 0, 0, 8, 0, 1000, [], .main⟩]⟩

/-- The output is refused, and a blank one stays in its place. -/
theorem foreign_import_kept : ¬ coldWallet.ImportsCleanly crypto foreignOutputs := by
  refine @not_importsCleanly crypto coldWallet foreignOutputs (.keyMismatch 0) ?_ ?_
  · decide +kernel
  · have hkept : (coldWallet.importOutputs crypto foreignOutputs).2.state.transfers =
        [blankTransfer] := by decide +kernel
    rw [hkept]
    exact List.cons_ne_nil _ _

end Sample

end Wownero

import Mathlib.Data.List.Find
import Wownero.Replay
/-!
# One output at a time

What a scan makes of an output is decided by what the output itself shows: its place, its target and
amount, its own entries of the RingCT data, and the keys its sender wrote for it.  The loop over the
outputs, however, ends at the first output that is the wallet's by its key and does not decode, and
the refresh reads such an end as a transaction that pays the wallet nothing.
-/

namespace Wownero

open Wownero.Archive Outcome

/-! ### What an output shows -/

/-- What a scan reads of one output.  The version and the RingCT type say how its entries are laid
    out. -/
structure OwnData where
  index : Nat
  out : TxOut
  version : Nat
  ty : RctType
  ecdh : Option EcdhInfo
  outPk : Option EcPoint
  txPubKey : Option PublicKey
  additional : Option PublicKey
  deriving DecidableEq

/-- The own data of the output at this place. -/
def Transaction.ownData (tx : Transaction) (i : Nat) : Option OwnData :=
  let extra := parseTxExtra tx.txPrefix.extra
  tx.txPrefix.vout[i]?.map fun out =>
    { index := i
      out := out
      version := tx.txPrefix.version
      ty := tx.rctSignatures.ty
      ecdh := tx.rctSignatures.ecdhInfo[i]?
      outPk := tx.rctSignatures.outPk[i]?
      txPubKey := extra.txPubkey
      additional := extra.additionalPubkeys[i]? }

/-- The one-time key of the output at this place. -/
def Transaction.outputKey (tx : Transaction) (i : Nat) : Option PublicKey :=
  (tx.txPrefix.vout[i]?.bind (·.target.scannable)).map (·.1)

variable (C : Crypto)

/-- What the turn of the loop for this output finds, whatever the other turns do. -/
def scanAlone (tx : Transaction) (keys : ScanKeys) (i : Nat) : Option Received :=
  tx.txPrefix.vout[i]?.bind fun out =>
    (derivationsFor C tx keys.viewSecretKey).bind fun d => (scanOutput C tx keys d i out).toOption.join

/-- What a refresh takes the transaction to have paid at this place. -/
def foundAt (tx : Transaction) (keys : ScanKeys) (i : Nat) : Option Received :=
  (WalletState.foundIn C keys tx).find? (·.outputIndex == i)

/-- The derivation under which the key of an output is the wallet's. -/
def claimedUnder (keys : ScanKeys) (d : Derivations) (i : Nat) (out : TxOut) : Option KeyDerivation :=
  out.target.scannable.bind fun (outKey, viewTag) =>
    ([d.main, d.additional[i]?.join].filterMap id).find? fun k =>
      (ownedUnder C keys i outKey viewTag k).isSome

/-- Every output whose key is the wallet's decodes to what it commits to. -/
def Decodes (tx : Transaction) (keys : ScanKeys) : Prop :=
  ∀ d, derivationsFor C tx keys.viewSecretKey = some d → ∀ (j : Nat) out, tx.txPrefix.vout[j]? = some out →
    ∀ k, claimedUnder C keys d j out = some k → ∃ read, decodeAmount C tx j k out.amount = .ok read

variable {C : Crypto}

/-! ### An output and its own data -/

/-- Amounts are decoded from an output's own entries. -/
theorem decodeAmount_own {tx tx' : Transaction} {i : Nat} {out : TxOut}
    (hout : tx.txPrefix.vout[i]? = some out) (h : tx.ownData i = tx'.ownData i) (k : KeyDerivation)
    (amount : Nat) : decodeAmount C tx i k amount = decodeAmount C tx' i k amount := by
  unfold Transaction.ownData at h
  simp only [hout, Option.map_some] at h
  rcases Option.map_eq_some_iff.mp h.symm with ⟨out', -, hdata⟩
  simp only [OwnData.mk.injEq] at hdata
  rcases hdata with ⟨-, -, hversion, hty, hecdh, houtPk, -, -⟩
  simp only [decodeAmount, hversion, hty, hecdh, houtPk]

theorem scanCandidates_own {tx tx' : Transaction} {keys : ScanKeys} {i : Nat} {out : TxOut}
    (hout : tx.txPrefix.vout[i]? = some out) (h : tx.ownData i = tx'.ownData i) (amount : Nat)
    (outKey : PublicKey) (tag : Option UInt8) (ds : List KeyDerivation) :
    scanCandidates C tx keys i amount outKey tag ds = scanCandidates C tx' keys i amount outKey tag ds := by
  induction ds with
  | nil => rfl
  | cons d ds ih =>
      simp only [scanCandidates, ih, decodeAmount_own hout h]

/-- **What the turn for an output finds is decided by its own data.** -/
theorem scanAlone_own {tx tx' : Transaction} {i : Nat} (h : tx.ownData i = tx'.ownData i)
    (keys : ScanKeys) : scanAlone C tx keys i = scanAlone C tx' keys i := by
  cases hout : tx.txPrefix.vout[i]? with
  | none =>
      have hout' : tx'.txPrefix.vout[i]? = none := by
        simpa [Transaction.ownData, hout, eq_comm] using h
      simp [scanAlone, hout, hout']
  | some out =>
      have hdata := h
      unfold Transaction.ownData at hdata
      simp only [hout, Option.map_some] at hdata
      rcases Option.map_eq_some_iff.mp hdata.symm with ⟨out', hout', hdata⟩
      simp only [OwnData.mk.injEq] at hdata
      rcases hdata with ⟨-, rfl, -, -, -, -, htxPub, hadditional⟩
      have hturn (d d' : Derivations) (hmain : d.main = d'.main)
          (hadd : d.additional[i]?.join = d'.additional[i]?.join) :
          scanOutput C tx keys d i out' = scanOutput C tx' keys d' i out' := by
        simp only [scanOutput, hmain, hadd, scanCandidates_own hout h]
      simp only [scanAlone, hout, hout', Option.bind_some, derivationsFor, htxPub]
      cases (parseTxExtra tx.txPrefix.extra).txPubkey with
      | none => rfl
      | some txPubKey =>
          simp only [Option.map_some, Option.bind_some]
          congr 2
          apply hturn
          · rfl
          · simp only [derivationsUnder, List.getElem?_map, hadditional]

theorem outputKey_own {tx tx' : Transaction} {i : Nat} (h : tx.ownData i = tx'.ownData i) :
    tx.outputKey i = tx'.outputKey i := by
  have hout := congrArg (Option.map OwnData.out) h
  simp only [Transaction.ownData, Option.map_map, Function.comp_def, Option.map_id'] at hout
  simp only [Transaction.outputKey, hout]

/-! ### The loop -/

theorem scanCandidates_ok_iff (tx : Transaction) (keys : ScanKeys) (i amount : Nat)
    (outKey : PublicKey) (tag : Option UInt8) (ds : List KeyDerivation) :
    (∃ found, scanCandidates C tx keys i amount outKey tag ds = .ok found) ↔
      ∀ k, (ds.find? fun k => (ownedUnder C keys i outKey tag k).isSome) = some k →
        ∃ read, decodeAmount C tx i k amount = .ok read := by
  induction ds with
  | nil => simp [scanCandidates]
  | cons d ds ih =>
      rw [scanCandidates]
      cases howned : ownedUnder C keys i outKey tag d with
      | none => simpa [List.find?_cons, howned] using ih
      | some sub =>
          cases hdecode : decodeAmount C tx i d amount with
          | error e =>
              simp only [List.find?_cons, howned, Option.isSome_some, Option.some.injEq, forall_eq', hdecode]
              constructor
              · rintro ⟨found, h⟩
                rcases bind_eq_ok.mp h with ⟨_, h, -⟩
                cases h
              · rintro ⟨_, h⟩
                cases h
          | ok read =>
              simp only [List.find?_cons, howned, Option.isSome_some, Option.some.injEq, forall_eq', hdecode]
              refine ⟨fun _ => ⟨read, rfl⟩, fun _ => ?_⟩
              by_cases hzero : read.1 = 0
              · exact ⟨none, by simp [bind, Except.bind, hzero, pure, Except.pure]⟩
              · exact ⟨_, by simp [bind, Except.bind, hzero, pure, Except.pure]; rfl⟩

/-- A turn of the loop ends well unless the output is the wallet's and does not decode. -/
theorem scanOutput_ok_iff (tx : Transaction) (keys : ScanKeys) (d : Derivations) (i : Nat) (out : TxOut) :
    (∃ found, scanOutput C tx keys d i out = .ok found) ↔
      ∀ k, claimedUnder C keys d i out = some k → ∃ read, decodeAmount C tx i k out.amount = .ok read := by
  unfold scanOutput claimedUnder
  cases out.target.scannable with
  | none => simp
  | some target => exact scanCandidates_ok_iff ..

theorem scanOutput_index {tx : Transaction} {keys : ScanKeys} {d : Derivations} {i : Nat} {out : TxOut}
    {r : Received} (h : scanOutput C tx keys d i out = .ok (some r)) :
    r.outputIndex = i ∧ out.target.scannable.map (·.1) = some r.publicKey := by
  unfold scanOutput at h
  cases hscan : out.target.scannable with
  | none => simp [hscan] at h
  | some target =>
      simp only [hscan] at h
      rcases scanCandidates_found h with ⟨hindex, hkey, -⟩
      exact ⟨hindex, by simp [hkey]⟩

/-- The loop ends well when every turn does. -/
theorem scanOutputs_ok_iff (tx : Transaction) (keys : ScanKeys) (d : Derivations) (start : Nat)
    (outs : List TxOut) :
    (∃ found, scanOutputs C tx keys d start outs = .ok found) ↔
      ∀ (j : Nat) out, outs[j]? = some out → ∃ found, scanOutput C tx keys d (start + j) out = .ok found := by
  induction outs generalizing start with
  | nil => simp [scanOutputs]
  | cons out outs ih =>
      have hlater : (∀ (j : Nat) out', (out :: outs)[j]? = some out' →
            ∃ found, scanOutput C tx keys d (start + j) out' = .ok found) ↔
          (∃ found, scanOutput C tx keys d start out = .ok found) ∧
            ∀ (j : Nat) out', outs[j]? = some out' →
              ∃ found, scanOutput C tx keys d (start + 1 + j) out' = .ok found := by
        constructor
        · intro h
          refine ⟨h 0 out rfl, ?_⟩
          intro j out' hout
          have := h (j + 1) out' hout
          rwa [show start + (j + 1) = start + 1 + j by omega] at this
        · rintro ⟨hfirst, hrest⟩ j out' hout
          cases j with
          | zero =>
              cases hout
              exact hfirst
          | succ j =>
              rw [show start + (j + 1) = start + 1 + j by omega]
              exact hrest j out' hout
      rw [hlater, ← ih (start + 1)]
      simp only [scanOutputs, bind_eq_ok, pure_eq_ok]
      constructor
      · rintro ⟨_, one, hone, rest, hrest, -⟩
        exact ⟨⟨one, hone⟩, rest, hrest⟩
      · rintro ⟨⟨one, hone⟩, rest, hrest⟩
        exact ⟨_, one, hone, rest, hrest, rfl⟩

/-- What the loop has found at one place is what the turn for that place found. -/
theorem find_scanOutputs {tx : Transaction} {keys : ScanKeys} {d : Derivations} {start : Nat}
    {outs : List TxOut} {found : List Received} (h : scanOutputs C tx keys d start outs = .ok found)
    (i : Nat) :
    found.find? (·.outputIndex == start + i) =
      outs[i]?.bind fun out => (scanOutput C tx keys d (start + i) out).toOption.join := by
  induction outs generalizing start found i with
  | nil =>
      cases h
      simp
  | cons out outs ih =>
      simp only [scanOutputs, bind_eq_ok, pure_eq_ok] at h
      rcases h with ⟨one, hone, rest, hrest, rfl⟩
      rw [List.find?_append]
      cases i with
      | zero =>
          have hnone : rest.find? (·.outputIndex == start + 0) = none := by
            apply List.find?_eq_none.mpr
            intro r hr hindex
            rcases scanOutputs_found hrest hr with ⟨j, out', -, hscan⟩
            have := (scanOutput_index hscan).1
            simp only [beq_iff_eq] at hindex
            omega
          rw [hnone, Option.or_none]
          simp only [List.getElem?_cons_zero, Option.bind_some, Nat.add_zero, hone]
          cases one with
          | none => rfl
          | some r => simp [(scanOutput_index hone).1, Except.toOption]
      | succ i =>
          have hnone : one.toList.find? (·.outputIndex == start + (i + 1)) = none := by
            apply List.find?_eq_none.mpr
            intro r hr hindex
            obtain rfl : one = some r := Option.mem_toList.mp hr
            have := (scanOutput_index hone).1
            simp only [beq_iff_eq] at hindex
            omega
          rw [hnone, Option.none_or, show start + (i + 1) = start + 1 + i by omega, ih hrest i]
          rfl

theorem scanOutputs_ascending {tx : Transaction} {keys : ScanKeys} {d : Derivations} {start : Nat}
    {outs : List TxOut} {found : List Received} (h : scanOutputs C tx keys d start outs = .ok found) :
    found.Pairwise fun r r' => r.outputIndex < r'.outputIndex := by
  induction outs generalizing start found with
  | nil =>
      cases h
      exact .nil
  | cons out outs ih =>
      simp only [scanOutputs, bind_eq_ok, pure_eq_ok] at h
      rcases h with ⟨one, hone, rest, hrest, rfl⟩
      cases one with
      | none => exact ih hrest
      | some r =>
          refine List.pairwise_cons.mpr ⟨?_, ih hrest⟩
          intro r' hr'
          rcases scanOutputs_found hrest hr' with ⟨j, out', -, hturn⟩
          have hfirst := (scanOutput_index hone).1
          have hlater := (scanOutput_index hturn).1
          omega

/-! ### The refresh -/

theorem scanTransaction_eq (tx : Transaction) (keys : ScanKeys) :
    scanTransaction C tx keys = match derivationsFor C tx keys.viewSecretKey with
      | none => .error .noTxPublicKey
      | some d => scanOutputs C tx keys d 0 tx.txPrefix.vout := by
  simp only [scanTransaction, scanTransactionWith, derivationsFor]
  cases (parseTxExtra tx.txPrefix.extra).txPubkey with
  | none => rfl
  | some txPubKey => rfl

/-- A refresh finds at a place what the output there shows, if every output of the wallet decodes. -/
theorem foundAt_of_decodes {tx : Transaction} {keys : ScanKeys} (h : Decodes C tx keys) (i : Nat) :
    foundAt C tx keys i = scanAlone C tx keys i := by
  unfold foundAt WalletState.foundIn scanAlone
  rw [scanTransaction_eq]
  cases hd : derivationsFor C tx keys.viewSecretKey with
  | none => cases tx.txPrefix.vout[i]? <;> rfl
  | some d =>
      have hok : ∃ found, scanOutputs C tx keys d 0 tx.txPrefix.vout = .ok found := by
        apply (scanOutputs_ok_iff ..).mpr
        intro j out hout
        rw [Nat.zero_add]
        exact (scanOutput_ok_iff ..).mpr (h d hd j out hout)
      rcases hok with ⟨found, hfound⟩
      have hfind := find_scanOutputs hfound i
      rw [Nat.zero_add] at hfind
      simpa [hfound, Except.toOption] using hfind

/-- And nothing otherwise. -/
theorem foundIn_of_not_decodes {tx : Transaction} {keys : ScanKeys} (h : ¬ Decodes C tx keys) :
    WalletState.foundIn C keys tx = [] := by
  unfold WalletState.foundIn
  rw [scanTransaction_eq]
  cases hd : derivationsFor C tx keys.viewSecretKey with
  | none => rfl
  | some d =>
      cases hscan : scanOutputs C tx keys d 0 tx.txPrefix.vout with
      | error e => simp [hscan, Except.toOption]
      | ok found =>
          exfalso
          apply h
          intro d' hd' j out hout
          rw [hd, Option.some.injEq] at hd'
          subst hd'
          have hturn := (scanOutputs_ok_iff ..).mp ⟨found, hscan⟩ j out hout
          rw [Nat.zero_add] at hturn
          exact (scanOutput_ok_iff ..).mp hturn

theorem foundAt_of_not_decodes {tx : Transaction} {keys : ScanKeys} (h : ¬ Decodes C tx keys) (i : Nat) :
    foundAt C tx keys i = none := by
  rw [foundAt, foundIn_of_not_decodes h]
  rfl

theorem foundAt_alone (tx : Transaction) (keys : ScanKeys) (i : Nat) :
    foundAt C tx keys i = none ∨ foundAt C tx keys i = scanAlone C tx keys i := by
  by_cases h : Decodes C tx keys
  · exact .inr (foundAt_of_decodes h i)
  · exact .inl (foundAt_of_not_decodes h i)

/-- Of two transactions that show the same at one place, a refresh finds the same there unless the
    output is the wallet's and exactly one of the two has an output that does not decode. -/
theorem foundAt_eq_iff {tx tx' : Transaction} {i : Nat} (h : tx.ownData i = tx'.ownData i)
    (keys : ScanKeys) :
    foundAt C tx keys i = foundAt C tx' keys i ↔
      scanAlone C tx keys i = none ∨ (Decodes C tx keys ↔ Decodes C tx' keys) := by
  have halone := scanAlone_own (C := C) h keys
  by_cases hd : Decodes C tx keys <;> by_cases hd' : Decodes C tx' keys
  · simp [foundAt_of_decodes hd, foundAt_of_decodes hd', halone, hd, hd']
  · simp [foundAt_of_decodes hd, foundAt_of_not_decodes hd', hd, hd']
  · simp [foundAt_of_not_decodes hd, foundAt_of_decodes hd', halone, hd, hd', eq_comm]
  · simp [foundAt_of_not_decodes hd, foundAt_of_not_decodes hd', hd, hd']

/-- What a refresh finds are outputs of the transaction, by their keys, each once. -/
theorem foundIn_places (tx : Transaction) (keys : ScanKeys) :
    (∀ r ∈ WalletState.foundIn C keys tx, tx.outputKey r.outputIndex = some r.publicKey) ∧
      (WalletState.foundIn C keys tx).Pairwise fun r r' => r.outputIndex < r'.outputIndex := by
  unfold WalletState.foundIn
  rw [scanTransaction_eq]
  cases hd : derivationsFor C tx keys.viewSecretKey with
  | none => simp [Except.toOption]
  | some d =>
      cases hscan : scanOutputs C tx keys d 0 tx.txPrefix.vout with
      | error e => simp [hscan, Except.toOption]
      | ok found =>
          simp only [hscan, Except.toOption, Option.getD_some]
          refine ⟨?_, scanOutputs_ascending hscan⟩
          intro r hr
          rcases scanOutputs_found hscan hr with ⟨j, out, hout, hturn⟩
          rcases scanOutput_index hturn with ⟨hindex, hkey⟩
          have hplace : tx.txPrefix.vout[r.outputIndex]? = some out := by
            rw [hindex, Nat.zero_add]
            exact hout
          simpa [Transaction.outputKey, hplace] using hkey

/-! ### The wallet's outputs -/

/-- What an output says for a one-time key: the amount, the mask and the key image, if it is its. -/
def Transfer.recordFor (p : PublicKey) (t : Transfer) : Option (Nat × Bytes32 × Option KeyImage) :=
  if t.publicKey = p then some (t.amount, t.mask, t.keyImage) else none

theorem Transfer.recordFor_of_ne {p : PublicKey} {t : Transfer} (h : t.publicKey ≠ p) :
    t.recordFor p = none := if_neg h

theorem Transfer.recordFor_self (t : Transfer) :
    t.recordFor t.publicKey = some (t.amount, t.mask, t.keyImage) := if_pos rfl

namespace WalletState

/-- What the wallet has on record for a one-time key. -/
def recordOf (w : WalletState) (p : PublicKey) : Option (Nat × Bytes32 × Option KeyImage) :=
  w.transfers.findSome? (Transfer.recordFor p)

/-- The part of an output found that goes on record. -/
def recorded (r : Received) : Nat × Bytes32 × Option KeyImage := (r.amount, r.mask, r.keyImage)

theorem KeysFound.modify {w : WalletState} (h : w.KeysFound) {i : Nat} {f : Transfer → Transfer}
    (hf : ∀ t, w.transfers[i]? = some t → (f t).publicKey = t.publicKey) :
    (w.modifyTransfer i f).KeysFound := by
  refine ⟨?_, ?_⟩
  · intro p j hlook
    rcases h.found p j hlook with ⟨t, hget, hkey⟩
    have hat : (w.modifyTransfer i f).transfers[j]? = some (if i = j then f t else t) := by
      simp [modifyTransfer, List.getElem?_modify, hget]
    refine ⟨_, hat, ?_⟩
    split
    · rename_i hij
      rw [hf t (hij ▸ hget), hkey]
    · exact hkey
  · intro p hlook t ht
    rcases mem_modify ht with ht | ⟨t₀, ht₀, hget, rfl⟩
    · exact h.missing p hlook t ht
    · rw [hf t₀ hget]
      exact h.missing p hlook t₀ ht₀

theorem KeysFound.file {w : WalletState} (h : w.KeysFound) (t : Transfer) : (w.fileTransfer t).KeysFound := by
  refine ⟨?_, ?_⟩
  · intro p i hlook
    simp only [fileTransfer, List.lookup_cons] at hlook ⊢
    split at hlook
    · rename_i hkey
      rw [Option.some.injEq] at hlook
      exact ⟨t, by simp [← hlook], (beq_iff_eq.mp hkey).symm⟩
    · rcases h.found p i hlook with ⟨t', hget, hkey⟩
      exact ⟨t', by rw [List.getElem?_append_left (List.getElem?_eq_some_iff.mp hget).1, hget], hkey⟩
  · intro p hlook t' ht'
    simp only [fileTransfer, List.lookup_cons] at hlook ht'
    split at hlook
    · cases hlook
    · rename_i hkey
      rcases List.mem_append.mp ht' with ht' | ht'
      · exact h.missing p hlook t' ht'
      · rw [List.mem_singleton.mp ht']
        exact fun heq => absurd (beq_iff_eq.mpr heq.symm) (by simp [hkey])

/-- Changing an output in what it does not say for a key leaves the record of the key. -/
theorem recordOf_modify {w : WalletState} {p : PublicKey} {i : Nat} {f : Transfer → Transfer}
    (h : ∀ t, w.transfers[i]? = some t → (f t).recordFor p = t.recordFor p) :
    (w.modifyTransfer i f).recordOf p = w.recordOf p := by
  unfold recordOf modifyTransfer
  simp only
  generalize w.transfers = l at h
  induction l generalizing i with
  | nil => simp
  | cons t l ih =>
      cases i with
      | zero => simp [List.findSome?_cons, h t rfl]
      | succ i =>
          have hrest := ih fun t' hget => h t' hget
          simp only [List.modify_succ_cons, List.findSome?_cons, hrest]

/-- Recording an output of another key leaves the record of this one. -/
theorem addTransfer_other {w : WalletState} (h : w.KeysFound) {t : Transfer} {p : PublicKey}
    (hne : t.publicKey ≠ p) : (w.addTransfer t).2.recordOf p = w.recordOf p := by
  rcases addTransfer_cases h t with ⟨i, held, -, -, -, heq⟩ | ⟨i, held, hget, -, hsame, -, heq⟩ | ⟨-, heq⟩
  · rw [heq]
  · rw [heq]
    apply recordOf_modify
    intro t' hget'
    obtain rfl : held = t' := Option.some.inj (hget.symm.trans hget')
    have hleft : (held.giveWay t).recordFor p = none := Transfer.recordFor_of_ne hne
    have hright : held.recordFor p = none := Transfer.recordFor_of_ne (hsame ▸ hne)
    rw [hleft, hright]
  · rw [heq]
    simp [recordOf, fileTransfer, List.findSome?_append, Transfer.recordFor_of_ne hne]

/-- The first output of a key is put on record as it was found. -/
theorem addTransfer_first {w : WalletState} (h : w.KeysFound) {t : Transfer}
    (hnew : w.recordOf t.publicKey = none) :
    (w.addTransfer t).2.recordOf t.publicKey = some (t.amount, t.mask, t.keyImage) := by
  have hnone : ∀ held ∈ w.transfers, held.publicKey ≠ t.publicKey := by
    intro held hmem hsame
    have := List.findSome?_eq_none_iff.mp hnew held hmem
    simp [Transfer.recordFor, hsame] at this
  rcases addTransfer_cases h t with ⟨i, held, hget, hsame, -⟩ | ⟨i, held, hget, -, hsame, -⟩ | ⟨-, heq⟩
  · exact absurd hsame (hnone held (List.mem_of_getElem? hget))
  · exact absurd hsame (hnone held (List.mem_of_getElem? hget))
  · have hold : w.transfers.findSome? (Transfer.recordFor t.publicKey) = none := hnew
    rw [heq]
    simp [recordOf, fileTransfer, List.findSome?_append, hold, Transfer.recordFor_self]

theorem KeysFound.addTransfer {w : WalletState} (h : w.KeysFound) (t : Transfer) :
    (w.addTransfer t).2.KeysFound := by
  rcases addTransfer_cases h t with ⟨i, held, -, -, -, heq⟩ | ⟨i, held, hget, -, hsame, -, heq⟩ | ⟨-, heq⟩
  · rw [heq]
    exact h
  · rw [heq]
    apply h.modify
    intro t' hget'
    obtain rfl : held = t' := Option.some.inj (hget.symm.trans hget')
    exact hsame.symm
  · rw [heq]
    exact h.file t

/-- Marking inputs spent leaves the keys filed and the record of every key. -/
theorem recordOf_spendInputs {w : WalletState} (h : w.KeysFound) (height : Nat) (images : List KeyImage)
    (p : PublicKey) :
    (w.spendInputs height images).KeysFound ∧ (w.spendInputs height images).recordOf p = w.recordOf p := by
  unfold WalletState.spendInputs
  induction images generalizing w with
  | nil => exact ⟨h, rfl⟩
  | cons k images ih =>
      rw [List.foldl_cons]
      split
      · exact ih h
      · rename_i i hi
        rcases ih (h.modify fun t _ => (keeps_spendAt height).publicKey t) with ⟨hfiled, hrecord⟩
        refine ⟨hfiled, hrecord.trans (recordOf_modify ?_)⟩
        intro t _
        unfold Transfer.recordFor spendAt
        split <;> rfl

section Receiving

variable {height timestamp : Nat} {tx : Transaction} {txid : Hash256} {indices : List Nat}
  {account : Option UInt32} {p : PublicKey}

/-- Receipts of other keys leave the record of this one. -/
theorem recordOf_receive_other {found : List Received} (hother : ∀ r ∈ found, r.publicKey ≠ p)
    {w : WalletState} (h : w.KeysFound) (received : Nat) (summary : RefreshSummary) :
    (receiveOutputs C height timestamp tx txid indices account found w received summary).1.1.KeysFound ∧
      (receiveOutputs C height timestamp tx txid indices account found w received
        summary).1.1.recordOf p = w.recordOf p := by
  apply receiveOutputs_induct (P := fun w' => w'.KeysFound ∧ w'.recordOf p = w.recordOf p)
  · intro w' r hr hw'
    refine ⟨hw'.1.addTransfer _, Eq.trans ?_ hw'.2⟩
    apply addTransfer_other hw'.1
    exact hother r hr
  · exact ⟨h, rfl⟩

/-- Where one receipt has a key the wallet does not hold, it goes on record as it was found. -/
theorem recordOf_receive {found : List Received} {w : WalletState} (h : w.KeysFound)
    (hnew : w.recordOf p = none)
    (honce : found.Pairwise fun r r' => r.publicKey = p → r'.publicKey ≠ p) (received : Nat)
    (summary : RefreshSummary) :
    (receiveOutputs C height timestamp tx txid indices account found w received
        summary).1.1.recordOf p =
      (found.find? (·.publicKey == p)).map recorded := by
  induction found generalizing w received summary with
  | nil => exact hnew
  | cons r found ih =>
      rcases List.pairwise_cons.mp honce with ⟨hfirst, hrest⟩
      rcases receiveOutputs_cons (C := C) height timestamp tx txid indices account r found w received
        summary with ⟨received', summary', heq⟩
      rw [heq]
      by_cases hkey : r.publicKey = p
      · have hothers : ∀ r' ∈ found, r'.publicKey ≠ p := fun r' hr' => hfirst r' hr' hkey
        rw [(recordOf_receive_other hothers (h.addTransfer _) received' summary').2]
        subst hkey
        have hfiled := addTransfer_first h
          (t := transferOf C w height timestamp tx txid indices r) hnew
        simpa [recorded, transferOf] using hfiled
      · rw [List.find?_cons_of_neg (by simpa using hkey)]
        apply ih (h.addTransfer _) _ hrest
        rw [addTransfer_other h hkey]
        exact hnew

end Receiving

/-- **One transaction.**  The key of an output the wallet does not hold yet, and that no other output
    of the transaction has, goes on record as the refresh has found it. -/
theorem recordOf_processTransaction {w : WalletState} (h : w.KeysFound) {tx : Transaction} {i : Nat}
    {p : PublicKey} (hkey : tx.outputKey i = some p) (hnew : w.recordOf p = none)
    (honly : ∀ j, tx.outputKey j = some p → j = i) (height timestamp : Nat) (txid : Hash256)
    (indices : List Nat) (summary : RefreshSummary) :
    (w.processTransaction C height timestamp tx txid indices summary).1.recordOf p =
      (foundAt C tx w.keys i).map recorded := by
  rcases foundIn_places (C := C) tx w.keys with ⟨hplaces, hascending⟩
  rcases recordOf_spendInputs h height tx.keyImages p with ⟨hfiled, hrecord⟩
  have honce : (foundIn C w.keys tx).Pairwise fun r r' => r.publicKey = p → r'.publicKey ≠ p := by
    refine hascending.imp_of_mem ?_
    intro r r' hr hr' hlt hrp hrp'
    have hfirst := honly r.outputIndex (hrp ▸ hplaces r hr)
    have hsecond := honly r'.outputIndex (hrp' ▸ hplaces r' hr')
    omega
  have hfind : (foundIn C w.keys tx).find? (·.publicKey == p) = foundAt C tx w.keys i := by
    unfold foundAt
    apply List.find?_congr
    intro r hr
    have hplace := hplaces r hr
    rw [Bool.eq_iff_iff, beq_iff_eq, beq_iff_eq]
    constructor
    · intro hrp
      exact honly r.outputIndex (hrp ▸ hplace)
    · intro hindex
      rw [hindex, hkey] at hplace
      exact (Option.some.inj hplace).symm
  have hrecords : ((w.processTransaction C height timestamp tx txid indices summary).1).transfers =
      (w.receiveFrom C height timestamp tx txid indices).1.transfers := by
    rw [processTransaction_fst]
    unfold recordSpend
    split
    · rfl
    · exact (spendSeen_transfers _ _).1
  have hreceived : (w.receiveFrom C height timestamp tx txid indices).1.recordOf p =
      ((foundIn C w.keys tx).find? (·.publicKey == p)).map recorded := by
    unfold receiveFrom
    simp only [keys_spendInputs]
    exact recordOf_receive hfiled (hrecord.trans hnew) honce 0 {}
  rw [recordOf, hrecords, ← recordOf, hreceived, hfind]

end WalletState

/-! ### Two transactions -/

/-- Of two transactions that show the same at one place, a wallet finds the same there, and has the
    same on record for a key that is new to it and paid once, unless the output is the wallet's and
    exactly one of the two has an output of the wallet that does not decode. -/
theorem scanned_per_output_iff {tx tx' : Transaction} {i : Nat} (hsame : tx.ownData i = tx'.ownData i)
    (w : WalletState) :
    (foundAt C tx w.keys i = foundAt C tx' w.keys i ↔
      scanAlone C tx w.keys i = none ∨ (Decodes C tx w.keys ↔ Decodes C tx' w.keys)) ∧
    ∀ p, w.KeysFound → tx.outputKey i = some p → w.recordOf p = none →
      (∀ j, tx.outputKey j = some p → j = i) → (∀ j, tx'.outputKey j = some p → j = i) →
      ∀ height timestamp height' timestamp' txid txid' indices indices' summary summary',
        ((w.processTransaction C height timestamp tx txid indices summary).1.recordOf p =
          (w.processTransaction C height' timestamp' tx' txid' indices' summary').1.recordOf p ↔
        scanAlone C tx w.keys i = none ∨ (Decodes C tx w.keys ↔ Decodes C tx' w.keys)) := by
  refine ⟨foundAt_eq_iff hsame w.keys, ?_⟩
  intro p hfiled hkey hnew honly honly' height timestamp height' timestamp' txid txid' indices indices'
    summary summary'
  have hkey' : tx'.outputKey i = some p := by
    rw [← outputKey_own hsame]
    exact hkey
  rw [WalletState.recordOf_processTransaction hfiled hkey hnew honly,
    WalletState.recordOf_processTransaction hfiled hkey' hnew honly', ← foundAt_eq_iff hsame w.keys]
  constructor
  · intro hrecord
    rcases foundAt_alone (C := C) tx w.keys i with hone | hone <;>
      rcases foundAt_alone (C := C) tx' w.keys i with hother | hother
    · rw [hone, hother]
    · rw [hone, hother] at hrecord ⊢
      exact (Option.map_eq_none_iff.mp hrecord.symm).symm
    · rw [hone, hother] at hrecord ⊢
      exact Option.map_eq_none_iff.mp hrecord
    · rw [hone, hother, scanAlone_own hsame]
  · intro hfound
    rw [hfound]

namespace Sample

/-- The payment of `paidTx`, with a second output to the same wallet whose commitment is to
    something else. -/
def hidingTx : Transaction :=
  let shared := grid.derivationToScalar walletDerivation 1
  { paidTx with
    txPrefix := { paidTx.txPrefix with
      vout := paidTx.txPrefix.vout ++
        [⟨0, .toTaggedKey ((grid.derivePublicKey walletDerivation 1 10).getD 0)
          (grid.deriveViewTag walletDerivation 1)⟩] }
    rctSignatures := { paidTx.rctSignatures with
      ecdhInfo := paidTx.rctSignatures.ecdhInfo ++ [⟨0, grid.ecdhEncodeShort 3 shared⟩]
      outPk := paidTx.rctSignatures.outPk ++ [grid.commit 4 (grid.commitmentMask shared)] } }

/-- A sender hides a payment of three from the wallet by a second output that does not decode. -/
theorem malformed_neighbour_hides :
    hidingTx.ownData 0 = paidTx.ownData 0 ∧
    ((emptyWallet.wallet.processTransaction grid 1 60 paidTx 9 [0] {}).1.recordOf walletKey).map (·.1) = some 3 ∧
    ((emptyWallet.wallet.processTransaction grid 1 60 hidingTx 9 [0, 1] {}).1.recordOf walletKey) = none := by
  decide +kernel

theorem outputKey_hidingTx {j : Nat} (h : hidingTx.outputKey j = some walletKey) : j = 0 := by
  rcases j with - | - | j
  · rfl
  · exact absurd h (by decide +kernel)
  · have hnone : hidingTx.outputKey (j + 2) = none := rfl
    simp [hnone] at h

theorem outputKey_paidTx {j : Nat} (h : paidTx.outputKey j = some walletKey) : j = 0 := by
  rcases j with - | j
  · rfl
  · have hnone : paidTx.outputKey (j + 1) = none := rfl
    simp [hnone] at h

theorem scanned_per_output_iff_hiding :
    (foundAt grid hidingTx emptyWallet.wallet.keys 0 = foundAt grid paidTx emptyWallet.wallet.keys 0 ↔
      scanAlone grid hidingTx emptyWallet.wallet.keys 0 = none ∨
        (Decodes grid hidingTx emptyWallet.wallet.keys ↔ Decodes grid paidTx emptyWallet.wallet.keys)) ∧
    ((emptyWallet.wallet.processTransaction grid 1 60 hidingTx 9 [0, 1] {}).1.recordOf walletKey =
        (emptyWallet.wallet.processTransaction grid 1 60 paidTx 9 [0] {}).1.recordOf walletKey ↔
      scanAlone grid hidingTx emptyWallet.wallet.keys 0 = none ∨
        (Decodes grid hidingTx emptyWallet.wallet.keys ↔ Decodes grid paidTx emptyWallet.wallet.keys)) := by
  have hown : hidingTx.ownData 0 = paidTx.ownData 0 := by decide +kernel
  obtain ⟨hfound, hrecord⟩ := scanned_per_output_iff (C := grid) hown emptyWallet.wallet
  have hkey : hidingTx.outputKey 0 = some walletKey := by decide +kernel
  have hfiled : emptyWallet.wallet.KeysFound := WalletState.keysFound_of_index rfl
  have hnew : emptyWallet.wallet.recordOf walletKey = none := by decide
  exact ⟨hfound, hrecord walletKey hfiled hkey hnew (fun _ => outputKey_hidingTx)
    (fun _ => outputKey_paidTx) 1 60 1 60 9 9 [0, 1] [0] {} {}⟩

end Sample

end Wownero

import Mathlib.Algebra.Group.Prod
import Wownero.Decoys
import Wownero.Sample
import Wownero.Scan
import Wownero.Storage
/-!
# What the wallet holds is what the node stores

An output the wallet found is spent by naming its commitment to the node, which compares it with
the one it stored.  Both sides compute the commitment for themselves, by case splits of their
own: the wallet from the mask it decoded, the node from the transaction's kind.
-/

namespace Wownero

open Wownero.Archive Outcome

/-- What the curve library promises: scalars fit thirty-two bytes, points encode apart from each
    other, and the base point generates something. -/
structure Crypto.Encodes (C : Crypto) : Prop where
  ell_pos : 0 < C.ell
  ell_le : C.ell ≤ 2 ^ 256
  encode_injective : Function.Injective C.encodePoint
  base_ne_zero : C.basepoint ≠ 0

/-! ### Scalars through their bytes -/

variable {C : Crypto}

theorem decodeScalar_scalarBytes (hC : C.Encodes) {s : Nat} (h : s < C.ell) :
    C.decodeScalar (Crypto.scalarBytes s) = some s := by
  have hlt : s < 256 ^ 32 := lt_of_lt_of_le h hC.ell_le
  rw [Crypto.decodeScalar, Crypto.scalarBytes, toBytes_ofBytes (length_leBytes 32 s), leNat_leBytes,
    Nat.mod_eq_of_lt hlt, if_pos h]

theorem decodeScalar_zero (hC : C.Encodes) : C.decodeScalar 0 = some 0 := by
  have hzero : Crypto.scalarBytes 0 = 0 := by decide
  rw [← hzero]
  exact decodeScalar_scalarBytes hC hC.ell_pos

theorem hashToScalar_lt (hC : C.Encodes) (data : Blob) : C.hashToScalar data < C.ell :=
  Nat.mod_lt _ hC.ell_pos

theorem ecdhDecode_lt (hC : C.Encodes) {ty : RctType} {ecdh : EcdhInfo} {shared : EcScalar}
    {amount mask : Nat} (h : ecdhDecode C ty ecdh shared = some (amount, mask)) : mask < C.ell := by
  unfold ecdhDecode at h
  split_ifs at h
  · simp only [Crypto.ecdhDecodeShort, Option.some.injEq, Prod.mk.injEq] at h
    rw [← h.2]
    exact hashToScalar_lt hC _
  · simp only [Crypto.ecdhDecodeLegacy, Option.bind_eq_bind, Option.bind_eq_some_iff,
      Option.pure_def, Option.some.injEq, Prod.mk.injEq] at h
    obtain ⟨m, -, a, -, -, hmask⟩ := h
    rw [← hmask]
    exact Nat.mod_lt _ hC.ell_pos

/-! ### The two sides -/

/-- The commitment the wallet names for an output: `plan_send` reads the mask back and commits. -/
def Received.commitment (C : Crypto) (r : Received) : Option EcPoint :=
  (C.decodeScalar r.mask).map (C.commit r.amount)

theorem scanCandidates_found {tx : Transaction} {keys : ScanKeys} {index clearAmount : Nat}
    {outKey : PublicKey} {viewTag : Option UInt8} {ds : List KeyDerivation} {r : Received}
    (h : scanCandidates C tx keys index clearAmount outKey viewTag ds = .ok (some r)) :
    r.outputIndex = index ∧ r.publicKey = outKey ∧
      ∃ d, decodeAmount C tx index d clearAmount = .ok (r.amount, r.mask) := by
  induction ds with
  | nil => cases h
  | cons d ds ih =>
      rw [scanCandidates] at h
      split at h
      · exact ih h
      · obtain ⟨⟨amount, mask⟩, hdecode, h⟩ := bind_eq_ok.mp h
        simp only at h
        split_ifs at h
        · cases h
        · cases h
          exact ⟨rfl, rfl, d, hdecode⟩

theorem scanOutputs_found {tx : Transaction} {keys : ScanKeys} {d : Derivations} {start : Nat}
    {outs : List TxOut} {found : List Received} (h : scanOutputs C tx keys d start outs = .ok found)
    {r : Received} (hr : r ∈ found) :
    ∃ i out, outs[i]? = some out ∧ scanOutput C tx keys d (start + i) out = .ok (some r) := by
  induction outs generalizing start found with
  | nil =>
      cases h
      cases hr
  | cons out outs ih =>
      obtain ⟨one, hone, h⟩ := bind_eq_ok.mp h
      obtain ⟨rest, hrest, h⟩ := bind_eq_ok.mp h
      cases pure_eq_ok.mp h
      rcases List.mem_append.mp hr with hr | hr
      · refine ⟨0, out, rfl, ?_⟩
        rw [Option.mem_toList] at hr
        rw [Nat.add_zero, hone, Option.mem_def.mp hr]
      · obtain ⟨i, out', hout, hscan⟩ := ih hrest hr
        refine ⟨i + 1, out', hout, ?_⟩
        rwa [show start + (i + 1) = start + 1 + i by omega]

/-- What a scan found is an output of the transaction, decoded under some derivation. -/
theorem scanTransaction_found {tx : Transaction} {keys : ScanKeys} {found : List Received}
    (h : scanTransaction C tx keys = .ok found) {r : Received} (hr : r ∈ found) :
    ∃ out d, tx.txPrefix.vout[r.outputIndex]? = some out ∧
      decodeAmount C tx r.outputIndex d out.amount = .ok (r.amount, r.mask) := by
  unfold scanTransaction scanTransactionWith at h
  simp only at h
  split at h
  · cases h
  · obtain ⟨i, out, hout, hscan⟩ := scanOutputs_found h hr
    rw [Nat.zero_add] at hscan
    unfold scanOutput at hscan
    split at hscan
    · cases hscan
    · obtain ⟨rfl, -, d, hdecode⟩ := scanCandidates_found hscan
      exact ⟨out, d, hout, hdecode⟩

theorem storedOutputsFrom_get {tx : Transaction} {start : Nat} {outs : List TxOut}
    {stored : List StoredOutput} (h : storedOutputsFrom C tx start outs = .ok stored) {i : Nat}
    {out : TxOut} (hout : outs[i]? = some out) {s : StoredOutput} (hs : stored[i]? = some s) :
    storedOutput C tx (start + i) out = .ok s := by
  induction outs generalizing start stored i with
  | nil => simp at hout
  | cons o outs ih =>
      obtain ⟨one, hone, h⟩ := bind_eq_ok.mp h
      obtain ⟨rest, hrest, h⟩ := bind_eq_ok.mp h
      cases pure_eq_ok.mp h
      cases i with
      | zero =>
          cases hout
          cases hs
          exact hone
      | succ i =>
          rw [show start + (i + 1) = start + 1 + i by omega]
          exact ih hrest hout hs

theorem storedOutput_eq (tx : Transaction) (i : Nat) (out : TxOut) : storedOutput C tx i out =
    if tx.isCoinbase && tx.txPrefix.version == 2 then .ok ⟨0, some (C.zeroCommit out.amount)⟩
    else if tx.txPrefix.version > 1 then
      match tx.rctSignatures.outPk[i]? with
      | none => .error (.missingOutPk i)
      | some mask =>
          if tx.rctSignatures.ty = .bulletproofPlus then
            match C.scalarmult8 mask with
            | none => .error (.undecodableCommitment i)
            | some commitment => .ok ⟨out.amount, some commitment⟩
          else .ok ⟨out.amount, some mask⟩
    else .ok ⟨out.amount, none⟩ := rfl

/-- An output stored with a commitment, by kind of transaction. -/
theorem storedOutput_commitment {tx : Transaction} {i : Nat} {out : TxOut} {s : StoredOutput}
    (h : storedOutput C tx i out = .ok s) {c : EcPoint} (hc : s.commitment = some c) :
    (tx.isCoinbase ∧ tx.txPrefix.version = 2 ∧ c = C.zeroCommit out.amount) ∨
    (¬ (tx.isCoinbase ∧ tx.txPrefix.version = 2) ∧ 1 < tx.txPrefix.version ∧
      ∃ outPk, tx.rctSignatures.outPk[i]? = some outPk ∧
        fullCommitment C tx.rctSignatures.ty outPk = some c) := by
  rw [storedOutput_eq] at h
  split at h
  · rename_i hminer
    cases h
    cases hc
    rw [Bool.and_eq_true, beq_iff_eq] at hminer
    exact .inl ⟨hminer.1, hminer.2, rfl⟩
  split at h
  · rename_i hminer hversion
    rw [Bool.and_eq_true, beq_iff_eq] at hminer
    refine .inr ⟨hminer, hversion, ?_⟩
    unfold fullCommitment RctType.isBpPlusLegacy
    split at h
    · cases h
    rename_i mask hmask
    refine ⟨mask, hmask, ?_⟩
    split at h
    · rename_i hty
      rw [if_pos (by simpa using hty)]
      split at h
      · cases h
      · rename_i hmul
        cases h
        cases hc
        exact hmul
    · rename_i hty
      cases h
      cases hc
      rw [if_neg (by simpa using hty)]
  · cases h
    cases hc

/-- What the wallet decoded, by kind of transaction. -/
theorem decodeAmount_ok (hC : C.Encodes) {tx : Transaction} {i : Nat} {d : KeyDerivation}
    {clear amount : Nat} {mask : Bytes32} (h : decodeAmount C tx i d clear = .ok (amount, mask)) :
    ((tx.txPrefix.version < 2 ∨ tx.rctSignatures.ty.isNull) ∧ amount = clear ∧ mask = 0) ∨
    (¬ (tx.txPrefix.version < 2 ∨ tx.rctSignatures.ty.isNull) ∧ ∃ outPk commitment,
      tx.rctSignatures.outPk[i]? = some outPk ∧
      fullCommitment C tx.rctSignatures.ty outPk = some commitment ∧
      (C.decodeScalar mask).map (C.commit amount) = some commitment) := by
  unfold decodeAmount at h
  simp only at h
  split_ifs at h with hclear
  · cases h
    exact .inl ⟨hclear, rfl, rfl⟩
  · refine .inr ⟨hclear, ?_⟩
    split at h
    · cases h
    · cases h
    · rename_i ecdh outPk hecdh hout
      split at h
      · rename_i a m commitment hdecode hfull
        split_ifs at h with hmatch
        cases h
        refine ⟨outPk, commitment, hout, hfull, ?_⟩
        rw [decodeScalar_scalarBytes hC (ecdhDecode_lt hC hdecode), Option.map_some]
        exact congrArg some (by simpa [Crypto.commitmentMatches] using hmatch)
      · cases h

/-! ### When they agree -/

/-- The wallet takes the commitment from where the node takes it.  It never does for a version-2
    coinbase without signatures, whose outputs are stored under the identity mask: the wallet
    keeps the zero mask for them.  For the others, only two oddities are left that no node keeps:
    a coinbase that carries signatures, and a version-2 transaction without any. -/
def ReadsStored (C : Crypto) (tx : Transaction) (i : Nat) : Prop :=
  let rct := tx.rctSignatures
  if tx.isCoinbase ∧ tx.txPrefix.version = 2 then
    ¬ rct.ty.isNull ∧ ∃ out outPk, tx.txPrefix.vout[i]? = some out ∧ rct.outPk[i]? = some outPk ∧
      fullCommitment C rct.ty outPk = some (C.zeroCommit out.amount)
  else rct.ty.isNull → ∃ out, tx.txPrefix.vout[i]? = some out ∧
    rct.outPk[i]? = some (C.commit out.amount 0)

theorem zeroCommit_ne_commit (hC : C.Encodes) (amount : Nat) :
    C.commit amount 0 ≠ C.zeroCommit amount := by
  intro h
  have hpoints := hC.encode_injective h
  rw [zero_nsmul] at hpoints
  exact hC.base_ne_zero (add_right_cancel hpoints).symm

theorem commitment_eq_iff (hC : C.Encodes) {tx : Transaction} {keys : ScanKeys}
    {found : List Received} (hscan : scanTransaction C tx keys = .ok found) {r : Received}
    (hr : r ∈ found) {stored : List StoredOutput} (hstored : storedOutputs C tx = .ok stored)
    {s : StoredOutput} (hs : stored[r.outputIndex]? = some s) {c : EcPoint}
    (hc : s.commitment = some c) :
    r.commitment C = some c ↔ ReadsStored C tx r.outputIndex := by
  obtain ⟨out, d, hout, hdecode⟩ := scanTransaction_found hscan hr
  have hfrom : storedOutputsFrom C tx 0 tx.txPrefix.vout = .ok stored := by
    unfold storedOutputs at hstored
    split at hstored
    · cases hstored
      assumption
    · cases hstored
  have hone := storedOutputsFrom_get hfrom hout hs
  rw [Nat.zero_add] at hone
  unfold Received.commitment
  rcases storedOutput_commitment hone hc with ⟨hminer, hversion, rfl⟩ | ⟨hnot, hversion, outPk, hpk, hfull⟩
  · rw [ReadsStored, if_pos ⟨hminer, hversion⟩]
    rcases decodeAmount_ok hC hdecode with ⟨hclear, hamount, hmask⟩ | ⟨hclear, outPk, commitment, hpk, hfull, hcommit⟩
    · have hnull : tx.rctSignatures.ty.isNull = true := by
        rcases hclear with h | h
        · omega
        · exact h
      rw [hmask, hamount, decodeScalar_zero hC, Option.map_some, Option.some.injEq]
      constructor
      · intro h
        exact absurd h (zeroCommit_ne_commit hC _)
      · intro h
        exact absurd hnull h.1
    · rw [hcommit, Option.some.injEq]
      constructor
      · rintro rfl
        exact ⟨fun h => hclear (.inr h), out, outPk, hout, hpk, hfull⟩
      · rintro ⟨-, out', outPk', hout', hpk', hfull'⟩
        rw [hout] at hout'
        rw [hpk] at hpk'
        cases hout'
        cases hpk'
        rw [hfull] at hfull'
        exact Option.some.inj hfull'
  · rw [ReadsStored, if_neg hnot]
    rcases decodeAmount_ok hC hdecode with ⟨hclear, hamount, hmask⟩ | ⟨hclear, outPk', commitment, hpk', hfull', hcommit⟩
    · have hnull : tx.rctSignatures.ty.isNull = true := by
        rcases hclear with h | h
        · omega
        · exact h
      have hplain : outPk = c := by
        unfold fullCommitment at hfull
        rw [if_neg] at hfull
        · exact Option.some.inj hfull
        · intro hlegacy
          rw [RctType.isNull, beq_iff_eq] at hnull
          rw [hnull] at hlegacy
          cases hlegacy
      rw [hmask, hamount, decodeScalar_zero hC, Option.map_some, Option.some.injEq]
      constructor
      · rintro rfl
        exact fun _ => ⟨out, hout, hplain ▸ hpk⟩
      · intro h
        obtain ⟨out', hout', hpk'⟩ := h hnull
        rw [hout] at hout'
        cases hout'
        rw [hpk] at hpk'
        rw [← hplain]
        exact (Option.some.inj hpk').symm
    · rw [hpk] at hpk'
      cases hpk'
      rw [hfull] at hfull'
      cases hfull'
      exact ⟨fun _ h => absurd (.inr h) hclear, fun _ => hcommit⟩

/-- What `plan_send` tells `get_outs` about an output it spends. -/
def Received.real (C : Crypto) (r : Received) (globalIndex : Nat) (keyImage : KeyImage) :
    Option RealOutput :=
  (r.commitment C).map fun commitment => ⟨globalIndex, r.publicKey, commitment, keyImage⟩

/-- **The wallet commits to an output as the node stored it, and a spend of it is not refused for
    its commitment, exactly when it takes the commitment from where the node takes it.**  The
    node answers with the key and the commitment it stored. -/
theorem holdings_stored_iff (hC : C.Encodes) {tx : Transaction} {keys : ScanKeys}
    {found : List Received} (hscan : scanTransaction C tx keys = .ok found) {r : Received}
    (hr : r ∈ found) {stored : List StoredOutput} (hstored : storedOutputs C tx = .ok stored)
    {s : StoredOutput} (hs : stored[r.outputIndex]? = some s) {c : EcPoint}
    (hc : s.commitment = some c) :
    (r.commitment C = some c ↔ ReadsStored C tx r.outputIndex) ∧
    ∀ (R : Type) (picker : Picker R) (rng : R) (reals : List (RealOutput × Option (List Nat)))
      (ringSize : Nat) (node : Nat → Member) (real : RealOutput) (known : Option (List Nat)),
      (real, known) ∈ reals →
      r.real C real.globalIndex real.keyImage = some real →
      node real.globalIndex = ⟨r.publicKey, c, true⟩ →
      (∀ pair ∈ reals, pair.1.globalIndex = real.globalIndex → pair = (real, known)) →
      (ReadsStored C tx r.outputIndex → picker.Asks real known →
        getOuts C picker rng reals ringSize (fun is => .ok (is.map node)) ≠
          .error (.realOutputNotReturned real.globalIndex)) ∧
      (¬ ReadsStored C tx r.outputIndex → ∀ rings,
        getOuts C picker rng reals ringSize (fun is => .ok (is.map node)) ≠ .ok rings) := by
  have hiff := commitment_eq_iff hC hscan hr hstored hs hc
  refine ⟨hiff, ?_⟩
  intro R picker rng reals ringSize node real known hmem hreal hnode hapart
  obtain ⟨commitment, hcommit, hfields⟩ := Option.map_eq_some_iff.mp hreal
  have hkey : real.publicKey = r.publicKey := by rw [← hfields]
  have hmask : real.commitment = commitment := by rw [← hfields]
  constructor
  · intro hreads hasks hrefused
    obtain ⟨pair, hpair, hindex, hnot⟩ := getOuts_refused hrefused
    obtain rfl := hapart pair hpair hindex
    rw [hiff.mpr hreads, Option.some.injEq] at hcommit
    apply hnot
    rw [hnode, hkey, hmask, hcommit]
    exact ⟨hasks, rfl⟩
  · intro hnot rings hrings
    have hshown := getOuts_shown hrings (real, known) hmem
    rw [hnode, Member.mk.injEq] at hshown
    apply hnot
    rw [← hiff, hcommit, ← hmask, hshown.2.1]

namespace Sample

/-- Twenty-five points, generated by two of order five that have nothing to do with each other. -/
def grid : Crypto where
  Point := Fin 5 × Fin 5
  ell := 5
  invEight := 2
  basepoint := (1, 0)
  hPoint := (0, 1)
  decodePoint b :=
    if b.toNat < 25 then some (Fin.ofNat 5 (b.toNat / 5), Fin.ofNat 5 b.toNat) else none
  encodePoint p := BitVec.ofNat 256 (5 * p.1.val + p.2.val)
  cnFastHash := digest
  geFromfeFrombytes _ := 1
  checkSignature _ _ _ := true
  bppVerify _ := .ok ()

theorem grid_encodes : grid.Encodes where
  ell_pos := by decide
  ell_le := by decide
  encode_injective := by
    rintro ⟨⟨a, ha⟩, ⟨b, hb⟩⟩ ⟨⟨a', ha'⟩, ⟨b', hb'⟩⟩ h
    have hnum : (5 * a + b) % 2 ^ 256 = (5 * a' + b') % 2 ^ 256 := congrArg BitVec.toNat h
    rw [Nat.mod_eq_of_lt (by omega), Nat.mod_eq_of_lt (by omega)] at hnum
    have hleft : a = a' := by omega
    have hright : b = b' := by omega
    subst hleft hright
    rfl
  base_ne_zero := by decide

/-- A wallet with the spend key two and the view key one. -/
def walletKeys : ScanKeys :=
  ⟨⟨10, 5⟩, Crypto.scalarBytes 1, some (Crypto.scalarBytes 2), ⟨[(10, .main)], [1]⟩⟩

/-- The derivation of a transaction whose key is the base point. -/
def walletDerivation : KeyDerivation := 15

/-- The first output of such a transaction to the wallet. -/
def walletKey : PublicKey := (grid.derivePublicKey walletDerivation 0 10).getD 0

/-- A coinbase of version 2 that pays the wallet three. -/
def minedTx : Transaction :=
  { txPrefix := ⟨2, 65, [.gen 5], [⟨3, .toKey walletKey⟩], serializeTxExtra [.pubkey 5] true⟩ }

/-- What the wallet makes of it. -/
def minedReceived : Received :=
  { outputIndex := 0
    publicKey := walletKey
    subaddress := .main
    amount := 3
    mask := 0
    keyImage := outputKeyImage grid walletKey walletDerivation 0 .main walletKeys
      (Crypto.scalarBytes 2)
    derivation := walletDerivation
    hadViewTag := false }

/-- A payment of three to the wallet, of the RingCT type that writes whole commitments. -/
def paidTx : Transaction :=
  let shared := grid.derivationToScalar walletDerivation 0
  { txPrefix := ⟨2, 0, [.toKey 0 [1] 7],
      [⟨0, .toTaggedKey walletKey (grid.deriveViewTag walletDerivation 0)⟩],
      serializeTxExtra [.pubkey 5] true⟩
    rctSignatures :=
      { ty := .bulletproofPlusFullCommit
        ecdhInfo := [⟨0, grid.ecdhEncodeShort 3 shared⟩]
        outPk := [grid.commit 3 (grid.commitmentMask shared)] } }

def paidReceived : Received :=
  { minedReceived with
    mask := Crypto.scalarBytes (grid.commitmentMask (grid.derivationToScalar walletDerivation 0))
    hadViewTag := true }

/-- The commitment the payment carries. -/
def paidCommitment : EcPoint :=
  grid.commit 3 (grid.commitmentMask (grid.derivationToScalar walletDerivation 0))

/-- A picker over a chain with a single output. -/
def onlyOutput : Picker Unit := ⟨1, fun _ => (some 0, ())⟩

/-- A node that stored this output, unlocked by now, as the first of all. -/
def nodeWith (commitment : EcPoint) : Nat → Member := fun _ => ⟨walletKey, commitment, true⟩

end Sample

open Sample

theorem holdings_stored_iff_paid :
    (paidReceived.commitment grid = some paidCommitment ↔ ReadsStored grid paidTx 0) ∧
    getOuts grid onlyOutput () [(⟨0, walletKey, paidCommitment, 7⟩, none)] 1
        (fun is => .ok (is.map (nodeWith paidCommitment))) ≠
      .error (.realOutputNotReturned 0) := by
  have hscan : scanTransaction grid paidTx walletKeys = .ok [paidReceived] := by decide +kernel
  have hstored : storedOutputs grid paidTx = .ok [⟨0, some paidCommitment⟩] := by decide +kernel
  have hnull : paidTx.rctSignatures.ty.isNull = false := rfl
  have hreads : ReadsStored grid paidTx 0 := by
    intro h
    rw [hnull] at h
    cases h
  obtain ⟨hiff, hget⟩ := holdings_stored_iff grid_encodes hscan List.mem_cons_self hstored rfl rfl
  refine ⟨hiff, ?_⟩
  apply (hget Unit onlyOutput () _ 1 (nodeWith paidCommitment) _ none List.mem_cons_self
    (by decide +kernel) rfl (by simp)).1 hreads
  exact ⟨by decide, by simp⟩

/-- The coinbase of version 2: the wallet has found its three coins, and names a commitment for
    them that the node never stored. -/
theorem mined_not_spendable :
    scanTransaction grid minedTx walletKeys = .ok [minedReceived] ∧
    storedOutputs grid minedTx = .ok [⟨0, some (grid.zeroCommit 3)⟩] ∧
    minedReceived.real grid 0 7 = some ⟨0, walletKey, grid.commit 3 0, 7⟩ ∧
    grid.commit 3 0 ≠ grid.zeroCommit 3 ∧
    getOuts grid onlyOutput () [(⟨0, walletKey, grid.commit 3 0, 7⟩, none)] 1
        (fun is => .ok (is.map (nodeWith (grid.zeroCommit 3)))) =
      .error (.realOutputNotReturned 0) := by
  decide +kernel

end Wownero

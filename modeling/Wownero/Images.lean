import Mathlib.GroupTheory.OrderOfElement
import Mathlib.Tactic.IntervalCases
import Wownero.Holdings
import Wownero.SpentRuns
/-!
# One image for each key

The image of an output is computed from the secret of its key, which the wallet derives in one way
or another: from the transaction's key or from one of its own, for its main address or for a
subaddress.  Whatever the way, it is the one scalar that gives the key, so the image is a function of
the key.  That no two keys share an image is left to the hash.
-/

namespace Wownero

open Outcome Wownero.Archive

/-- What else the curve library promises: what was encoded is decoded, and the base point has the
    order of the scalars. -/
structure Crypto.Curve (C : Crypto) : Prop extends C.Encodes where
  decode_encode : ∀ p, C.decodePoint (C.encodePoint p) = some p
  order : addOrderOf C.basepoint = C.ell

/-- The keys of a wallet go together: the spend key gives the address, and the table its
    subaddresses. -/
structure ScanKeys.Owned (C : Crypto) (keys : ScanKeys) : Prop where
  spend : ∀ b, keys.spendSecretKey = some b →
    ∃ s, C.decodeScalar b = some s ∧ keys.address.spendPublicKey = C.encodePoint (s • C.basepoint)
  table : keys.subaddresses.Faithful C keys.address keys.viewSecretKey

open Classical in
/-- The image of a key: of its own point, under the scalar that gives the key. -/
noncomputable def Crypto.imageOf (C : Crypto) (p : PublicKey) : Option KeyImage :=
  if h : ∃ s, s < C.ell ∧ C.decodePoint p = some (s • C.basepoint) then
    (C.hashToEcPoint p).map fun q => C.encodePoint (h.choose • q)
  else none

/-- The images of the outputs a wallet finds.  Without a spend key it computes none. -/
noncomputable def ScanKeys.imageFor (C : Crypto) (keys : ScanKeys) (p : PublicKey) : Option KeyImage :=
  if keys.spendSecretKey.isSome then C.imageOf p else none

variable {C : Crypto}

theorem Crypto.Curve.imageOf_eq (hC : C.Curve) {p : PublicKey} {s : Nat} (hs : s < C.ell)
    (hp : C.decodePoint p = some (s • C.basepoint)) :
    C.imageOf p = (C.hashToEcPoint p).map fun q => C.encodePoint (s • q) := by
  have h : ∃ s, s < C.ell ∧ C.decodePoint p = some (s • C.basepoint) := ⟨s, hs, hp⟩
  obtain ⟨hlt, hchoose⟩ := h.choose_spec
  replace hchoose := Option.some.inj (hp.symm.trans hchoose)
  rw [nsmul_eq_nsmul_iff_modEq, hC.order] at hchoose
  have hsame : h.choose = s := by
    have := hchoose.symm
    rwa [Nat.ModEq, Nat.mod_eq_of_lt hlt, Nat.mod_eq_of_lt hs] at this
  rw [Crypto.imageOf, dif_pos h, hsame]

theorem Crypto.Curve.mod_smul (hC : C.Curve) (n : Nat) :
    (n % C.ell) • C.basepoint = n • C.basepoint := by
  rw [← hC.order]
  exact mod_addOrderOf_nsmul C.basepoint n

/-! ### The derived scalar -/

theorem Crypto.Encodes.reduceScalar_scalarBytes (hC : C.Encodes) {s : Nat} (h : s < C.ell) :
    C.reduceScalar (Crypto.scalarBytes s) = s := by
  have hlt : s < 256 ^ 32 := lt_of_lt_of_le h hC.ell_le
  rw [Crypto.reduceScalar, Crypto.scalarBytes, toBytes_ofBytes (length_leBytes 32 s), leNat_leBytes,
    Nat.mod_eq_of_lt hlt, Nat.mod_eq_of_lt h]

theorem reduceScalar_of_decode {b : EcScalar} {s : Nat} (h : C.decodeScalar b = some s) :
    C.reduceScalar b = s := by
  unfold Crypto.decodeScalar at h
  unfold Crypto.reduceScalar
  simp only at h
  split at h
  · rename_i hlt
    rw [Option.some.injEq] at h
    rw [Nat.mod_eq_of_lt hlt, h]
  · cases h

theorem decodeScalar_lt {b : EcScalar} {s : Nat} (h : C.decodeScalar b = some s) : s < C.ell := by
  unfold Crypto.decodeScalar at h
  simp only at h
  split at h
  · rename_i hlt
    rw [Option.some.injEq] at h
    rwa [← h]
  · cases h

/-- The secret the wallet derives for an output it owns gives the key of the output. -/
theorem outputKeyImage_eq (hC : C.Curve) {keys : ScanKeys} (hkeys : keys.Owned C) {b : SecretKey}
    (hb : keys.spendSecretKey = some b) {index : Nat} {outKey : PublicKey} {tag : Option UInt8}
    {d : KeyDerivation} {sub : SubaddressIndex}
    (howned : ownedUnder C keys index outKey tag d = some sub) :
    outputKeyImage C outKey d index sub keys b = C.imageOf outKey := by
  obtain ⟨s, hs, haddress⟩ := hkeys.spend b hb
  -- Whose key it is, under the derivation.
  unfold ownedUnder at howned
  split at howned
  · cases howned
  obtain ⟨base, hbase, hget⟩ := Option.bind_eq_some_iff.mp howned
  obtain ⟨p, hp, hbase⟩ := Option.map_eq_some_iff.mp hbase
  obtain ⟨l₁, l₂, hrows, -⟩ := List.lookup_eq_some_iff.mp hget
  obtain ⟨spendAddress, hsub, hspend⟩ := hkeys.table (base, sub) (by rw [hrows]; simp)
  replace hspend : spendAddress.spendPublicKey = base := hspend
  have hscalar : C.derivationScalar d index < C.ell := hashToScalar_lt hC.toEncodes _
  have hderive : C.deriveSecretKey d index b =
      Crypto.scalarBytes ((s + C.derivationScalar d index) % C.ell) := by
    rw [Crypto.deriveSecretKey, Crypto.scAdd, reduceScalar_of_decode hs, Crypto.derivationToScalar,
      hC.reduceScalar_scalarBytes hscalar]
  -- The scalar, and that it gives the point of the key.
  obtain ⟨x, hx, hpoint, hsecret⟩ : ∃ x, x < C.ell ∧ p = x • C.basepoint ∧
      (if sub.isMain then C.deriveSecretKey d index b
        else C.scAdd (C.deriveSecretKey d index b)
          (C.subaddressSecretKey keys.viewSecretKey sub)) = Crypto.scalarBytes x := by
    unfold Crypto.getSubaddress at hsub
    by_cases hmain : sub.isMain = true
    · rw [if_pos hmain, Option.some.injEq] at hsub
      refine ⟨_, Nat.mod_lt _ hC.ell_pos, ?_, by rw [if_pos hmain, hderive]⟩
      have heq : p - C.derivationScalar d index • C.basepoint = s • C.basepoint := by
        apply hC.encode_injective
        rw [hbase, ← haddress, hsub, hspend]
      rw [hC.mod_smul, add_nsmul, ← heq, sub_add_cancel]
    · rw [if_neg hmain] at hsub
      have hm : C.subaddressScalar keys.viewSecretKey sub < C.ell := hashToScalar_lt hC.toEncodes _
      simp only [Option.bind_eq_bind, Option.bind_eq_some_iff, Option.pure_def, Option.some.injEq] at hsub
      obtain ⟨q, hq, a, -, hsub⟩ := hsub
      rw [haddress, hC.decode_encode, Option.some.injEq] at hq
      rw [Crypto.subaddressSecretKey, hC.reduceScalar_scalarBytes hm, ← hq] at hsub
      refine ⟨((s + C.derivationScalar d index) % C.ell +
        C.subaddressScalar keys.viewSecretKey sub) % C.ell, Nat.mod_lt _ hC.ell_pos, ?_, ?_⟩
      · have heq : p - C.derivationScalar d index • C.basepoint =
            s • C.basepoint + C.subaddressScalar keys.viewSecretKey sub • C.basepoint := by
          apply hC.encode_injective
          rw [hbase, ← hspend, ← hsub]
        rw [hC.mod_smul, add_nsmul, hC.mod_smul, add_nsmul, add_right_comm, ← heq, sub_add_cancel]
      · rw [if_neg hmain, hderive, Crypto.scAdd, Crypto.subaddressSecretKey,
          hC.reduceScalar_scalarBytes (Nat.mod_lt _ hC.ell_pos), hC.reduceScalar_scalarBytes hm]
  rw [hC.imageOf_eq hx (by rw [hp, hpoint]), outputKeyImage, hsecret,
    Crypto.generateKeyImage, decodeScalar_scalarBytes hC.toEncodes hx]
  cases C.hashToEcPoint outKey <;> rfl

/-! ### Every output found -/

theorem scanCandidates_image {tx : Transaction} {keys : ScanKeys} {index clearAmount : Nat}
    {outKey : PublicKey} {viewTag : Option UInt8} {ds : List KeyDerivation} {r : Received}
    (h : scanCandidates C tx keys index clearAmount outKey viewTag ds = .ok (some r)) :
    ∃ d sub, ownedUnder C keys index outKey viewTag d = some sub ∧ r.publicKey = outKey ∧
      r.keyImage = keys.spendSecretKey.bind fun b => outputKeyImage C outKey d index sub keys b := by
  induction ds with
  | nil => cases h
  | cons d ds ih =>
      rw [scanCandidates] at h
      split at h
      · exact ih h
      · rename_i sub howned
        obtain ⟨⟨amount, mask⟩, -, h⟩ := bind_eq_ok.mp h
        simp only at h
        split_ifs at h
        · cases h
        · cases h
          exact ⟨d, sub, howned, rfl, rfl⟩

theorem scanOutput_image {tx : Transaction} {keys : ScanKeys} {d : Derivations} {index : Nat}
    {out : TxOut} {r : Received} (h : scanOutput C tx keys d index out = .ok (some r)) :
    ∃ tag d sub, ownedUnder C keys index r.publicKey tag d = some sub ∧
      r.keyImage = keys.spendSecretKey.bind fun b =>
        outputKeyImage C r.publicKey d index sub keys b := by
  unfold scanOutput at h
  split at h
  · cases h
  · rename_i outKey viewTag _
    obtain ⟨d, sub, howned, rfl, himage⟩ := scanCandidates_image h
    exact ⟨viewTag, d, sub, howned, himage⟩

/-- Every output a wallet finds has the image of its key. -/
theorem finds_imageFor (hC : C.Curve) {keys : ScanKeys} (hkeys : keys.Owned C) :
    WalletState.Finds C keys (keys.imageFor C) := by
  intro tx r hr
  unfold WalletState.foundIn at hr
  cases hscan : scanTransaction C tx keys with
  | error e =>
      rw [hscan] at hr
      cases hr
  | ok found =>
      rw [hscan] at hr
      replace hr : r ∈ found := hr
      unfold scanTransaction scanTransactionWith at hscan
      simp only at hscan
      split at hscan
      · cases hscan
      · obtain ⟨i, out, -, hout⟩ := scanOutputs_found hscan hr
        obtain ⟨tag, d, sub, howned, himage⟩ := scanOutput_image hout
        rw [himage]
        unfold ScanKeys.imageFor
        cases hb : keys.spendSecretKey with
        | none => rfl
        | some b => exact outputKeyImage_eq hC hkeys hb howned

theorem apart_imageFor (h : WalletState.Apart C.imageOf) (keys : ScanKeys) :
    WalletState.Apart (keys.imageFor C) := by
  intro p q k hp hq
  unfold ScanKeys.imageFor at hp hq
  split at hp
  · rename_i hsome
    rw [if_pos hsome] at hq
    exact h p q k hp hq
  · cases hp

/-! ### From an empty wallet -/

/-- Along every run of sends, judgements, pool readings, scans and detaches that starts from an empty
    wallet, the marks of its outputs are those of the chain and of what is pending. -/
theorem SpendLedger.run_spent_means_spent (hC : C.Curve) (hapart : WalletState.Apart C.imageOf)
    {account : AccountKeys} {subaddresses : SubaddressTable} {startHeight : Nat} {genesis : Hash256}
    {checkpoint : Option (Nat × Hash256)}
    (hkeys : (start account subaddresses startHeight genesis checkpoint).wallet.keys.Owned C)
    {events : List WalletEvent}
    (halong : (start account subaddresses startHeight genesis checkpoint).Along C events) :
    ((start account subaddresses startHeight genesis checkpoint).run C events).SpentMeansSpent ∧
      (∀ pool now, ((start account subaddresses startHeight genesis checkpoint).run C
        events).GivesBack pool now) ∧
      ∀ height, ((start account subaddresses startHeight genesis checkpoint).run C
        events).PendingAgain height := by
  have hbooks := (balanced_start account subaddresses startHeight genesis checkpoint).run
    (apart_imageFor hapart _) (finds_imageFor hC hkeys) halong
  exact ⟨hbooks.spentMeansSpent, hbooks.givesBack, hbooks.pendingAgain (apart_imageFor hapart _)⟩

namespace Sample

instance : Fintype grid.Point := inferInstanceAs (Fintype (Fin 5 × Fin 5))

theorem grid_curve : grid.Curve where
  toEncodes := grid_encodes
  decode_encode := by
    decide
  order := by
    have : Fact (Nat.Prime 5) := ⟨by decide⟩
    show addOrderOf ((1, 0) : Fin 5 × Fin 5) = 5
    exact addOrderOf_eq_prime (by decide) (by decide)

theorem grid_imageOf {p : PublicKey} {k : KeyImage} (h : grid.imageOf p = some k) :
    ∃ s < 5, p.toNat = 5 * s ∧ k = grid.encodePoint (s • grid.mul8 (0, 1)) := by
  have hex : ∃ s, s < grid.ell ∧ grid.decodePoint p = some (s • grid.basepoint) := by
    by_contra hnot
    rw [Crypto.imageOf, dif_neg hnot] at h
    cases h
  obtain ⟨s, hs, hp⟩ := hex
  rw [grid_curve.imageOf_eq hs hp] at h
  have hpoint : grid.hashToEcPoint p = some (grid.mul8 (0, 1)) := by
    show (grid.decodePoint 1).map grid.mul8 = _
    decide
  rw [hpoint, Option.map_some, Option.some.injEq] at h
  refine ⟨s, hs, ?_, h.symm⟩
  replace hs : s < 5 := hs
  replace hp : (if p.toNat < 25 then some (Fin.ofNat 5 (p.toNat / 5), Fin.ofNat 5 p.toNat) else none) =
      some ((s • (1, 0) : Fin 5 × Fin 5)) := hp
  split at hp
  · have hmul : (s • (1, 0) : Fin 5 × Fin 5) = (Fin.ofNat 5 s, 0) := by
      interval_cases s <;> decide
    rw [hmul, Option.some.injEq, Prod.mk.injEq, Fin.ext_iff, Fin.ext_iff] at hp
    simp only [Fin.ofNat_eq_cast, Fin.val_natCast, Fin.val_zero] at hp
    omega
  · cases hp

theorem grid_apart : WalletState.Apart grid.imageOf := by
  intro p q k hp hq
  obtain ⟨s, hs, hps, rfl⟩ := grid_imageOf hp
  obtain ⟨t, ht, hqt, heq⟩ := grid_imageOf hq
  have hsame : s = t := by
    interval_cases s <;> interval_cases t <;> first | rfl | exact absurd heq (by decide)
  apply BitVec.eq_of_toNat_eq
  rw [hps, hqt, hsame]

/-- The account of the sample wallet. -/
def account : AccountKeys := ⟨⟨10, 5⟩, Crypto.scalarBytes 2, Crypto.scalarBytes 1⟩

/-- The sample wallet, empty, on a chain of genesis only. -/
def emptyWallet : SpendLedger := .start account ⟨[(10, .main)], [1]⟩ 0 7 none

theorem emptyWallet_owned : emptyWallet.wallet.keys.Owned grid where
  spend b hb := by
    have hkey : emptyWallet.wallet.keys.spendSecretKey = some (Crypto.scalarBytes 2) := by
      decide
    rw [hkey, Option.some.injEq] at hb
    exact ⟨2, by rw [← hb]; decide, by decide⟩
  table := by
    intro row hrow
    obtain rfl : row = (10, .main) := List.mem_singleton.mp hrow
    exact ⟨⟨10, 5⟩, by decide, rfl⟩

/-- A block whose coinbase pays the wallet. -/
def payingBlock : Block := { header := ⟨11, 11, 300, 7, 0, Signature.zero, 0⟩, minerTx := minedTx }

/-- A plan that spends the output it pays. -/
def spendingPlan : SpendPlan := ⟨[0], [1], 1, 1⟩

/-- The wallet is paid, sends what it was paid, and the node gives the chain up. -/
def paidThenSpent : List WalletEvent :=
  [.scan payingBlock 1 ⟨[], [], [], false⟩, .recordSent 9 spendingPlan [] none 5, .detach 1]

theorem paidThenSpent_along : emptyWallet.Along grid paidThenSpent := by
  refine ⟨⟨by decide, by simp, ⟨?_, trivial⟩, ?_⟩, ⟨⟨?_, ?_⟩, ?_⟩, trivial, trivial⟩
  · rintro r - - k -
    exact fun ⟨h, hmem⟩ => List.not_mem_nil hmem
  · rintro p - s hs
    cases hs
  · intro i hi
    obtain rfl : i = 0 := List.mem_singleton.mp hi
    have hfound : ((emptyWallet.act grid (.scan payingBlock 1 ⟨[], [], [], false⟩)).wallet.transfers[0]?).map
        (·.spent) = some false := by decide +kernel
    exact Option.map_eq_some_iff.mp hfound
  · intro i hi t ht hnone
    obtain rfl : i = 0 := List.mem_singleton.mp hi
    have hknown : ((emptyWallet.act grid (.scan payingBlock 1 ⟨[], [], [], false⟩)).wallet.transfers[0]?).map
        (·.keyImage.isSome) = some true := by decide +kernel
    rw [ht, Option.map_some, hnone] at hknown
    cases hknown
  · have hsent : (emptyWallet.act grid (.scan payingBlock 1 ⟨[], [], [], false⟩)).wallet.sent = [] := by
      decide +kernel
    rw [hsent]
    exact fun s hs => absurd hs List.not_mem_nil

theorem paidThenSpent_spent_means_spent :
    emptyWallet.Along grid paidThenSpent ∧ (emptyWallet.run grid paidThenSpent).SpentMeansSpent :=
  ⟨paidThenSpent_along,
    (SpendLedger.run_spent_means_spent grid_curve grid_apart emptyWallet_owned paidThenSpent_along).1⟩

/-- The image of the output it pays. -/
def paidImage : KeyImage := minedReceived.keyImage.getD 0

/-- A transaction that spends that output, pruned. -/
def spendingBlob : Blob := (TransactionPrefix.mk 2 0 [.toKey 0 [1] paidImage] [] []).write ++ [0]

/-- A block that lists two transactions. -/
def spendingBlock : Block :=
  { header := ⟨11, 11, 600, 1, 0, Signature.zero, 0⟩
    minerTx := coinbase 2 62 []
    txHashes := [8, 9] }

/-- The second of its transactions cannot be read. -/
def brokenBundle : BlockBundle := ⟨[], [spendingBlob, []], [], true⟩

/-- A block is refused at its second transaction, after the first was scanned: the output it spends
    is marked with the height of a block the wallet does not have. -/
theorem refused_block_spends :
    (emptyWallet.run grid [.scan payingBlock 1 ⟨[], [], [], false⟩,
      .scan spendingBlock 2 brokenBundle]).wallet.hashes = [7, 1] ∧
    (emptyWallet.run grid [.scan payingBlock 1 ⟨[], [], [], false⟩,
      .scan spendingBlock 2 brokenBundle]).wallet.transfers.map (fun t => (t.spent, t.spentHeight)) =
        [(true, 2)] ∧
    ¬ (emptyWallet.run grid [.scan payingBlock 1 ⟨[], [], [], false⟩,
      .scan spendingBlock 2 brokenBundle]).SpentMeansSpent := by
  have hmarks : (emptyWallet.run grid [.scan payingBlock 1 ⟨[], [], [], false⟩,
      .scan spendingBlock 2 brokenBundle]).wallet.transfers.map (fun t => (t.spent, t.spentHeight)) =
        [(true, 2)] := by decide +kernel
  have hspends : (emptyWallet.run grid [.scan payingBlock 1 ⟨[], [], [], false⟩,
      .scan spendingBlock 2 brokenBundle]).spends = [] := by decide +kernel
  refine ⟨by decide +kernel, hmarks, ?_⟩
  intro hmeans
  generalize emptyWallet.run grid [.scan payingBlock 1 ⟨[], [], [], false⟩,
      .scan spendingBlock 2 brokenBundle] = l at hmarks hspends hmeans
  obtain ⟨t, ht, hmark⟩ := List.mem_map.mp (hmarks ▸ List.mem_singleton_self (true, 2))
  obtain ⟨-, hheight⟩ := hmeans t ht
  obtain ⟨k, -, h, hmem⟩ := hheight.mp (by rw [(Prod.mk.inj hmark).2]; decide)
  rw [hspends] at hmem
  cases hmem

end Sample

end Wownero

import Wownero.Mempool
import Wownero.Outcome
/-!
# What the verification of a transaction depends on

A transaction verifies when its own parts fit together and every input passes against the store,
the height, the version and the clock.  A pass survives a store that keeps its outputs, a higher
chain and a later clock; a version is looked at for nothing but the age of ring members.
-/

namespace Wownero.Mempool

open Wownero Wownero.TxRules Outcome

variable {C : Crypto}

/-- One input passes against the chain. -/
structure InputPassed (C : Crypto) (t : MainTables) (hfVersion chainHeight now : Nat)
    (full : Hash256) (sig : Clsag) (pseudoOut : EcPoint) (keyOffsets : List Nat)
    (kImage : KeyImage) (keys : List OutputData) : Prop where
  resolved : resolveRing C t keyOffsets = .ok keys
  unlocked : ∀ m ∈ keys, isTxSpendtimeUnlocked m.unlockTime chainHeight now = true
  aged : checkMinOutputAge hfVersion (newestMember keys) chainHeight = .ok ()
  signed : C.clsagVerify full sig kImage (ringMembers keys) pseudoOut = .ok ()

theorem checkRingMembers_ok {members : List OutputData} {slot chainHeight hfVersion now : Nat} :
    checkRingMembers members slot chainHeight hfVersion now = .ok () ↔
      (∀ m ∈ members, isTxSpendtimeUnlocked m.unlockTime chainHeight now = true) ∧
        checkMinOutputAge hfVersion (newestMember members) chainHeight = .ok () := by
  unfold checkRingMembers
  cases hlocked : lockedMember chainHeight now members with
  | some m =>
      have hm := List.find?_some hlocked
      constructor
      · intro h
        cases h
      · rintro ⟨hall, _⟩
        rw [hall m (List.mem_of_find?_eq_some hlocked)] at hm
        cases hm
  | none =>
      have hall : ∀ m ∈ members, isTxSpendtimeUnlocked m.unlockTime chainHeight now = true := by
        intro m hm
        simpa using List.find?_eq_none.mp hlocked m hm
      cases hage : checkMinOutputAge hfVersion (newestMember members) chainHeight with
      | ok u => simpa using hall
      | error e => simp

theorem checkSignature_ok {full : Hash256} {slot : Nat} {keys : List OutputData}
    {kImage : KeyImage} {sig : Clsag} {pseudoOut : EcPoint} :
    checkSignature C full slot keys kImage sig pseudoOut = .ok () ↔
      C.clsagVerify full sig kImage (ringMembers keys) pseudoOut = .ok () := by
  unfold checkSignature
  cases C.clsagVerify full sig kImage (ringMembers keys) pseudoOut with
  | ok u => simp
  | error e => simp

theorem checkInput_ok {t : MainTables} {hfVersion chainHeight now : Nat} {full : Hash256}
    {slot : Nat} {input : TxIn} {sig : Clsag} {pseudoOut : EcPoint} :
    checkInput C t hfVersion chainHeight now full slot input sig pseudoOut = .ok () ↔
      ∃ amount keyOffsets kImage keys, input = .toKey amount keyOffsets kImage ∧
        InputPassed C t hfVersion chainHeight now full sig pseudoOut keyOffsets kImage keys := by
  cases input with
  | toKey amount keyOffsets kImage =>
      simp only [checkInput, bind_eq_ok, checkSignature_ok]
      constructor
      · rintro ⟨keys, hkeys, ⟨⟩, hmembers, hsigned⟩
        obtain ⟨hunlocked, haged⟩ := checkRingMembers_ok.mp hmembers
        exact ⟨amount, keyOffsets, kImage, keys, rfl, hkeys, hunlocked, haged, hsigned⟩
      · rintro ⟨_, _, _, keys, heq, h⟩
        cases heq
        exact ⟨keys, h.resolved, (), checkRingMembers_ok.mpr ⟨h.unlocked, h.aged⟩, h.signed⟩
  | gen height => simp [checkInput]
  | toScript a b c => simp [checkInput]
  | toScriptHash a b c d => simp [checkInput]

theorem checkInputs_ok {t : MainTables} {hfVersion chainHeight now : Nat} {full : Hash256}
    (slot : Nat) (inputs : List (TxIn × Clsag × EcPoint)) :
    checkInputs C t hfVersion chainHeight now full slot inputs = .ok () ↔
      ∀ p ∈ inputs, ∃ amount keyOffsets kImage keys, p.1 = .toKey amount keyOffsets kImage ∧
        InputPassed C t hfVersion chainHeight now full p.2.1 p.2.2 keyOffsets kImage keys := by
  induction inputs generalizing slot with
  | nil => simp [checkInputs]
  | cons p rest ih =>
      obtain ⟨input, sig, pseudoOut⟩ := p
      simp only [checkInputs, bind_eq_ok, List.forall_mem_cons, ih (slot + 1)]
      constructor
      · rintro ⟨u, hone, hrest⟩
        exact ⟨checkInput_ok.mp hone, hrest⟩
      · rintro ⟨hone, hrest⟩
        exact ⟨(), checkInput_ok.mpr hone, hrest⟩

/-- The inputs of a transaction, each with its signature and its commitment. -/
def signedInputs (tx : Transaction) : List (TxIn × Clsag × EcPoint) :=
  tx.txPrefix.vin.zip (tx.rctSignatures.clsags.zip tx.rctSignatures.pseudoOuts)

/-- **What `verify` asks**, as a list of facts. -/
theorem verify_ok {t : MainTables} {tx : Transaction} {hfVersion chainHeight now : Nat} :
    verify C t tx hfVersion chainHeight now = .ok () ↔
      checkShape C tx = .ok () ∧
        ∀ p ∈ signedInputs tx, ∃ amount keyOffsets kImage keys,
          p.1 = .toKey amount keyOffsets kImage ∧
          InputPassed C t hfVersion chainHeight now (signedMessage C tx) p.2.1 p.2.2 keyOffsets
            kImage keys := by
  simp only [verify, bind_eq_ok]
  constructor
  · rintro ⟨u, hshape, hinputs⟩
    exact ⟨hshape, (checkInputs_ok 0 _).mp hinputs⟩
  · rintro ⟨hshape, hinputs⟩
    exact ⟨(), hshape, (checkInputs_ok 0 _).mpr hinputs⟩

/-- What the shape of a verified transaction is. -/
structure Shaped (tx : Transaction) : Prop where
  bulletproofPlus : tx.rctSignatures.ty.isBulletproofPlus = true
  twoOutputs : 2 ≤ tx.txPrefix.vout.length
  clsags : tx.rctSignatures.clsags.length = tx.txPrefix.vin.length
  pseudoOuts : tx.rctSignatures.pseudoOuts.length = tx.txPrefix.vin.length
  proof : tx.rctSignatures.bulletproofsPlus ≠ []

theorem shaped_of_checkShape {tx : Transaction} (h : checkShape C tx = .ok ()) : Shaped tx := by
  unfold checkShape at h
  simp only at h
  rw [if_ok_iff, if_ok_iff, if_ok_iff, bind_eq_ok] at h
  obtain ⟨hty, hout, hlen, u, hproof, _⟩ := h
  refine ⟨by simpa using hty, by omega, by omega, by omega, ?_⟩
  intro hnil
  rw [checkRangeProof, hnil] at hproof
  cases hproof

/-- Every input of a transaction of that shape has a signature and a commitment. -/
theorem Shaped.signed {tx : Transaction} (h : Shaped tx) {input : TxIn}
    (hin : input ∈ tx.txPrefix.vin) : ∃ p ∈ signedInputs tx, p.1 = input := by
  have hmap : (signedInputs tx).map Prod.fst = tx.txPrefix.vin := by
    refine List.map_fst_zip ?_
    rw [List.length_zip, h.clsags, h.pseudoOuts]
    omega
  rw [← hmap] at hin
  exact List.mem_map.mp hin

/-! ### What a pass survives -/

/-- Every output of one store is still there in the other. -/
def KeepsOutputs (t t' : MainTables) : Prop :=
  ∀ key out, t.outputAmounts.get key = some out → t'.outputAmounts.get key = some out

theorem KeepsOutputs.refl (t : MainTables) : KeepsOutputs t t := fun _ _ h => h

theorem KeepsOutputs.trans {t t' t'' : MainTables} (h : KeepsOutputs t t')
    (h' : KeepsOutputs t' t'') : KeepsOutputs t t'' := fun key out hget => h' key out (h key out hget)

theorem KeepsOutputs.resolveRing {t t' : MainTables} (h : KeepsOutputs t t')
    {keyOffsets : List Nat} {keys : List OutputData} (hr : resolveRing C t keyOffsets = .ok keys) :
    resolveRing C t' keyOffsets = .ok keys := by
  unfold Mempool.resolveRing at hr ⊢
  cases habs : toAbsolute keyOffsets with
  | none =>
      rw [habs] at hr
      cases hr
  | some absolute =>
      rw [habs] at hr
      simp only at hr ⊢
      cases hkeys : t.getOutputKeys C 0 absolute with
      | error e =>
          rw [hkeys] at hr
          cases hr
      | ok found =>
          rw [hkeys] at hr
          cases hr
          have hkept : t'.getOutputKeys C 0 absolute = .ok keys := by
            refine mapM_ok_mono ?_ hkeys
            intro offset out hout
            rw [map_eq_ok] at hout ⊢
            obtain ⟨k, hk, rfl⟩ := hout
            refine ⟨k, ?_, rfl⟩
            cases hget : t.outputAmounts.get (0, offset) with
            | none =>
                rw [hget] at hk
                cases hk
            | some k' =>
                rw [hget] at hk
                rw [h _ _ hget]
                exact hk
          rw [hkept]

theorem isTxSpendtimeUnlocked_iff {unlockTime h now : Nat} :
    isTxSpendtimeUnlocked unlockTime h now = true ↔
      if unlockTime < cryptonoteMaxBlockNumber then unlockTime ≤ wrap64 (h - 1 + 1)
      else unlockTime ≤ saturatingAdd now 300 := by
  unfold isTxSpendtimeUnlocked
  split_ifs <;> simp

theorem unlocked_mono {unlockTime h h' n n' : Nat} (hh : h ≤ h') (hfits : h' ≤ u64Max)
    (hn : n ≤ n') (hu : isTxSpendtimeUnlocked unlockTime h n = true) :
    isTxSpendtimeUnlocked unlockTime h' n' = true := by
  have hmax : u64Max = 18446744073709551615 := rfl
  rw [isTxSpendtimeUnlocked_iff] at hu ⊢
  split_ifs at hu ⊢ with hblock
  · -- A height below the top of the type does not wrap, and the top itself is above every
    -- unlock height.
    unfold wrap64 at hu ⊢
    unfold cryptonoteMaxBlockNumber at hblock
    omega
  · unfold saturatingAdd at hu ⊢
    omega

/-- A pass looks at the clock for the ring members it resolves, and for nothing else. -/
theorem verify_clock {t : MainTables} {tx : Transaction} {v h n n' : Nat}
    (hverified : verify C t tx v h n = .ok ())
    (hmembers : ∀ amount keyOffsets kImage, .toKey amount keyOffsets kImage ∈ tx.txPrefix.vin →
      ∀ keys, resolveRing C t keyOffsets = .ok keys → ∀ m ∈ keys,
        isTxSpendtimeUnlocked m.unlockTime h n = true →
        isTxSpendtimeUnlocked m.unlockTime h n' = true) :
    verify C t tx v h n' = .ok () := by
  rw [verify_ok] at hverified ⊢
  obtain ⟨hshape, hinputs⟩ := hverified
  refine ⟨hshape, ?_⟩
  intro p hp
  obtain ⟨amount, keyOffsets, kImage, keys, heq, hpassed⟩ := hinputs p hp
  have hin : p.1 ∈ tx.txPrefix.vin := (List.of_mem_zip hp).1
  rw [heq] at hin
  exact ⟨amount, keyOffsets, kImage, keys, heq, hpassed.resolved,
    fun m hm => hmembers amount keyOffsets kImage hin keys hpassed.resolved m hm
      (hpassed.unlocked m hm), hpassed.aged, hpassed.signed⟩

/-- Every ring member of a verified transaction is unlocked. -/
theorem verify_unlocked {t : MainTables} {tx : Transaction} {v h n : Nat}
    (hverified : verify C t tx v h n = .ok ()) {amount : Nat} {keyOffsets : List Nat}
    {kImage : KeyImage} (hin : .toKey amount keyOffsets kImage ∈ tx.txPrefix.vin)
    {keys : List OutputData} (hkeys : resolveRing C t keyOffsets = .ok keys) :
    ∀ m ∈ keys, isTxSpendtimeUnlocked m.unlockTime h n = true := by
  obtain ⟨hshape, hinputs⟩ := verify_ok.mp hverified
  obtain ⟨p, hp, hpe⟩ := (shaped_of_checkShape hshape).signed hin
  obtain ⟨_, _, _, keys', heq, hpassed⟩ := hinputs p hp
  rw [hpe] at heq
  cases heq
  have hresolved := hpassed.resolved
  rw [hkeys] at hresolved
  cases hresolved
  exact hpassed.unlocked

theorem aged_mono {v v' newest h h' : Nat} (hh : h ≤ h')
    (hv : hfVersionEnforceMinAge ≤ v ∨ v' < hfVersionEnforceMinAge)
    (ha : checkMinOutputAge v newest h = .ok ()) : checkMinOutputAge v' newest h' = .ok () := by
  unfold checkMinOutputAge at ha ⊢
  split_ifs at ha ⊢ <;> first | rfl | omega

/-- **A pass survives** a store that keeps its outputs, a higher chain, a later clock, and a
    version that does not begin to ask for the age of ring members. -/
theorem verify_mono {t t' : MainTables} {tx : Transaction} {v v' h h' n n' : Nat}
    (hverified : verify C t tx v h n = .ok ()) (hkeeps : KeepsOutputs t t') (hh : h ≤ h')
    (hfits : h' ≤ u64Max) (hn : n ≤ n')
    (hv : hfVersionEnforceMinAge ≤ v ∨ v' < hfVersionEnforceMinAge) :
    verify C t' tx v' h' n' = .ok () := by
  rw [verify_ok] at hverified ⊢
  obtain ⟨hshape, hinputs⟩ := hverified
  refine ⟨hshape, ?_⟩
  intro p hp
  obtain ⟨amount, keyOffsets, kImage, keys, heq, hpassed⟩ := hinputs p hp
  exact ⟨amount, keyOffsets, kImage, keys, heq, hkeeps.resolveRing hpassed.resolved,
    fun m hm => unlocked_mono hh hfits hn (hpassed.unlocked m hm),
    aged_mono hh hv hpassed.aged, hpassed.signed⟩

end Wownero.Mempool

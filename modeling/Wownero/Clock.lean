import Wownero.ChainTxs
import Wownero.Validation
/-!
# Where the clock enters

A block is held to the clock for its timestamp, and once more for every ring member of its
transactions that a time unlocks.  Two clocks that both allow the timestamp judge a block alike
as long as no such time lies between them.
-/

namespace Wownero

open Outcome Wownero.TxRules

/-! ### The node's verifier, left alone -/

/-- Nothing waits, nothing is being checked and nothing is to come. -/
structure ChainTxs.Idle (s : ChainTxs) : Prop where
  ready : ∀ id, s.ready.get id = none
  schedule : s.schedule = []

section

variable {C : Crypto} {trustedBelow : Nat}

theorem ChainTxs.Idle.interleave {s : ChainTxs} (h : s.Idle) (t : MainTables) :
    s.interleave C trustedBelow t = s := by
  unfold ChainTxs.interleave
  rw [h.schedule]

/-- Left alone, the verifier answers what the verification answers, and stays so. -/
theorem ChainTxs.Idle.verify {s : ChainTxs} (h : s.Idle) (C : Crypto) (trustedBelow : Nat)
    (t : MainTables) (hash : Hash256)
    (tx : Transaction) (version height now : Nat) :
    (((chainTxs C trustedBelow).verify s t hash tx version height now).1 = .ok () ↔
        Mempool.verify C t tx version height now = .ok ()) ∧
      ((chainTxs C trustedBelow).verify s t hash tx version height now).2.Idle := by
  have hanswer : (chainTxs C trustedBelow).verify s t hash tx version height now =
      s.answer C t hash tx version height now := by
    show (s.interleave C trustedBelow t).answer C t hash tx version height now = _
    rw [h.interleave]
  rw [hanswer, ChainTxs.answer, h.ready hash]
  cases Mempool.verify C t tx version height now with
  | ok u => exact ⟨by simp, ⟨h.ready, h.schedule⟩⟩
  | error r => exact ⟨by simp, h⟩

theorem ChainTxs.Idle.observe {s : ChainTxs} (h : s.Idle) (t : MainTables) :
    ((chainTxs C trustedBelow).observe s t).Idle := by
  have hlook : (s.look t).Idle := ⟨h.ready, h.schedule⟩
  show ((s.look t).interleave C trustedBelow t).Idle
  rw [hlook.interleave]
  exact hlook

theorem unlocked_later {unlockTime height now now' : Nat} (hle : now ≤ now')
    (h : isTxSpendtimeUnlocked unlockTime height now = true) :
    isTxSpendtimeUnlocked unlockTime height now' = true := by
  rw [Mempool.isTxSpendtimeUnlocked_iff] at h ⊢
  split_ifs at h ⊢ with hblock
  · exact h
  · unfold saturatingAdd at h ⊢
    omega

/-- **The node's verifier stands by its word** while it is left alone. -/
theorem chainTxs_steady {P : Params ChainTxs}
    (hverifier : P.txVerifier = some (chainTxs P.crypto P.trustedBelow)) :
    Steady P ChainTxs.Idle where
  verify := by
    intro V hV s t hash tx version height now hs
    rw [hverifier] at hV
    cases hV
    exact (hs.verify P.crypto P.trustedBelow t hash tx version height now).2
  observe := by
    intro V hV s t hs
    rw [hverifier] at hV
    cases hV
    exact hs.observe t
  later := by
    intro V hV s s' t hash tx version height now now' hs hs' hle h
    rw [hverifier] at hV
    cases hV
    rw [(hs.verify P.crypto P.trustedBelow t hash tx version height now).1] at h
    rw [(hs'.verify P.crypto P.trustedBelow t hash tx version height now').1]
    exact Mempool.verify_clock h fun _ _ _ _ _ _ _ _ hunlocked => unlocked_later hle hunlocked

end

/-! ### Two clocks -/

/-- No time that unlocks a ring member of the transaction lies between the two clocks. -/
def ClockFree (C : Crypto) (t : MainTables) (n₁ n₂ : Nat) (tx : Transaction) : Prop :=
  ∀ amount keyOffsets kImage, .toKey amount keyOffsets kImage ∈ tx.txPrefix.vin →
    ∀ keys, Mempool.resolveRing C t keyOffsets = .ok keys → ∀ m ∈ keys,
      cryptonoteMaxBlockNumber ≤ m.unlockTime →
      (m.unlockTime ≤ saturatingAdd n₁ 300 ↔ m.unlockTime ≤ saturatingAdd n₂ 300)

theorem ClockFree.symm {C : Crypto} {t : MainTables} {n₁ n₂ : Nat} {tx : Transaction}
    (h : ClockFree C t n₁ n₂ tx) : ClockFree C t n₂ n₁ tx :=
  fun amount keyOffsets kImage hin keys hkeys m hm htime =>
    (h amount keyOffsets kImage hin keys hkeys m hm htime).symm

theorem ClockFree.verify {C : Crypto} {t : MainTables} {n₁ n₂ v height : Nat} {tx : Transaction}
    (h : ClockFree C t n₁ n₂ tx) (hverified : Mempool.verify C t tx v height n₁ = .ok ()) :
    Mempool.verify C t tx v height n₂ = .ok () := by
  refine Mempool.verify_clock hverified ?_
  intro amount keyOffsets kImage hin keys hkeys m hm hunlocked
  rw [Mempool.isTxSpendtimeUnlocked_iff] at hunlocked ⊢
  split_ifs at hunlocked ⊢ with hblock
  · exact hunlocked
  · exact (h amount keyOffsets kImage hin keys hkeys m hm (by omega)).mp hunlocked

/-- A transaction that verifies at both clocks has no such time. -/
theorem clockFree_of_verify {C : Crypto} {t : MainTables} {n₁ n₂ v₁ v₂ height : Nat}
    {tx : Transaction} (h₁ : Mempool.verify C t tx v₁ height n₁ = .ok ())
    (h₂ : Mempool.verify C t tx v₂ height n₂ = .ok ()) : ClockFree C t n₁ n₂ tx := by
  intro amount keyOffsets kImage hin keys hkeys m hm htime
  have hu₁ := Mempool.verify_unlocked h₁ hin hkeys m hm
  have hu₂ := Mempool.verify_unlocked h₂ hin hkeys m hm
  rw [Mempool.isTxSpendtimeUnlocked_iff, if_neg (by omega)] at hu₁ hu₂
  exact ⟨fun _ => hu₂, fun _ => hu₁⟩

section

variable {P : Params ChainTxs}

theorem checkHardFork_version {net : Network} {height majorVersion vote : Nat}
    (h : checkHardFork net height majorVersion vote = true) :
    majorVersion = requiredVersion net height := by
  unfold checkHardFork at h
  simp at h
  exact h.1

/-- Steps 1 to 8 look at the clock for the timestamp alone. -/
theorem prechecks_clock {c : Chain ChainTxs} {blk : Block} {n₁ n₂ : Nat}
    (hversion : 8 ≤ blk.header.majorVersion) (htime : blk.header.timestamp ≤ n₂ + 600)
    (h : prechecks P c blk n₁ = .ok ()) : prechecks P c blk n₂ = .ok () := by
  rw [prechecks_ok] at h ⊢
  obtain ⟨h₁, h₂, hfork, htimestamp, h₅, h₆, h₇⟩ := h
  refine ⟨h₁, h₂, hfork, ?_, h₅, h₆, h₇⟩
  have hlimit : futureTimeLimit (currentVersion P c.db.main) = 600 := by
    unfold stepHardFork at hfork
    simp only at hfork
    split_ifs at hfork with hcheck
    have hmajor := checkHardFork_version hcheck
    rw [futureTimeLimit, currentVersion, if_pos]
    rw [Chain.height] at hmajor
    omega
  unfold stepTimestamp at htimestamp ⊢
  simp only at htimestamp ⊢
  split at htimestamp
  · cases htimestamp
  · rename_i recent hrecent
    unfold checkBlockTimestamp at htimestamp ⊢
    simp only [hlimit] at htimestamp ⊢
    by_cases hfar : blk.header.timestamp > saturatingAdd n₁ 600
    · rw [if_pos hfar] at htimestamp
      cases htimestamp
    · rw [if_neg hfar] at htimestamp
      rw [if_neg]
      · exact htimestamp
      · unfold saturatingAdd at hfar ⊢
        omega

/-- The block is accepted at a clock and leaves a store. -/
def StoresAt (P : Params ChainTxs) (c : Chain ChainTxs) (blk : Block) (blob : Blob)
    (txs : List (Transaction × Blob)) (now : Nat) (db : Store) : Prop :=
  ∃ added c', Chain.addBlock P c blk blob txs now = (.ok added, c') ∧ c'.db = db

/-- What one clock accepts the other accepts, if no unlock time lies between them. -/
theorem StoresAt.clock (hverifier : P.txVerifier = some (chainTxs P.crypto P.trustedBelow))
    {c : Chain ChainTxs} (hidle : c.verifier.Idle) {blk : Block} {blob : Blob}
    {txs : List (Transaction × Blob)} {n₁ n₂ : Nat} (hversion : 8 ≤ blk.header.majorVersion)
    (htime : blk.header.timestamp ≤ n₂ + 600)
    (hfree : ∀ p ∈ txs, ClockFree P.crypto c.db.main n₁ n₂ p.1) {db : Store}
    (h : StoresAt P c blk blob txs n₁ db) : StoresAt P c blk blob txs n₂ db := by
  obtain ⟨added, c', hadd, rfl⟩ := h
  obtain ⟨_, fees, reward, v, haccepted⟩ := addBlock_ok hadd
  have hpre := prechecks_clock hversion htime haccepted.prechecks
  have hrepeats : ∀ p ∈ txs, Repeats P ChainTxs.Idle c.db.main blk.header.majorVersion
      c.db.main.height n₁ n₂ p.1 := by
    intro p hp V hV s s' hash hs hs' hok
    rw [hverifier] at hV
    cases hV
    rw [(hs.verify ..).1] at hok
    rw [(hs'.verify ..).1]
    exact (hfree p hp).verify hok
  obtain ⟨v', htx⟩ := checkTransactions_again (chainTxs_steady hverifier) hidle hidle hrepeats
    haccepted.transactions
  obtain ⟨added', c'', hadd', hdb, _⟩ := accepted_again haccepted rfl rfl hpre htx
  refine ⟨added', c'', hadd', ?_⟩
  rw [hdb, ← haccepted.altBlocks]

/-- The verifier is asked about every transaction while it is left alone. -/
theorem checkTransactionsFrom_asked
    (hverifier : P.txVerifier = some (chainTxs P.crypto P.trustedBelow)) {t : MainTables}
    {version height now : Nat} (habove : P.trustedBelow ≤ height)
    {list : List (Hash256 × Transaction)} {i : Nat} {seen : List Hash256}
    {images : List KeyImage} {fees total : Nat} {v v' : ChainTxs} (hidle : v.Idle)
    (h : checkTransactionsFrom P t version height now i list seen images fees v =
      (.ok total, v')) :
    ∀ p ∈ list, Mempool.verify P.crypto t p.2 version height now = .ok () := by
  induction list generalizing i seen images fees v with
  | nil => nofun
  | cons p list ih =>
      obtain ⟨hash, tx⟩ := p
      obtain ⟨_, _, fee, v₁, images', htx, _, hrest⟩ := checkTransactionsFrom_cons.mp h
      have hasked := hidle.verify P.crypto P.trustedBelow t hash tx version height now
      rw [checkTx, if_neg (Nat.not_lt.mpr habove), hverifier] at htx
      simp only at htx
      split at htx
      · cases htx
      · split at htx
        · rename_i v₂ hverify
          cases htx
          rw [hverify] at hasked
          exact List.forall_mem_cons.mpr ⟨hasked.1.mp rfl, ih hasked.2 hrest⟩
        · cases htx

/-- The transactions of a block that is accepted above the trusted heights verify. -/
theorem StoresAt.verified (hverifier : P.txVerifier = some (chainTxs P.crypto P.trustedBelow))
    {c : Chain ChainTxs} (hidle : c.verifier.Idle) (habove : P.trustedBelow ≤ c.height)
    {blk : Block} {blob : Blob} {txs : List (Transaction × Blob)} {now : Nat} {db : Store}
    (h : StoresAt P c blk blob txs now db) :
    ∀ p ∈ txs, Mempool.verify P.crypto c.db.main p.1 blk.header.majorVersion c.db.main.height
      now = .ok () := by
  obtain ⟨added, c', hadd, _⟩ := h
  obtain ⟨_, fees, reward, v, haccepted⟩ := addBlock_ok hadd
  obtain ⟨hlen, hloop⟩ := checkTransactions_loop.mp haccepted.transactions
  intro p hp
  obtain ⟨q, hq, hqe⟩ := exists_mem_zip hlen hp
  rw [← hqe]
  exact checkTransactionsFrom_asked hverifier habove hidle hloop q hq

/-- **The clock and the block.**  At two clocks that both allow the timestamp of a block, the
    block is accepted alike if no time that unlocks a ring member lies between them; and a block
    that the later of the clocks accepts is accepted alike only then. -/
theorem clock_decides_unlock_times
    (hverifier : P.txVerifier = some (chainTxs P.crypto P.trustedBelow)) {c : Chain ChainTxs}
    (hidle : c.verifier.Idle) (habove : P.trustedBelow ≤ c.height) {blk : Block} {blob : Blob}
    {txs : List (Transaction × Blob)} {n₁ n₂ : Nat} (hversion : 16 ≤ blk.header.majorVersion)
    (htime₁ : blk.header.timestamp ≤ n₁ + 600) (htime₂ : blk.header.timestamp ≤ n₂ + 600) :
    ((∀ p ∈ txs, ClockFree P.crypto c.db.main n₁ n₂ p.1) →
        ∀ db, StoresAt P c blk blob txs n₁ db ↔ StoresAt P c blk blob txs n₂ db) ∧
      ∀ stored, StoresAt P c blk blob txs (max n₁ n₂) stored →
        (∀ db, StoresAt P c blk blob txs n₁ db ↔ StoresAt P c blk blob txs n₂ db) →
        ∀ p ∈ txs, ClockFree P.crypto c.db.main n₁ n₂ p.1 := by
  refine ⟨?_, ?_⟩
  · intro hfree db
    exact ⟨StoresAt.clock hverifier hidle (by omega) htime₂ hfree,
      StoresAt.clock hverifier hidle (by omega) htime₁ fun p hp => (hfree p hp).symm⟩
  · intro stored hstored halike p hp
    have hboth : StoresAt P c blk blob txs n₁ stored ∧ StoresAt P c blk blob txs n₂ stored := by
      rcases Nat.le_total n₁ n₂ with hle | hle
      · rw [Nat.max_eq_right hle] at hstored
        exact ⟨(halike stored).mpr hstored, hstored⟩
      · rw [Nat.max_eq_left hle] at hstored
        exact ⟨hstored, (halike stored).mp hstored⟩
    exact clockFree_of_verify (hboth.1.verified hverifier hidle habove p hp)
      (hboth.2.verified hverifier hidle habove p hp)

end

end Wownero

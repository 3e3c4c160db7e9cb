import Wownero.Caches
import Wownero.PoolRecords
import Wownero.Records
import Wownero.Sample
import Wownero.Supply
import Wownero.TemplateSound
/-!
# Templates and the chain

The steps of the chain that a template goes through, and when it goes through them all.  The rules
about versions, unlock times and heights hold of every template.  What may fail is the clock, when
the chain is ahead of it, and the rounds of the coinbase.
-/

namespace Wownero.Mining

open Wownero Wownero.TxRules Wownero.Archive Wownero.Mempool Outcome

/-! ### Versions -/

theorem requiredVersionFrom_mem (height : Nat) (forks : List Fork) (v : Nat) :
    requiredVersionFrom height forks v = v ∨
      ∃ fork ∈ forks, fork.height ≤ height ∧ requiredVersionFrom height forks v = fork.version := by
  induction forks generalizing v with
  | nil => exact .inl rfl
  | cons fork forks ih =>
      rw [requiredVersionFrom]
      by_cases hreached : height ≥ fork.height
      · rw [if_pos hreached]
        rcases ih fork.version with hsame | ⟨later, hlater, hheight, hversion⟩
        · exact .inr ⟨fork, List.mem_cons_self, hreached, hsame⟩
        · exact .inr ⟨later, List.mem_cons_of_mem _ hlater, hheight, hversion⟩
      · rw [if_neg hreached]
        exact .inl rfl

/-- The version of a height is the first of the table, or one whose height has been reached. -/
theorem requiredVersion_mem (network : Network) (height : Nat) :
    requiredVersion network height = 7 ∨ ∃ fork ∈ hardForkTable network, fork.height ≤ height ∧
      requiredVersion network height = fork.version := by
  have hfirst : ((hardForkTable network).head?.map (·.version)).getD originalVersion = 7 := by
    cases network <;> rfl
  have hmem := requiredVersionFrom_mem height (hardForkTable network) 7
  unfold requiredVersion
  rwa [hfirst]

theorem requiredVersion_le_top (network : Network) (height : Nat) :
    requiredVersion network height ≤ idealVersionTop network := by
  have htable : ∀ fork ∈ hardForkTable network, fork.version ≤ idealVersionTop network := by
    cases network <;> decide
  have hseven : 7 ≤ idealVersionTop network := by
    cases network <;> decide
  rcases requiredVersion_mem network height with hfirst | ⟨fork, hfork, -, hversion⟩
  · rw [hfirst]
    exact hseven
  · rw [hversion]
    exact htable fork hfork

theorem seven_le_requiredVersion (network : Network) (height : Nat) :
    7 ≤ requiredVersion network height := by
  have htable : ∀ fork ∈ hardForkTable network, 7 ≤ fork.version := by
    cases network <;> decide
  rcases requiredVersion_mem network height with hfirst | ⟨fork, hfork, -, hversion⟩
  · exact Nat.le_of_eq hfirst.symm
  · rw [hversion]
    exact htable fork hfork

theorem requiredVersion_lt (network : Network) (height : Nat) : requiredVersion network height < 128 := by
  have htop : idealVersionTop network < 128 := by
    cases network <;> decide
  exact lt_of_le_of_lt (requiredVersion_le_top network height) htop

/-- The versions with a dynamic unlock time start late enough for the block it refers to. -/
theorem lookback_le {network : Network} {height : Nat}
    (hversion : hfVersionDynamicUnlock ≤ requiredVersion network height) :
    dynamicUnlockLookback network ≤ height ∧ 0 < dynamicUnlockLookback network := by
  have htable : ∀ fork ∈ hardForkTable network, hfVersionDynamicUnlock ≤ fork.version →
      dynamicUnlockLookback network ≤ fork.height := by
    cases network <;> decide
  refine ⟨?_, by cases network <;> decide⟩
  rcases requiredVersion_mem network height with hfirst | ⟨fork, hfork, hheight, hsame⟩
  · rw [hfirst] at hversion
    exact absurd hversion (by decide)
  · exact (htable fork hfork (hsame ▸ hversion)).trans hheight

/-! ### What a template reads of the chain -/

section

variable {σ : Type} {P : Params σ} {c : Chain σ} {next : NextBlock}

theorem getBlockHash_ok {t : MainTables} (hn : t.Numbered) {k : Nat} (hk : k < t.height) :
    ∃ id, t.getBlockHash k = .ok id := by
  obtain ⟨info, hinfo⟩ := hn.info hk
  refine ⟨info.hash, ?_⟩
  rw [MainTables.getBlockHash, MainTables.getBlockInfo, hinfo]
  rfl

theorem nextBlockOf_height (h : nextBlockOf P c = some next) : next.height = c.height := by
  obtain ⟨tip, -, rfl⟩ := Option.map_eq_some_iff.mp h
  rfl

theorem exists_nextBlockOf (hn : c.db.main.Numbered) (hpos : 0 < c.height) :
    ∃ next, nextBlockOf P c = some next := by
  obtain ⟨id, hid⟩ := getBlockHash_ok hn (Nat.sub_lt hpos Nat.one_pos)
  have htop : topHash c.db.main = some id := by
    have hnonzero : c.db.main.height ≠ 0 := Nat.ne_of_gt hpos
    rw [topHash, if_neg hnonzero, hid]
    rfl
  exact ⟨_, by rw [nextBlockOf, htop]; rfl⟩

theorem wrap64_lt (n : Nat) : wrap64 n < 2 ^ 64 := Nat.mod_lt n (by norm_num)

/-- The unlock time of a template is the one the chain asks for. -/
theorem unlockTime_ok (hn : c.db.main.Numbered) (hheight : next.height = c.height) :
    ∃ unlock, next.unlockTime c.db.main P.network = .ok unlock ∧ unlock < 2 ^ 64 ∧
      chainUnlockTime P c.db.main c.height (requiredVersion P.network c.height) = .ok unlock := by
  unfold NextBlock.unlockTime chainUnlockTime
  simp only [hheight]
  by_cases hdynamic : requiredVersion P.network c.height ≥ hfVersionDynamicUnlock ∧
      requiredVersion P.network c.height < hfVersionFixedUnlock
  · obtain ⟨hlookback, hback⟩ := lookback_le hdynamic.1
    have hsub : checkedSub c.height (dynamicUnlockLookback P.network) =
        some (c.height - dynamicUnlockLookback P.network) := by
      exact if_pos hlookback
    obtain ⟨id, hid⟩ := getBlockHash_ok (k := c.height - dynamicUnlockLookback P.network) hn
      (Nat.sub_lt (Nat.lt_of_lt_of_le hback hlookback) hback)
    have hunlock : coinbaseUnlockTime (requiredVersion P.network c.height) c.height (some id) =
        some (wrap64 (c.height + dynamicUnlockWindow id)) := by
      rw [coinbaseUnlockTime, if_neg (Nat.not_le.mpr hdynamic.2), if_pos hdynamic.1]
      rfl
    rw [if_pos hdynamic, if_pos hdynamic, hsub]
    simp only [hid, hunlock]
    refine ⟨_, ?_, wrap64_lt _, rfl⟩
    simp only [orStorage, bind, Except.bind, hunlock]
  · obtain ⟨unlock, hunlock, hlt⟩ : ∃ unlock,
        coinbaseUnlockTime (requiredVersion P.network c.height) c.height none = some unlock ∧
          unlock < 2 ^ 64 := by
      unfold coinbaseUnlockTime
      by_cases hfixed : requiredVersion P.network c.height ≥ hfVersionFixedUnlock
      · rw [if_pos hfixed]
        exact ⟨_, rfl, wrap64_lt _⟩
      · rw [if_neg hfixed, if_neg fun hge => hdynamic ⟨hge, Nat.not_le.mp hfixed⟩]
        exact ⟨_, rfl, wrap64_lt _⟩
    rw [if_neg hdynamic, if_neg hdynamic]
    simp only [hunlock]
    exact ⟨unlock, rfl, hlt, rfl⟩

/-- The clock is no further behind the median of the recent timestamps than a block may be ahead of
    it. -/
def ClockAllows (P : Params σ) (c : Chain σ) (now : Nat) : Prop :=
  ∀ recent, recentTimestamps c.db.main (requiredVersion P.network c.height) = .ok recent →
    timestampCheckWindow (requiredVersion P.network c.height) ≤ recent.length →
    median recent ≤ saturatingAdd now (futureTimeLimit (requiredVersion P.network c.height))

theorem stepTimestamp_iff {t : MainTables} {recent : List Nat}
    (h : recentTimestamps t (currentVersion P t) = .ok recent) (blk : Block) (now : Nat) :
    stepTimestamp P t blk now = .ok () ↔
      checkBlockTimestamp (currentVersion P t) blk.header.timestamp now recent = .ok () := by
  unfold stepTimestamp
  simp only [h]
  cases checkBlockTimestamp (currentVersion P t) blk.header.timestamp now recent <;> simp

/-- The timestamp of a template passes, where it can, the check of the same clock. -/
theorem timestamp_ok (hn : c.db.main.Numbered) (hheight : next.height = c.height) {now : Nat}
    (hnow : now ≤ u64Max) :
    ∃ timestamp, next.timestamp c.db.main P.network now = .ok timestamp ∧
      ∀ blk : Block, blk.header.timestamp = timestamp →
        (stepTimestamp P c.db.main blk now = .ok () ↔ ClockAllows P c now) := by
  obtain ⟨version, hversion⟩ : ∃ version, version = requiredVersion P.network c.height := ⟨_, rfl⟩
  have hcurrent : currentVersion P c.db.main = version := hversion.symm
  have hwindow : 0 < timestampCheckWindow version := by
    unfold timestampCheckWindow
    split_ifs <;> norm_num
  have hreach : now ≤ saturatingAdd now (futureTimeLimit version) := by
    unfold saturatingAdd
    omega
  have hsmall : c.db.main.height = c.height := rfl
  unfold NextBlock.timestamp ClockAllows
  rw [hheight, ← hversion]
  by_cases hfull : c.height ≥ timestampCheckWindow version
  · obtain ⟨g, hget, -⟩ := hn.exists_infoAt
    obtain ⟨heights, hheights⟩ : ∃ heights, heights =
      List.range' (c.height - timestampCheckWindow version) (timestampCheckWindow version) := ⟨_, rfl⟩
    have hrecord : ∀ k ∈ heights, c.db.main.getBlockInfo k = .ok (g k) := by
      intro k hk
      rw [hheights, List.mem_range'_1] at hk
      rw [MainTables.getBlockInfo, hget k (by omega)]
      rfl
    have htimes : heights.mapM c.db.main.getBlockTimestamp =
        .ok (heights.map fun k => (g k).timestamp) := by
      refine mapM_eq_ok fun k hk => ?_
      rw [MainTables.getBlockTimestamp, hrecord k hk]
      rfl
    have hrecent : recentTimestamps c.db.main version =
        .ok (heights.map fun k => (g k).timestamp) := by
      have hspan : c.height - (c.height - timestampCheckWindow version) =
          timestampCheckWindow version := Nat.sub_sub_self hfull
      unfold recentTimestamps readInfos
      rw [hsmall, if_neg (Nat.not_lt.mpr hfull), hspan, ← hheights, mapM_eq_ok hrecord]
      simp only [Except.map, List.map_map]
      rfl
    have hlength : (heights.map fun k => (g k).timestamp).length = timestampCheckWindow version := by
      rw [List.length_map, hheights, List.length_range']
    rw [if_pos hfull, ← hheights, htimes]
    generalize heights.map (fun k => (g k).timestamp) = recent at hlength hrecent
    refine ⟨max now (median recent), rfl, fun blk hblk => ?_⟩
    rw [stepTimestamp_iff (hcurrent ▸ hrecent), hrecent, hcurrent]
    have hpast : ¬ blk.header.timestamp < median recent := by omega
    unfold checkBlockTimestamp
    simp only [hlength, lt_irrefl, if_false, if_neg hpast, Except.ok.injEq, forall_eq', le_refl,
      forall_const]
    by_cases hahead : blk.header.timestamp > saturatingAdd now (futureTimeLimit version)
    · rw [if_pos hahead]
      simp only [reduceCtorEq, false_iff]
      omega
    · rw [if_neg hahead]
      simp only [true_iff]
      omega
  · have hrecent : recentTimestamps c.db.main version = .ok [] := by
      unfold recentTimestamps
      rw [hsmall, if_pos (Nat.not_le.mp hfull)]
    rw [if_neg hfull]
    refine ⟨now, rfl, fun blk hblk => ?_⟩
    rw [stepTimestamp_iff (hcurrent ▸ hrecent), hrecent, hcurrent]
    have hahead : ¬ blk.header.timestamp > saturatingAdd now (futureTimeLimit version) := by omega
    unfold checkBlockTimestamp
    simp only [if_neg hahead, List.length_nil, hwindow, if_true, Except.ok.injEq, forall_eq', true_iff]
    exact fun hle => absurd hle (Nat.not_le.mpr hwindow)

/-! ### The coinbase -/

/-- Both keys of an address are points. -/
def Payable (C : Crypto) (keys : AccountPublicAddress) : Prop :=
  (C.decodePoint keys.viewPublicKey).isSome ∧ (C.decodePoint keys.spendPublicKey).isSome

/-- An output of a template is one of its version, and there is one when the address has points. -/
theorem output_iff {C : Crypto} {network : Network} {address : Address} {txSecret : SecretKey}
    (hsecret : (C.decodeScalar txSecret).isSome) :
    Payable C address.keys ↔ ∃ outputKey target,
      next.output C network address txSecret = .ok (outputKey, target) := by
  obtain ⟨s, hs⟩ := Option.isSome_iff_exists.mp hsecret
  unfold Payable NextBlock.output Crypto.generateKeyDerivation
  cases hview : C.decodePoint address.keys.viewPublicKey with
  | none => simp [hs]
  | some p =>
      unfold Crypto.derivePublicKey
      cases hspend : C.decodePoint address.keys.spendPublicKey with
      | none => simp [hs]
      | some q => simp [hs]

theorem output_target {C : Crypto} {network : Network} {address : Address} {txSecret : SecretKey}
    {outputKey : PublicKey} {target : TxOutTarget}
    (h : next.output C network address txSecret = .ok (outputKey, target)) :
    (∃ viewTag, target = .toTaggedKey outputKey viewTag ∧
        hfVersionViewTags ≤ requiredVersion network next.height) ∨
      target = .toKey outputKey ∧ requiredVersion network next.height < hfVersionViewTags := by
  unfold NextBlock.output at h
  split at h
  · cases h
  · split at h
    · cases h
    · rename_i key hkey
      by_cases htags : requiredVersion network next.height ≥ hfVersionViewTags
      · rw [if_pos htags] at h
        cases h
        exact .inl ⟨_, rfl, htags⟩
      · rw [if_neg htags] at h
        cases h
        exact .inr ⟨rfl, Nat.not_le.mp htags⟩

/-- The coinbase of a template keeps the rules for one. -/
theorem checkCoinbase_ok {network : Network} {unlock amount : Nat} {outputKey : PublicKey}
    {target : TxOutTarget} {extra : Blob} {tx : Transaction} (hamount : amount ≤ u64Max)
    (htarget : (∃ viewTag, target = .toTaggedKey outputKey viewTag ∧
        hfVersionViewTags ≤ requiredVersion network next.height) ∨
      target = .toKey outputKey ∧ requiredVersion network next.height < hfVersionViewTags)
    (hfront : tx.txPrefix =
      (coinbaseTx (next.txVersion network) unlock next.height target extra amount).txPrefix)
    (hrct : tx.rctSignatures = {}) :
    checkCoinbase tx (requiredVersion network next.height) next.height unlock = .ok () := by
  have hvin : tx.txPrefix.vin = [.gen next.height] := by rw [hfront]; rfl
  have hvout : tx.txPrefix.vout = [⟨amount, target⟩] := by rw [hfront]; rfl
  have hunlock : tx.txPrefix.unlockTime = unlock := by rw [hfront]; rfl
  have hversion : tx.txPrefix.version = next.txVersion network := by rw [hfront]; rfl
  have hlow : ¬ (tx.txPrefix.version ≤ 1 ∧
      requiredVersion network next.height ≥ hfVersionMinV2CoinbaseTx) := by
    rintro ⟨hone, hnew⟩
    rw [hversion, NextBlock.txVersion, if_pos hnew] at hone
    exact absurd hone (by decide)
  have hnull : ¬ (requiredVersion network next.height ≥ hfVersionRejectSigsInCoinbase ∧
      tx.txPrefix.version ≥ 2 ∧ tx.rctSignatures.ty ≠ .null) := by
    rintro ⟨-, -, hty⟩
    rw [hrct] at hty
    exact hty rfl
  have hsum : checkOutsOverflow [⟨amount, target⟩] = .ok amount := by
    simp [checkOutsOverflow, checkedSum, checkedAdd, hamount]
  have htypes : checkOutputTypes [⟨amount, target⟩] (requiredVersion network next.height) =
      .ok () := by
    unfold checkOutputTypes checkOutputTypesFrom checkOutputType
    rcases htarget with ⟨viewTag, rfl, htags⟩ | ⟨rfl, htags⟩
    · by_cases hlater : requiredVersion network next.height > hfVersionViewTags
      · simp only [if_pos hlater, isTaggedKey]
        rfl
      · simp only [if_neg hlater, if_neg (Nat.not_lt.mpr htags)]
        rfl
    · simp only [if_neg (Nat.lt_asymm htags), if_pos htags, isToKey]
      rfl
  unfold checkCoinbase
  rw [hvin]
  simp only [if_neg hlow, if_neg hnull, hunlock, ne_eq, not_true_eq_false, if_false, hvout, hsum]
  exact htypes

end

/-! ### The transactions of a template -/

section

variable {pool : TxPool} {hashes : List Hash256} {txs : List (Transaction × Blob)}

/-- The transactions of these ids, as the pool has them. -/
def Carries (pool : TxPool) : List Hash256 → List (Transaction × Blob) → Prop :=
  List.Forall₂ fun id p =>
    ∃ e, pool.byId.get id = some e ∧ e.blob = p.2 ∧ Transaction.fromBlob p.2 = .ok p.1

theorem exists_carries {rows : List (Hash256 × PoolEntry)}
    (hrows : ∀ row ∈ rows, pool.byId.get row.1 = some row.2)
    (hparse : ∀ row ∈ rows, ∃ tx, Transaction.fromBlob row.2.blob = .ok tx) :
    ∃ txs, Carries pool (rows.map (·.1)) txs := by
  induction rows with
  | nil => exact ⟨[], .nil⟩
  | cons row rows ih =>
      obtain ⟨txs, htxs⟩ := ih (fun r hr => hrows r (List.mem_cons_of_mem _ hr))
        (fun r hr => hparse r (List.mem_cons_of_mem _ hr))
      obtain ⟨tx, htx⟩ := hparse row List.mem_cons_self
      exact ⟨(tx, row.2.blob) :: txs, .cons ⟨row.2, hrows row List.mem_cons_self, rfl, htx⟩ htxs⟩

/-- Their weights and their fees are the recorded ones. -/
theorem carries_sums (hrecorded : pool.Recorded) {rows : List (Hash256 × PoolEntry)}
    (hrows : ∀ row ∈ rows, pool.byId.get row.1 = some row.2)
    (h : Carries pool (rows.map (·.1)) txs) :
    (txs.map fun p => getTransactionWeight p.1 p.2.length).sum = (rows.map (·.2.weight)).sum ∧
      feesOf txs = (rows.map (·.2.fee)).sum := by
  induction rows generalizing txs with
  | nil =>
      cases h
      exact ⟨rfl, rfl⟩
  | cons row rows ih =>
      obtain ⟨p, rest, ⟨e, he, hblob, hparse⟩, hrest, rfl⟩ := List.forall₂_cons_left_iff.mp h
      obtain ⟨hweights, hfees⟩ := ih (fun r hr => hrows r (List.mem_cons_of_mem _ hr)) hrest
      have hsame : row.2 = e := by
        have hrow := hrows row List.mem_cons_self
        rw [he] at hrow
        exact (Option.some.inj hrow).symm
      obtain ⟨hweight, hfee⟩ := hrecorded _ _ he p.1 (hblob ▸ hparse)
      unfold feesOf at hfees ⊢
      simp only [List.map_cons, List.sum_cons, hweights, hfees, hsame, hweight, hblob, hfee,
        Option.getD_some, and_self]

theorem foldl_saturatingAdd {α : Type} (f : α → Nat) (l : List α) {acc : Nat}
    (h : acc + (l.map f).sum ≤ u64Max) :
    l.foldl (fun total a => saturatingAdd total (f a)) acc = acc + (l.map f).sum := by
  induction l generalizing acc with
  | nil => rfl
  | cons a l ih =>
      rw [List.map_cons, List.sum_cons] at h ⊢
      have hstep : saturatingAdd acc (f a) = acc + f a := Nat.min_eq_left (by omega)
      rw [List.foldl_cons, hstep, ih (by omega), Nat.add_assoc]

end

/-- A transaction that fits, pays and spends nothing twice goes in. -/
theorem consider_takes {t : MainTables} {network : Network} {maxWeight reward : Nat}
    {rewardAt : Nat → Option Nat} {f : Filling} {id : Hash256} {entry : PoolEntry} {tx : Transaction}
    (hminable : minable entry network = true) (hfits : f.txsWeight + entry.weight ≤ maxWeight)
    (hreward : rewardAt (f.txsWeight + entry.weight) = some reward)
    (hpays : f.best ≤ saturatingAdd (saturatingAdd reward f.fees) entry.fee)
    (htx : Transaction.fromBlob entry.blob = .ok tx)
    (hfresh : ∀ image ∈ tx.keyImages, image ∉ f.spent ∧ t.hasKeyImage image = false) :
    consider t network maxWeight rewardAt f id entry =
      { txHashes := f.txHashes ++ [id]
        spent := tx.keyImages ++ f.spent
        txsWeight := f.txsWeight + entry.weight
        fees := saturatingAdd f.fees entry.fee
        best := saturatingAdd (saturatingAdd reward f.fees) entry.fee } := by
  have hkept : ¬ (!minable entry network || decide (f.txsWeight + entry.weight > maxWeight)) = true := by
    simp [hminable, hfits]
  have hunspent : ¬ (tx.keyImages.any fun ki => f.spent.contains ki || t.hasKeyImage ki) = true := by
    simpa using hfresh
  unfold consider
  rw [if_neg hkept, hreward]
  simp only
  rw [if_neg (Nat.not_lt.mpr hpays), htx]
  simp only
  rw [if_neg hunspent]

/-! ### Acceptance -/

section

variable {σ : Type} {P : Params σ} {c : Chain σ} {next : NextBlock}

/-- The steps of `add_block` that are about a template let it through, the miner's signature aside,
    and pay what it expects. -/
structure Accepted (P : Params σ) (c : Chain σ) (pool : TxPool) (now : Nat) (tpl : Template) :
    Prop where
  hardFork : stepHardFork P c.height tpl.block = .ok ()
  timestamp : stepTimestamp P c.db.main tpl.block now = .ok ()
  coinbase : ∃ unlock,
    chainUnlockTime P c.db.main c.height tpl.block.header.majorVersion = .ok unlock ∧
      checkCoinbase tpl.block.minerTx tpl.block.header.majorVersion c.height unlock = .ok ()
  reward : ∀ txs, Carries pool tpl.block.txHashes txs → ∃ base,
    getBlockReward c.state.weights.median (cumulativeBlockWeight tpl.block txs)
        c.state.alreadyGeneratedCoins tpl.block.header.majorVersion = some base ∧
      stepReward c.state tpl.block (cumulativeBlockWeight tpl.block txs)
        (min (feesOf txs) u64Max) = .ok base ∧
      tpl.expectedReward = base + min (feesOf txs) u64Max

/-- A coinbase that claims the reward and the fees is paid them exactly when they fit a word. -/
theorem stepReward_iff {blk : Block} {weight fees base amount : Nat} {target : TxOutTarget}
    (hreward : getBlockReward c.state.weights.median weight c.state.alreadyGeneratedCoins
      blk.header.majorVersion = some base)
    (hvout : blk.minerTx.txPrefix.vout = [⟨amount, target⟩])
    (hamount : amount = saturatingAdd base fees) :
    (stepReward c.state blk weight fees = .ok base ∧ amount = base + fees) ↔
      base + fees ≤ u64Max := by
  constructor
  · rintro ⟨-, hsum⟩
    rw [← hsum, hamount]
    exact saturatingAdd_le _ _
  · intro hfits
    have hsum : amount = base + fees := by
      rw [hamount, saturatingAdd, Nat.min_eq_left hfits]
    have hclaimed : wrap64 (blk.minerTx.txPrefix.vout.map (·.amount)).sum = base + fees := by
      have hlt : base + fees < 18446744073709551616 := Nat.lt_succ_of_le hfits
      rw [hvout, List.map_singleton, List.sum_singleton, hsum]
      exact Nat.mod_eq_of_lt hlt
    have htotal : checkedAdd base fees = some (base + fees) := checkedAdd_eq_some.mpr ⟨rfl, hfits⟩
    have hback : checkedSub (base + fees) fees = some base := by
      rw [checkedSub, if_pos (Nat.le_add_left _ _), Nat.add_sub_cancel]
    have hvalid : validateMinerReward blk.header.majorVersion base fees (base + fees) = .ok base := by
      unfold validateMinerReward
      simp only [htotal, lt_irrefl, if_false, ne_eq, not_true_eq_false, hback, ite_self]
    refine ⟨?_, hsum⟩
    unfold stepReward
    simp only [hclaimed, hreward, hvalid]

/-- The rounds of the coinbase rest at a weight whose reward and fees it can claim.  From a median
    of `2 ^ 32` on they are counted. -/
def Pays (next : NextBlock) (network : Network) (filling : Filling)
    (coinbaseOf : Nat → Transaction) : Prop :=
  ∃ w base, next.rewardAt network (filling.txsWeight + w) = some base ∧
    base + filling.fees ≤ u64Max ∧ (coinbaseOf (base + filling.fees)).write.length = w ∧
    (2 ^ 32 ≤ next.medianWeight → ∃ k < weightRounds,
      (measured (next.rewardAt network) filling.txsWeight filling.fees coinbaseOf)^[k] 0 = w)

section

variable {network : Network} {filling : Filling} {version unlock height : Nat}
  {target : TxOutTarget} {extra : Blob}

/-- A coinbase for a block of its own weight. -/
structure Settled (next : NextBlock) (network : Network) (filling : Filling)
    (coinbaseOf : Nat → Transaction) (tx : Transaction) (amount base : Nat) : Prop where
  reward : next.rewardAt network (filling.txsWeight + tx.write.length) = some base
  claims : amount = saturatingAdd base filling.fees
  length : tx.write.length ≤ 400
  txPrefix : tx.txPrefix = (coinbaseOf amount).txPrefix
  write : tx.write = (coinbaseOf amount).write
  rct : tx.rctSignatures = {}

theorem amountAt_eq {rewardAt : Nat → Option Nat} {txsWeight fees w base : Nat}
    (h : rewardAt (txsWeight + w) = some base) :
    amountAt rewardAt txsWeight fees w = saturatingAdd base fees := by
  rw [amountAt, h, Option.getD_some]

variable (network) in
/-- The rounds stop exactly where they rest, and then with a coinbase that settled. -/
theorem settle_rounds
    (hroom : filling.txsWeight ≤ wrap64 (2 * next.medianWeight) - coinbaseBlobReservedSize)
    (hoverhead : coinbaseOverhead version unlock height target extra ≤ 390)
    (hfits : ∀ amount ≤ u64Max,
      (coinbaseTx version unlock height target extra amount).txPrefix.Fits) :
    let f := measured (next.rewardAt network) filling.txsWeight filling.fees
      (coinbaseTx version unlock height target extra)
    let settled := settle (next.rewardAt network) filling.txsWeight filling.fees
      (coinbaseTx version unlock height target extra) weightRounds 0
    (¬ Rounds.Rests f weightRounds 0 →
        settled = .error (.chain "the coinbase weight did not settle")) ∧
      (Rounds.Rests f weightRounds 0 → ∃ k < weightRounds, ∃ tx amount base, f (f^[k] 0) = f^[k] 0 ∧
        tx.write.length = f^[k] 0 ∧ settled = .ok (tx, amount) ∧
        Settled next network filling (coinbaseTx version unlock height target extra) tx amount
          base) := by
  intro f settled
  have hreward : ∀ w ≤ 400, ∃ reward, next.rewardAt network (filling.txsWeight + w) = some reward :=
    fun w hw => reward_isSome hroom (hw.trans (by decide))
  have hsize : ∀ w ≤ 400, f w ≤ 400 := fun w _ => measured_le hoverhead w
  have hparse : ∀ amount ≤ u64Max, ∃ tx, Transaction.fromBlob
      (coinbaseTx version unlock height target extra amount).write = .ok tx := by
    intro amount hamount
    obtain ⟨tx, htx, -⟩ := coinbase_parses (hfits amount hamount)
    exact ⟨tx, htx⟩
  refine ⟨fun hrests => settle_of_not_rests hreward hsize (Nat.zero_le _) hrests, fun hrests => ?_⟩
  obtain ⟨k, hk, tx, hrest, hbound, hread, hok⟩ :=
    settle_of_rests hreward hsize hparse (Nat.zero_le _) hrests
  obtain ⟨tx', hread', hfront, hrct, hwrite⟩ :=
    coinbase_parses (hfits _ (saturatingAdd_le ((next.rewardAt network
      (filling.txsWeight + f^[k] 0)).getD 0) filling.fees))
  obtain ⟨base, hbase⟩ := hreward _ hbound
  have hsame : tx = tx' := Except.ok.inj (hread.symm.trans hread')
  have hlength : tx.write.length = f^[k] 0 := by
    rw [hsame, hwrite]
    exact hrest
  refine ⟨k, hk, tx, _, base, hrest, hlength, hok, ⟨?_, amountAt_eq hbase, ?_, ?_, ?_, ?_⟩⟩
  · rw [hlength]
    exact hbase
  · rw [hlength]
    exact hbound
  · rw [hsame]
    exact hfront
  · rw [hsame]
    exact hwrite
  · rw [hsame]
    exact hrct

theorem settle_of_pays
    (hroom : filling.txsWeight ≤ wrap64 (2 * next.medianWeight) - coinbaseBlobReservedSize)
    (hoverhead : coinbaseOverhead version unlock height target extra ≤ 390)
    (hfits : ∀ amount ≤ u64Max,
      (coinbaseTx version unlock height target extra amount).txPrefix.Fits)
    (h : Pays next network filling (coinbaseTx version unlock height target extra)) :
    ∃ tx amount base, settle (next.rewardAt network) filling.txsWeight filling.fees
        (coinbaseTx version unlock height target extra) weightRounds 0 = .ok (tx, amount) ∧
      Settled next network filling (coinbaseTx version unlock height target extra) tx amount base ∧
      base + filling.fees ≤ u64Max := by
  obtain ⟨w, base, hbase, hfees, hlength, hlarge⟩ := h
  obtain ⟨f, hf⟩ : ∃ f, f = measured (next.rewardAt network) filling.txsWeight filling.fees
    (coinbaseTx version unlock height target extra) := ⟨_, rfl⟩
  have hrests := (settle_rounds network hroom hoverhead hfits).2
  rw [← hf] at hlarge hrests
  have hrestw : f w = w := by
    rw [hf, measured, amountAt_eq hbase, saturatingAdd, Nat.min_eq_left hfees]
    exact hlength
  have hw : w ≤ 400 := by
    rw [← hrestw, hf]
    exact measured_le hoverhead w
  by_cases hmedian : next.medianWeight < 2 ^ 32
  · have hrest : Rounds.Rests f weightRounds 0 := by
      rw [hf, rests_iff_fixed hmedian hroom hoverhead, ← hf]
      exact ⟨w, hrestw⟩
    obtain ⟨k, -, tx, amount, base', hrestk, hlen, hok, hsettled⟩ := hrests hrest
    have hsame : tx.write.length = w := by
      rw [← hlen] at hrestk
      rw [hf] at hrestk hrestw
      exact measured_unique hmedian hroom hsettled.length hw hrestk hrestw
    have hreward := hsettled.reward
    rw [hsame, hbase] at hreward
    cases hreward
    exact ⟨tx, amount, base, hok, hsettled, hfees⟩
  · obtain ⟨j, hj, hjw⟩ := hlarge (Nat.not_lt.mp hmedian)
    obtain ⟨k, -, tx, amount, base', hrestk, hlen, hok, hsettled⟩ :=
      hrests ⟨j, hj, by rw [hjw, hrestw]⟩
    -- The rounds do not leave a weight they rest at, so the two they rest at are one.
    have hsame : tx.write.length = w := by
      rw [hlen]
      rcases Nat.le_total j k with hle | hle
      · obtain ⟨d, rfl⟩ := Nat.exists_eq_add_of_le' hle
        rw [Function.iterate_add_apply, hjw, Function.iterate_fixed hrestw]
      · obtain ⟨d, rfl⟩ := Nat.exists_eq_add_of_le' hle
        rw [Function.iterate_add_apply, Function.iterate_fixed hrestk] at hjw
        exact hjw
    have hreward := hsettled.reward
    rw [hsame, hbase] at hreward
    cases hreward
    exact ⟨tx, amount, base, hok, hsettled, hfees⟩

theorem pays_of_settle
    (hroom : filling.txsWeight ≤ wrap64 (2 * next.medianWeight) - coinbaseBlobReservedSize)
    (hoverhead : coinbaseOverhead version unlock height target extra ≤ 390)
    (hfits : ∀ amount ≤ u64Max,
      (coinbaseTx version unlock height target extra amount).txPrefix.Fits)
    {tx : Transaction} {amount : Nat}
    (h : settle (next.rewardAt network) filling.txsWeight filling.fees
      (coinbaseTx version unlock height target extra) weightRounds 0 = .ok (tx, amount)) :
    ∃ base, Settled next network filling (coinbaseTx version unlock height target extra) tx amount
        base ∧
      (base + filling.fees ≤ u64Max →
        Pays next network filling (coinbaseTx version unlock height target extra)) := by
  obtain ⟨hstuck, hrests⟩ := settle_rounds network hroom hoverhead hfits
  by_cases hrest : Rounds.Rests (measured (next.rewardAt network) filling.txsWeight filling.fees
      (coinbaseTx version unlock height target extra)) weightRounds 0
  · obtain ⟨k, hk, tx', amount', base, -, hlen, hok, hsettled⟩ := hrests hrest
    rw [h] at hok
    cases hok
    refine ⟨base, hsettled, fun hfees => ⟨tx.write.length, base, hsettled.reward, hfees, ?_,
      fun _ => ⟨k, hk, hlen.symm⟩⟩⟩
    have hamount : amount = base + filling.fees := by
      rw [hsettled.claims, saturatingAdd, Nat.min_eq_left hfees]
    rw [← hamount, ← hsettled.write]
  · rw [hstuck hrest] at h
    cases h

end

theorem seedAt_ok (hn : c.db.main.Numbered) (hheight : next.height = c.height) (height : Nat) :
    ∃ seed, next.seedAt c.db.main height = .ok seed := by
  unfold NextBlock.seedAt
  by_cases hbelow : height < next.height
  · have hstored : height < c.db.main.height := Nat.lt_of_lt_of_eq hbelow hheight
    obtain ⟨id, hid⟩ := getBlockHash_ok hn hstored
    rw [if_pos hbelow, hid]
    exact ⟨id, rfl⟩
  · rw [if_neg hbelow]
    exact ⟨nullHash, rfl⟩

/-- Without an output there is no template. -/
theorem build_output {pool : ByFee} {address : Address} {extra : ExtraNonce} {now : Nat}
    {txKeys : PublicKey × SecretKey} {tpl : Template}
    (h : build P.crypto c.db.main P.network next pool address extra now txKeys = .ok tpl) :
    ∃ outputKey target,
      next.output P.crypto P.network address txKeys.2 = .ok (outputKey, target) := by
  unfold build at h
  obtain ⟨-, h⟩ := if_ok_iff.mp h
  obtain ⟨-, h⟩ := if_ok_iff.mp h
  obtain ⟨timestamp, -, h⟩ := bind_eq_ok.mp h
  obtain ⟨⟨outputKey, target⟩, houtput, -⟩ := bind_eq_ok.mp h
  exact ⟨outputKey, target, houtput⟩

/-- When all else is there, a template is what the rounds make of it. -/
theorem build_spec (pool : ByFee) {address : Address} {extra : ExtraNonce} {now : Nat}
    {txKeys : PublicKey × SecretKey} {timestamp unlock : Nat} {outputKey : PublicKey}
    {target : TxOutTarget} (hn : c.db.main.Numbered) (hheight : next.height = c.height)
    (hkind : address.kind ≠ .subaddress) (hextra : extra.bytes.length ≤ maxReserveSize)
    (htimestamp : next.timestamp c.db.main P.network now = .ok timestamp)
    (houtput : next.output P.crypto P.network address txKeys.2 = .ok (outputKey, target))
    (hunlock : next.unlockTime c.db.main P.network = .ok unlock) :
    let filling := next.filled c.db.main P.network pool
    let settled := settle (next.rewardAt P.network) filling.txsWeight filling.fees
      (coinbaseTx (next.txVersion P.network) unlock next.height target
        (coinbaseExtra txKeys.1 extra.bytes)) weightRounds 0
    let built := build P.crypto c.db.main P.network next pool address extra now txKeys
    (∀ e, settled = .error e → built = .error e) ∧
      ∀ tx amount, settled = .ok (tx, amount) → ∃ tpl, built = .ok tpl ∧
        tpl.block.header = ⟨requiredVersion P.network next.height, idealVersionTop P.network,
          timestamp, next.prevId, 0, Signature.zero, 0⟩ ∧
        tpl.block.minerTx = tx ∧ tpl.block.txHashes = filling.txHashes ∧
        tpl.expectedReward = amount := by
  intro filling settled built
  obtain ⟨seed, hseed⟩ := seedAt_ok hn hheight (rxSeedheight next.height)
  obtain ⟨nextSeed, hnextSeed⟩ := seedAt_ok hn hheight (rxSeedheight (next.height + 64))
  have hsize : ¬ extra.bytes.length > maxReserveSize := Nat.not_lt.mpr hextra
  simp only [built, build, if_neg hkind, if_neg hsize, htimestamp, houtput, hunlock, hseed,
    hnextSeed, bind, Except.bind]
  refine ⟨fun e he => ?_, fun tx amount hok => ?_⟩
  · simp only [settled] at he
    rw [he]
  · simp only [settled] at hok
    rw [hok]
    exact ⟨_, rfl, rfl, rfl, rfl, rfl⟩

/-! ### The theorem -/

/-- What a coinbase of a template is made of. -/
structure CoinbaseParts (next : NextBlock) (network : Network) (unlock : Nat) (target : TxOutTarget)
    (extra : Blob) : Prop where
  overhead : coinbaseOverhead (next.txVersion network) unlock next.height target extra ≤ 390
  fits : ∀ amount ≤ u64Max,
    (coinbaseTx (next.txVersion network) unlock next.height target extra amount).txPrefix.Fits

theorem length_coinbaseExtra_le (txPublic : PublicKey) {nonce : Blob}
    (h : nonce.length ≤ maxReserveSize) : (coinbaseExtra txPublic nonce).length ≤ 290 := by
  unfold maxReserveSize at h
  unfold coinbaseExtra
  have hkey : (writeArray32 txPublic).length = 32 := length_toBytes txPublic
  split_ifs <;> simp only [List.length_append, List.length_cons, List.length_nil, hkey] <;> omega

theorem coinbaseParts {network : Network} {unlock : Nat} (outputKey : PublicKey)
    {target : TxOutTarget} {extra : Blob} (hheight : next.height < 2 ^ 64)
    (hunlock : unlock < 2 ^ 64)
    (htarget : (∃ viewTag, target = .toTaggedKey outputKey viewTag) ∨ target = .toKey outputKey)
    (hextra : extra.length ≤ 290) : CoinbaseParts next network unlock target extra := by
  have hversion : next.txVersion network = 1 ∨ next.txVersion network = 2 := by
    unfold NextBlock.txVersion
    split_ifs
    · exact .inr rfl
    · exact .inl rfl
  have hwrite : target.write.length ≤ 34 ∧ target.Fits := by
    have hkey : (writeArray32 outputKey).length = 32 := length_toBytes outputKey
    rcases htarget with ⟨viewTag, rfl⟩ | rfl
    · exact ⟨by simp [TxOutTarget.write, hkey], trivial⟩
    · exact ⟨by simp [TxOutTarget.write, hkey], trivial⟩
  refine ⟨coinbaseOverhead_le (by omega) hunlock hheight hwrite.1 hextra, fun amount hamount => ?_⟩
  have hword : amount < 2 ^ 64 := Nat.lt_succ_of_le hamount
  refine ⟨hversion, hunlock, ?_, ?_, ?_⟩
  · simpa [coinbaseTx, TxIn.Fits] using hheight
  · simpa [coinbaseTx, TxOut.Fits] using ⟨hword, hwrite.2⟩
  · show extra.length < 2 ^ 64
    omega

/-- The coinbase of a template settles, and claims no more than a word holds. -/
def Settles (P : Params σ) (c : Chain σ) (next : NextBlock) (pool : ByFee) (address : Address)
    (extra : ExtraNonce) (txKeys : PublicKey × SecretKey) : Prop :=
  ∃ unlock outputKey target, next.unlockTime c.db.main P.network = .ok unlock ∧
    next.output P.crypto P.network address txKeys.2 = .ok (outputKey, target) ∧
    Pays next P.network (next.filled c.db.main P.network pool)
      (coinbaseTx (next.txVersion P.network) unlock next.height target
        (coinbaseExtra txKeys.1 extra.bytes))

/-- What was selected from the pool, with its sums. -/
theorem filled_rows {pool : ByFee} (hpool : pool.pool.Recorded) :
    let filling := next.filled c.db.main P.network pool
    filling.txsWeight ≤ wrap64 (2 * next.medianWeight) - coinbaseBlobReservedSize ∧
      (∃ txs, Carries pool.pool filling.txHashes txs) ∧
      ∀ txs, Carries pool.pool filling.txHashes txs →
        (txs.map fun p => getTransactionWeight p.1 p.2.length).sum = filling.txsWeight ∧
          min (feesOf txs) u64Max = filling.fees := by
  intro filling
  obtain ⟨⟨rows, hsub, hhashes, hweight, hfees, hparse⟩, hfits⟩ :=
    @fill_filled c.db.main P.network (wrap64 (2 * next.medianWeight) - coinbaseBlobReservedSize)
      (next.rewardAt P.network) pool.order
  have hrows : ∀ row ∈ rows, pool.pool.byId.get row.1 = some row.2 := fun row hrow =>
    (pool.pool.byId.mem_iff _ _).mp (pool.perm.subset (hsub.subset hrow))
  have hsame : filling.txHashes = rows.map (·.1) := hhashes
  refine ⟨hfits, ?_, fun txs htxs => ?_⟩
  · rw [hsame]
    exact exists_carries hrows hparse
  · rw [hsame] at htxs
    obtain ⟨hweights, hsum⟩ := carries_sums hpool hrows htxs
    exact ⟨hweights.trans hweight.symm, by rw [hsum]; exact hfees.symm⟩

/-- A template with a coinbase that settled is accepted where the clock allows and its coinbase
    claims what a word holds. -/
theorem accepted_iff {pool : ByFee} {tpl : Template} {now timestamp unlock amount base : Nat}
    {outputKey : PublicKey} {target : TxOutTarget} {extra : Blob} (hpool : pool.pool.Recorded)
    (hnext : nextBlockOf P c = some next)
    (hclock : ∀ blk : Block, blk.header.timestamp = timestamp →
      (stepTimestamp P c.db.main blk now = .ok () ↔ ClockAllows P c now))
    (hdemanded : chainUnlockTime P c.db.main c.height (requiredVersion P.network c.height) =
      .ok unlock)
    (htarget : (∃ viewTag, target = .toTaggedKey outputKey viewTag ∧
        hfVersionViewTags ≤ requiredVersion P.network next.height) ∨
      target = .toKey outputKey ∧ requiredVersion P.network next.height < hfVersionViewTags)
    (hsettled : Settled next P.network (next.filled c.db.main P.network pool)
      (coinbaseTx (next.txVersion P.network) unlock next.height target extra) tpl.block.minerTx
      amount base)
    (hheader : tpl.block.header = ⟨requiredVersion P.network next.height,
      idealVersionTop P.network, timestamp, next.prevId, 0, Signature.zero, 0⟩)
    (hhashes : tpl.block.txHashes = (next.filled c.db.main P.network pool).txHashes)
    (hexpected : tpl.expectedReward = amount) :
    Accepted P c pool.pool now tpl ↔ ClockAllows P c now ∧
      base + (next.filled c.db.main P.network pool).fees ≤ u64Max := by
  have hat : next.height = c.height := nextBlockOf_height hnext
  have hmedian : next.medianWeight = c.state.weights.median ∧
      next.alreadyGeneratedCoins = c.state.alreadyGeneratedCoins := by
    obtain ⟨tip, -, rfl⟩ := Option.map_eq_some_iff.mp hnext
    exact ⟨rfl, rfl⟩
  have hmajor : tpl.block.header.majorVersion = requiredVersion P.network c.height := by
    rw [hheader, hat]
  have hsaid : amount ≤ u64Max := hsettled.claims ▸ saturatingAdd_le _ _
  obtain ⟨hroom, ⟨txs₀, htxs₀⟩, hsums⟩ := @filled_rows σ P c next pool hpool
  rw [← hhashes] at htxs₀ hsums
  have hvout : tpl.block.minerTx.txPrefix.vout = [⟨amount, target⟩] := by
    rw [hsettled.txPrefix]
    rfl
  have hweight {txs : List (Transaction × Blob)} (htxs : Carries pool.pool tpl.block.txHashes txs) :
      cumulativeBlockWeight tpl.block txs =
        (next.filled c.db.main P.network pool).txsWeight + tpl.block.minerTx.write.length := by
    have hlen := hsettled.length
    have hsmall : wrap64 (2 * next.medianWeight) < 2 ^ 64 := wrap64_lt _
    unfold coinbaseBlobReservedSize at hroom
    rw [cumulativeBlockWeight, foldl_saturatingAdd, (hsums txs htxs).1, Nat.add_comm]
    rw [(hsums txs htxs).1]
    unfold u64Max
    omega
  have hreward {txs : List (Transaction × Blob)} (htxs : Carries pool.pool tpl.block.txHashes txs) :
      getBlockReward c.state.weights.median (cumulativeBlockWeight tpl.block txs)
        c.state.alreadyGeneratedCoins tpl.block.header.majorVersion = some base := by
    rw [hweight htxs, hmajor, ← hat, ← hmedian.1, ← hmedian.2]
    exact hsettled.reward
  constructor
  · intro haccepted
    refine ⟨(hclock _ (by rw [hheader])).mp haccepted.timestamp, ?_⟩
    obtain ⟨base', hbase', hstep, hsum⟩ := haccepted.reward txs₀ htxs₀
    rw [hreward htxs₀] at hbase'
    cases hbase'
    rw [(hsums txs₀ htxs₀).2] at hstep hsum
    exact (stepReward_iff (hreward htxs₀) hvout hsettled.claims).mp ⟨hstep, hexpected ▸ hsum⟩
  · rintro ⟨hallows, hfees⟩
    refine ⟨?_, (hclock _ (by rw [hheader])).mpr hallows, ⟨unlock, ?_, ?_⟩, fun txs htxs => ?_⟩
    · have htop := requiredVersion_le_top P.network c.height
      have hseven := seven_le_requiredVersion P.network c.height
      have hvote : tpl.block.header.hardForkVote = idealVersionTop P.network := by
        rw [hheader, BlockHeader.hardForkVote, if_neg]
        show ¬ idealVersionTop P.network = 0
        omega
      have hcheck : checkHardFork P.network c.height tpl.block.header.majorVersion
          tpl.block.header.hardForkVote = true := by
        rw [hmajor, hvote, checkHardFork]
        simpa using htop
      unfold stepHardFork
      simp only [hcheck, if_true]
    · rw [hmajor]
      exact hdemanded
    · rw [hmajor, ← hat]
      exact checkCoinbase_ok hsaid htarget hsettled.txPrefix hsettled.rct
    · obtain ⟨hstep, hsum⟩ :=
        (stepReward_iff (hreward htxs) hvout hsettled.claims).mpr hfees
      rw [(hsums txs htxs).2]
      exact ⟨base, hreward htxs, hstep, hexpected.trans hsum⟩

/-- **A template passes the chain it was built on** exactly when its address has points, the clock
    is not too far behind the chain, and the rounds of its coinbase come to rest. -/
theorem template_accepted_iff (P : Params σ) (c : Chain σ) (pool : ByFee) (address : Address)
    (extra : ExtraNonce) (now : Nat) (txKeys : PublicKey × SecretKey) (hn : c.db.main.Numbered)
    (hpos : 0 < c.height) (hheight : c.height < 2 ^ 64) (hpool : pool.pool.Recorded)
    (haddress : address.kind ≠ .subaddress) (hextra : extra.bytes.length ≤ maxReserveSize)
    (hnow : now ≤ u64Max) (hkeys : (P.crypto.decodeScalar txKeys.2).isSome) :
    (∃ next tpl, nextBlockOf P c = some next ∧
        build P.crypto c.db.main P.network next pool address extra now txKeys = .ok tpl ∧
        Accepted P c pool.pool now tpl) ↔
      Payable P.crypto address.keys ∧ ClockAllows P c now ∧
        ∃ next, nextBlockOf P c = some next ∧ Settles P c next pool address extra txKeys := by
  obtain ⟨next, hnext⟩ := exists_nextBlockOf (P := P) hn hpos
  have hat : next.height = c.height := nextBlockOf_height hnext
  obtain ⟨timestamp, htimestamp, hclock⟩ := timestamp_ok (P := P) hn hat hnow
  obtain ⟨unlock, hunlock, hunlocklt, hdemanded⟩ := unlockTime_ok (P := P) hn hat
  obtain ⟨hroom, -⟩ := @filled_rows σ P c next pool hpool
  have hcoinbase {outputKey : PublicKey} {target : TxOutTarget}
      (houtput : next.output P.crypto P.network address txKeys.2 = .ok (outputKey, target)) :
      CoinbaseParts next P.network unlock target (coinbaseExtra txKeys.1 extra.bytes) := by
    have htarget := output_target houtput
    refine coinbaseParts outputKey (hat ▸ hheight) hunlocklt ?_
      (length_coinbaseExtra_le txKeys.1 hextra)
    rcases htarget with ⟨viewTag, htag, -⟩ | ⟨hkey, -⟩
    · exact .inl ⟨viewTag, htag⟩
    · exact .inr hkey
  constructor
  · rintro ⟨next', tpl, hnext', hbuild, haccepted⟩
    rw [hnext] at hnext'
    cases hnext'
    obtain ⟨outputKey, target, houtput⟩ := build_output hbuild
    obtain ⟨hfails, hbuilds⟩ := build_spec pool hn hat haddress hextra htimestamp houtput
      hunlock
    have hparts := hcoinbase houtput
    generalize hsettle : settle (next.rewardAt P.network)
      (next.filled c.db.main P.network pool).txsWeight (next.filled c.db.main P.network pool).fees
      (coinbaseTx (next.txVersion P.network) unlock next.height target
        (coinbaseExtra txKeys.1 extra.bytes)) weightRounds 0 = settled at hfails hbuilds
    cases settled with
    | error e =>
        rw [hfails e rfl] at hbuild
        cases hbuild
    | ok r =>
        obtain ⟨tpl', hbuild', hheader, hminer, hhashes, hexpected⟩ := hbuilds r.1 r.2 rfl
        rw [hbuild] at hbuild'
        cases hbuild'
        obtain ⟨base, hsettled, hpays⟩ := pays_of_settle hroom hparts.overhead hparts.fits hsettle
        rw [← hminer] at hsettled
        obtain ⟨hallows, hfees⟩ := (accepted_iff hpool hnext hclock hdemanded (output_target houtput)
          hsettled hheader hhashes hexpected).mp haccepted
        exact ⟨(output_iff hkeys).mpr ⟨outputKey, target, houtput⟩, hallows, next, hnext, unlock,
          outputKey, target, hunlock, houtput, hpays hfees⟩
  · rintro ⟨-, hallows, next', hnext', unlock', outputKey, target, hunlock', houtput, hpays⟩
    rw [hnext] at hnext'
    cases hnext'
    rw [hunlock] at hunlock'
    cases hunlock'
    have hparts := hcoinbase houtput
    obtain ⟨tx, amount, base, hsettle, hsettled, hfees⟩ :=
      settle_of_pays hroom hparts.overhead hparts.fits hpays
    obtain ⟨tpl, hbuild, hheader, hminer, hhashes, hexpected⟩ := (build_spec pool hn hat
      haddress hextra htimestamp houtput hunlock).2 tx amount hsettle
    rw [← hminer] at hsettled
    exact ⟨next, tpl, hnext, hbuild, (accepted_iff hpool hnext hclock hdemanded (output_target houtput)
      hsettled hheader hhashes hexpected).mpr ⟨hallows, hfees⟩⟩

end

/-! ### A miner's chain -/

section

open Sample

theorem mined_inStep {σ : Type} {P : Params σ} {c : Chain σ} (hc : InStep P c) (n : Nat) :
    InStep P (mined P c n).2 := by
  induction n with
  | zero => exact hc
  | succ n ih =>
      have hact : (mined P c (n + 1)).2 = ((mined P c n).2.addBlock P
          (nextBlock P (mined P c n).2 0 []) (nextBlock P (mined P c n).2 0 []).toBlob []
          clock).2 := by
        rw [mined, mineEmpty, Chain.act]
      rw [hact]
      exact addBlock_inStep ih _ _ _ _

theorem opened_inStep {σ : Type} (P : Params σ) (v : σ) : InStep P (opened v) :=
  new_inStep MainTables.numbered_empty (new_empty P v)

/-- A miner that pays itself. -/
def payee : Address := ⟨.standard, ⟨8, 8⟩⟩

def emptyPool : ByFee := ⟨TxPool.new, [], List.Perm.refl _⟩

theorem template_accepted_mined :
    ∃ next tpl, nextBlockOf bare (mined bare (opened ()) 1).2 = some next ∧
      build crypto (mined bare (opened ()) 1).2.db.main .fakechain next emptyPool payee (.reserve 8)
        clock (8, scalar 1) = .ok tpl ∧
      Accepted bare (mined bare (opened ()) 1).2 TxPool.new clock tpl := by
  have hnext : nextBlockOf bare (mined bare (opened ()) 1).2 = some ⟨1,
      0xa8fe49b9a12f852d68a0a1c81992f253d863f1713a782854c0888f7ad110c1e1, 1, 300000,
      17592186044415⟩ := by
    decide +kernel
  have hrecent : recentTimestamps (mined bare (opened ()) 1).2.db.main 7 = .ok [] := by
    decide
  refine (template_accepted_iff bare (mined bare (opened ()) 1).2 emptyPool payee (.reserve 8) clock
    (8, scalar 1) (mined_inStep (opened_inStep bare ()) 1).numbered (by decide) (by decide)
    (fun id e he => by cases he) nofun (by decide) (by norm_num [clock, u64Max]) rfl).mpr
    ⟨⟨rfl, rfl⟩, ?_, _, hnext, 61, 8, .toKey 8, by decide +kernel, by decide +kernel, ?_⟩
  · intro recent hfound hfull
    have hnone : recent = [] := Except.ok.inj (hfound.symm.trans hrecent)
    rw [hnone] at hfull
    exact absurd hfull (by decide)
  · exact ⟨90, 17592169267200, by decide, by decide, by decide,
      fun hlarge => absurd hlarge (by decide)⟩

end

/-! ### A coinbase that does not settle -/

section

open Sample

/-- A transaction with a long extra field, in front of its signatures. -/
def heavyPrefix : TransactionPrefix :=
  ⟨2, 0, [.toKey 0 (List.replicate 22 1) 5], [⟨0, .toKey 8⟩, ⟨0, .toKey 8⟩], List.replicate 310000 0⟩

def heavyFee : Nat := 545385652625113

def heavyRct : RctSignatures :=
  { ty := .bulletproofPlus, txnFee := heavyFee, ecdhInfo := [⟨0, 0⟩, ⟨0, 0⟩], outPk := [8, 8],
    bulletproofsPlus := [⟨8, 8, 8, 0, 0, 0, List.replicate 7 8, List.replicate 7 8⟩],
    clsags := [⟨List.replicate 22 0, 0, 8⟩], pseudoOuts := [8] }

def heavyTx : Transaction := ⟨heavyPrefix, [], heavyRct, 310132, 310132 + heavyRct.writeBase.length⟩

def heavyBlob : Blob := heavyPrefix.write ++ (heavyRct.writeBase ++ heavyRct.writePrunable)

/-- Its bytes beside the long extra field, and what is read off them. -/
theorem heavy_bytes :
    (writeVarint heavyPrefix.version ++ writeVarint heavyPrefix.unlockTime
      ++ writeVarint heavyPrefix.vin.length ++ heavyPrefix.vin.flatMap TxIn.write
      ++ writeVarint heavyPrefix.vout.length ++ heavyPrefix.vout.flatMap TxOut.write).length = 129 ∧
    (heavyRct.writeBase ++ heavyRct.writePrunable).length = 1531 ∧
    RctSignatures.readBase 1 2 ⟨heavyRct.writeBase ++ heavyRct.writePrunable, 0 + 310132⟩ =
      .ok ({ heavyRct with bulletproofsPlus := [], clsags := [], pseudoOuts := [] },
        ⟨heavyRct.writePrunable, 310132 + heavyRct.writeBase.length⟩) ∧
    RctSignatures.readPrunable
      { heavyRct with bulletproofsPlus := [], clsags := [], pseudoOuts := [] } 1 2 21
      ⟨heavyRct.writePrunable, 310132 + heavyRct.writeBase.length⟩ =
        .ok (heavyRct, ⟨[], 310132 + (heavyRct.writeBase ++ heavyRct.writePrunable).length⟩) := by
  decide +kernel

theorem length_heavyPrefix : heavyPrefix.write.length = 310132 := by
  have hextra : heavyPrefix.extra.length = 310000 := List.length_replicate
  have hhead := heavy_bytes.1
  have hlen : (writeVarint 310000).length = 3 := by decide
  rw [TransactionPrefix.write, List.length_append, hhead, writeBytesPrefixed, List.length_append, hextra,
    hlen]

theorem heavyPrefix_fits : heavyPrefix.Fits := by
  have hextra : heavyPrefix.extra.length = 310000 := List.length_replicate
  refine ⟨.inr rfl, by decide, ⟨by decide, ?_⟩, ⟨by decide, ?_⟩, by rw [hextra]; decide⟩
  · intro input hinput
    rw [List.mem_singleton.mp hinput]
    exact ⟨by decide, by decide, by decide⟩
  · intro o ho
    simp only [heavyPrefix, List.mem_cons, List.not_mem_nil, or_false, or_self] at ho
    rw [ho]
    exact ⟨by decide, trivial⟩

theorem heavyBlob_parses : Transaction.fromBlob heavyBlob = .ok heavyTx := by
  have hreads := TransactionPrefix.reads heavyPrefix_fits
    (heavyRct.writeBase ++ heavyRct.writePrunable) 0
  rw [length_heavyPrefix] at hreads
  obtain ⟨-, -, hbase, hprunable⟩ := heavy_bytes
  have hread : Transaction.read (Reader.new heavyBlob) =
      .ok (heavyTx, ⟨[], 310132 + (heavyRct.writeBase ++ heavyRct.writePrunable).length⟩) := by
    have hmixin : mixinOf heavyPrefix.vin = 21 := by decide
    unfold Transaction.read Reader.new heavyBlob
    rw [run_bind (run_pos _), run_bind hreads, run_bind (run_pos _), if_neg (by decide),
      if_neg (by decide), hmixin]
    show (RctSignatures.readBase 1 2 >>= _) _ = _
    rw [run_bind hbase, run_bind (run_pos _)]
    show (RctSignatures.readPrunable _ 1 2 21 >>= _) _ = _
    rw [run_bind hprunable]
    rfl
  exact fromBlob_of_read hread (by decide)

def stage : Params Unit := { bare with network := .stagenet, fixedDifficulty := some 1 }

@[irreducible] def staged : Chain Unit := (mined stage (opened ()) 55).2

def heavyEntry : PoolEntry := ⟨heavyBlob, 311663, heavyFee, 0, .block, true, false⟩

def heavyPool : ByFee where
  pool := { TxPool.new with byId := Table.empty.put 77 heavyEntry, weight := 311663 }
  order := [(77, heavyEntry)]
  perm := List.Perm.refl _

/-- The block on the chain. -/
def stagedNext : NextBlock :=
  ⟨55, 0x7418f0534f556b67ff796e366f831a877edc085a6f295c16e439ff5c9b2ed4ec, 1, 300000,
    967545318696827⟩

theorem length_heavyBlob : heavyBlob.length = 311663 := by
  rw [heavyBlob, List.length_append, length_heavyPrefix, heavy_bytes.2.1]

theorem heavyPool_recorded : heavyPool.pool.Recorded := by
  intro id e hget tx htx
  have hrow : (id, e) ∈ heavyPool.pool.byId.rows := (heavyPool.pool.byId.mem_iff id e).mpr hget
  have he : e = heavyEntry := by
    rcases List.mem_singleton.mp hrow with ⟨⟩
    rfl
  rw [he] at htx ⊢
  have hsame : tx = heavyTx := Except.ok.inj (htx.symm.trans heavyBlob_parses)
  rw [hsame]
  show 311663 = getTransactionWeight heavyTx heavyBlob.length ∧ _
  rw [length_heavyBlob]
  exact ⟨rfl, rfl⟩

/-- The chain takes the transaction. -/
theorem heavyTx_checked {t : MainTables} (himage : t.hasKeyImage 5 = false)
    (hnew : t.txExists 77 = false) (now : Nat) {blk : Block}
    (hversion : blk.header.majorVersion = 18) (hhashes : blk.txHashes = [77]) :
    (checkTransactions stage t () blk [(heavyTx, heavyBlob)] now).1 = .ok heavyFee := by
  have hrules : checkTxRules t 18 heavyTx = .ok none := by
    have hsum : summariseMixin heavyTx 18 t.getNumOutputs = ⟨21, 21, 1, 0⟩ := rfl
    unfold checkTxRules
    rw [hsum]
    rfl
  have himages : checkImages t [] heavyTx.keyImages = .ok [5] := by
    show checkImages t [] [5] = .ok [5]
    simp only [checkImages, himage]
    rfl
  have hjudged : ¬ t.height < stage.trustedBelow := Nat.not_lt_zero _
  unfold checkTransactions
  rw [hhashes, hversion]
  simp only [List.length_singleton, ne_eq, not_true_eq_false, if_false, List.map_singleton,
    List.zip_cons_cons, List.zip_nil_left]
  unfold checkTransactionsFrom
  simp only [hnew, checkTx, if_neg hjudged, hrules, himages]
  rfl

/-- The pool fills a block with it. -/
theorem heavy_filled {t : MainTables} (himage : t.hasKeyImage 5 = false) :
    stagedNext.filled t .stagenet heavyPool = ⟨[77], [5], 311663, heavyFee, 562950328595266⟩ := by
  have hreward : stagedNext.rewardAt .stagenet (0 + 311663) = some 17564675970153 := by
    decide
  have hbest : (stagedNext.rewardAt .stagenet 0).getD 0 = 17591263321295 := by
    decide
  have hroom : wrap64 (2 * stagedNext.medianWeight) - coinbaseBlobReservedSize = 599400 := by
    decide
  have hfresh : ∀ image ∈ heavyTx.keyImages, image ∉ ([] : List KeyImage) ∧
      t.hasKeyImage image = false := by
    intro image hmem
    rw [List.mem_singleton.mp hmem]
    exact ⟨List.not_mem_nil, himage⟩
  have htaken := @consider_takes t .stagenet 599400 17564675970153 (stagedNext.rewardAt .stagenet)
    { best := 17591263321295 } 77 heavyEntry heavyTx rfl (by decide) hreward (by decide)
    heavyBlob_parses hfresh
  rw [NextBlock.filled, hroom, fill, heavyPool, List.foldl_cons, List.foldl_nil, hbest]
  exact htaken

/-- Its coinbase pays `2 ^ 49` at the smaller of two sizes only. -/
theorem heavy_build {c : Chain Unit} (hn : c.db.main.Numbered)
    (hnext : nextBlockOf stage c = some stagedNext) (himage : c.db.main.hasKeyImage 5 = false) :
    build crypto c.db.main .stagenet stagedNext heavyPool payee (.reserve 0) clock (8, scalar 1) =
      .error (.chain "the coinbase weight did not settle") := by
  have hheight : stagedNext.height = c.height := nextBlockOf_height hnext
  have hclock : clock ≤ u64Max := by norm_num [clock, u64Max]
  obtain ⟨timestamp, htimestamp, -⟩ := @timestamp_ok _ stage c stagedNext hn hheight clock hclock
  have houtput : stagedNext.output crypto .stagenet payee (scalar 1) = .ok (8, .toKey 8) := by
    decide +kernel
  have hunlock : stagedNext.unlockTime c.db.main .stagenet = .ok 343 := rfl
  have hstuck : settle (stagedNext.rewardAt .stagenet) 311663 heavyFee
      (coinbaseTx 2 343 55 (.toKey 8) (coinbaseExtra 8 [])) weightRounds 0 =
        .error (.chain "the coinbase weight did not settle") := by
    decide
  have hsize : (ExtraNonce.reserve 0).bytes.length ≤ maxReserveSize := Nat.zero_le _
  have hbuild := @build_spec _ stage c stagedNext heavyPool payee (.reserve 0) clock (8, scalar 1)
    timestamp 343 8 (.toKey 8) hn hheight (fun h => by cases h) hsize htimestamp houtput hunlock
  refine hbuild.1 _ ?_
  show settle _ (stagedNext.filled c.db.main .stagenet heavyPool).txsWeight
    (stagedNext.filled c.db.main .stagenet heavyPool).fees _ _ _ = _
  rw [heavy_filled himage]
  exact hstuck

theorem staged_inStep : InStep stage staged := by
  unfold staged
  exact mined_inStep (opened_inStep stage ()) 55

theorem staged_next :
    nextBlockOf stage staged = some stagedNext ∧ staged.db.main.hasKeyImage 5 = false ∧ staged.db.main.txExists 77 = false := by
  decide +kernel

/-- A pool of one transaction that the chain takes, and no template with it. -/
theorem heavy_template_stuck :
    heavyPool.pool.Recorded ∧ Payable crypto payee.keys ∧
      (∀ now blk, blk.header.majorVersion = 18 → blk.txHashes = [77] →
        (checkTransactions stage staged.db.main () blk [(heavyTx, heavyBlob)] now).1 =
          .ok heavyFee) ∧
      ∃ next, nextBlockOf stage staged = some next ∧ requiredVersion .stagenet next.height = 18 ∧
        (next.filled staged.db.main .stagenet heavyPool).txHashes = [77] ∧
        build crypto staged.db.main .stagenet next heavyPool payee (.reserve 0) clock
          (8, scalar 1) = .error (.chain "the coinbase weight did not settle") := by
  obtain ⟨hnext, himage, hnew⟩ := staged_next
  have hn : staged.db.main.Numbered := staged_inStep.numbered
  refine ⟨heavyPool_recorded, ⟨rfl, rfl⟩, fun now blk hversion hhashes =>
    heavyTx_checked himage hnew now hversion hhashes, stagedNext, hnext, by decide, ?_,
    heavy_build hn hnext himage⟩
  rw [heavy_filled himage]

end

end Wownero.Mining

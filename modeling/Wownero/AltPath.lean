import Wownero.Sample
import Wownero.Work
/-!
# The alternative path against the main path

A block beside the main chain is checked by computations of its own: the median of the
timestamps, the difficulty, the seed and the coinbase's unlock time, each over the links to the
split and the store below it.  On a store whose main chain is the block's own chain `add_block`
makes the same four computations.  They agree when the window of timestamps is the same stretch
of the chain on both paths, when the version of the main chain demands what the block's own
would, and when the block the unlock time refers to is below the split.
-/

namespace Wownero

open Outcome Wownero.TxRules

/-! ### Medians -/

/-- A median does not look at the order. -/
theorem median_perm {l l' : List Nat} (h : l.Perm l') : median l = median l' := by
  have hsorted : l.insertionSort (· ≤ ·) = l'.insertionSort (· ≤ ·) := by
    refine List.Perm.eq_of_sortedLE List.sortedLE_insertionSort List.sortedLE_insertionSort ?_
    exact (List.perm_insertionSort _ l).trans (h.trans (List.perm_insertionSort _ l').symm)
  have hlen := h.length_eq
  match l, l', h, hsorted, hlen with
  | [], [], _, _, _ => rfl
  | [a], [b], h, _, _ => rw [List.singleton_perm_singleton.mp h]
  | a :: b :: l, a' :: b' :: l', _, hsorted, hlen =>
      simp only [median]
      rw [hsorted, hlen]

section

variable {σ : Type} {P : Params σ} {known : Block → Prop}

/-! ### The chain to a block, in two stores -/

/-- The stamps of the chain the walk has found, from the genesis block on. -/
def altStamps (t : MainTables) (links : List AltLink) (split : Nat) : List Stamp :=
  (t.records.take (split + 1)).map BlockInfo.stamp ++ links.map AltLink.stamp

theorem length_altStamps {t : MainTables} (hn : t.Numbered) (links : List AltLink) {split : Nat}
    (hsplit : split < t.height) : (altStamps t links split).length = split + links.length + 1 := by
  rw [altStamps, List.length_append, List.length_map, List.length_map, List.length_take,
    hn.length_records]
  omega

/-- The main chain of one store is the chain the walk has found in another. -/
structure SameChain (c d : Chain σ) (links : List AltLink) (split : Nat) : Prop where
  numbered : c.db.main.Numbered
  numbered' : d.db.main.Numbered
  splitBelow : split < c.db.main.height
  first : ∀ l, links.head? = some l → l.data.height = split + 1
  stamps : d.db.main.records.map BlockInfo.stamp = altStamps c.db.main links split

theorem SameChain.height {c d : Chain σ} {links : List AltLink} {split : Nat}
    (h : SameChain c d links split) : d.db.main.height = split + links.length + 1 := by
  rw [← length_altStamps h.numbered links h.splitBelow, ← h.stamps, List.length_map, h.numbered'.length_records]

/-- The hash at a height of that chain. -/
theorem SameChain.getBlockHash {c d : Chain σ} {links : List AltLink} {split : Nat}
    (h : SameChain c d links split) {k : Nat} {stamp : Stamp}
    (hk : (altStamps c.db.main links split)[k]? = some stamp) :
    d.db.main.getBlockHash k = .ok stamp.hash := by
  rw [← h.stamps, List.getElem?_map, Option.map_eq_some_iff] at hk
  obtain ⟨info, hinfo, rfl⟩ := hk
  rw [MainTables.getBlockHash, h.numbered'.getBlockInfo_eq hinfo]
  rfl

/-- At the split and below it the two main chains have the same hashes. -/
theorem SameChain.getBlockHash_below {c d : Chain σ} {links : List AltLink} {split : Nat}
    (h : SameChain c d links split) {k : Nat} (hk : k ≤ split) :
    c.db.main.getBlockHash k = d.db.main.getBlockHash k := by
  have hsplit := h.splitBelow
  obtain ⟨info, hinfo⟩ : ∃ info, c.db.main.records[k]? = some info :=
    ⟨_, List.getElem?_eq_getElem (by rw [h.numbered.length_records]; omega)⟩
  have hstamp : (altStamps c.db.main links split)[k]? = some info.stamp := by
    rw [altStamps, List.getElem?_append_left, List.getElem?_map, List.getElem?_take_of_lt (by omega),
      hinfo]
    · rfl
    · rw [List.length_map, List.length_take, h.numbered.length_records]
      omega
  rw [h.getBlockHash hstamp, MainTables.getBlockHash, h.numbered.getBlockInfo_eq hinfo]
  rfl

/-! ### The four computations -/

theorem rxSeedheight_lt {height : Nat} (h : 0 < height) : rxSeedheight height < height := by
  unfold rxSeedheight
  split_ifs
  · exact h
  · omega

/-- **The seed.** -/
theorem SameChain.seed {c d : Chain σ} {links : List AltLink} {split : Nat}
    (h : SameChain c d links split) :
    ∃ seed, altSeed c.db.main links split (split + links.length + 1) = .ok seed ∧
      seedHashFor d.db.main d.db.main.height = .ok seed := by
  have hheight := h.height
  have hlt : rxSeedheight (split + links.length + 1) < split + links.length + 1 :=
    rxSeedheight_lt (by omega)
  rw [seedHashFor, hheight, if_pos hlt, altSeed]
  generalize rxSeedheight (split + links.length + 1) = k at hlt
  unfold checkedSub
  split_ifs with hbelow
  · -- On the alternative part of the chain.
    obtain ⟨l, hl⟩ : ∃ l, links[k - (split + 1)]? = some l :=
      ⟨_, List.getElem?_eq_getElem (by omega)⟩
    have hstamp : (altStamps c.db.main links split)[k]? = some l.stamp := by
      have hlen : ((c.db.main.records.take (split + 1)).map BlockInfo.stamp).length = split + 1 := by
        rw [List.length_map, List.length_take, h.numbered.length_records]
        have := h.splitBelow
        omega
      rw [altStamps, List.getElem?_append_right (by omega), hlen, List.getElem?_map, hl]
      rfl
    simp only [hl, h.getBlockHash hstamp]
    exact ⟨l.id, rfl, rfl⟩
  · obtain ⟨info, hinfo⟩ : ∃ info, c.db.main.records[k]? = some info :=
      ⟨_, List.getElem?_eq_getElem (by rw [h.numbered.length_records]; have := h.splitBelow; omega)⟩
    have hhash : c.db.main.getBlockHash k = .ok info.hash := by
      rw [MainTables.getBlockHash, h.numbered.getBlockInfo_eq hinfo]
      rfl
    simp only [← h.getBlockHash_below (k := k) (by omega), hhash]
    exact ⟨info.hash, rfl, rfl⟩

/-- **The unlock time** of the coinbase, where it does not refer to a block above the split. -/
theorem SameChain.unlockTime {c d : Chain σ} {links : List AltLink} {split : Nat}
    (h : SameChain c d links split) {height version : Nat}
    (hbelow : hfVersionDynamicUnlock ≤ version → version < hfVersionFixedUnlock →
      height ≤ split + dynamicUnlockLookback P.network) :
    chainUnlockTime P c.db.main height version = chainUnlockTime P d.db.main height version := by
  unfold chainUnlockTime
  simp only
  split_ifs with hdynamic
  · have hle := hbelow hdynamic.1 hdynamic.2
    unfold checkedSub
    split_ifs
    · simp only
      rw [h.getBlockHash_below (by omega)]
    · rfl
  · rfl

/-- **The difficulty.** -/
theorem SameChain.difficulty {c d : Chain σ} {links : List AltLink} {split : Nat}
    (h : SameChain c d links split) (hd : InStep P d)
    (hdemand : SameDemand P c.height (split + links.length + 1)) :
    altDifficulty P c.db.main links (split + links.length + 1) (currentVersion P c.db.main) =
      .ok (nextBlockDifficulty P d.state d.height) := by
  have hlen := length_altStamps h.numbered links h.splitBelow
  rw [altDifficulty_eq h.numbered h.splitBelow h.first]
  show Except.ok (difficultyBy P (requiredVersion P.network c.height)
    (altStamps c.db.main links split)) = _
  rw [SameDemand.difficultyBy_eq (hlen ▸ hdemand) (by omega), hd.state, Chain.height,
    ← h.numbered'.length_records, nextBlockDifficulty_eq, h.stamps]

/-- The last timestamps of the chain, gathered from its end. -/
theorem altTimestamps_eq {t : MainTables} (hn : t.Numbered) {links : List AltLink}
    {split version : Nat} (hsplit : split < t.height)
    (hlong : timestampCheckWindow version ≤ split + links.length)
    (hlinks : links.length ≤ timestampCheckWindow version) :
    altTimestamps t links split version =
      .ok (((altStamps t links split).drop (split + links.length + 1 -
        timestampCheckWindow version)).map (·.timestamp)).reverse := by
  generalize hwindow : timestampCheckWindow version = window at hlong hlinks
  have hlen : ((t.records.take (split + 1)).map BlockInfo.stamp).length = split + 1 := by
    rw [List.length_map, List.length_take, hn.length_records]
    omega
  unfold altTimestamps
  simp only [hwindow, List.length_map, List.length_reverse]
  split_ifs with hshort
  · obtain ⟨g, hget, hrec⟩ := hn.exists_infoAt
    have hread : ∀ k ∈ (List.range' (split - (window - links.length) + 1)
        (split - (split - (window - links.length)))).reverse,
        t.getBlockTimestamp k = .ok (g k).timestamp := by
      intro k hk
      obtain ⟨_, hk₂⟩ := List.mem_range'_1.mp (List.mem_reverse.mp hk)
      rw [MainTables.getBlockTimestamp, MainTables.getBlockInfo, hget k (by omega)]
      rfl
    rw [mapM_eq_ok hread]
    show Except.ok _ = _
    congr 1
    rw [altStamps, List.drop_append_of_le_length (by omega), List.map_append, List.reverse_append,
      ← List.map_drop, List.map_map, List.map_map, ← List.map_reverse, ← List.map_reverse, hrec]
    congr 1
    rw [← List.map_take, ← List.map_drop, ← List.map_reverse, List.map_map, List.take_range,
      List.range_eq_range', List.drop_range']
    rw [show 0 + (split + links.length + 1 - window) * 1 = split - (window - links.length) + 1 by
        omega,
      show min (split + 1) t.height - (split + links.length + 1 - window) =
        split - (split - (window - links.length)) by omega]
    rfl
  · have hdrop : split + links.length + 1 - window =
        ((t.records.take (split + 1)).map BlockInfo.stamp).length := by omega
    rw [altStamps, hdrop, List.drop_left, List.map_map, ← List.map_reverse]
    rfl

/-- **The timestamp**, where both paths look at the same stretch of the chain. -/
theorem SameChain.timestamp {c d : Chain σ} {links : List AltLink} {split : Nat}
    (h : SameChain c d links split) {blk : Block} {now : Nat}
    (hwindow : timestampCheckWindow (currentVersion P c.db.main) =
      timestampCheckWindow (currentVersion P d.db.main))
    (hlong : timestampCheckWindow (currentVersion P c.db.main) ≤ split + links.length)
    (hlinks : links.length ≤ timestampCheckWindow (currentVersion P c.db.main))
    (hok : stepTimestamp P d.db.main blk now = .ok ()) :
    altStepTimestamp c.db.main blk links split (currentVersion P c.db.main) = .ok () := by
  have hheight := h.height
  rw [altStepTimestamp, altTimestamps_eq h.numbered h.splitBelow hlong hlinks]
  simp only
  rw [median_perm (List.reverse_perm _)]
  unfold stepTimestamp at hok
  simp only at hok
  have hrecent : recentTimestamps d.db.main (currentVersion P d.db.main) =
      .ok (((altStamps c.db.main links split).drop (split + links.length + 1 -
        timestampCheckWindow (currentVersion P c.db.main))).map (·.timestamp)) := by
    unfold recentTimestamps
    simp only
    rw [← hwindow, if_neg (by omega), h.numbered'.readInfos_to_tip, ← h.stamps, hheight,
      ← List.map_drop, List.map_map]
    rfl
  rw [hrecent] at hok
  simp only [checkBlockTimestamp] at hok
  generalize hstamps : ((altStamps c.db.main links split).drop (split + links.length + 1 -
    timestampCheckWindow (currentVersion P c.db.main))).map (·.timestamp) = stamps at hok ⊢
  have hfull : ¬ stamps.length < timestampCheckWindow (currentVersion P d.db.main) := by
    rw [← hstamps, ← hwindow, List.length_map, List.length_drop,
      length_altStamps h.numbered links h.splitBelow]
    omega
  split_ifs at hok with hfuture hbelow
  exact if_neg hbelow

/-! ### The whole path -/

/-- What makes the two paths look at the same things: one window of timestamps, inside the chain
    and not shorter than its alternative part, one demand for difficulty, and an unlock time that
    refers to no block above the split. -/
structure PathsMeet (P : Params σ) (c : Chain σ) (blk : Block) (links : List AltLink)
    (split : Nat) : Prop where
  window : timestampCheckWindow (requiredVersion P.network c.height) =
    timestampCheckWindow (requiredVersion P.network (split + links.length + 1))
  long : timestampCheckWindow (requiredVersion P.network c.height) ≤ split + links.length
  short : links.length ≤ timestampCheckWindow (requiredVersion P.network c.height)
  demand : SameDemand P c.height (split + links.length + 1)
  unlock : hfVersionDynamicUnlock ≤ blk.header.majorVersion →
    blk.header.majorVersion < hfVersionFixedUnlock →
    split + links.length + 1 ≤ split + dynamicUnlockLookback P.network

/-- **One block on two paths.**  What `add_block` accepts on the block's own chain passes the
    checks beside another. -/
theorem SameChain.stored {c d : Chain σ} {links : List AltLink} {split : Nat}
    (h : SameChain c d links split) (hd : InStep P d) {blk : Block} {blob : Blob}
    {txs : List (Transaction × Blob)} {now : Nat}
    (hchain : altChainTo c.db blk.header.prevId = .ok (some (links, split)))
    (hallowed : isAlternativeBlockAllowed P.network (split + links.length + 1) = true)
    (hmeet : PathsMeet P c blk links split) {added : Added} {d' : Chain σ}
    (hadd : d.addBlock P blk blob txs now = (.ok added, d')) (id : Hash256) :
    ∃ data, c.handleAlternativeBlock P blk blob txs now id =
      c.storeAlternative P blk blob txs now id links split data := by
  have hheight := h.height
  obtain ⟨_, fees, reward, v, haccepted⟩ := addBlock_ok hadd
  obtain ⟨_, _, hfork, htimestamp, hpow, _, hcoinbase⟩ := prechecks_ok.mp haccepted.prechecks
  obtain ⟨hcount, _⟩ := checkTransactions_loop.mp haccepted.transactions
  rw [Chain.height, hheight] at hfork hcoinbase
  have hversion : currentVersion P d.db.main =
      requiredVersion P.network (split + links.length + 1) := by rw [currentVersion, hheight]
  have htime := h.timestamp (P := P) (by rw [hversion]; exact hmeet.window) hmeet.long hmeet.short
    htimestamp
  have hdifficulty := h.difficulty hd hmeet.demand
  obtain ⟨seed, halt, hmain⟩ := h.seed
  have hseed : checkPow P (split + links.length + 1) blk
      (altSeed c.db.main links split (split + links.length + 1))
      (nextBlockDifficulty P d.state d.height) = .ok () := by
    rw [stepProofOfWork, hmain, hheight] at hpow
    rw [halt]
    exact hpow
  have hminer : stepCoinbase P c.db.main (split + links.length + 1) blk = .ok () := by
    rw [stepCoinbase] at hcoinbase ⊢
    rw [h.unlockTime hmeet.unlock]
    exact hcoinbase
  have hchecks : altChecks P c.db.main blk txs links split =
      .ok (nextBlockDifficulty P d.state d.height) := by
    simp only [altChecks, bind_eq_ok, pure_eq_ok]
    refine ⟨(), ?_, (), hfork, (), htime, _, ?_, (), hseed, (), hminer, (), ?_, rfl⟩
    · rw [altStepCheckpoint, if_pos hallowed]
    · rw [altStepDifficulty, hdifficulty]
    · rw [altStepCount, if_neg (not_not.mpr hcount)]
  obtain ⟨data, hdata⟩ : ∃ data, altData c.db.main blk txs links split
      (nextBlockDifficulty P d.state d.height) = .ok data := by
    obtain ⟨parent, hparent⟩ : ∃ parent, altParent c.db.main links split = .ok parent := by
      unfold altParent
      cases links.getLast? with
      | some l => exact ⟨_, rfl⟩
      | none =>
          obtain ⟨info, hinfo⟩ : ∃ info, c.db.main.records[split]? = some info :=
            ⟨_, List.getElem?_eq_getElem (by rw [h.numbered.length_records]; exact h.splitBelow)⟩
          rw [h.numbered.getBlockInfo_eq hinfo]
          exact ⟨_, rfl⟩
    simp only [altData, hparent]
    exact ⟨_, rfl⟩
  refine ⟨data, ?_⟩
  simp only [Chain.handleAlternativeBlock, hchain, hchecks, hdata]

/-- Two traced chains, one of which ends where the walk in the other begins. -/
theorem sameChain_of_traced (hgood : WellKnown P.crypto known) {c d : Chain σ}
    (hc : Traced P known c) (hd : Traced P known d) {prev : Hash256} {links : List AltLink}
    {split : Nat} (hchain : altChainTo c.db prev = .ok (some (links, split)))
    (htip : topHash d.db.main = some prev) : SameChain c d links split := by
  obtain ⟨hlt, hlineage, hfirst⟩ := altChainTo_lineage hgood hc.main hc.alts hchain
  refine ⟨hc.inStep.numbered, hd.inStep.numbered, hc.inStep.numbered.length_records ▸ hlt, hfirst,
    ?_⟩
  cases hlast : d.db.main.records.getLast? with
  | none =>
      have hzero : d.db.main.height = 0 := by
        rw [← hd.inStep.numbered.length_records, List.getLast?_eq_none_iff.mp hlast]
        rfl
      simp [topHash, hzero] at htip
  | some tip =>
      rw [topHash_eq hd.inStep.numbered hlast, Option.some.injEq] at htip
      exact (hd.main.tip hlast).unique hgood (htip ▸ hlineage)

/-- **The alternative path is no stricter.**  Two runs over blocks with ids of their own lead to
    two chains; a block that stands beside the first and on the tip of the second, and that
    `add_block` accepts there, is not refused before it is stored beside the first, as long as
    the two paths look at the same things.  They demand the same difficulty, the same seed and
    the same unlock time. -/
theorem alternative_no_stricter (P : Params σ) {v v' : σ} {c₀ d₀ : Chain σ}
    (hopen : Chain.new P Store.empty v = .ok c₀) (hopen' : Chain.new P Store.empty v' = .ok d₀)
    (actions actions' : List (Action σ))
    (hgood : WellKnown P.crypto (knownIn (actions ++ actions')))
    (hmet : c₀.Along P (OperationMet P) actions) (hmet' : d₀.Along P (OperationMet P) actions')
    {blk : Block} {blob : Blob} {txs : List (Transaction × Blob)} {now : Nat}
    {links : List AltLink} {split : Nat}
    (hchain : altChainTo (c₀.run P actions).db blk.header.prevId = .ok (some (links, split)))
    (htip : topHash (d₀.run P actions').db.main = some blk.header.prevId)
    (hallowed : isAlternativeBlockAllowed P.network (split + links.length + 1) = true)
    (hmeet : PathsMeet P (c₀.run P actions) blk links split) {added : Added} {d' : Chain σ}
    (hadd : (d₀.run P actions').addBlock P blk blob txs now = (.ok added, d')) :
    (∀ id, ∃ data, (c₀.run P actions).handleAlternativeBlock P blk blob txs now id =
        (c₀.run P actions).storeAlternative P blk blob txs now id links split data) ∧
      altDifficulty P (c₀.run P actions).db.main links (split + links.length + 1)
          (currentVersion P (c₀.run P actions).db.main) =
        .ok (nextBlockDifficulty P (d₀.run P actions').state (d₀.run P actions').height) ∧
      (∃ seed, altSeed (c₀.run P actions).db.main links split (split + links.length + 1) =
          .ok seed ∧
        seedHashFor (d₀.run P actions').db.main (d₀.run P actions').height = .ok seed) ∧
      chainUnlockTime P (c₀.run P actions).db.main (split + links.length + 1)
          blk.header.majorVersion =
        chainUnlockTime P (d₀.run P actions').db.main (d₀.run P actions').height
          blk.header.majorVersion := by
  have hc := run_traced hgood hopen actions (fun _ h => knownIn_append_left _ h) hmet
  have hd := run_traced hgood hopen' actions' (fun _ h => knownIn_append_right _ h) hmet'
  have hsame := sameChain_of_traced hgood hc hd hchain htip
  refine ⟨hsame.stored hd.inStep hchain hallowed hmeet hadd, hsame.difficulty hd.inStep hmeet.demand,
    hsame.seed, ?_⟩
  rw [Chain.height, hsame.height]
  exact hsame.unlockTime hmeet.unlock

end

namespace Sample

/-- The test network, with nothing checked. -/
def bareTest : Params Unit := { bare with network := .testnet }

def fifteen : Chain Unit := (mined bareTest (opened ()) 15).2

/-- The block of height 15 with another nonce. -/
def sixteenth : Block :=
  let blk := nextBlock bareTest fifteen 0 []
  { blk with header := { blk.header with nonce := 1 } }

/-- The block beside a chain of sixteen and on a chain of fifteen. -/
theorem sixteenth_outcomes :
    (altChainTo (mined bareTest (opened ()) 16).2.db sixteenth.header.prevId).toOption.map
        (·.map fun found => (found.1.length, found.2)) = some (some (0, 14)) ∧
      topHash fifteen.db.main = some sixteenth.header.prevId ∧
      (fifteen.addBlock bareTest sixteenth sixteenth.toBlob [] clock).1 = .ok (.mainChain 15) ∧
      (mined bareTest (opened ()) 16).2.height = 16 ∧ sixteenth.header.majorVersion = 10 := by
  decide +kernel

/-- The two runs meet what is asked of their operations, and name no block twice. -/
theorem sixteenth_runs :
    (opened ()).Along bareTest (OperationMet bareTest) (mined bareTest (opened ()) 16).1 ∧
      WellKnown crypto
        (knownIn ((mined bareTest (opened ()) 16).1 ++ (mined bareTest (opened ()) 15).1)) := by
  decide +kernel

/-- The first block, late, and what comes after it. -/
def lateFirst : Block := { first with header := { first.header with timestamp := 3000 } }

def afterLate : Chain Unit := (afterGenesis.addBlock bare lateFirst lateFirst.toBlob [] clock).2

def lateSecond : Block :=
  let blk := nextBlock bare afterLate 0 []
  { blk with header := { blk.header with timestamp := 3600 } }

/-- The second block at its own time, earlier than its parent. -/
def promptSecond : Block := nextBlock bare afterLate 0 []

/-- A genesis block and the late one. -/
def lateRun : List (Action Unit) :=
  [.addBlock genesis genesis.toBlob [] clock, .addBlock lateFirst lateFirst.toBlob [] clock]

end Sample

section

open Sample

/-- The block of height 15 is stored beside its rival. -/
theorem alternative_no_stricter_sixteenth :
    (fifteen.addBlock bareTest sixteenth sixteenth.toBlob [] clock).1 = .ok (.mainChain 15) ∧
      ∀ id, ∃ data, (mined bareTest (opened ()) 16).2.handleAlternativeBlock bareTest sixteenth
          sixteenth.toBlob [] clock id =
        (mined bareTest (opened ()) 16).2.storeAlternative bareTest sixteenth sixteenth.toBlob []
          clock id [] 14 data := by
  obtain ⟨hchain, htip, hadd, hheight, hversion⟩ := sixteenth_outcomes
  have hwalk : altChainTo (mined bareTest (opened ()) 16).2.db sixteenth.header.prevId =
      .ok (some ([], 14)) := by
    cases hwalked : altChainTo (mined bareTest (opened ()) 16).2.db sixteenth.header.prevId with
    | error e =>
        rw [hwalked] at hchain
        cases hchain
    | ok found =>
        rw [hwalked] at hchain
        cases found with
        | none => cases hchain
        | some walked =>
            obtain ⟨links, split⟩ := walked
            have hboth : (links.length, split) = (0, 14) := Option.some.inj (Option.some.inj hchain)
            cases List.length_eq_zero_iff.mp (congrArg Prod.fst hboth)
            cases congrArg Prod.snd hboth
            rfl
  obtain ⟨hmet, hknown⟩ := sixteenth_runs
  have hmet' := (along_snoc.mp hmet).1
  refine ⟨hadd, ?_⟩
  rw [← mined_run bareTest (opened ()) 16] at hwalk hheight ⊢
  rw [fifteen, ← mined_run bareTest (opened ()) 15] at htip hadd
  have hadd' : ((opened ()).run bareTest (mined bareTest (opened ()) 15).1).addBlock bareTest
      sixteenth sixteenth.toBlob [] clock = (.ok (.mainChain 15),
        (((opened ()).run bareTest (mined bareTest (opened ()) 15).1).addBlock bareTest sixteenth
          sixteenth.toBlob [] clock).2) := by
    rw [← hadd, Prod.mk.eta]
  refine (alternative_no_stricter bareTest (new_empty bareTest ()) (new_empty bareTest ()) _ _
    hknown hmet hmet' hwalk htip (by decide) ?_ hadd').1
  refine ⟨?_, ?_, ?_, ?_, ?_⟩
  · rw [hheight]
    decide
  · rw [hheight]
    decide
  · exact Nat.zero_le _
  · rw [hheight]
    decide
  · intro hdynamic
    rw [hversion] at hdynamic
    exact absurd hdynamic (by decide)

/-- A block earlier than its parent is accepted on a short chain and refused beside it. -/
theorem shortChain_stricter :
    (((opened ()).run bare lateRun).addBlock bare promptSecond promptSecond.toBlob [] clock).1 =
        .ok (.mainChain 2) ∧
      (((opened ()).run bare
          (lateRun ++ [.addBlock lateSecond lateSecond.toBlob [] clock])).handleBlock bare
        promptSecond promptSecond.toBlob [] clock).1 =
        .error ⟨.timestamp, .badTimestamp (.belowMedian 3000)⟩ := by
  decide +kernel

end

end Wownero

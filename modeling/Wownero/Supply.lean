import Mathlib.Tactic.Ring
import Wownero.Stepwise
/-!
# The supply

What each block adds to the coins in existence: what its coinbase claims, less the fees it
collects.  The entry of every height follows from the one below it, stays on the emission curve
and never passes the supply.  The one sum that can be cut short is that of the fees: it saturates,
and then the block pays its miner less than its transactions gave up.
-/

namespace Wownero

open Outcome TxRules

/-! ### Fees -/

/-- The fees the transactions of a block give up. -/
def feesOf (txs : List (Transaction × Blob)) : Nat := (txs.map fun p => p.1.fee.getD 0).sum

/-- What the coinbase of a block claims. -/
def Block.claims (blk : Block) : Nat := (blk.minerTx.txPrefix.vout.map (·.amount)).sum

theorem checkedSum_eq_some {acc sum : Nat} {amounts : List Nat} (hacc : acc ≤ u64Max) :
    checkedSum acc amounts = some sum ↔ acc + amounts.sum = sum ∧ sum ≤ u64Max := by
  induction amounts generalizing acc with
  | nil =>
      simp only [checkedSum, Option.some.injEq, List.sum_nil, Nat.add_zero]
      exact ⟨fun h => ⟨h, h ▸ hacc⟩, And.left⟩
  | cons a amounts ih =>
      simp only [checkedSum, Option.bind_eq_bind, Option.bind_eq_some_iff, checkedAdd_eq_some,
        List.sum_cons]
      constructor
      · rintro ⟨next, ⟨rfl, hnext⟩, hrest⟩
        rw [ih hnext, Nat.add_assoc] at hrest
        exact hrest
      · rintro ⟨rfl, hle⟩
        have hnext : acc + a ≤ u64Max := le_trans (by omega) hle
        refine ⟨acc + a, ⟨rfl, hnext⟩, ?_⟩
        rw [ih hnext, Nat.add_assoc]
        exact ⟨rfl, hle⟩

/-- The inputs of a checked transaction are summed as `fee` sums them. -/
theorem checkSemanticInputs_sum {i sum total : Nat} {seen : List KeyImage} {ins : List TxIn}
    (h : checkSemanticInputs i seen sum ins = .ok total) :
    checkedSum sum (ins.map TxIn.spentAmount) = some total := by
  induction ins generalizing i seen sum with
  | nil =>
      cases h
      rfl
  | cons input ins ih =>
      cases input with
      | toKey amount offsets image =>
          rw [checkSemanticInputs] at h
          split_ifs at h with hseen
          cases hadd : checkedAdd sum amount with
          | none =>
              rw [hadd] at h
              cases h
          | some next =>
              rw [hadd] at h
              rw [List.map_cons, TxIn.spentAmount, checkedSum, hadd]
              exact ih h
      | _ => cases h

theorem checkOutsOverflow_sum {vout : List TxOut} {sum : Nat}
    (h : checkOutsOverflow vout = .ok sum) : checkedSum 0 (vout.map (·.amount)) = some sum := by
  unfold checkOutsOverflow at h
  split at h
  · cases h
  · rename_i found hsum
    cases h
    exact hsum

section

variable {σ : Type} {P : Params σ}

/-- The fee step 9 counts is the transaction's own, by whichever way it is found. -/
theorem checkTxRules_fee {t : MainTables} {version : Nat} {tx : Transaction} {fee : Option Nat}
    (h : checkTxRules t version tx = .ok fee) :
    tx.fee = some (fee.getD tx.rctSignatures.txnFee) := by
  simp only [checkTxRules, bind_eq_ok, pure_eq_ok] at h
  obtain ⟨found, hsemantic, _, _, _, _, _, _, _, _, _, hversion, rfl⟩ := h
  unfold checkTxSemantic at hsemantic
  split_ifs at hsemantic with hempty
  simp only [bind_eq_ok] at hsemantic
  obtain ⟨inputs, hinputs, _, _, outputs, houtputs, hfee⟩ := hsemantic
  have hpos : 1 ≤ tx.txPrefix.version := by
    unfold checkTxVersion at hversion
    dsimp only at hversion
    split_ifs at hversion <;> omega
  unfold semanticFee at hfee
  split_ifs at hfee with htwo hless
  · cases hfee
    have hone : tx.txPrefix.version ≠ 1 := by omega
    rw [Transaction.fee, if_neg hone]
    rfl
  · cases hfee
    have hone : tx.txPrefix.version = 1 := by omega
    rw [Transaction.fee, if_pos hone, checkSemanticInputs_sum hinputs,
      checkOutsOverflow_sum houtputs]
    show checkedSub inputs outputs = some (inputs - outputs)
    rw [checkedSub, if_pos (Nat.le_of_not_lt hless)]

theorem checkTx_fee {t : MainTables} {version height now i : Nat} {hash : Hash256}
    {tx : Transaction} {v v' : σ} {fee : Option Nat}
    (h : checkTx P t version height now i hash tx v = (.ok fee, v')) :
    tx.fee = some (fee.getD tx.rctSignatures.txnFee) := by
  unfold checkTx at h
  split_ifs at h with htrusted
  · cases hfee : tx.fee with
    | none =>
        rw [hfee] at h
        cases h
    | some fee =>
        rw [hfee] at h
        cases h
        rfl
  · cases hrules : checkTxRules t version tx with
    | error e =>
        rw [hrules] at h
        cases h
    | ok found =>
        rw [hrules] at h
        have hfound : found = fee := by
          dsimp only at h
          split at h
          · cases h
            rfl
          · split at h
            · cases h
              rfl
            · cases h
        exact hfound ▸ checkTxRules_fee hrules

theorem saturatingAdd_min (a b total : Nat) :
    min (saturatingAdd a b + total) u64Max = min (a + (b + total)) u64Max := by
  unfold saturatingAdd
  omega

/-- The total of step 9 is the sum of the fees, cut off where `u64` ends. -/
theorem checkTransactionsFrom_fees {t : MainTables} {version height now : Nat}
    {list : List (Hash256 × Transaction)} {i : Nat} {seen : List Hash256}
    {images : List KeyImage} {fees total : Nat} {v v' : σ} (hfees : fees ≤ u64Max)
    (h : checkTransactionsFrom P t version height now i list seen images fees v =
      (.ok total, v')) :
    total = min (fees + (list.map fun p => p.2.fee.getD 0).sum) u64Max := by
  induction list generalizing i seen images fees v with
  | nil =>
      cases h
      exact (Nat.min_eq_left hfees).symm
  | cons p list ih =>
      obtain ⟨hash, tx⟩ := p
      obtain ⟨_, _, fee, v₁, images', htx, _, hrest⟩ := checkTransactionsFrom_cons.mp h
      rw [ih (saturatingAdd_le _ _) hrest, saturatingAdd_min, List.map_cons, List.sum_cons,
        checkTx_fee htx]
      rfl

theorem checkTransactions_fees {t : MainTables} {v v' : σ} {blk : Block}
    {txs : List (Transaction × Blob)} {now fees : Nat}
    (h : checkTransactions P t v blk txs now = (.ok fees, v')) :
    fees = min (feesOf txs) u64Max := by
  obtain ⟨hlen, hloop⟩ := checkTransactions_loop.mp h
  have hsnd : (blk.txHashes.zip (txs.map (·.1))).map (·.2) = txs.map (·.1) :=
    List.map_snd_zip (by simp [hlen])
  have hsame : (blk.txHashes.zip (txs.map (·.1))).map (fun p => p.2.fee.getD 0) =
      txs.map fun p => p.1.fee.getD 0 := by
    have := congrArg (List.map fun tx => tx.fee.getD 0) hsnd
    simpa only [List.map_map, Function.comp_def] using this
  rw [checkTransactionsFrom_fees (Nat.zero_le _) hloop, Nat.zero_add, hsame]
  rfl

/-! ### Rewards -/

/-- No penalty raises a reward, and none of its products wraps to more than it was. -/
theorem getBlockReward_le {medianWeight weight coins version reward : Nat}
    (h : getBlockReward medianWeight weight coins version = some reward) :
    reward ≤ (u64Max - coins) / 2 ^ 20 := by
  unfold getBlockReward at h
  dsimp only at h
  generalize max medianWeight (getMinBlockWeight version) = m at h
  generalize (u64Max - coins) / 2 ^ 20 = base at h ⊢
  split_ifs at h with hsmall hbig
  · cases h
    exact le_rfl
  · cases h
    have hdouble : weight ≤ 2 * m := by
      unfold wrap64 at hbig
      have := Nat.mod_le (2 * m) 18446744073709551616
      omega
    -- The largest rectangle of a given half perimeter is the square.
    have hsquare : (2 * m - weight) * weight ≤ m * m := by
      obtain ⟨d, hd⟩ := Nat.exists_eq_add_of_le (Nat.le_of_not_le hsmall)
      have hd' : d ≤ m := by omega
      obtain ⟨e, rfl⟩ := Nat.exists_eq_add_of_le hd'
      have hleft : 2 * (d + e) - weight = e := by omega
      rw [hleft, hd]
      have hexpand : (d + e) * (d + e) = e * (d + e + d) + d * d := by ring
      omega
    have hmult : wrap64 (wrap64 (2 * m - weight) * weight) ≤ m * m :=
      calc wrap64 (wrap64 (2 * m - weight) * weight)
          ≤ wrap64 (2 * m - weight) * weight := Nat.mod_le _ _
        _ ≤ (2 * m - weight) * weight := Nat.mul_le_mul_right _ (Nat.mod_le _ _)
        _ ≤ m * m := hsquare
    have hproduct : wrap128 (base * wrap64 (wrap64 (2 * m - weight) * weight)) ≤ base * (m * m) :=
      (Nat.mod_le _ _).trans (Nat.mul_le_mul_left _ hmult)
    calc wrap64 (wrap128 (base * wrap64 (wrap64 (2 * m - weight) * weight)) / m / m)
        ≤ wrap128 (base * wrap64 (wrap64 (2 * m - weight) * weight)) / m / m := Nat.mod_le _ _
      _ = wrap128 (base * wrap64 (wrap64 (2 * m - weight) * weight)) / (m * m) :=
          Nat.div_div_eq_div_mul _ _ _
      _ ≤ base * (m * m) / (m * m) := Nat.div_le_div_right hproduct
      _ ≤ base := Nat.div_le_of_le_mul (by rw [Nat.mul_comm])

/-- What a coinbase may claim is split into the fees and what it adds to the supply. -/
theorem validateMinerReward_ok {version baseReward fee moneyInUse reward : Nat}
    (h : validateMinerReward version baseReward fee moneyInUse = .ok reward) :
    reward + fee = moneyInUse ∧ reward ≤ baseReward ∧ baseReward + fee ≤ u64Max := by
  unfold validateMinerReward at h
  cases htotal : checkedAdd baseReward fee with
  | none =>
      rw [htotal] at h
      cases h
  | some total =>
      rw [htotal] at h
      obtain ⟨rfl, hle⟩ := checkedAdd_eq_some.mp htotal
      dsimp only at h
      split_ifs at h with hless hexact hnot
      · cases h
        exact ⟨by omega, le_rfl, hle⟩
      · unfold checkedSub at h
        split_ifs at h with hfee
        dsimp only at h
        split_ifs at h with hover
        cases h
        exact ⟨by omega, by omega, hle⟩

/-- The claimed amounts were summed with an eye on the overflow before step 10 sums them. -/
theorem stepCoinbase_claims {t : MainTables} {height : Nat} {blk : Block}
    (h : stepCoinbase P t height blk = .ok ()) : blk.claims ≤ u64Max := by
  unfold stepCoinbase at h
  split at h
  · cases h
  · split at h
    · cases h
    · rename_i hpre
      simp only [prevalidateMinerTx, bind_eq_ok] at hpre
      obtain ⟨_, _, hcoinbase⟩ := hpre
      unfold checkCoinbase at hcoinbase
      split at hcoinbase
      · split_ifs at hcoinbase
        simp only [bind_eq_ok] at hcoinbase
        obtain ⟨sum, hsum, _⟩ := hcoinbase
        have hchecked := (checkedSum_eq_some (Nat.zero_le _)).mp (checkOutsOverflow_sum hsum)
        rw [Nat.zero_add] at hchecked
        rw [Block.claims, hchecked.1]
        exact hchecked.2
      · cases hcoinbase

theorem stepReward_ok {state : ChainState} {blk : Block} {weight fees reward : Nat}
    (hclaims : blk.claims ≤ u64Max) (h : stepReward state blk weight fees = .ok reward) :
    reward + fees = blk.claims ∧ reward ≤ (u64Max - state.alreadyGeneratedCoins) / 2 ^ 20 := by
  unfold stepReward at h
  have hwrap : wrap64 (blk.minerTx.txPrefix.vout.map (·.amount)).sum = blk.claims := by
    refine Nat.mod_eq_of_lt (Nat.lt_of_le_of_lt hclaims ?_)
    decide
  dsimp only at h
  rw [hwrap] at h
  split at h
  · cases h
  · rename_i baseReward hbase
    split at h
    · cases h
    · rename_i found hvalid
      cases h
      obtain ⟨hsplit, hle, _⟩ := validateMinerReward_ok hvalid
      exact ⟨hsplit, hle.trans (getBlockReward_le hbase)⟩

/-! ### The ledger -/

/-- The coins in existence below a height. -/
def coinsBelow (t : MainTables) (height : Nat) : Nat :=
  if height = 0 then 0 else ((t.blockInfo.get (height - 1)).map (·.coins)).getD 0

/-- A block was accepted with this record, at this height. -/
def AcceptedAs (P : Params σ) (height : Nat) (b : Handed) (info : BlockInfo) : Prop :=
  ∃ c c' now fees reward v, Accepted P c b.blk b.blob b.txs now fees reward v c' ∧
    c.height = height ∧ c'.db.main.blockInfo.get height = some info

/-- The entry of one block, over the coins that were there before it. -/
structure Entry (before : Nat) (b : Handed) (info : BlockInfo) : Prop where
  claims : b.blk.claims ≤ u64Max
  balance : info.coins + min (feesOf b.txs) u64Max = before + b.blk.claims
  grows : before ≤ info.coins
  bounded : info.coins ≤ u64Max
  curve : info.coins - before ≤ (u64Max - before) / 2 ^ 20

/-- Every height of the store has its entry. -/
def Ledger (P : Params σ) (t : MainTables) : Prop :=
  ∀ height info, t.blockInfo.get height = some info →
    ∃ b, t.blocks.get height = some b.blob ∧ AcceptedAs P height b info ∧
      Entry (coinsBelow t height) b info

theorem ledger_empty : Ledger P MainTables.empty := by
  intro height info hinfo
  cases hinfo

/-- The cached supply is the one the records end with. -/
theorem InStep.coins {c : Chain σ} (hc : InStep P c) :
    c.state.alreadyGeneratedCoins = coinsBelow c.db.main c.height := by
  have hlen := hc.numbered.length_records
  rw [hc.state, stateOf, coinsBelow, Chain.height]
  by_cases hz : c.db.main.height = 0
  · rw [if_pos hz, List.eq_nil_of_length_eq_zero (hlen.trans hz)]
    rfl
  · rw [if_neg hz, List.getLast?_eq_getElem?, hlen, hc.numbered.records_get]
    obtain ⟨info, hinfo⟩ := hc.numbered.info (k := c.db.main.height - 1) (by omega)
    rw [hinfo]
    rfl

/-- **One block.**  Its entry follows from the supply it was accepted over. -/
theorem Accepted.entry {c c' : Chain σ} {b : Handed} {now fees reward : Nat} {v : σ}
    (h : Accepted P c b.blk b.blob b.txs now fees reward v c')
    (hcoins : c.state.alreadyGeneratedCoins ≤ u64Max) {info : BlockInfo}
    (hinfo : info.coins = saturatingAdd c.state.alreadyGeneratedCoins reward) :
    Entry c.state.alreadyGeneratedCoins b info := by
  obtain ⟨_, _, _, _, _, _, hcoinbase⟩ := prechecks_ok.mp h.prechecks
  have hclaims := stepCoinbase_claims hcoinbase
  obtain ⟨hsplit, hcurve⟩ := stepReward_ok hclaims h.minerReward
  have hfees := checkTransactions_fees h.transactions
  have hroom : c.state.alreadyGeneratedCoins + reward ≤ u64Max := by
    have := Nat.div_le_self (u64Max - c.state.alreadyGeneratedCoins) (2 ^ 20)
    omega
  have hexact : info.coins = c.state.alreadyGeneratedCoins + reward := by
    rw [hinfo, saturatingAdd, Nat.min_eq_left hroom]
  refine ⟨hclaims, ?_, ?_, ?_, ?_⟩
  · rw [← hfees, hexact, Nat.add_assoc, hsplit]
  · rw [hexact]
    exact Nat.le_add_right _ _
  · rw [hexact]
    exact hroom
  · rw [hexact, Nat.add_sub_cancel_left]
    exact hcurve

theorem coinsBelow_le {t : MainTables} (h : Ledger P t) (height : Nat) :
    coinsBelow t height ≤ u64Max := by
  unfold coinsBelow
  split_ifs with hz
  · exact Nat.zero_le _
  · cases hinfo : t.blockInfo.get (height - 1) with
    | none => exact Nat.zero_le _
    | some info =>
        obtain ⟨b, _, _, hentry⟩ := h _ _ hinfo
        exact hentry.bounded

/-- The entries below are those of a store that agrees with this one so far. -/
theorem coinsBelow_congr {t t' : MainTables} {height : Nat}
    (h : ∀ k < height, t'.blockInfo.get k = t.blockInfo.get k) :
    coinsBelow t' height = coinsBelow t height := by
  unfold coinsBelow
  split_ifs with hz
  · rfl
  · rw [h (height - 1) (by omega)]

theorem Accepted.ledger {c c' : Chain σ} {b : Handed} {now fees reward : Nat} {v : σ}
    (h : Accepted P c b.blk b.blob b.txs now fees reward v c') (hc : InStep P c)
    (hl : Ledger P c.db.main) : Ledger P c'.db.main := by
  obtain ⟨info, hadded, _, _, _, hcoins⟩ := addBlock_added h.main
  have hget := hadded.get_info hc.numbered
  have hbelow : ∀ height ≤ c.height, coinsBelow c'.db.main height = coinsBelow c.db.main height := by
    intro height hle
    refine coinsBelow_congr fun k hk => ?_
    have hne : k ≠ c.db.main.height := Nat.ne_of_lt (Nat.lt_of_lt_of_le hk hle)
    rw [hget k, if_neg hne]
  intro height info' hinfo'
  have hrow := hinfo'
  rw [hget height] at hrow
  split_ifs at hrow with htip
  · cases hrow
    subst htip
    refine ⟨b, ?_, ⟨c, c', now, fees, reward, v, h, rfl, hinfo'⟩, ?_⟩
    · rw [hadded.blocks, Table.get_put, if_pos rfl]
    · rw [hbelow c.db.main.height le_rfl]
      have hle : c.state.alreadyGeneratedCoins ≤ u64Max := hc.coins ▸ coinsBelow_le hl _
      exact hc.coins ▸ h.entry hle hcoins
  · obtain ⟨b', hblob, haccepted, hentry⟩ := hl height info' hrow
    have hlt : height < c.height := hc.numbered.lt_height hrow
    refine ⟨b', ?_, haccepted, ?_⟩
    · rw [hadded.blocks, Table.get_put, if_neg htip]
      exact hblob
    · rw [hbelow _ hlt.le]
      exact hentry

theorem PoppedBlock.ledger {t t' : MainTables} {info : BlockInfo} (h : PoppedBlock t info t')
    (hn : t.Numbered) (hl : Ledger P t) : Ledger P t' := by
  intro height info' hinfo'
  have hrow := hinfo'
  rw [h.blockInfo, Table.get_del] at hrow
  split_ifs at hrow with htip
  obtain ⟨b, hblob, haccepted, hentry⟩ := hl height info' hrow
  refine ⟨b, ?_, haccepted, ?_⟩
  · rw [h.blocks, Table.get_del, if_neg htip]
    exact hblob
  · have hlt : height < t.height := hn.lt_height hrow
    have hbelow : coinsBelow t' height = coinsBelow t height := by
      refine coinsBelow_congr fun k hk => ?_
      rw [h.blockInfo, Table.get_del, if_neg (by omega)]
    rw [hbelow]
    exact hentry

/-! ### Runs -/

/-- The caches are in step with a store that has its ledger. -/
structure Accounted (P : Params σ) (c : Chain σ) : Prop where
  inStep : InStep P c
  ledger : Ledger P c.db.main

/-- What pops leave of it. -/
structure HalfAccounted (P : Params σ) (c : Chain σ) : Prop where
  numbered : c.db.main.Numbered
  ledger : Ledger P c.db.main

theorem accounted_stepwise :
    Stepwise P (fun _ => True) (HalfAccounted P) (Accounted P) where
  weaken c h := ⟨h.inStep.numbered, h.ledger⟩
  frame c c' hmain hstate h := ⟨h.inStep.of_eq hmain hstate, hmain ▸ h.ledger⟩
  frameM c c' hmain h := ⟨hmain ▸ h.numbered, hmain ▸ h.ledger⟩
  add c b now result c' h _ hout := by
    have hin := addBlock_inStep h.inStep b.blk b.blob b.txs now
    rw [hout] at hin
    refine ⟨hin, ?_⟩
    cases result with
    | ok added =>
        obtain ⟨_, fees, reward, v, haccepted⟩ := addBlock_ok hout
        exact haccepted.ledger h.inStep h.ledger
    | error r =>
        obtain ⟨v, rfl⟩ := addBlock_error hout
        exact h.ledger
  pop c block txs c' h hpop := by
    obtain ⟨info, hpopped, _⟩ := popBlock_popped (popBlock_ok hpop).1
    exact ⟨⟨hpopped.numbered h.numbered, hpopped.ledger h.numbered h.ledger⟩, trivial,
      fun _ _ => trivial⟩
  reload c c' h hreload := by
    rw [reloadState_eq h.numbered] at hreload
    cases hreload
    exact ⟨⟨h.numbered, rfl⟩, h.ledger⟩
  unlisted _ _ _ _ _ := trivial

/-- **Supply accounting.**  In every state a run without a failure of the store reaches, the
    entry of every height follows from the one below it: what the coinbase claims fits into
    `u64`, the supply neither falls nor passes its end nor leaves the emission curve, and it
    moves by the claim less the fees exactly if the fees of the block fit into `u64`. -/
theorem supply_accounted {v : σ} {c₀ : Chain σ} (hopen : Chain.new P Store.empty v = .ok c₀)
    (actions : List (Action σ))
    (hparse : ∀ a ∈ actions, ∀ b, a.carried = some b → Block.fromBlob b.blob = .ok b.blk)
    (hok : c₀.Along P (NoStorageError (P := P)) actions) (height : Nat) (info : BlockInfo)
    (hinfo : (c₀.run P actions).db.main.blockInfo.get height = some info) :
    ∃ b : Handed, (c₀.run P actions).db.main.blocks.get height = some b.blob ∧
      AcceptedAs P height b info ∧ b.blk.claims ≤ u64Max ∧ info.coins ≤ u64Max ∧
      coinsBelow (c₀.run P actions).db.main height ≤ info.coins ∧
      info.coins - coinsBelow (c₀.run P actions).db.main height ≤
        (u64Max - coinsBelow (c₀.run P actions).db.main height) / 2 ^ 20 ∧
      (info.coins + feesOf b.txs =
          coinsBelow (c₀.run P actions).db.main height + b.blk.claims ↔
        feesOf b.txs ≤ u64Max) := by
  have hstart : Accounted P c₀ := by
    have hin := new_inStep MainTables.numbered_empty hopen
    cases hopen
    exact ⟨hin, ledger_empty⟩
  obtain ⟨haccounted, _⟩ := run_stepwise accounted_stepwise hstart (waiting_new hopen) actions
    (fun a ha b hb => ⟨trivial, hparse a ha b hb⟩) hok
  obtain ⟨b, hblob, haccepted, hentry⟩ := haccounted.ledger height info hinfo
  refine ⟨b, hblob, haccepted, hentry.claims, hentry.bounded, hentry.grows, hentry.curve, ?_⟩
  have hbalance := hentry.balance
  omega

end

section

open Sample

/-- The supply of a miner's chain of three blocks. -/
theorem supply_accounted_mined :
    ∃ info, ((opened ()).run bare (mined bare (opened ()) 3).1).db.main.blockInfo.get 2 =
        some info ∧ info.coins ≤ u64Max ∧
      coinsBelow ((opened ()).run bare (mined bare (opened ()) 3).1).db.main 2 ≤ info.coins := by
  have hinfo : (((opened ()).run bare (mined bare (opened ()) 3).1).db.main.blockInfo.get
      2).isSome := by decide +kernel
  obtain ⟨info, hinfo⟩ := Option.isSome_iff_exists.mp hinfo
  have hparse : ∀ b ∈ (mined bare (opened ()) 3).1.filterMap Action.carried,
      Block.fromBlob b.blob = .ok b.blk := by decide +kernel
  have hok : (opened ()).Along bare (NoStorageError (P := bare)) (mined bare (opened ()) 3).1 := by
    decide +kernel
  obtain ⟨b, _, _, _, hbounded, hgrows, _⟩ := supply_accounted (new_empty bare ()) _
    (fun a ha b hb => hparse b (List.mem_filterMap.mpr ⟨a, ha, hb⟩)) hok 2 info hinfo
  exact ⟨info, hinfo, hbounded, hgrows⟩

end

namespace Sample

/-- A transaction whose range proof makes room for more outputs than it has, and pays for them
    in weight. -/
def wideTx (kImage : KeyImage) (fee folds extra : Nat) : Transaction :=
  sized ⟨2, 0, [.toKey 0 [0] kImage], List.replicate 3 ⟨0, .toKey 8⟩, List.replicate extra 0⟩
    { ty := .bulletproofPlus
      txnFee := fee
      ecdhInfo := List.replicate 3 ⟨0, 0⟩
      outPk := List.replicate 3 0
      bulletproofsPlus := [⟨0, 0, 0, 0, 0, 0, List.replicate folds 0, List.replicate folds 0⟩]
      clsags := [⟨[0], 0, 1⟩]
      pseudoOuts := [0] }

/-- Two fees that do not fit into `u64` together. -/
def costlyTxs : List (Transaction × Blob) :=
  [wideTx 1 (2 ^ 63) 17 0, wideTx 2 (2 ^ 63) 14 0, wideTx 3 0 11 75].map fun tx => (tx, tx.write)

/-- A block of twice the median weight, which is due no reward of its own. -/
def costly : Block :=
  { nextBlock trusting afterGenesis 0 (costlyTxs.map fun p => txId p.1) with
    minerTx := coinbase 1 61 [⟨u64Max, .toKey 8⟩] }

/-- The run that ends with it. -/
def costlyRun : List (Action Unit) :=
  [.handleBlock genesis genesis.toBlob [] clock,
    .handleBlock costly costly.toBlob costlyTxs clock]

end Sample

section

open Sample

/-- The fees of two accepted transactions are cut short: the coinbase collects one unit less than
    they gave up, and the supply does not account for it. -/
theorem fees_cut_short :
    ((opened ()).run trusting costlyRun).height = 2 ∧
      (⟨costly, costly.toBlob, costlyTxs⟩ : Handed).Canonical crypto ∧
      ((opened ()).run trusting costlyRun).db.main.blocks.get 1 = some costly.toBlob ∧
      ((((opened ()).run trusting costlyRun).db.main.blockInfo.get 1).map fun info =>
        info.coins + feesOf costlyTxs) =
        some (coinsBelow ((opened ()).run trusting costlyRun).db.main 1 + costly.claims + 1) := by
  decide +kernel

end

end Wownero

import Mathlib.Data.List.Induction
import Mathlib.Data.Nat.Log
import Mathlib.Logic.Function.Iterate
import Mathlib.Tactic.Ring
import Mathlib.Tactic.Linarith
import Wownero.Penalty
import Wownero.RctCodec
import Wownero.Template
/-!
# When a template can be built

The reward does not rise with the weight, so a coinbase measured for a larger weight is not larger.
Within the room that the selection leaves, the reward does not fall so far that the coinbase could
lose two bytes.  So the rounds meet at most two sizes, and come to rest exactly where one of them is
the size of the coinbase it leads to.  Where neither is, they alternate until the rounds are used up.
-/

/-! ### Measuring again and again -/

namespace Rounds

/-- The measure comes to rest within so many rounds. -/
def Rests (f : Nat → Nat) (rounds w : Nat) : Prop := ∃ k < rounds, f (f^[k] w) = f^[k] w

variable {f : Nat → Nat} {s bound : Nat}

/-- Two neighbouring sizes, the larger for the smaller weights: the rounds rest exactly where a size
    leads to itself. -/
theorem rests_iff {rounds : Nat} (hrounds : 3 ≤ rounds) (hs : s + 1 ≤ bound)
    (htwo : ∀ w ≤ bound, f w = s ∨ f w = s + 1) (hanti : ∀ w ≤ bound, f w ≤ f 0) :
    Rests f rounds 0 ↔ ∃ w, w ≤ bound ∧ f w = w := by
  have hiter : ∀ k, f^[k] 0 ≤ bound := by
    intro k
    cases k with
    | zero => exact Nat.zero_le _
    | succ k =>
        rw [Function.iterate_succ_apply']
        have hk : f^[k] 0 ≤ bound := by
          induction k with
          | zero => exact Nat.zero_le _
          | succ k ih =>
              rw [Function.iterate_succ_apply']
              rcases htwo _ ih with h | h <;> omega
        rcases htwo _ hk with h | h <;> omega
  constructor
  · rintro ⟨k, -, hrest⟩
    exact ⟨_, hiter k, hrest⟩
  · rintro ⟨w, hw, hrest⟩
    -- The size that leads to itself is one of the two.
    rcases htwo 0 (Nat.zero_le _) with hzero | hzero
    · have hall : f s = s := by
        have hle := hanti s (by omega)
        rcases htwo s (by omega) with h | h
        · exact h
        · omega
      exact ⟨1, by omega, by rw [Function.iterate_one, hzero, hall]⟩
    · by_cases hlarge : f (s + 1) = s + 1
      · exact ⟨1, by omega, by rw [Function.iterate_one, hzero, hlarge]⟩
      · have hlarge' : f (s + 1) = s := (htwo _ hs).resolve_right hlarge
        have hsmall : f s = s := by
          rcases htwo w hw with h | h
          · rw [hrest] at h
            rwa [h] at hrest
          · rw [hrest] at h
            rw [h] at hrest
            exact absurd hrest hlarge
        refine ⟨2, by omega, ?_⟩
        have htwice : f^[2] 0 = s := by
          show f (f 0) = s
          rw [hzero, hlarge']
        rw [htwice, hsmall]

end Rounds

namespace Wownero.Archive

/-! ### The length of a varint -/

theorem length_writeVarintLoop {fuel v : Nat} (h : v ≤ fuel) :
    (writeVarintLoop fuel v).length = Nat.log 128 v + 1 := by
  induction fuel generalizing v with
  | zero =>
      rw [Nat.le_zero.mp h]
      simp [writeVarintLoop]
  | succ fuel ih =>
      rw [writeVarintLoop]
      split_ifs with hlong
      · have hpos : 0 < Nat.log 128 v := Nat.log_pos (by norm_num) hlong
        rw [List.length_cons, ih (by omega), Nat.log_div_base, Nat.sub_add_cancel hpos]
      · rw [List.length_singleton, Nat.log_of_lt (by omega)]

theorem length_writeVarint (v : Nat) : (writeVarint v).length = Nat.log 128 v + 1 :=
  length_writeVarintLoop le_rfl

theorem length_writeVarint_le {v : Nat} (h : v < 2 ^ 64) : (writeVarint v).length ≤ 10 := by
  rw [length_writeVarint]
  have hlog : Nat.log 128 v < 10 := Nat.log_lt_of_lt_pow' (by norm_num) (by omega)
  omega

/-- A number up to a hundred and twenty-eight times another takes at most one byte more. -/
theorem log_le_succ {a b : Nat} (h : a / 128 ≤ b) : Nat.log 128 a ≤ Nat.log 128 b + 1 := by
  have hmono := Nat.log_mono_right (b := 128) h
  rw [Nat.log_div_base] at hmono
  omega

end Wownero.Archive

namespace Wownero.Mining

open Wownero Wownero.TxRules Wownero.Archive Wownero.Mempool

/-! ### The reward -/

/-- With six hundred bytes of room, four hundred do not take more than a hundred and twenty-seventh
    of it. -/
theorem reward_keeps (R : Nat) {M T w : Nat} (hM : 1000 ≤ M) (hT : T + 600 ≤ 2 * M)
    (hw : w ≤ 400) :
    penalised R M T ≤ 128 * penalised R M (T + w) + 127 := by
  unfold penalised
  obtain ⟨a, ha⟩ : ∃ a, a = T - M := ⟨_, rfl⟩
  obtain ⟨b, hb⟩ : ∃ b, b = T + w - M := ⟨_, rfl⟩
  rw [← ha, ← hb]
  have hroom : M - a ≤ 128 * (M - b) := by omega
  have hsum : M + a ≤ M + b := by omega
  have hareas : M * M - a * a ≤ 128 * (M * M - b * b) := by
    rw [Nat.mul_self_sub_mul_self_eq, Nat.mul_self_sub_mul_self_eq]
    calc (M + a) * (M - a) ≤ (M + b) * (128 * (M - b)) := Nat.mul_le_mul hsum hroom
      _ = 128 * ((M + b) * (M - b)) := by ring
  have hscaled : R * (M * M - a * a) ≤ 128 * (R * (M * M - b * b)) := by
    calc R * (M * M - a * a) ≤ R * (128 * (M * M - b * b)) := Nat.mul_le_mul_left _ hareas
      _ = 128 * (R * (M * M - b * b)) := by ring
  generalize R * (M * M - b * b) = y at hscaled
  have hpos : 0 < M * M := Nat.mul_pos (by omega) (by omega)
  have hy : y < M * M * (y / (M * M) + 1) := Nat.lt_mul_div_succ y hpos
  have hlt : R * (M * M - a * a) / (M * M) < 128 * (y / (M * M) + 1) := by
    rw [Nat.div_lt_iff_lt_mul hpos]
    calc R * (M * M - a * a) ≤ 128 * y := hscaled
      _ < 128 * (M * M * (y / (M * M) + 1)) := by omega
      _ = 128 * (y / (M * M) + 1) * (M * M) := by ring
  omega

/-- What the selection leaves room for is not over the limit. -/
theorem reward_isSome {median T w coins version : Nat}
    (hT : T ≤ wrap64 (2 * median) - coinbaseBlobReservedSize) (hw : w ≤ coinbaseBlobReservedSize) :
    ∃ reward, getBlockReward median (T + w) coins version = some reward := by
  have hzone := getMinBlockWeight_bounds version
  unfold coinbaseBlobReservedSize at hT hw
  unfold getBlockReward
  simp only
  split_ifs with hfree hover
  · exact ⟨_, rfl⟩
  · exfalso
    unfold wrap64 at hT hover
    omega
  · exact ⟨_, rfl⟩

/-! ### The transactions -/

section

variable {t : MainTables} {network : Network} {maxWeight : Nat} {rewardAt : Nat → Option Nat}

/-- What is true of a block while it is filled: it has some of the pool's transactions in it, no
    heavier together than allowed. -/
structure Filled (maxWeight : Nat) (order : List (Hash256 × PoolEntry)) (f : Filling) : Prop where
  selected : ∃ rows : List (Hash256 × PoolEntry), rows.Sublist order ∧ f.txHashes = rows.map (·.1) ∧
    f.txsWeight = (rows.map (·.2.weight)).sum ∧
    f.fees = min (rows.map (·.2.fee)).sum u64Max ∧
    ∀ row ∈ rows, ∃ tx, Transaction.fromBlob row.2.blob = .ok tx
  fits : f.txsWeight ≤ maxWeight

theorem Filled.consider {order : List (Hash256 × PoolEntry)} {f : Filling}
    (h : Filled maxWeight order f) (id : Hash256) (entry : PoolEntry) :
    Filled maxWeight (order ++ [(id, entry)]) (consider t network maxWeight rewardAt f id entry) := by
  obtain ⟨⟨rows, hsub, hhashes, hweight, hfees, hparse⟩, hfits⟩ := h
  have hskip : Filled maxWeight (order ++ [(id, entry)]) f :=
    ⟨⟨rows, hsub.trans (List.sublist_append_left _ _), hhashes, hweight, hfees, hparse⟩, hfits⟩
  unfold Mining.consider
  split_ifs with hover
  · exact hskip
  cases rewardAt (f.txsWeight + entry.weight) with
  | none => exact hskip
  | some reward =>
      simp only
      split_ifs
      · exact hskip
      cases htx : Transaction.fromBlob entry.blob with
      | error e => exact hskip
      | ok tx =>
          simp only
          split_ifs
          · exact hskip
          · simp only [Bool.or_eq_true, decide_eq_true_eq, not_or, Nat.not_lt] at hover
            refine ⟨⟨rows ++ [(id, entry)], hsub.append (List.Sublist.refl _), ?_, ?_, ?_, ?_⟩,
              hover.2⟩
            · simp [hhashes]
            · simp [hweight]
            · simp only [hfees, List.map_append, List.map_cons, List.map_nil, List.sum_append,
                List.sum_singleton, saturatingAdd]
              omega
            · intro row hrow
              rcases List.mem_append.mp hrow with hrow | hrow
              · exact hparse row hrow
              · rw [List.mem_singleton.mp hrow]
                exact ⟨tx, htx⟩

theorem fill_filled (order : List (Hash256 × PoolEntry)) :
    Filled maxWeight order (fill t network maxWeight rewardAt order) := by
  induction order using List.reverseRecOn with
  | nil => exact ⟨⟨[], List.Sublist.refl _, rfl, rfl, rfl, by simp⟩, Nat.zero_le _⟩
  | append_singleton order row ih =>
      unfold fill at ih ⊢
      rw [List.foldl_append]
      exact ih.consider row.1 row.2

end

/-! ### The coinbase -/

section

variable {version unlockTime height : Nat} {target : TxOutTarget} {extra : Blob}

/-- The bytes of a coinbase that are not its amount. -/
def coinbaseOverhead (version unlockTime height : Nat) (target : TxOutTarget) (extra : Blob) : Nat :=
  (coinbaseTx version unlockTime height target extra 0).write.length - 1

/-- The bytes of a coinbase behind its prefix. -/
def coinbaseTail (version : Nat) : Blob := if version = 1 then [] else [0]

theorem write_coinbase (amount : Nat) :
    (coinbaseTx version unlockTime height target extra amount).write =
      (coinbaseTx version unlockTime height target extra amount).txPrefix.write ++
        coinbaseTail version := by
  have hversion :
      (coinbaseTx version unlockTime height target extra amount).txPrefix.version = version := rfl
  unfold Transaction.write coinbaseTail
  rw [hversion]
  by_cases hone : version = 1
  · rw [if_pos hone, if_pos hone]
    rfl
  · rw [if_neg hone, if_neg hone]
    rfl

theorem length_coinbasePrefix (amount : Nat) :
    (coinbaseTx version unlockTime height target extra amount).txPrefix.write.length =
      (writeVarint version).length + (writeVarint unlockTime).length +
        (writeVarint height).length + target.write.length + (writeVarint extra.length).length +
        extra.length + (writeVarint amount).length + 3 := by
  have hone : (writeVarint 1).length = 1 := rfl
  simp only [coinbaseTx, TransactionPrefix.write, TxOut.write, TxIn.write, writeBytesPrefixed,
    List.flatMap_cons, List.flatMap_nil, List.append_nil, List.length_append, List.length_cons,
    List.length_nil, Nat.zero_add, hone]
  omega

theorem length_coinbase (amount : Nat) :
    (coinbaseTx version unlockTime height target extra amount).write.length =
      coinbaseOverhead version unlockTime height target extra + (Nat.log 128 amount + 1) := by
  have hzero : (writeVarint 0).length = 1 := rfl
  rw [coinbaseOverhead, write_coinbase, write_coinbase, List.length_append, List.length_append,
    length_coinbasePrefix, length_coinbasePrefix, hzero, ← length_writeVarint]
  omega

/-- A coinbase that has room in its types is below four hundred bytes. -/
theorem coinbaseOverhead_le (hversion : version < 128) (hunlock : unlockTime < 2 ^ 64)
    (hheight : height < 2 ^ 64) (htarget : target.write.length ≤ 34)
    (hextra : extra.length ≤ 290) :
    coinbaseOverhead version unlockTime height target extra ≤ 390 := by
  have hversion' : (writeVarint version).length = 1 := by
    rw [length_writeVarint, Nat.log_of_lt hversion]
  have hunlock' := length_writeVarint_le hunlock
  have hheight' := length_writeVarint_le hheight
  have hzero : (writeVarint 0).length = 1 := rfl
  have hlen : (writeVarint extra.length).length ≤ 2 := by
    rw [length_writeVarint]
    have hlog : Nat.log 128 extra.length < 2 := Nat.log_lt_of_lt_pow' (by norm_num) (by omega)
    omega
  have htail : (coinbaseTail version).length ≤ 1 := by
    unfold coinbaseTail
    split_ifs <;> simp
  rw [coinbaseOverhead, write_coinbase, List.length_append, length_coinbasePrefix, hversion', hzero]
  omega

/-- Without signatures there is nothing to expand. -/
theorem expand_null {tx : Transaction} (h : tx.rctSignatures = {}) : tx.expand = .ok () := by
  unfold Transaction.expand
  rw [h]
  split_ifs <;> rfl

theorem fromBlob_of_read {blob : Blob} {tx : Transaction} {r : Reader}
    (hread : Transaction.read (Reader.new blob) = .ok (tx, r)) (hexpand : tx.expand = .ok ()) :
    Transaction.fromBlob blob = .ok tx := by
  have hparse : parse Transaction.read blob = .ok tx := by
    unfold parse
    rw [hread]
    rfl
  unfold Transaction.fromBlob
  rw [hparse]
  show (tx.expand >>= fun _ => Except.ok tx) = .ok tx
  rw [hexpand]
  rfl

/-- A coinbase is parsed again from its bytes. -/
theorem coinbase_parses {amount : Nat}
    (hfits : (coinbaseTx version unlockTime height target extra amount).txPrefix.Fits) :
    ∃ tx, Transaction.fromBlob (coinbaseTx version unlockTime height target extra amount).write =
        .ok tx ∧
      tx.txPrefix = (coinbaseTx version unlockTime height target extra amount).txPrefix ∧
      tx.rctSignatures = {} ∧
      tx.write = (coinbaseTx version unlockTime height target extra amount).write := by
  have hreads := TransactionPrefix.reads hfits (coinbaseTail version) 0
  rw [write_coinbase]
  generalize hp : (coinbaseTx version unlockTime height target extra amount).txPrefix = p
    at hfits hreads ⊢
  have hvin : p.vin = [.gen height] := by rw [← hp]; rfl
  have hvout : p.vout.length = 1 := by rw [← hp]; rfl
  have hversion : p.version = version := by rw [← hp]; rfl
  by_cases hone : version = 1
  · have hversion' := hversion.trans hone
    have hread : Transaction.read (Reader.new (p.write ++ coinbaseTail version)) =
        .ok (⟨p, [[]], {}, p.write.length, p.write.length⟩,
          ⟨coinbaseTail version, p.write.length⟩) := by
      unfold Transaction.read Reader.new
      rw [run_bind (run_pos _), run_bind hreads, run_bind (run_pos _), if_pos hversion', hvin]
      simp [readMany, TxIn.signatureSize, run_pure]
    refine ⟨⟨p, [[]], {}, p.write.length, p.write.length⟩,
      fromBlob_of_read hread (expand_null rfl), rfl, rfl, ?_⟩
    simp [Transaction.write, coinbaseTail, hversion', hone]
  · have htwo : p.version ≠ 1 := by rwa [hversion]
    have htail : coinbaseTail version = [0] := if_neg hone
    have hread : Transaction.read (Reader.new (p.write ++ coinbaseTail version)) =
        .ok (⟨p, [], {}, p.write.length, p.write.length + 1⟩, ⟨[], p.write.length + 1⟩) := by
      have hbase (pos : Nat) : RctSignatures.readBase 1 1 ⟨[0], pos⟩ =
          .ok ({}, ⟨[], pos + 1⟩) := rfl
      unfold Transaction.read Reader.new
      rw [run_bind (run_pos _), run_bind hreads, run_bind (run_pos _), if_neg htwo, hvin, htail,
        hvout]
      show (RctSignatures.readBase 1 1 >>= _) _ = _
      rw [run_bind (hbase _), run_bind (run_pos _), Nat.zero_add]
      rfl
    refine ⟨⟨p, [], {}, p.write.length, p.write.length + 1⟩,
      fromBlob_of_read hread (expand_null rfl), rfl, rfl, ?_⟩
    rw [Transaction.write, if_neg htwo, hvin, htail]
    rfl

end

/-! ### The rounds -/

section

variable {rewardAt : Nat → Option Nat} {txsWeight fees bound : Nat} {coinbaseOf : Nat → Transaction}

/-- The amount a coinbase of this weight pays. -/
def amountAt (rewardAt : Nat → Option Nat) (txsWeight fees w : Nat) : Nat :=
  saturatingAdd ((rewardAt (txsWeight + w)).getD 0) fees

/-- The weight of the coinbase of a block whose coinbase is taken to have this weight. -/
def measured (rewardAt : Nat → Option Nat) (txsWeight fees : Nat) (coinbaseOf : Nat → Transaction)
    (w : Nat) : Nat :=
  (coinbaseOf (amountAt rewardAt txsWeight fees w)).write.length

theorem settle_succ {rounds w reward : Nat} (hreward : rewardAt (txsWeight + w) = some reward) :
    settle rewardAt txsWeight fees coinbaseOf (rounds + 1) w =
      if measured rewardAt txsWeight fees coinbaseOf w = w then
        match Transaction.fromBlob (coinbaseOf (amountAt rewardAt txsWeight fees w)).write with
        | .error e => .error (.parse e)
        | .ok tx => .ok (tx, amountAt rewardAt txsWeight fees w)
      else settle rewardAt txsWeight fees coinbaseOf rounds
        (measured rewardAt txsWeight fees coinbaseOf w) := by
  rw [settle, hreward]
  simp only [measured, amountAt, hreward, Option.getD_some] <;> rfl

/-- Where the rounds rest, the coinbase is the one they rest at. -/
theorem settle_of_rests {rounds w : Nat}
    (hreward : ∀ w ≤ bound, ∃ reward, rewardAt (txsWeight + w) = some reward)
    (hsize : ∀ w ≤ bound, measured rewardAt txsWeight fees coinbaseOf w ≤ bound)
    (hparse : ∀ amount ≤ u64Max, ∃ tx, Transaction.fromBlob (coinbaseOf amount).write = .ok tx)
    (hw : w ≤ bound)
    (hrests : Rounds.Rests (measured rewardAt txsWeight fees coinbaseOf) rounds w) :
    ∃ k < rounds, ∃ tx, measured rewardAt txsWeight fees coinbaseOf
        ((measured rewardAt txsWeight fees coinbaseOf)^[k] w) =
          (measured rewardAt txsWeight fees coinbaseOf)^[k] w ∧
      (measured rewardAt txsWeight fees coinbaseOf)^[k] w ≤ bound ∧
      Transaction.fromBlob (coinbaseOf (amountAt rewardAt txsWeight fees
        ((measured rewardAt txsWeight fees coinbaseOf)^[k] w))).write = .ok tx ∧
      settle rewardAt txsWeight fees coinbaseOf rounds w = .ok (tx, amountAt rewardAt txsWeight fees
        ((measured rewardAt txsWeight fees coinbaseOf)^[k] w)) := by
  induction rounds generalizing w with
  | zero =>
      obtain ⟨k, hk, -⟩ := hrests
      exact absurd hk (Nat.not_lt_zero k)
  | succ rounds ih =>
      obtain ⟨reward, hrewardAt⟩ := hreward w hw
      rw [settle_succ hrewardAt]
      by_cases hrest : measured rewardAt txsWeight fees coinbaseOf w = w
      · obtain ⟨tx, htx⟩ := hparse (amountAt rewardAt txsWeight fees w) (saturatingAdd_le _ _)
        refine ⟨0, Nat.succ_pos _, tx, hrest, hw, htx, ?_⟩
        rw [if_pos hrest, htx]
        rfl
      · obtain ⟨k, hk, hat⟩ := hrests
        cases k with
        | zero => exact absurd hat hrest
        | succ k =>
            obtain ⟨j, hj, tx, hfound⟩ :=
              ih (hsize w hw) ⟨k, Nat.lt_of_succ_lt_succ hk, hat⟩
            rw [if_neg hrest]
            exact ⟨j + 1, Nat.succ_lt_succ hj, tx, hfound⟩

/-- Where they do not, there is no coinbase. -/
theorem settle_of_not_rests {rounds w : Nat}
    (hreward : ∀ w ≤ bound, ∃ reward, rewardAt (txsWeight + w) = some reward)
    (hsize : ∀ w ≤ bound, measured rewardAt txsWeight fees coinbaseOf w ≤ bound) (hw : w ≤ bound)
    (hrests : ¬ Rounds.Rests (measured rewardAt txsWeight fees coinbaseOf) rounds w) :
    settle rewardAt txsWeight fees coinbaseOf rounds w =
      .error (.chain "the coinbase weight did not settle") := by
  induction rounds generalizing w with
  | zero => rfl
  | succ rounds ih =>
      obtain ⟨reward, hrewardAt⟩ := hreward w hw
      have hmoves : measured rewardAt txsWeight fees coinbaseOf w ≠ w :=
        fun hrest => hrests ⟨0, Nat.succ_pos _, hrest⟩
      rw [settle_succ hrewardAt, if_neg hmoves]
      refine ih (hsize w hw) ?_
      rintro ⟨k, hk, hat⟩
      exact hrests ⟨k + 1, Nat.succ_lt_succ hk, hat⟩

end

/-! ### Two sizes -/

section

variable {network : Network} {next : NextBlock} {txsWeight fees version unlockTime height : Nat}
  {target : TxOutTarget} {extra : Blob}

variable (network) in
/-- Below a median of `2 ^ 32` the reward of the block is the one without wraps. -/
theorem rewardAt_eq (hmedian : next.medianWeight < 2 ^ 32)
    (hroom : txsWeight ≤ wrap64 (2 * next.medianWeight) - coinbaseBlobReservedSize) :
    ∃ M, 1000 ≤ M ∧ txsWeight + 600 ≤ 2 * M ∧ ∀ w ≤ 400,
      (next.rewardAt network (txsWeight + w)).getD 0 =
        penalised (baseReward next.alreadyGeneratedCoins) M (txsWeight + w) := by
  obtain ⟨M, hM⟩ : ∃ M, M = max next.medianWeight
    (getMinBlockWeight (requiredVersion network next.height)) := ⟨_, rfl⟩
  have hzone := getMinBlockWeight_bounds (requiredVersion network next.height)
  have htwice : wrap64 (2 * next.medianWeight) = 2 * next.medianWeight :=
    Nat.mod_eq_of_lt (by omega)
  rw [htwice, coinbaseBlobReservedSize] at hroom
  refine ⟨M, by omega, by omega, fun w hw => ?_⟩
  rw [NextBlock.rewardAt, getBlockReward_eq hM (by omega) (by omega), Option.getD_some]

variable (network fees) in
/-- A heavier coinbase pays no more. -/
theorem amountAt_antitone (hmedian : next.medianWeight < 2 ^ 32)
    (hroom : txsWeight ≤ wrap64 (2 * next.medianWeight) - coinbaseBlobReservedSize) {w w' : Nat}
    (hle : w ≤ w') (hw' : w' ≤ 400) :
    amountAt (next.rewardAt network) txsWeight fees w' ≤
      amountAt (next.rewardAt network) txsWeight fees w := by
  obtain ⟨M, -, -, hreward⟩ := rewardAt_eq network hmedian hroom
  have hfalls := penalised_antitone (baseReward next.alreadyGeneratedCoins) M
    (Nat.add_le_add_left hle txsWeight)
  rw [amountAt, amountAt, hreward w' hw', hreward w (hle.trans hw')]
  unfold saturatingAdd
  omega

/-- Below a median of `2 ^ 32` the coinbase has one of two sizes, the larger first. -/
theorem measured_two (hmedian : next.medianWeight < 2 ^ 32)
    (hroom : txsWeight ≤ wrap64 (2 * next.medianWeight) - coinbaseBlobReservedSize) {w : Nat}
    (hw : w ≤ 400) :
    let f := measured (next.rewardAt network) txsWeight fees
      (coinbaseTx version unlockTime height target extra)
    let s := coinbaseOverhead version unlockTime height target extra +
      Nat.log 128 (amountAt (next.rewardAt network) txsWeight fees 0)
    (f w = s ∨ f w = s + 1) ∧ f w ≤ f 0 := by
  intro f s
  have hanti := amountAt_antitone network fees hmedian hroom
    (Nat.zero_le w) hw
  have hkeeps : amountAt (next.rewardAt network) txsWeight fees 0 / 128 ≤
      amountAt (next.rewardAt network) txsWeight fees w := by
    obtain ⟨M, hM, hfits, hreward⟩ := rewardAt_eq network hmedian hroom
    have hle := reward_keeps (baseReward next.alreadyGeneratedCoins) hM hfits hw
    rw [amountAt, amountAt, hreward w hw, hreward 0 (Nat.zero_le _), Nat.add_zero]
    unfold saturatingAdd u64Max
    omega
  have hlog := Nat.log_mono_right (b := 128) hanti
  have hlog' := log_le_succ hkeeps
  have hf : f w = coinbaseOverhead version unlockTime height target extra +
      (Nat.log 128 (amountAt (next.rewardAt network) txsWeight fees w) + 1) := length_coinbase _
  have hf₀ : f 0 = coinbaseOverhead version unlockTime height target extra +
      (Nat.log 128 (amountAt (next.rewardAt network) txsWeight fees 0) + 1) := length_coinbase _
  omega

/-- The rounds can rest at one weight only. -/
theorem measured_unique (hmedian : next.medianWeight < 2 ^ 32)
    (hroom : txsWeight ≤ wrap64 (2 * next.medianWeight) - coinbaseBlobReservedSize) {w w' : Nat}
    (hw : w ≤ 400) (hw' : w' ≤ 400)
    (hrest : measured (next.rewardAt network) txsWeight fees
      (coinbaseTx version unlockTime height target extra) w = w)
    (hrest' : measured (next.rewardAt network) txsWeight fees
      (coinbaseTx version unlockTime height target extra) w' = w') : w = w' := by
  have hfalls {v v' : Nat} (hle : v ≤ v') (hv' : v' ≤ 400)
      (hv : measured (next.rewardAt network) txsWeight fees
        (coinbaseTx version unlockTime height target extra) v = v)
      (hsame : measured (next.rewardAt network) txsWeight fees
        (coinbaseTx version unlockTime height target extra) v' = v') : v = v' := by
    have hlog := Nat.log_mono_right (b := 128)
      (amountAt_antitone network fees hmedian hroom hle hv')
    rw [measured, length_coinbase] at hv hsame
    omega
  rcases Nat.le_total w w' with hle | hle
  · exact hfalls hle hw' hrest hrest'
  · exact (hfalls hle hw hrest' hrest).symm

theorem log_amountAt_lt (rewardAt : Nat → Option Nat) (txsWeight fees w : Nat) :
    Nat.log 128 (amountAt rewardAt txsWeight fees w) < 10 := by
  have hle : amountAt rewardAt txsWeight fees w ≤ u64Max := saturatingAdd_le _ _
  unfold u64Max at hle
  exact Nat.log_lt_of_lt_pow' (by norm_num) (by omega)

theorem measured_le (hoverhead : coinbaseOverhead version unlockTime height target extra ≤ 390)
    (w : Nat) :
    measured (next.rewardAt network) txsWeight fees
      (coinbaseTx version unlockTime height target extra) w ≤ 400 := by
  have hlog := log_amountAt_lt (next.rewardAt network) txsWeight fees w
  rw [measured, length_coinbase]
  omega

/-- The rounds rest exactly where the size of some coinbase is the weight its amount was worked out
    for. -/
theorem rests_iff_fixed (hmedian : next.medianWeight < 2 ^ 32)
    (hroom : txsWeight ≤ wrap64 (2 * next.medianWeight) - coinbaseBlobReservedSize)
    (hoverhead : coinbaseOverhead version unlockTime height target extra ≤ 390) :
    Rounds.Rests (measured (next.rewardAt network) txsWeight fees
        (coinbaseTx version unlockTime height target extra)) weightRounds 0 ↔
      ∃ w, measured (next.rewardAt network) txsWeight fees
        (coinbaseTx version unlockTime height target extra) w = w := by
  have hlog := log_amountAt_lt (next.rewardAt network) txsWeight fees 0
  rw [Rounds.rests_iff (by decide : 3 ≤ weightRounds) (by omega : _ + 1 ≤ 400)
    (fun w hw => (measured_two hmedian hroom hw).1) (fun w hw => (measured_two hmedian hroom hw).2)]
  constructor
  · rintro ⟨w, -, hw⟩
    exact ⟨w, hw⟩
  · rintro ⟨w, hw⟩
    exact ⟨w, hw ▸ measured_le hoverhead w, hw⟩

end

end Wownero.Mining

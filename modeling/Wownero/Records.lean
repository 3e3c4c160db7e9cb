import Wownero.Chain
import Wownero.StoreSpecs
/-!
# The chain as a list of records

Seen from above, the main chain is the list of its block records, lowest first: adding a block
appends one, popping removes the last, and everything `reload_state` rebuilds is a function of
the list.  The functions here are that view; the theorems say that the tables realise it.
-/

namespace Wownero

open Outcome

/-- The block records, lowest first. -/
def MainTables.records (t : MainTables) : List BlockInfo :=
  (List.range t.height).filterMap t.blockInfo.get

/-! ### The records of numbered tables -/

private theorem filterMap_range_eq_map {α : Type} {f : Nat → Option α} {g : Nat → α} {n : Nat}
    (h : ∀ k < n, f k = some (g k)) : (List.range n).filterMap f = (List.range n).map g := by
  rw [← List.filterMap_eq_map]
  refine List.filterMap_congr fun k hk => ?_
  exact h k (List.mem_range.mp hk)

namespace MainTables.Numbered

variable {t : MainTables}

/-- The records by height, as a function. -/
theorem exists_infoAt (hn : t.Numbered) : ∃ g : Nat → BlockInfo,
    (∀ k < t.height, t.blockInfo.get k = some (g k)) ∧ t.records = (List.range t.height).map g := by
  by_cases hz : t.height = 0
  · refine ⟨fun _ => ⟨0, 0, 0, 0, 0, nullHash, 0, 0⟩, ?_, ?_⟩
    · intro k hk
      omega
    · simp [records, hz]
  · obtain ⟨first, _⟩ := hn.info (Nat.pos_of_ne_zero hz)
    have hget : ∀ k < t.height, t.blockInfo.get k = some ((t.blockInfo.get k).getD first) := by
      intro k hk
      obtain ⟨info, hinfo⟩ := hn.info hk
      rw [hinfo]
      rfl
    exact ⟨_, hget, filterMap_range_eq_map hget⟩

theorem length_records (hn : t.Numbered) : t.records.length = t.height := by
  obtain ⟨g, _, hrec⟩ := hn.exists_infoAt
  rw [hrec, List.length_map, List.length_range]

theorem records_get (hn : t.Numbered) (k : Nat) : t.records[k]? = t.blockInfo.get k := by
  obtain ⟨g, hget, hrec⟩ := hn.exists_infoAt
  rw [hrec, List.getElem?_map]
  by_cases hk : k < t.height
  · rw [List.getElem?_range hk, hget k hk]
    rfl
  · have hnone : t.blockInfo.get k = none := by
      rw [← Option.not_isSome_iff_eq_none, hn.blockInfo k, hn.same]
      exact hk
    rw [hnone, List.getElem?_eq_none (by simpa using hk)]
    rfl

/-- Reading a range of heights gives that stretch of the records. -/
theorem readInfos_eq (hn : t.Numbered) {first last : Nat} (hlast : last ≤ t.height) :
    readInfos t first last = .ok ((t.records.take last).drop first) := by
  obtain ⟨g, hget, hrec⟩ := hn.exists_infoAt
  have hread : ∀ k ∈ List.range' first (last - first), t.getBlockInfo k = .ok (g k) := by
    intro k hk
    obtain ⟨hk₁, hk₂⟩ := List.mem_range'_1.mp hk
    rw [MainTables.getBlockInfo, hget k (by omega)]
    rfl
  rw [readInfos, mapM_eq_ok hread, hrec]
  congr 1
  rw [← List.map_take, ← List.map_drop, List.take_range, Nat.min_eq_left hlast,
    List.range_eq_range', List.drop_range']
  simp

theorem readInfos_to_tip (hn : t.Numbered) (first : Nat) :
    readInfos t first t.height = .ok (t.records.drop first) := by
  rw [hn.readInfos_eq (Nat.le_refl _), ← hn.length_records, List.take_length]

theorem getBlockInfo_eq (hn : t.Numbered) {k : Nat} {info : BlockInfo}
    (h : t.records[k]? = some info) : t.getBlockInfo k = .ok info := by
  rw [hn.records_get] at h
  rw [MainTables.getBlockInfo, h]
  rfl

end MainTables.Numbered

theorem MainTables.records_empty : MainTables.empty.records = [] := rfl

section

variable {C : Crypto} {t t' : MainTables} {blk : Block} {blob : Blob} {info : BlockInfo}

/-- **Adding a block appends its record.** -/
theorem AddedBlock.records_eq (h : AddedBlock C t blk blob info t') (hn : t.Numbered) :
    t'.records = t.records ++ [info] := by
  have hn' := h.numbered hn
  refine List.ext_getElem? fun k => ?_
  rw [hn'.records_get, h.get_info hn, List.getElem?_append, hn.length_records, hn.records_get]
  by_cases hk : k = t.height
  · simp [hk]
  · rw [if_neg hk]
    by_cases hlt : k < t.height
    · rw [if_pos hlt]
    · rw [if_neg hlt, List.getElem?_eq_none (l := [info]) (by simp; omega), ← hn.records_get]
      exact List.getElem?_eq_none (by rw [hn.length_records]; omega)

/-- **Popping a block removes the last record.** -/
theorem PoppedBlock.records_eq (h : PoppedBlock t info t') (hn : t.Numbered) :
    t.records = t'.records ++ [info] := by
  have hn' := h.numbered hn
  have hheight := h.height_eq hn
  refine List.ext_getElem? fun k => ?_
  rw [hn.records_get, List.getElem?_append, hn'.length_records, hn'.records_get, h.blockInfo,
    Table.get_del]
  by_cases hk : k = t.height - 1
  · simp [hk, h.tip, show ¬ t.height - 1 < t'.height by omega,
      show t.height - 1 - t'.height = 0 by omega]
  · rw [if_neg hk]
    by_cases hlt : k < t'.height
    · rw [if_pos hlt]
    · rw [if_neg hlt, List.getElem?_eq_none (l := [info]) (by simp; omega), ← hn.records_get]
      exact List.getElem?_eq_none (by rw [hn.length_records]; omega)

end

/-! ### The state the records determine -/

/-- The caches of a chain with these records. -/
def stateOf (network : Network) (records : List BlockInfo) : ChainState :=
  match records.getLast? with
  | none => ChainState.default
  | some tip =>
      let recentWeights := keepLast cryptonoteRewardBlocksWindow (records.map (·.weight))
      let longTerm := LongTermWeightWindow.new.pushAll
        (keepLast longTermBlockWeightWindowSize (records.map (·.longTermBlockWeight)))
      { weights := computeWeightLimits recentWeights longTerm
          (requiredVersion network records.length)
        longTerm := longTerm
        recentWeights := recentWeights
        alreadyGeneratedCoins := tip.coins
        cumulativeDifficulty := tip.cumulativeDifficulty
        difficultyWindow := keepLast difficultyWindowCache
          (records.map fun i => (i.timestamp, i.cumulativeDifficulty)) }

private theorem map_drop_keepLast {α β : Type} (f : α → β) (n : Nat) (l : List α) :
    (l.drop (l.length - n)).map f = keepLast n (l.map f) := by
  rw [keepLast, List.length_map, List.map_drop]

/-- **Reloading.**  `reload_state` builds what the records determine. -/
theorem loadState_eq {σ : Type} (P : Params σ) {t : MainTables} (hn : t.Numbered) :
    loadState P t = .ok (stateOf P.network t.records) := by
  have hlen := hn.length_records
  by_cases hz : t.height = 0
  · have hnil : t.records = [] := List.eq_nil_of_length_eq_zero (hlen.trans hz)
    rw [hnil, loadState, hz]
    rfl
  · have hne : t.records ≠ [] := by
      intro hnil
      rw [hnil] at hlen
      exact hz hlen.symm
    have htip : t.getBlockInfo (t.height - 1) = .ok (t.records.getLast hne) := by
      refine hn.getBlockInfo_eq ?_
      rw [← hlen, ← List.getLast?_eq_getElem?, List.getLast?_eq_some_getLast hne]
    have hlong : t.height - longTermWindow t.height = t.records.length - longTermBlockWeightWindowSize := by
      rw [hlen, longTermWindow]
      omega
    rw [loadState, if_neg hz, htip, hn.readInfos_to_tip, hn.readInfos_to_tip, hn.readInfos_to_tip,
      hlong, ← hlen, stateOf, List.getLast?_eq_some_getLast hne]
    simp only [← map_drop_keepLast, currentVersion, ← hlen]
    rfl

/-! ### One block more -/

theorem keepLast_snoc {α : Type} (n : Nat) (hn : 0 < n) (l : List α) (a : α) :
    keepLast n (keepLast n l ++ [a]) = keepLast n (l ++ [a]) := by
  simp only [keepLast, List.length_append, List.length_drop, List.length_singleton]
  rw [← List.drop_append_of_le_length (by omega), List.drop_drop]
  congr 1
  omega

/-- The long-term window keeps step: pushing onto the rebuilt window is rebuilding with the new
    weight. -/
theorem pushAll_keepLast_push (weights : List Nat) (weight : Nat) :
    (LongTermWeightWindow.new.pushAll (keepLast longTermBlockWeightWindowSize weights)).push weight =
      LongTermWeightWindow.new.pushAll
        (keepLast longTermBlockWeightWindowSize (weights ++ [weight])) := by
  have hfill : ∀ ws : List Nat,
      (LongTermWeightWindow.new.pushAll (keepLast longTermBlockWeightWindowSize ws)).order =
        keepLast longTermBlockWeightWindowSize ws := by
    intro ws
    rw [LongTermWeightWindow.pushAll_order LongTermWeightWindow.wf_new]
    · exact List.nil_append _
    · show 0 + _ ≤ longTermBlockWeightWindowSize
      simp only [keepLast, List.length_drop]
      omega
  have hwf := LongTermWeightWindow.wf_pushAll LongTermWeightWindow.wf_new
    (keepLast longTermBlockWeightWindowSize weights)
  refine LongTermWeightWindow.Wf.ext (LongTermWeightWindow.wf_push hwf weight)
    (LongTermWeightWindow.wf_pushAll LongTermWeightWindow.wf_new _) ?_ ?_
  · rw [LongTermWeightWindow.push_capacity, LongTermWeightWindow.pushAll_capacity,
      LongTermWeightWindow.pushAll_capacity]
  · rw [LongTermWeightWindow.push_order hwf, hfill, hfill,
      ← keepLast_snoc _ (by decide), LongTermWeightWindow.pushAll_capacity]
    show _ = ((keepLast longTermBlockWeightWindowSize weights ++ [weight]).drop _)
    rw [List.length_append]
    rfl

/-- **Advancing.**  The caches advanced field by field are those of the longer chain. -/
theorem stateOf_snoc (network : Network) (records : List BlockInfo) (info : BlockInfo) :
    stateOf network (records ++ [info]) =
      (stateOf network records).advance (requiredVersion network (records.length + 1))
        info.timestamp info.weight info.longTermBlockWeight info.cumulativeDifficulty
        info.coins := by
  have hlen : (records ++ [info]).length = records.length + 1 := by simp
  have hlast : (records ++ [info]).getLast? = some info := by simp
  cases hrec : records.getLast? with
  | none =>
      rw [List.getLast?_eq_none_iff] at hrec
      subst hrec
      have hshort : ∀ {α : Type} (n : Nat) (a : α), 0 < n → keepLast n [a] = [a] := by
        intro α n a hn
        rw [keepLast, List.length_singleton, Nat.sub_eq_zero_of_le hn, List.drop_zero]
      simp only [stateOf, List.getLast?_singleton, List.length_singleton, List.length_nil,
        Nat.zero_add, List.getLast?_nil, ChainState.default, ChainState.advance,
        List.nil_append, List.map_cons, List.map_nil,
        hshort longTermBlockWeightWindowSize _ (by decide),
        hshort cryptonoteRewardBlocksWindow _ (by decide),
        hshort difficultyWindowCache _ (by decide), LongTermWeightWindow.pushAll, List.foldl_cons, List.foldl_nil]
  | some tip =>
      simp only [stateOf, hlast, hrec, hlen, ChainState.advance, List.map_append, List.map_cons,
        List.map_nil, pushAll_keepLast_push,
        keepLast_snoc cryptonoteRewardBlocksWindow (by decide),
        keepLast_snoc difficultyWindowCache (by decide)]

end Wownero

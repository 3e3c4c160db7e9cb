import Wownero.Records
import Wownero.Reorg
/-!
# Windows over a chain

The main path and the alternative path collect the window of the difficulty each in its own way,
one from the cached tail, one from the links of the alternative chain and the store below them.
Both are the tail of the timestamps and cumulative difficulties of the whole chain, the genesis
block left out.
-/

namespace Wownero

open Outcome Wownero.Difficulty

/-- What a chain says of one of its blocks, wherever the block is stored. -/
structure Stamp where
  hash : Hash256
  timestamp : Nat
  cumulativeDifficulty : Nat
  deriving DecidableEq, Repr

def BlockInfo.stamp (i : BlockInfo) : Stamp := ⟨i.hash, i.timestamp, i.cumulativeDifficulty⟩

def AltLink.stamp (l : AltLink) : Stamp :=
  ⟨l.id, l.block.header.timestamp, l.data.cumulativeDifficulty⟩

section

variable {σ : Type} (P : Params σ)

/-- The difficulty a version demands above a chain with these stamps. -/
def difficultyBy (version : Nat) (stamps : List Stamp) : Nat :=
  match P.fixedDifficulty with
  | some d => d
  | none =>
      let window := stamps.drop (max (stamps.length - difficultyBlocksCount version) 1)
      nextDifficulty version (window.map (·.timestamp)) (window.map (·.cumulativeDifficulty))
        stamps.length P.network

/-- The difficulty demanded of the block above a chain with these stamps. -/
def demandedDifficulty (stamps : List Stamp) : Nat :=
  if stamps.length = 0 then 1
  else difficultyBy P (requiredVersion P.network stamps.length) stamps

variable {P}

/-- **The main path.**  The cached tail is long enough for every window. -/
theorem nextBlockDifficulty_eq (records : List BlockInfo) :
    nextBlockDifficulty P (stateOf P.network records) records.length =
      demandedDifficulty P (records.map BlockInfo.stamp) := by
  unfold nextBlockDifficulty demandedDifficulty difficultyBy
  rw [List.length_map]
  by_cases hz : records.length = 0
  · rw [if_pos hz, if_pos hz]
  · rw [if_neg hz, if_neg hz]
    cases P.fixedDifficulty with
    | some d => rfl
    | none =>
        have hne : records ≠ [] := fun h => hz (by rw [h]; rfl)
        have hwindow : (stateOf P.network records).difficultyWindow =
            keepLast difficultyWindowCache
              (records.map fun i => (i.timestamp, i.cumulativeDifficulty)) := by
          simp only [stateOf, List.getLast?_eq_some_getLast hne]
        have hle := difficultyBlocksCount_le (requiredVersion P.network records.length)
        have hcache : difficultyWindowCache = difficultyBlocksCountV1 := rfl
        simp only [hwindow, keepLast, List.length_drop, List.length_map, List.drop_drop]
        have hdrop : records.length - difficultyWindowCache +
            ((if records.length - min records.length
                (difficultyBlocksCount (requiredVersion P.network records.length)) = 0 then 1
              else records.length - min records.length
                (difficultyBlocksCount (requiredVersion P.network records.length))) -
              (records.length - (records.length - (records.length - difficultyWindowCache)))) =
            max (records.length -
              difficultyBlocksCount (requiredVersion P.network records.length)) 1 := by
          split_ifs <;> omega
        rw [hdrop]
        simp only [← List.map_drop, List.map_map]
        rfl

/-- **The alternative path.**  The links and the store below the split make up the same tail. -/
theorem altDifficulty_eq {t : MainTables} (hn : t.Numbered) {links : List AltLink}
    {split version : Nat} (hsplit : split < t.height)
    (hfirst : ∀ l, links.head? = some l → l.data.height = split + 1) :
    altDifficulty P t links (split + links.length + 1) version =
      .ok (difficultyBy P version
        ((t.records.take (split + 1)).map BlockInfo.stamp ++ links.map AltLink.stamp)) := by
  unfold altDifficulty difficultyBy
  cases P.fixedDifficulty with
  | some d =>
      have hpos : t.height > 0 := by omega
      simp [hpos]
  | none =>
      have hrlen : (t.records.take (split + 1)).length = split + 1 := by
        rw [List.length_take, hn.length_records]
        omega
      have hlen : ((t.records.take (split + 1)).map BlockInfo.stamp ++
          links.map AltLink.stamp).length = split + links.length + 1 := by
        rw [List.length_append, List.length_map, List.length_map, hrlen]
        omega
      have hpos := difficultyBlocksCount_pos version
      have hwindow : altWindow t links (split + links.length + 1) version =
          .ok ((((t.records.take (split + 1)).map BlockInfo.stamp ++ links.map AltLink.stamp).drop
            (max (split + links.length + 1 - difficultyBlocksCount version) 1)).map
              fun s => (s.timestamp, s.cumulativeDifficulty)) := by
        have hstop : (links.head?.map (·.data.height)).getD (split + links.length + 1) = split + 1 := by
          cases hhead : links.head? with
          | none =>
              have hnil : links = [] := List.head?_eq_none_iff.mp hhead
              rw [hnil]
              rfl
          | some l => exact hfirst l hhead
        unfold altWindow
        simp only
        split_ifs with hshort
        · rw [hstop]
          have hstart : max (split + 1 - min (difficultyBlocksCount version - links.length) (split + 1)) 1
              = max (split + links.length + 1 - difficultyBlocksCount version) 1 := by omega
          rw [hstart, hn.readInfos_eq (by omega)]
          show Except.ok _ = _
          rw [List.drop_append_of_le_length (by rw [List.length_map, hrlen]; omega),
            List.map_append, ← List.map_drop, List.map_map, List.map_map]
          rfl
        · have hdrop : max (split + links.length + 1 - difficultyBlocksCount version) 1 =
              ((t.records.take (split + 1)).map BlockInfo.stamp).length +
                (links.length - difficultyBlocksCount version) := by
            rw [List.length_map, hrlen]
            omega
          rw [hdrop, List.drop_length_add_append, ← List.map_drop, ← List.map_drop, List.map_map]
          rfl
      rw [hlen, hwindow]
      show Except.ok _ = _
      rw [List.map_map, List.map_map]
      rfl

/-! ### When the two versions do not differ -/

/-- The two heights make the same demand: the difficulty is fixed, pinned on a test network, or
    computed by one algorithm. -/
def SameDemand (P : Params σ) (tip height : Nat) : Prop :=
  P.fixedDifficulty.isSome ∨ testnetPinned P.network height = true ∨
    selectAlgorithm (requiredVersion P.network tip) =
      selectAlgorithm (requiredVersion P.network height)

instance (P : Params σ) (tip height : Nat) : Decidable (SameDemand P tip height) :=
  inferInstanceAs (Decidable (_ ∨ _ ∨ _))

private theorem difficultyBlocksCount_of_algorithm {v v' : Nat}
    (h : selectAlgorithm v = selectAlgorithm v') :
    difficultyBlocksCount v = difficultyBlocksCount v' := by
  unfold selectAlgorithm at h
  unfold difficultyBlocksCount
  split_ifs at h ⊢ <;> first | rfl | omega

private theorem nextDifficulty_pinned {net : Network} {height : Nat}
    (h : testnetPinned net height = true) (version : Nat) (timestamps cumulative : List Nat) :
    nextDifficulty version timestamps cumulative height net = testnetEarlyDifficulty := by
  unfold nextDifficulty
  cases selectAlgorithm version
  · simp only [nextDifficultyV1, h, if_true]
  · simp only [nextDifficultyV2, h, if_true]
  · simp only [nextDifficultyV3, h, if_true]
  · simp only [nextDifficultyV4, h, if_true]
  · simp only [nextDifficultyV5, h, if_true]
  · simp only [nextDifficultyV6, h, if_true]

theorem SameDemand.difficultyBy_eq {tip : Nat} {stamps : List Stamp}
    (h : SameDemand P tip stamps.length) (hpos : stamps.length ≠ 0) :
    difficultyBy P (requiredVersion P.network tip) stamps = demandedDifficulty P stamps := by
  unfold demandedDifficulty
  rw [if_neg hpos]
  unfold difficultyBy
  cases hfixed : P.fixedDifficulty with
  | some d => rfl
  | none =>
      simp only
      rcases h with hfix | hpin | halg
      · rw [hfixed] at hfix
        cases hfix
      · rw [nextDifficulty_pinned hpin, nextDifficulty_pinned hpin]
      · rw [difficultyBlocksCount_of_algorithm halg]
        unfold nextDifficulty
        rw [halg]

end

end Wownero

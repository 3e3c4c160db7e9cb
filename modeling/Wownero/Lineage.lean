import Wownero.AltChains
import Wownero.Windows
/-!
# Lineages

The ids, timestamps and cumulative difficulties from the genesis block to a block are a function
of the block's id: whichever store it is found in, and whether it is on the main chain or beside
it.  The main chain computes them as it grows.  An alternative block is recorded with them when
the version the main chain is at demands what the version of the block's own height would, and
then a switch leads to exactly the cumulative difficulty it was decided on.
-/

namespace Wownero

open Outcome

section

variable {σ : Type}

/-- The stamps from the genesis block to a block, over the blocks that are known. -/
inductive Lineage (P : Params σ) (known : Block → Prop) : Hash256 → List Stamp → Prop
  | genesis {blk : Block} {id : Hash256} (isKnown : known blk)
      (blockId : blk.blockId P.crypto.cnFastHash = some id)
      (height : genHeight blk.minerTx = some 0) :
      Lineage P known id [⟨id, blk.header.timestamp, 1⟩]
  | child {blk : Block} {id : Hash256} {stamps : List Stamp} {parent : Stamp} (isKnown : known blk)
      (blockId : blk.blockId P.crypto.cnFastHash = some id)
      (above : Lineage P known blk.header.prevId stamps)
      (tip : stamps.getLast? = some parent)
      (height : genHeight blk.minerTx = some stamps.length) :
      Lineage P known id (stamps ++ [⟨id, blk.header.timestamp,
        wrap128 (parent.cumulativeDifficulty + demandedDifficulty P stamps)⟩])

/-- No two known blocks have one id, and every known block is what its own bytes parse to. -/
structure WellKnown (C : Crypto) (known : Block → Prop) : Prop where
  ids : ∀ blk blk' id, known blk → known blk' → blk.blockId C.cnFastHash = some id →
    blk'.blockId C.cnFastHash = some id → blk = blk'
  writes : ∀ blk, known blk → Block.fromBlob blk.toBlob = .ok blk

variable {P : Params σ} {known : Block → Prop}

theorem Lineage.ne_nil {id : Hash256} {stamps : List Stamp} (h : Lineage P known id stamps) :
    stamps ≠ [] := by
  cases h <;> simp

/-- **A block has one lineage.** -/
theorem Lineage.unique (hgood : WellKnown P.crypto known) {id : Hash256}
    {stamps stamps' : List Stamp} (h : Lineage P known id stamps)
    (h' : Lineage P known id stamps') : stamps = stamps' := by
  induction h generalizing stamps' with
  | genesis hb hid hheight =>
      cases h' with
      | genesis hb' hid' hheight' => rw [hgood.ids _ _ _ hb hb' hid hid']
      | child hb' hid' above' tip' hheight' =>
          rw [hgood.ids _ _ _ hb hb' hid hid', hheight', Option.some.injEq] at hheight
          exact absurd (List.eq_nil_of_length_eq_zero hheight) above'.ne_nil
  | child hb hid above tip hheight ih =>
      cases h' with
      | genesis hb' hid' hheight' =>
          rw [hgood.ids _ _ _ hb hb' hid hid', hheight', Option.some.injEq] at hheight
          exact absurd (List.eq_nil_of_length_eq_zero hheight.symm) above.ne_nil
      | child hb' hid' above' tip' hheight' =>
          have hblk := hgood.ids _ _ _ hb hb' hid hid'
          rw [hblk] at ih ⊢
          have heq := ih above'
          subst heq
          rw [tip, Option.some.injEq] at tip'
          rw [tip']

/-- A block of a known parent has the parent's lineage below it, unless it claims to be a
    genesis block. -/
theorem Lineage.of_parent (hgood : WellKnown P.crypto known) {id : Hash256}
    {stamps above : List Stamp} (h : Lineage P known id stamps) {blk : Block}
    (hb : known blk) (hid : blk.blockId P.crypto.cnFastHash = some id)
    (hparent : Lineage P known blk.header.prevId above) (hlen : stamps.length ≠ 1) :
    ∃ cumulative, stamps = above ++ [⟨id, blk.header.timestamp, cumulative⟩] := by
  cases h with
  | genesis hb' hid' _ => exact absurd rfl hlen
  | child hb' hid' above' tip' hheight' =>
      have hblk := hgood.ids _ _ _ hb hb' hid hid'
      rw [← hblk] at above' ⊢
      rw [hparent.unique hgood above']
      exact ⟨_, rfl⟩

/-! ### The main chain -/

/-- The records of a chain, with what they say of themselves. -/
structure MainLineage (P : Params σ) (known : Block → Prop) (t : MainTables) : Prop where
  lineage : ∀ k (info : BlockInfo), t.records[k]? = some info →
    Lineage P known info.hash ((t.records.take (k + 1)).map BlockInfo.stamp)
  height : ∀ k (info : BlockInfo), t.records[k]? = some info → info.height = k
  heights : ∀ id k, t.blockHeights.get id = some k ↔
    ∃ info : BlockInfo, t.records[k]? = some info ∧ info.hash = id
  blocks : ∀ k blob, t.blocks.get k = some blob → ∃ blk info, Block.fromBlob blob = .ok blk ∧
    known blk ∧ t.records[k]? = some info ∧ blk.blockId P.crypto.cnFastHash = some info.hash

theorem mainLineage_empty : MainLineage P known MainTables.empty := by
  refine ⟨?_, ?_, ?_, ?_⟩
  · intro k info hk
    rw [MainTables.records_empty] at hk
    cases hk
  · intro k info hk
    rw [MainTables.records_empty] at hk
    cases hk
  · intro id k
    rw [MainTables.records_empty]
    simp [MainTables.empty]
  · intro k blob hk
    cases hk

/-- The whole chain is the lineage of its tip. -/
theorem MainLineage.tip {t : MainTables} (h : MainLineage P known t) {tip : BlockInfo}
    (htip : t.records.getLast? = some tip) :
    Lineage P known tip.hash (t.records.map BlockInfo.stamp) := by
  have hpos : 0 < t.records.length := by
    cases hr : t.records with
    | nil =>
        rw [hr] at htip
        cases htip
    | cons _ _ => exact Nat.succ_pos _
  have hlineage := h.lineage (t.records.length - 1) tip (by rw [← List.getLast?_eq_getElem?, htip])
  rwa [Nat.sub_add_cancel hpos, List.take_length] at hlineage

theorem stateOf_cumulativeDifficulty {network : Network} {records : List BlockInfo}
    {tip : BlockInfo} (h : records.getLast? = some tip) :
    (stateOf network records).cumulativeDifficulty = tip.cumulativeDifficulty := by
  simp only [stateOf, h]

theorem topHash_eq {t : MainTables} (hn : t.Numbered) {tip : BlockInfo}
    (h : t.records.getLast? = some tip) : topHash t = some tip.hash := by
  have hpos : t.height ≠ 0 := by
    intro hz
    rw [List.eq_nil_of_length_eq_zero (hn.length_records.trans hz)] at h
    cases h
  have hget : t.getBlockInfo (t.height - 1) = .ok tip := by
    refine hn.getBlockInfo_eq ?_
    rw [← hn.length_records, ← List.getLast?_eq_getElem?, h]
  rw [topHash, if_neg hpos, MainTables.getBlockHash, hget]
  rfl

/-- The parent of a block that may stand on the tip. -/
theorem stepParentIsTip_ok {t : MainTables} (hn : t.Numbered) {blk : Block} {tip : BlockInfo}
    (h : stepParentIsTip t blk = .ok ()) (htip : t.records.getLast? = some tip) :
    blk.header.prevId = tip.hash := by
  have hz : t.height ≠ 0 := by
    intro hz
    rw [List.eq_nil_of_length_eq_zero (hn.length_records.trans hz)] at htip
    cases htip
  rw [stepParentIsTip, if_neg hz, topHash_eq hn htip] at h
  simp only at h
  split_ifs at h with hprev
  exact hprev

/-- The record an accepted block leaves continues the lineage of its parent. -/
theorem Accepted.lineage {c c' : Chain σ} {blk : Block} {blob : Blob}
    {txs : List (Transaction × Blob)} {now fees reward : Nat} {v : σ}
    (h : Accepted P c blk blob txs now fees reward v c') (hin : InStep P c)
    (hmain : MainLineage P known c.db.main) (hb : known blk) :
    ∃ info, AddedBlock P.crypto c.db.main blk blob info c'.db.main ∧
      Lineage P known info.hash ((c.db.main.records ++ [info]).map BlockInfo.stamp) := by
  obtain ⟨info, hadded, _, hcum⟩ := h.added
  obtain ⟨_, hparent, _, _, _, _, hcoinbase⟩ := prechecks_ok.mp h.prechecks
  have hgen := stepCoinbase_genHeight hcoinbase
  have hn := hin.numbered
  have hlen := hn.length_records
  refine ⟨info, hadded, ?_⟩
  rw [hin.state, Chain.height, ← hlen, nextBlockDifficulty_eq] at hcum
  rw [Chain.height, ← hlen] at hgen
  rw [List.map_append]
  cases hlast : c.db.main.records.getLast? with
  | none =>
      have hnil : c.db.main.records = [] := List.getLast?_eq_none_iff.mp hlast
      rw [hnil] at hcum hgen ⊢
      have hstamp : info.stamp = ⟨info.hash, blk.header.timestamp, 1⟩ := by
        rw [BlockInfo.stamp, hadded.timestamp, hcum]
        rfl
      simp only [List.map_nil, List.nil_append, List.map_cons, hstamp]
      exact .genesis hb hadded.hash hgen
  | some tip =>
      have habove := hmain.tip hlast
      rw [← stepParentIsTip_ok hn hparent hlast] at habove
      have hstamp : info.stamp = ⟨info.hash, blk.header.timestamp,
          wrap128 (tip.stamp.cumulativeDifficulty +
            demandedDifficulty P (c.db.main.records.map BlockInfo.stamp))⟩ := by
        rw [BlockInfo.stamp, hadded.timestamp, hcum, stateOf_cumulativeDifficulty hlast]
        rfl
      simp only [List.map_cons, List.map_nil, hstamp]
      refine .child hb hadded.hash habove ?_ ?_
      · rw [List.getLast?_map, hlast]
        rfl
      · rw [hgen, List.length_map]

private theorem getElem?_snoc {α : Type} {l : List α} {a b : α} {k : Nat} :
    (l ++ [a])[k]? = some b ↔ l[k]? = some b ∧ k < l.length ∨ k = l.length ∧ b = a := by
  rw [List.getElem?_append]
  by_cases hlt : k < l.length
  · simp [hlt, Nat.ne_of_lt hlt]
  · rw [if_neg hlt]
    by_cases hk : k = l.length
    · simp [hk, eq_comm]
    · rw [List.getElem?_eq_none (by simp; omega)]
      simp [hlt, hk]

/-- **An accepted block** makes the main chain a longer lineage. -/
theorem Accepted.mainLineage {c c' : Chain σ} {blk : Block} {blob : Blob}
    {txs : List (Transaction × Blob)} {now fees reward : Nat} {v : σ}
    (h : Accepted P c blk blob txs now fees reward v c') (hin : InStep P c)
    (hmain : MainLineage P known c.db.main) (hb : known blk)
    (hparse : Block.fromBlob blob = .ok blk) : MainLineage P known c'.db.main := by
  obtain ⟨info, hadded, hlineage⟩ := h.lineage hin hmain hb
  obtain ⟨hhave, _⟩ := prechecks_ok.mp h.prechecks
  obtain ⟨id, hid, hnew⟩ := stepHaveIt_ok hhave
  rw [hadded.hash, Option.some.injEq] at hid
  subst hid
  have hn := hin.numbered
  have hlen := hn.length_records
  have hrec := hadded.records_eq hn
  refine ⟨?_, ?_, ?_, ?_⟩
  · intro k i hk
    rw [hrec] at hk ⊢
    rcases getElem?_snoc.mp hk with ⟨hk', hlt⟩ | ⟨rfl, rfl⟩
    · rw [List.take_append_of_le_length (by omega)]
      exact hmain.lineage k i hk'
    · rw [List.take_of_length_le (by simp)]
      exact hlineage
  · intro k i hk
    rw [hrec] at hk
    rcases getElem?_snoc.mp hk with ⟨hk', _⟩ | ⟨rfl, rfl⟩
    · exact hmain.height k i hk'
    · rw [hadded.height, hlen]
  · intro id k
    rw [hadded.blockHeights, Table.add_of_get_none hnew, Table.get_put, hrec]
    constructor
    · intro hk
      split_ifs at hk with hid
      · cases hk
        exact ⟨info, getElem?_snoc.mpr (Or.inr ⟨hlen.symm, rfl⟩), hid.symm⟩
      · obtain ⟨i, hi, hhash⟩ := (hmain.heights id k).mp hk
        refine ⟨i, getElem?_snoc.mpr (Or.inl ⟨hi, ?_⟩), hhash⟩
        by_contra hge
        rw [List.getElem?_eq_none (by omega)] at hi
        cases hi
    · rintro ⟨i, hi, hhash⟩
      rcases getElem?_snoc.mp hi with ⟨hi', _⟩ | ⟨rfl, rfl⟩
      · have hget := (hmain.heights id k).mpr ⟨i, hi', hhash⟩
        rw [if_neg]
        · exact hget
        · rintro rfl
          rw [hnew] at hget
          cases hget
      · rw [if_pos hhash.symm, hlen]
  · intro k blob' hk
    rw [hadded.blocks, Table.get_put] at hk
    split_ifs at hk with hkey
    · cases hk
      refine ⟨blk, info, hparse, hb, ?_, hadded.hash⟩
      rw [hrec]
      exact getElem?_snoc.mpr (Or.inr ⟨hkey.trans hlen.symm, rfl⟩)
    · obtain ⟨blk', i, hparse', hb', hi, hid'⟩ := hmain.blocks k blob' hk
      refine ⟨blk', i, hparse', hb', ?_, hid'⟩
      rw [hrec, List.getElem?_append_left]
      · exact hi
      · by_contra hge
        rw [List.getElem?_eq_none (by omega)] at hi
        cases hi

/-- **A pop** leaves the lineage below, and hands back the block of the record it removes. -/
theorem popBlock_mainLineage {t t' : MainTables} {popped : Block × List Transaction}
    (h : t.popBlock P.crypto = .ok (popped, t')) (hn : t.Numbered)
    (hmain : MainLineage P known t) :
    MainLineage P known t' ∧ t'.Numbered ∧ ∃ info, t.records = t'.records ++ [info] ∧
      t.getBlockInfo (t.height - 1) = .ok info ∧ known popped.1 ∧
      popped.1.blockId P.crypto.cnFastHash = some info.hash := by
  obtain ⟨info, hpopped, blob, hblob, hparse⟩ := popBlock_popped h
  have hrec := hpopped.records_eq hn
  have hn' := hpopped.numbered hn
  have hlen := hn.length_records
  have hlen' := hn'.length_records
  have hheight := hpopped.height_eq hn
  have hlast : t.records[t.height - 1]? = some info := by rw [hn.records_get, hpopped.tip]
  have hbelow : ∀ k i, t'.records[k]? = some i → t.records[k]? = some i ∧ k < t'.records.length := by
    intro k i hk
    have hlt : k < t'.records.length := by
      by_contra hge
      rw [List.getElem?_eq_none (by omega)] at hk
      cases hk
    exact ⟨by rw [hrec, List.getElem?_append_left hlt]; exact hk, hlt⟩
  refine ⟨⟨?_, ?_, ?_, ?_⟩, hn', info, hrec, hn.getBlockInfo_eq hlast, ?_⟩
  · intro k i hk
    obtain ⟨hk', hlt⟩ := hbelow k i hk
    have hlineage := hmain.lineage k i hk'
    rwa [hrec, List.take_append_of_le_length (by omega)] at hlineage
  · intro k i hk
    exact hmain.height k i (hbelow k i hk).1
  · intro id k
    rw [hpopped.blockHeights, Table.get_del]
    constructor
    · intro hk
      split_ifs at hk with hid
      obtain ⟨i, hi, hhash⟩ := (hmain.heights id k).mp hk
      refine ⟨i, ?_, hhash⟩
      rw [hrec] at hi
      rcases getElem?_snoc.mp hi with ⟨hi', _⟩ | ⟨_, rfl⟩
      · exact hi'
      · exact absurd hhash.symm hid
    · rintro ⟨i, hi, hhash⟩
      obtain ⟨hi', hlt⟩ := hbelow k i hi
      have hget := (hmain.heights id k).mpr ⟨i, hi', hhash⟩
      rw [if_neg]
      · exact hget
      · rintro rfl
        have htop := (hmain.heights info.hash (t.height - 1)).mpr ⟨info, hlast, rfl⟩
        rw [htop, Option.some.injEq] at hget
        omega
  · intro k blob' hk
    rw [hpopped.blocks, Table.get_del] at hk
    split_ifs at hk with hkey
    obtain ⟨blk, i, hparse', hb, hi, hid⟩ := hmain.blocks k blob' hk
    refine ⟨blk, i, hparse', hb, ?_, hid⟩
    rw [hrec] at hi
    rcases getElem?_snoc.mp hi with ⟨hi', _⟩ | ⟨hk', _⟩
    · exact hi'
    · omega
  · obtain ⟨blk, i, hparse', hb, hi, hid⟩ := hmain.blocks _ blob hblob
    rw [hparse] at hparse'
    cases hparse'
    rw [hlast, Option.some.injEq] at hi
    subst hi
    exact ⟨hb, hid⟩

/-! ### The alternative blocks -/

/-- What is recorded with an alternative block: its height and the last stamp of its lineage. -/
structure RecordedAs (P : Params σ) (known : Block → Prop) (id : Hash256) (data : AltBlockData)
    (blob : Blob) : Prop where
  block : ∃ blk, Block.fromBlob blob = .ok blk ∧ known blk ∧
    blk.blockId P.crypto.cnFastHash = some id
  lineage : ∃ stamps stamp, Lineage P known id stamps ∧ stamps.length = data.height + 1 ∧
    stamps.getLast? = some stamp ∧ stamp.cumulativeDifficulty = data.cumulativeDifficulty

/-- Every alternative block is recorded with its lineage. -/
def AltLineage (P : Params σ) (known : Block → Prop) (c : Chain σ) : Prop :=
  ∀ id data blob, c.db.altBlocks.get id = some (data, blob) → RecordedAs P known id data blob

/-- **The walk follows the lineage.**  The recorded links continue the lineage of the block they
    stand on. -/
theorem Connected.lineage (hgood : WellKnown P.crypto known) {links : List AltLink}
    {root tip : Hash256} (h : Connected root links tip) {stamps : List Stamp}
    (hroot : Lineage P known root stamps)
    (hlinks : ∀ l ∈ links, RecordedAs P known l.id l.data l.blob ∧
      Block.fromBlob l.blob = .ok l.block ∧ l.data.height ≠ 0) :
    Lineage P known tip (stamps ++ links.map AltLink.stamp) ∧
      ∀ l, links.head? = some l → l.data.height = stamps.length := by
  induction links generalizing root stamps with
  | nil =>
      cases h
      refine ⟨by simpa using hroot, ?_⟩
      intro l hl
      cases hl
  | cons l links ih =>
      obtain ⟨hprev, hrest⟩ := h
      obtain ⟨hrec, hparse, hpos⟩ := hlinks l List.mem_cons_self
      obtain ⟨blk, hparse', hb, hid⟩ := hrec.block
      rw [hparse] at hparse'
      cases hparse'
      obtain ⟨own, stamp, hown, hlen, hlast, hcum⟩ := hrec.lineage
      obtain ⟨cumulative, heq⟩ := hown.of_parent hgood hb hid (hprev ▸ hroot) (by omega)
      have hstamp : own = stamps ++ [l.stamp] := by
        rw [heq, List.getLast?_append_of_ne_nil _ (by simp)] at hlast
        cases hlast
        rw [heq, AltLink.stamp, ← hcum]
        rfl
      have hheight : l.data.height = stamps.length := by
        rw [hstamp, List.length_append] at hlen
        simpa using hlen.symm
      rw [hstamp] at hown
      obtain ⟨htip, _⟩ := ih hrest hown fun l' hl' => hlinks l' (List.mem_cons_of_mem _ hl')
      refine ⟨?_, ?_⟩
      · rw [List.append_assoc] at htip
        exact htip
      · intro l' hl'
        cases hl'
        exact hheight

/-- The parent of a block that is handed in beside the main chain, and its lineage. -/
theorem altChainTo_lineage (hgood : WellKnown P.crypto known) {c : Chain σ}
    (hmain : MainLineage P known c.db.main) (halt : AltLineage P known c) {prev : Hash256}
    {links : List AltLink} {split : Nat}
    (h : altChainTo c.db prev = .ok (some (links, split))) :
    split < c.db.main.records.length ∧
      Lineage P known prev ((c.db.main.records.take (split + 1)).map BlockInfo.stamp ++
        links.map AltLink.stamp) ∧
      ∀ l, links.head? = some l → l.data.height = split + 1 := by
  have hnil : Connected prev [] prev := rfl
  obtain ⟨root, hroot, hconn, hpos⟩ :=
    altWalk_connected _ h hnil (fun _ hmem => by cases hmem)
  have hstored := altWalk_links _ h (fun _ hmem => by cases hmem)
  obtain ⟨info, hinfo, hhash⟩ := (hmain.heights root split).mp hroot
  have hlt : split < c.db.main.records.length := by
    by_contra hge
    rw [List.getElem?_eq_none (by omega)] at hinfo
    cases hinfo
  have hlineage := hmain.lineage split info hinfo
  rw [hhash] at hlineage
  have hlen : ((c.db.main.records.take (split + 1)).map BlockInfo.stamp).length = split + 1 := by
    rw [List.length_map, List.length_take]
    omega
  obtain ⟨htip, hfirst⟩ := hconn.lineage hgood hlineage fun l hl =>
    ⟨halt l.id l.data l.blob (hstored l hl).1, (hstored l hl).2, hpos l hl⟩
  exact ⟨hlt, htip, fun l hl => (hfirst l hl).trans hlen⟩

/-- **Recording.**  A checked alternative block is recorded with its lineage, if the main chain's
    version demands what the block's own would. -/
theorem AltPassed.recordedAs (hgood : WellKnown P.crypto known) {c : Chain σ}
    (hn : c.db.main.Numbered) (hmain : MainLineage P known c.db.main)
    (halt : AltLineage P known c) {blk : Block} {blob : Blob} {txs : List (Transaction × Blob)}
    (hb : known blk) (hparse : Block.fromBlob blob = .ok blk) {id : Hash256}
    {links : List AltLink} {split difficulty : Nat} {data : AltBlockData}
    (h : AltPassed P c blk txs id links split difficulty data)
    (hdemand : SameDemand P c.height (split + links.length + 1)) :
    RecordedAs P known id data blob := by
  obtain ⟨hlt, hparent, hfirst⟩ := altChainTo_lineage hgood hmain halt h.chain
  obtain ⟨hdiff, hcoinbase⟩ := altChecks_ok h.checks
  obtain ⟨hheight, parent, hcum, hpar, hpar'⟩ := altData_ok h.recorded
  have hgen := stepCoinbase_genHeight hcoinbase
  rw [hn.length_records] at hlt
  rw [altDifficulty_eq hn hlt hfirst, Except.ok.injEq] at hdiff
  generalize hstamps : (c.db.main.records.take (split + 1)).map BlockInfo.stamp ++
    links.map AltLink.stamp = stamps at hparent hdiff
  have hlen : stamps.length = split + links.length + 1 := by
    rw [← hstamps, List.length_append, List.length_map, List.length_map, List.length_take,
      hn.length_records]
    omega
  -- The difficulty recorded is the one the lineage asks for.
  have hdemanded : difficulty = demandedDifficulty P stamps := by
    rw [← hdiff]
    exact SameDemand.difficultyBy_eq (hlen ▸ hdemand) (by omega)
  obtain ⟨stamp, hlast⟩ : ∃ stamp, stamps.getLast? = some stamp := by
    cases hs : stamps.getLast? with
    | none => exact absurd (List.getLast?_eq_none_iff.mp hs) hparent.ne_nil
    | some stamp => exact ⟨stamp, rfl⟩
  have hparentCum : parent = stamp.cumulativeDifficulty := by
    cases hl : links.getLast? with
    | some l =>
        have hne : links.map AltLink.stamp ≠ [] := by
          intro hnil
          rw [List.map_eq_nil_iff.mp hnil] at hl
          cases hl
        rw [← hstamps, List.getLast?_append_of_ne_nil _ hne, List.getLast?_map, hl] at hlast
        cases hlast
        exact hpar l hl
    | none =>
        have hnil : links = [] := List.getLast?_eq_none_iff.mp hl
        obtain ⟨info, hinfo, hparent'⟩ := hpar' hnil
        rw [← hstamps, hnil, List.map_nil, List.append_nil, List.getLast?_map,
          List.getLast?_eq_getElem?, List.length_take, hn.length_records,
          Nat.min_eq_left (by omega), List.getElem?_take_of_lt (by omega), Nat.add_sub_cancel,
          hn.records_get, hinfo] at hlast
        cases hlast
        exact hparent'
  refine ⟨⟨blk, hparse, hb, h.blockId⟩, _, ⟨id, blk.header.timestamp,
    wrap128 (stamp.cumulativeDifficulty + demandedDifficulty P stamps)⟩,
    .child hb h.blockId hparent hlast ?_, ?_, ?_, ?_⟩
  · rw [hgen, hlen]
  · rw [List.length_append, hlen, hheight]
    rfl
  · simp
  · rw [hcum, hparentCum, hdemanded]

/-- A block that comes off the main chain is recorded with its lineage. -/
theorem MainLineage.recordedAs (hgood : WellKnown P.crypto known) {t : MainTables}
    (hmain : MainLineage P known t) {below : List BlockInfo} {popped : List Popped}
    (hinfos : t.records = below ++ popped.map (·.info)) {p : Popped} (hp : p ∈ popped)
    (hb : known p.block) (hid : p.block.blockId P.crypto.cnFastHash = some p.info.hash) :
    RecordedAs P known p.info.hash
      ⟨p.info.height, p.info.weight, p.info.cumulativeDifficulty, p.info.coins⟩
      p.block.toBlob := by
  have hmem : p.info ∈ t.records := by
    rw [hinfos]
    exact List.mem_append_right _ (List.mem_map_of_mem hp)
  obtain ⟨k, hk⟩ := List.mem_iff_getElem?.mp hmem
  have hlt : k < t.records.length := by
    by_contra hge
    rw [List.getElem?_eq_none (by omega)] at hk
    cases hk
  refine ⟨⟨p.block, hgood.writes _ hb, hb, hid⟩, _, p.info.stamp,
    hmain.lineage k p.info hk, ?_, ?_, rfl⟩
  · rw [List.length_map, List.length_take, hmain.height k p.info hk]
    exact Nat.min_eq_left hlt
  · rw [List.getLast?_map, List.getLast?_eq_getElem?, List.length_take,
      Nat.min_eq_left (by omega), Nat.add_sub_cancel, List.getElem?_take_of_lt (by omega), hk]
    rfl

theorem AltLineage.of_eq {c c' : Chain σ} (h : AltLineage P known c)
    (hblocks : c'.db.altBlocks = c.db.altBlocks) : AltLineage P known c' := by
  unfold AltLineage
  rw [hblocks]
  exact h

theorem AltLineage.put {c : Chain σ} (h : AltLineage P known c) {id : Hash256}
    {data : AltBlockData} {blob : Blob} (hrec : RecordedAs P known id data blob)
    {c' : Chain σ} (hput : c'.db.altBlocks = c.db.altBlocks.put id (data, blob)) :
    AltLineage P known c' := by
  intro id' data' blob' hget
  rw [hput, Table.get_put] at hget
  split_ifs at hget with hid
  · cases hget
    rw [hid]
    exact hrec
  · exact h id' data' blob' hget

theorem AltLineage.removeAlts {c : Chain σ} (h : AltLineage P known c) (links : List AltLink) :
    AltLineage P known (c.removeAlts links) := by
  intro id data blob hget
  rw [(removeAlts_get links c id).1] at hget
  split_ifs at hget
  exact h id data blob hget

theorem AltLineage.keepPopped {c : Chain σ} (h : AltLineage P known c) (popped : List Popped)
    (hpopped : ∀ p ∈ popped, RecordedAs P known p.info.hash
      ⟨p.info.height, p.info.weight, p.info.cumulativeDifficulty, p.info.coins⟩ p.block.toBlob) :
    AltLineage P known (c.keepPopped popped) := by
  unfold Chain.keepPopped
  induction popped generalizing c with
  | nil => exact h
  | cons p popped ih =>
      refine ih ?_ fun q hq => hpopped q (List.mem_cons_of_mem _ hq)
      exact h.put (hpopped p List.mem_cons_self) rfl

end

end Wownero

import Wownero.Work
/-!
# The store of alternative blocks

What holds of the alternative blocks in every state a run reaches: none of them is on the main
chain, each is recorded one above its parent and with more work, and so the walk from any block
back to the main chain comes to an end and never meets a height that does not descend.
-/

namespace Wownero

open Outcome

section

variable {σ : Type} {P : Params σ} {known : Block → Prop}

/-! ### Parents -/

/-- A block that is no genesis block continues the lineage of its parent. -/
theorem Lineage.on_parent (hgood : WellKnown P.crypto known) {id : Hash256}
    {stamps above : List Stamp} {parent : Stamp} (h : Lineage P known id stamps) {blk : Block}
    (hb : known blk) (hid : blk.blockId P.crypto.cnFastHash = some id)
    (hparent : Lineage P known blk.header.prevId above) (htip : above.getLast? = some parent)
    (hlen : stamps.length ≠ 1) :
    stamps = above ++ [⟨id, blk.header.timestamp,
      wrap128 (parent.cumulativeDifficulty + demandedDifficulty P above)⟩] := by
  cases h with
  | genesis hb' hid' _ => exact absurd rfl hlen
  | child hb' hid' above' tip' _ =>
      have hblk := hgood.ids _ _ _ hb hb' hid hid'
      rw [← hblk] at above' ⊢
      have heq := hparent.unique hgood above'
      subst heq
      rw [htip, Option.some.injEq] at tip'
      rw [tip']

/-- Every block adds work, and the sum fits its type. -/
def AddsWork (P : Params σ) (known : Block → Prop) : Prop :=
  ∀ blk stamps parent, known blk → Lineage P known blk.header.prevId stamps →
    stamps.getLast? = some parent → 0 < demandedDifficulty P stamps ∧
      parent.cumulativeDifficulty + demandedDifficulty P stamps ≤ u128Max

/-- What an alternative block is recorded with, against what its parent's lineage ends with. -/
theorem RecordedAs.on_parent (hgood : WellKnown P.crypto known) (hwork : AddsWork P known)
    {id : Hash256} {data : AltBlockData} {blob : Blob} (h : RecordedAs P known id data blob)
    (hpos : data.height ≠ 0) {blk : Block} (hparse : Block.fromBlob blob = .ok blk)
    {above : List Stamp} {parent : Stamp} (hparent : Lineage P known blk.header.prevId above)
    (htip : above.getLast? = some parent) :
    data.height = above.length ∧ parent.cumulativeDifficulty < data.cumulativeDifficulty := by
  obtain ⟨blk', hparse', hb, hid⟩ := h.block
  rw [hparse] at hparse'
  cases hparse'
  obtain ⟨stamps, stamp, hlineage, hlen, hlast, hcum⟩ := h.lineage
  have heq := hlineage.on_parent hgood hb hid hparent htip (by omega)
  obtain ⟨hpositive, hfits⟩ := hwork blk above parent hb hparent htip
  rw [heq] at hlen hlast
  rw [List.getLast?_concat, Option.some.injEq] at hlast
  refine ⟨?_, ?_⟩
  · rw [List.length_append, List.length_singleton] at hlen
    omega
  · rw [← hcum, ← hlast]
    show parent.cumulativeDifficulty < wrap128 _
    rw [wrap128_of_le hfits]
    omega

/-! ### Alternatives apart from the main chain -/

/-- No alternative block is on the main chain, and none is at height zero. -/
structure Apart (c : Chain σ) : Prop where
  notMain : ∀ id, (c.db.altBlocks.get id).isSome → id ∉ c.db.main.ids
  above : ∀ id data blob, c.db.altBlocks.get id = some (data, blob) → data.height ≠ 0

theorem Apart.of_subset {c c' : Chain σ} (h : Apart c)
    (halt : c'.db.altBlocks = c.db.altBlocks) (hids : c'.db.main.ids ⊆ c.db.main.ids) :
    Apart c' := by
  constructor
  · intro id hsome hmem
    rw [halt] at hsome
    exact h.notMain id hsome (hids hmem)
  · rw [halt]
    exact h.above

theorem MainLineage.mem_ids {t : MainTables} (h : MainLineage P known t) {id : Hash256} :
    id ∈ t.ids ↔ t.blockExists id = true := by
  rw [MainTables.blockExists, Table.has_eq, Option.isSome_iff_exists, MainTables.ids,
    List.mem_map]
  constructor
  · rintro ⟨info, hmem, rfl⟩
    obtain ⟨k, hk⟩ := List.mem_iff_getElem?.mp hmem
    exact ⟨k, (h.heights _ _).mpr ⟨info, hk, rfl⟩⟩
  · rintro ⟨k, hk⟩
    obtain ⟨info, hget, hhash⟩ := (h.heights id k).mp hk
    exact ⟨info, List.mem_of_getElem? hget, hhash⟩

theorem MainLineage.ids_nodup {t : MainTables} (h : MainLineage P known t) : t.ids.Nodup := by
  refine List.nodup_iff_getElem?_ne_getElem?.mpr ?_
  intro i j hij hj heq
  rw [MainTables.ids, List.getElem?_map, List.getElem?_map] at heq
  rw [MainTables.ids, List.length_map] at hj
  obtain ⟨info, hinfo⟩ : ∃ info, t.records[j]? = some info := ⟨_, List.getElem?_eq_getElem hj⟩
  obtain ⟨info', hinfo'⟩ : ∃ info, t.records[i]? = some info :=
    ⟨_, List.getElem?_eq_getElem (by omega)⟩
  rw [hinfo, hinfo', Option.map_some, Option.map_some, Option.some.injEq] at heq
  have hat := (h.heights info.hash j).mpr ⟨info, hinfo, rfl⟩
  have hat' := (h.heights info.hash i).mpr ⟨info', hinfo', heq⟩
  rw [hat, Option.some.injEq] at hat'
  omega

/-! ### Putting blocks back -/

/-- Whatever comes of putting blocks back, only their ids are added. -/
theorem putBack_ids (hgood : WellKnown P.crypto known) {now : Nat} {popped : List Popped}
    (hpopped : ∀ p ∈ popped, known p.block ∧
      p.block.blockId P.crypto.cnFastHash = some p.info.hash)
    {c : Chain σ} (hc : Traced P known c) {result : Except Rejection Unit} {c' : Chain σ}
    (hout : Chain.putBack P now popped c = (result, c')) :
    c'.db.main.ids ⊆ c.db.main.ids ++ popped.map (·.info.hash) := by
  induction popped generalizing c with
  | nil =>
      cases hout
      exact List.subset_append_left _ _
  | cons p ps ih =>
      obtain ⟨⟨hb, hpid⟩, hrest⟩ := List.forall_mem_cons.mp hpopped
      unfold Chain.putBack at hout
      cases hadd : Chain.addBlock P c p.block p.block.toBlob p.txs now with
      | mk res c₁ =>
          obtain ⟨hc₁, _, hgrew, hkeep⟩ := addBlock_traced hc hb (hgood.writes _ hb) hadd
          rw [hadd] at hout
          cases res with
          | error r =>
              cases hout
              rw [(hkeep r rfl).1]
              exact List.subset_append_left _ _
          | ok added =>
              obtain ⟨info, hrec, hid⟩ := hgrew added rfl
              rw [hpid, Option.some.injEq] at hid
              have hids₁ : c₁.db.main.ids = c.db.main.ids ++ [p.info.hash] := by
                rw [MainTables.ids, hrec, List.map_append, List.map_singleton, hid]
                rfl
              have hsub := ih hrest hc₁ hout
              rw [hids₁, List.append_assoc] at hsub
              exact hsub

/-- A switch leaves the genesis block. -/
theorem popTo_pos (split fuel : Nat) {c c' : Chain σ} (hc : MainTraced P known c)
    (hpos : 0 < c.height) {acc popped : List Popped}
    (hout : Chain.popTo P split fuel c acc = (.ok popped, c')) : 0 < c'.height := by
  induction fuel generalizing c acc with
  | zero =>
      cases hout
      exact hpos
  | succ fuel ih =>
      unfold Chain.popTo at hout
      split_ifs at hout with habove
      · cases hinfo : c.db.main.getBlockInfo (c.height - 1) with
        | error e =>
            rw [hinfo] at hout
            cases hout
        | ok info =>
            rw [hinfo] at hout
            cases hpop : Chain.popBlock P c with
            | error r =>
                rw [hpop] at hout
                cases hout
            | ok out =>
                obtain ⟨⟨block, txs⟩, c₁⟩ := out
                rw [hpop] at hout
                obtain ⟨hc₁, _, info', hrec, _⟩ := popBlock_traced hpop hc
                have hlen := congrArg List.length hrec
                rw [hc.numbered.length_records, List.length_append,
                  hc₁.numbered.length_records, List.length_singleton] at hlen
                rw [Chain.height] at habove
                refine ih hc₁ ?_ hout
                rw [Chain.height]
                omega
      · cases hout
        exact hpos

theorem keepPopped_get {popped : List Popped} {c : Chain σ} {id : Hash256} {data : AltBlockData}
    {blob : Blob} (h : (c.keepPopped popped).db.altBlocks.get id = some (data, blob)) :
    c.db.altBlocks.get id = some (data, blob) ∨
      ∃ p ∈ popped, id = p.info.hash ∧ data.height = p.info.height := by
  unfold Chain.keepPopped at h
  induction popped generalizing c with
  | nil => exact Or.inl h
  | cons p popped ih =>
      rcases ih h with hget | ⟨q, hq, hcase⟩
      · simp only [Store.addAltBlock, Table.get_put] at hget
        split_ifs at hget with hid
        · cases hget
          exact Or.inr ⟨p, List.mem_cons_self, hid, rfl⟩
        · exact Or.inl hget
      · exact Or.inr ⟨q, List.mem_cons_of_mem _ hq, hcase⟩

theorem Apart.removeAlts {c : Chain σ} (h : Apart c) (links : List AltLink) :
    Apart (c.removeAlts links) := by
  obtain ⟨hmain, _⟩ := removeAlts_frame links c
  constructor
  · intro id hsome
    rw [(removeAlts_get links c id).1] at hsome
    split_ifs at hsome with hmem
    · cases hsome
    · rw [hmain]
      exact h.notMain id hsome
  · intro id data blob hget
    rw [(removeAlts_get links c id).1] at hget
    split_ifs at hget
    exact h.above id data blob hget

/-! ### The switch -/

theorem restore_apart (hgood : WellKnown P.crypto known) {now : Nat} {chain : List AltLink}
    {popped : List Popped} {rejected : Rejection} {below added : List BlockInfo}
    {c c₂ : Chain σ} (ha : Apart c) (hc₂ : Traced P known c₂)
    (halt₂ : c₂.db.altBlocks = c.db.altBlocks)
    (hbelow : c.db.main.records = below ++ popped.map (·.info))
    (habove : c₂.db.main.records = below ++ added)
    (hpopped : ∀ p ∈ popped, known p.block ∧
      p.block.blockId P.crypto.cnFastHash = some p.info.hash)
    {result : Except Rejection Added} {c' : Chain σ}
    (hout : Chain.restore P now added.length chain popped rejected c₂ = (result, c')) :
    Apart c' ∨ ∃ r, result = .error r ∧ r.error.isStorage = true := by
  unfold Chain.restore at hout
  rcases dropBlocks_traced added.length hc₂.mainTraced with
    ⟨c₃, dropped, hdrop, hc₃, halt₃, hrec₃, hlen₃⟩ | ⟨r, c₃, hdrop, hr⟩
  · have hsame : c₃.db.main.records = below :=
      (List.append_inj' (hrec₃.symm.trans habove) hlen₃).1
    simp only [hdrop, reloadState_eq hc₃.numbered] at hout
    have htraced₃ := hc₃.reloaded (hc₂.alts.of_eq halt₃)
    cases hput : Chain.putBack P now popped
        { c₃ with state := stateOf P.network c₃.db.main.records } with
    | mk res c₄ =>
        obtain ⟨_, halt₄, _⟩ := putBack_traced hgood hpopped htraced₃ hput
        have hsub := putBack_ids hgood hpopped htraced₃ hput
        have hids : c.db.main.ids = below.map (·.hash) ++ popped.map (·.info.hash) := by
          rw [MainTables.ids, hbelow, List.map_append, List.map_map]
          rfl
        have ha₄ : Apart c₄ := by
          refine ha.of_subset (halt₄.trans (halt₃.trans halt₂)) ?_
          rw [hids, ← hsame]
          exact hsub
        simp only [hput] at hout
        cases res with
        | error r =>
            cases hout
            exact Or.inl ha₄
        | ok u =>
            cases hout
            exact Or.inl (ha₄.removeAlts _)
  · simp only [hdrop] at hout
    cases hout
    exact Or.inr ⟨r, rfl, hr⟩

/-- The bookkeeping of a switch that went through: the links are on the main chain now, and the
    popped blocks beside it. -/
theorem finishSwitch_apart {c c₂ : Chain σ} (ha : Apart c) (hmain : MainLineage P known c.db.main)
    (halt₂ : c₂.db.altBlocks = c.db.altBlocks) {chain : List AltLink} {popped : List Popped}
    {below : List BlockInfo} (hbelow : c.db.main.records = below ++ popped.map (·.info))
    (hpos : 0 < below.length)
    (habove : c₂.db.main.ids = below.map (·.hash) ++ chain.map (·.id)) :
    Apart (Chain.finishSwitch P chain popped c₂) := by
  obtain ⟨hm, _⟩ := finishSwitch_frame (P := P) chain popped c₂
  have hids : c.db.main.ids = below.map (·.hash) ++ popped.map (·.info.hash) := by
    rw [MainTables.ids, hbelow, List.map_append, List.map_map]
    rfl
  have hnodup := hmain.ids_nodup
  rw [hids] at hnodup
  have hget : ∀ id, (Chain.finishSwitch P chain popped c₂).db.altBlocks.get id =
      if id ∈ chain.map (·.id) then none else (c₂.keepPopped popped).db.altBlocks.get id :=
    fun id => (removeAlts_get chain (c₂.keepPopped popped) id).1
  constructor
  · intro id hsome hmem
    rw [hget] at hsome
    split_ifs at hsome with hlink
    · cases hsome
    · rw [hm, habove] at hmem
      have hlow : id ∈ below.map (·.hash) := (List.mem_append.mp hmem).resolve_right hlink
      obtain ⟨⟨data, blob⟩, hfound⟩ := Option.isSome_iff_exists.mp hsome
      rcases keepPopped_get hfound with hold | ⟨p, hp, rfl, _⟩
      · rw [halt₂] at hold
        refine ha.notMain id (by rw [hold]; rfl) ?_
        rw [hids]
        exact List.mem_append_left _ hlow
      · exact (List.nodup_append'.mp hnodup).2.2 hlow (List.mem_map_of_mem hp)
  · intro id data blob hfound
    rw [hget] at hfound
    split_ifs at hfound with hlink
    rcases keepPopped_get hfound with hold | ⟨p, hp, _, hheight⟩
    · rw [halt₂] at hold
      exact ha.above id data blob hold
    · -- A popped block was above the split.
      obtain ⟨k, hk⟩ := List.mem_iff_getElem?.mp (List.mem_map_of_mem (f := Popped.info) hp)
      have hat : c.db.main.records[below.length + k]? = some p.info := by
        rw [hbelow, List.getElem?_append_right (by omega), Nat.add_sub_cancel_left]
        exact hk
      rw [hheight, hmain.height _ _ hat]
      omega

theorem switchToAlternative_apart (hgood : WellKnown P.crypto known) {now split : Nat}
    {c : Chain σ} (hc : Traced P known c) (ha : Apart c) (hpos : 0 < c.height)
    {chain : List AltLink}
    (hchain : ∀ l ∈ chain, known l.block ∧ Block.fromBlob l.blob = .ok l.block ∧
      l.block.blockId P.crypto.cnFastHash = some l.id)
    {result : Except Rejection Added} {c' : Chain σ}
    (hout : Chain.switchToAlternative P c chain split now = (result, c')) :
    Apart c' ∨ ∃ r, result = .error r ∧ r.error.isStorage = true := by
  unfold Chain.switchToAlternative at hout
  cases hgather : gatherBodies c.altTxs chain with
  | error r =>
      rw [hgather] at hout
      cases hout
      exact Or.inl ha
  | ok bodies =>
      have hbodies := gatherBodies_length hgather
      rcases popTo_traced split c.height hc.mainTraced [] with
        ⟨popped, c₁, hpop, hc₁, halt₁, hrec₁, hpopped⟩ | ⟨r, c₁, hpop, hr⟩
      · rw [List.append_nil] at hpop
        have hpos₁ := popTo_pos split _ hc.mainTraced hpos hpop
        simp only [hgather, hpop, reloadState_eq hc₁.numbered] at hout
        have htraced₁ := hc₁.reloaded (hc.alts.of_eq halt₁)
        have hzip : ∀ p ∈ chain.zip bodies, known p.1.block ∧
            Block.fromBlob p.1.blob = .ok p.1.block := by
          intro p hp
          obtain ⟨hb, hparse, _⟩ := hchain p.1 (List.of_mem_zip hp).1
          exact ⟨hb, hparse⟩
        cases happly : Chain.applyAlt P now 0 (chain.zip bodies)
            { c₁ with state := stateOf P.network c₁.db.main.records } with
        | mk refused c₂ =>
            obtain ⟨hc₂, halt₂, added, hrec₂, hcount, hall⟩ :=
              applyAlt_traced hzip htraced₁ 0 happly
            rw [happly] at hout
            cases refused with
            | some failure =>
                obtain ⟨i, r⟩ := failure
                have hi : i = added.length := by simpa using hcount i r rfl
                rw [hi] at hout
                exact restore_apart hgood ha hc₂ (halt₂.trans halt₁) hrec₁ hrec₂ hpopped hout
            | none =>
                cases hout
                have hfst : (chain.zip bodies).map Prod.fst = chain :=
                  List.map_fst_zip hbodies.ge
                have hadded : added.map (·.hash) = chain.map (·.id) := by
                  have hids := hall rfl
                  have hlinkIds : ((chain.zip bodies).map fun p =>
                      p.1.block.blockId P.crypto.cnFastHash) = chain.map fun l => some l.id := by
                    conv_rhs => rw [← hfst]
                    rw [List.map_map]
                    refine List.map_congr_left fun p hp => ?_
                    exact (hchain p.1 (List.of_mem_zip hp).1).2.2
                  rw [hlinkIds] at hids
                  refine List.map_injective_iff.mpr (Option.some_injective _) ?_
                  rw [List.map_map, List.map_map]
                  exact hids
                refine Or.inl (finishSwitch_apart ha hc.main (halt₂.trans halt₁) hrec₁ ?_ ?_)
                · rw [hc₁.numbered.length_records]
                  exact hpos₁
                · rw [MainTables.ids, hrec₂, List.map_append, hadded]
      · simp only [hgather, hpop] at hout
        cases hout
        exact Or.inr ⟨r, rfl, hr⟩

/-! ### Operations -/

theorem handleBlock_of_have {c : Chain σ} {blk : Block} {blob : Blob}
    {txs : List (Transaction × Blob)} {now : Nat} {id : Hash256}
    (hid : blk.blockId P.crypto.cnFastHash = some id) (hhave : c.db.haveBlock id = true) :
    Chain.handleBlock P c blk blob txs now = (.error ⟨.haveIt, .alreadyExists id⟩, c) := by
  simp only [Chain.handleBlock, hid, hhave, if_true]

/-- **A block handed in** keeps the alternatives apart. -/
theorem handleBlock_apart (hgood : WellKnown P.crypto known) {c : Chain σ}
    (hc : Traced P known c) (ha : Apart c) {blk : Block} {blob : Blob}
    {txs : List (Transaction × Blob)} {now : Nat} (hb : known blk)
    (hparse : Block.fromBlob blob = .ok blk) (hdemand : AltDemand P c blk)
    {result : Except Rejection Added} {c' : Chain σ}
    (hout : Chain.handleBlock P c blk blob txs now = (result, c')) :
    Apart c' ∨ ∃ r, result = .error r ∧ r.error.isStorage = true := by
  rcases handleBlock_cases P c blk blob txs now with
    ⟨r, hcase⟩ | hcase | ⟨id, links, split, difficulty, data, hpassed, hcase⟩
  · rw [hcase] at hout
    cases hout
    exact Or.inl ha
  · obtain ⟨_, halt, hgrew, hkeep⟩ := addBlock_traced hc hb hparse (hcase ▸ hout)
    cases result with
    | error r =>
        obtain ⟨hmain, _⟩ := hkeep r rfl
        refine Or.inl (ha.of_subset halt ?_)
        rw [hmain]
        exact List.Subset.refl _
    | ok added =>
        obtain ⟨info, hrec, hid⟩ := hgrew added rfl
        have hnew : c.db.altBlocks.get info.hash = none := by
          cases hhave : c.db.haveBlock info.hash with
          | true =>
              rw [handleBlock_of_have hid hhave] at hout
              cases hout
          | false =>
              simp only [Store.haveBlock, Bool.or_eq_false_iff, Table.has_eq] at hhave
              simpa using hhave.2
        refine Or.inl ⟨?_, ?_⟩
        · intro id hsome hmem
          rw [halt] at hsome
          rw [MainTables.ids, hrec, List.map_append] at hmem
          rcases List.mem_append.mp hmem with hmem | hmem
          · exact ha.notMain id hsome hmem
          · rw [List.map_singleton, List.mem_singleton] at hmem
            rw [hmem, hnew] at hsome
            cases hsome
        · rw [halt]
          exact ha.above
  · rw [hcase, Chain.storeAlternative] at hout
    have hrec := hpassed.recordedAs hgood hc.inStep.numbered hc.main hc.alts hb hparse
      (hdemand links split hpassed.chain)
    have hc₁ : Traced P known
        { c with db := c.db.addAltBlock id data blob, altTxs := c.altTxs.put id txs } :=
      hc.of_eq rfl rfl (hc.alts.put hrec rfl)
    have hnotMain : id ∉ c.db.main.ids := by
      rw [hc.main.mem_ids]
      have hnew := hpassed.new
      simp only [Store.haveBlock, Bool.or_eq_false_iff] at hnew
      simp [hnew.1]
    have ha₁ : Apart
        { c with db := c.db.addAltBlock id data blob, altTxs := c.altTxs.put id txs } := by
      constructor
      · intro id' hsome
        simp only [Store.addAltBlock, Table.get_put] at hsome
        split_ifs at hsome with hid
        · exact hid ▸ hnotMain
        · exact ha.notMain id' hsome
      · intro id' data' blob' hget
        simp only [Store.addAltBlock, Table.get_put] at hget
        split_ifs at hget with hid
        · cases hget
          rw [(altData_ok hpassed.recorded).1]
          exact Nat.succ_ne_zero _
        · exact ha.above id' data' blob' hget
    dsimp only at hout
    split_ifs at hout with hlighter
    · cases hout
      exact Or.inl ha₁
    · have hpos : 0 < c.height := by
        obtain ⟨hlt, _⟩ := altChainTo_lineage hgood hc.main hc.alts hpassed.chain
        rw [hc.inStep.numbered.length_records] at hlt
        exact Nat.lt_of_le_of_lt (Nat.zero_le _) hlt
      refine switchToAlternative_apart hgood hc₁ ha₁ hpos ?_ hout
      intro l hl
      obtain ⟨hget, hp⟩ := hpassed.links_stored hparse l hl
      obtain ⟨blk', hp', hb', hid'⟩ := (hc₁.alts l.id l.data l.blob hget).block
      rw [hp] at hp'
      cases hp'
      exact ⟨hb', hp, hid'⟩

theorem reloadState_db (c : Chain σ) : (Chain.reloadState P c).2.db = c.db := by
  unfold Chain.reloadState
  split
  · rfl
  · rfl

theorem popMany_ids (n : Nat) {c : Chain σ} (hc : MainTraced P known c) :
    (Chain.popMany P n c).2.db.main.ids ⊆ c.db.main.ids ∧
      (Chain.popMany P n c).2.db.altBlocks = c.db.altBlocks := by
  induction n generalizing c with
  | zero => exact ⟨List.Subset.refl _, rfl⟩
  | succ n ih =>
      unfold Chain.popMany
      cases hpop : Chain.popBlock P c with
      | error r => exact ⟨List.Subset.refl _, rfl⟩
      | ok out =>
          obtain ⟨⟨block, txs⟩, c₁⟩ := out
          obtain ⟨hc₁, halt, info, hrec, _⟩ := popBlock_traced hpop hc
          obtain ⟨hids, halts⟩ :=
            ih (c := { c₁ with orphanedTxs := c₁.orphanedTxs ++ txs.map withBlob })
              ⟨hc₁.numbered, hc₁.main⟩
          have hsub : c₁.db.main.ids ⊆ c.db.main.ids := by
            simp only [MainTables.ids]
            rw [hrec, List.map_append]
            exact List.subset_append_left _ _
          exact ⟨List.Subset.trans hids hsub, halts.trans halt⟩

/-- Nothing is put on the tip past `handle_block`. -/
def Action.isAddBlock : Action σ → Bool
  | .addBlock .. => true
  | _ => false

theorem act_apart (hgood : WellKnown P.crypto known) {c : Chain σ} (hc : Traced P known c)
    (ha : Apart c) {a : Action σ} (hno : a.isAddBlock = false)
    (hknown : ∀ b, handedIn [a] b → known b.blk) (hmet : OperationMet P c a) :
    Apart (c.act P a).2 := by
  cases a with
  | handleBlock blk blob txs now =>
      have hb : handedIn (σ := σ) [.handleBlock blk blob txs now] ⟨blk, blob, txs⟩ :=
        ⟨now, Or.inl List.mem_cons_self⟩
      cases hout : Chain.handleBlock P c blk blob txs now with
      | mk result c' =>
          have hact : c.act P (.handleBlock blk blob txs now) = (refusal result, c') := by
            rw [Chain.act, hout]
          rcases handleBlock_apart hgood hc ha (hknown _ hb) (hmet.parses _ hb)
            (hmet.demand blk blob txs now rfl) hout with happart | ⟨r, hr, hstorage⟩
          · rw [hact]
            exact happart
          · have hnone := hmet.noStorageError r (by rw [hact, hr]; rfl)
            rw [hnone] at hstorage
            cases hstorage
  | addBlock blk blob txs now => cases hno
  | popBlocks n =>
      obtain ⟨hids, halts⟩ := popMany_ids (min n (c.height - 1)) hc.mainTraced
      simp only [Chain.act, Chain.popBlocks]
      cases hmany : Chain.popMany P (min n (c.height - 1)) c with
      | mk result c₁ =>
          rw [hmany] at hids halts
          have ha₁ : Apart c₁ := ha.of_subset halts hids
          cases result with
          | error r => exact ha₁
          | ok u =>
              have hdb := reloadState_db (P := P) c₁
              simp only
              cases hreload : Chain.reloadState P c₁ with
              | mk reloaded c₂ =>
                  rw [hreload] at hdb
                  have ha₂ : Apart c₂ :=
                    ha₁.of_subset (congrArg Store.altBlocks hdb) (by rw [hdb]; exact List.Subset.refl _)
                  cases reloaded with
                  | error r => exact ha₂
                  | ok u => exact ha₂
  | takeOrphanedTxs => exact ⟨ha.notMain, ha.above⟩
  | reopen v =>
      rw [Chain.act]
      cases hnew : Chain.new P c.db v with
      | error e => exact ha
      | ok c' =>
          rw [Chain.new, loadState_eq P hc.inStep.numbered] at hnew
          cases hnew
          exact ⟨ha.notMain, ha.above⟩
  | others v => exact ⟨ha.notMain, ha.above⟩

/-! ### The walk -/

/-- What is recorded of an alternative block fits its parent. -/
structure FitsParents (s : Store) : Prop where
  parses : ∀ id data blob, s.altBlocks.get id = some (data, blob) →
    ∃ blk, Block.fromBlob blob = .ok blk
  above : ∀ id data blob, s.altBlocks.get id = some (data, blob) → data.height ≠ 0
  onMain : ∀ id data blob blk height info, s.altBlocks.get id = some (data, blob) →
    Block.fromBlob blob = .ok blk → s.main.blockHeights.get blk.header.prevId = some height →
    s.main.blockInfo.get height = some info →
    data.height = height + 1 ∧ info.cumulativeDifficulty < data.cumulativeDifficulty
  onAlt : ∀ id data blob blk data' blob', s.altBlocks.get id = some (data, blob) →
    Block.fromBlob blob = .ok blk → s.altBlocks.get blk.header.prevId = some (data', blob') →
    data.height = data'.height + 1 ∧ data'.cumulativeDifficulty < data.cumulativeDifficulty

/-- The walk has an answer, with as many turns as the height it starts from. -/
theorem altWalk_answers {s : Store} (h : FitsParents s) (fuel : Nat) {prev : Hash256}
    {acc : List AltLink} (hpos : 0 < fuel)
    (hfuel : ∀ data blob, s.altBlocks.get prev = some (data, blob) → data.height < fuel)
    (hchild : ∀ l, acc.head? = some l → s.altBlocks.get l.id = some (l.data, l.blob) ∧
      Block.fromBlob l.blob = .ok l.block ∧ l.block.header.prevId = prev) :
    ∃ answer, altWalk s fuel prev acc = .ok answer := by
  induction fuel generalizing prev acc with
  | zero => cases hpos
  | succ fuel ih =>
      unfold altWalk
      by_cases hexists : s.main.blockExists prev = true
      · rw [if_pos hexists]
        obtain ⟨split, hsplit⟩ := Option.isSome_iff_exists.mp hexists
        rw [MainTables.getBlockHeight, hsplit]
        exact ⟨_, rfl⟩
      · rw [if_neg hexists]
        cases hget : s.altBlocks.get prev with
        | none => exact ⟨none, rfl⟩
        | some record =>
            obtain ⟨data, blob⟩ := record
            have hlt := hfuel data blob hget
            have habove := h.above prev data blob hget
            obtain ⟨blk, hparse⟩ := h.parses prev data blob hget
            have hdescends : ¬(acc.head?.any (fun l => data.height ≥ l.data.height) ∨
                data.height = 0) := by
              rintro (hany | hzero)
              · cases hhead : acc.head? with
                | none =>
                    rw [hhead] at hany
                    cases hany
                | some l =>
                    rw [hhead] at hany
                    have hge : l.data.height ≤ data.height := by simpa using hany
                    obtain ⟨hstored, hparse', hprev⟩ := hchild l hhead
                    obtain ⟨hheight, _⟩ :=
                      h.onAlt l.id l.data l.blob l.block data blob hstored hparse' (hprev ▸ hget)
                    omega
              · exact habove hzero
            simp only [hdescends, if_false, hparse]
            refine ih (by omega) ?_ ?_
            · intro data' blob' hget'
              obtain ⟨hheight, _⟩ := h.onAlt prev data blob blk data' blob' hget hparse hget'
              omega
            · intro l hl
              cases hl
              exact ⟨hget, hparse, rfl⟩

theorem altChainTo_answers {s : Store} (h : FitsParents s) (prev : Hash256) :
    ∃ answer, altChainTo s prev = .ok answer := by
  refine altWalk_answers h _ ?_ ?_ nofun
  · unfold altFuel
    split
    · exact Nat.one_pos
    · exact Nat.succ_pos _
  · intro data blob hget
    rw [altFuel, hget]
    exact Nat.lt_succ_self _

/-- The lineage that a traced chain has of a block on the main chain. -/
theorem MainLineage.at_height {t : MainTables} (hn : t.Numbered) (h : MainLineage P known t)
    {id : Hash256} {height : Nat} {info : BlockInfo} (hat : t.blockHeights.get id = some height)
    (hinfo : t.blockInfo.get height = some info) :
    ∃ stamps, Lineage P known id stamps ∧ stamps.length = height + 1 ∧
      stamps.getLast? = some info.stamp := by
  obtain ⟨info', hrec, hhash⟩ := (h.heights id height).mp hat
  have hsame := hrec
  rw [hn.records_get, hinfo, Option.some.injEq] at hsame
  subst hsame
  have hlineage := h.lineage height info hrec
  rw [hhash] at hlineage
  have hlt : height < t.records.length := by
    by_contra hge
    rw [List.getElem?_eq_none (by omega)] at hrec
    cases hrec
  refine ⟨_, hlineage, ?_, ?_⟩
  · rw [List.length_map, List.length_take]
    omega
  · rw [List.getLast?_map, List.getLast?_eq_getElem?, List.length_take,
      Nat.min_eq_left (by omega), Nat.add_sub_cancel, List.getElem?_take_of_lt (by omega), hrec]
    rfl

/-- Traced alternatives fit their parents. -/
theorem Traced.fitsParents (hgood : WellKnown P.crypto known) (hwork : AddsWork P known)
    {c : Chain σ} (hc : Traced P known c) (ha : Apart c) : FitsParents c.db := by
  refine ⟨?_, ha.above, ?_, ?_⟩
  · intro id data blob hget
    obtain ⟨blk, hparse, _⟩ := (hc.alts id data blob hget).block
    exact ⟨blk, hparse⟩
  · intro id data blob blk height info hget hparse hat hinfo
    obtain ⟨stamps, hlineage, hlen, hlast⟩ := hc.main.at_height hc.inStep.numbered hat hinfo
    have hfits := (hc.alts id data blob hget).on_parent hgood hwork (ha.above id data blob hget)
      hparse hlineage hlast
    rw [hlen] at hfits
    exact hfits
  · intro id data blob blk data' blob' hget hparse hget'
    obtain ⟨stamps, stamp, hlineage, hlen, hlast, hcum⟩ :=
      (hc.alts _ data' blob' hget').lineage
    have hfits := (hc.alts id data blob hget).on_parent hgood hwork (ha.above id data blob hget)
      hparse hlineage hlast
    rw [hlen, hcum] at hfits
    exact hfits

/-! ### Runs -/

theorem run_apart (hgood : WellKnown P.crypto known) {v : σ} {c₀ : Chain σ}
    (hopen : Chain.new P Store.empty v = .ok c₀) (actions : List (Action σ))
    (hno : ∀ a ∈ actions, a.isAddBlock = false)
    (hknown : ∀ blk, knownIn actions blk → known blk)
    (hmet : c₀.Along P (OperationMet P) actions) :
    Traced P known (c₀.run P actions) ∧ Apart (c₀.run P actions) := by
  refine ⟨run_traced hgood hopen actions hknown hmet, ?_⟩
  induction actions using List.reverseRecOn with
  | nil =>
      cases hopen
      exact ⟨nofun, nofun⟩
  | append_singleton before a ih =>
      obtain ⟨hbefore, ha⟩ := along_snoc.mp hmet
      have hknown' : ∀ blk, knownIn before blk → known blk :=
        fun blk hblk => hknown blk (knownIn_append_left _ hblk)
      rw [run_snoc]
      refine act_apart hgood (run_traced hgood hopen before hknown' hbefore)
        (ih (fun a ha => hno a (List.mem_append_left _ ha)) hknown' hbefore)
        (hno a (by simp)) ?_ ha
      intro b hb
      exact hknown b.blk (knownIn_append_right _ ⟨b, hb, rfl⟩)

/-- **The store of alternative blocks.**  In every state a run of blocks handed in and blocks
    popped reaches, whose blocks have ids of their own and add work, no alternative block is on
    the main chain; each is recorded one above its parent and with more work; and the walk from
    any block has an answer, which is either that it ends at an unknown block or a connected
    chain of links on the main block at the split. -/
theorem altStore_sound {v : σ} {c₀ : Chain σ} (hopen : Chain.new P Store.empty v = .ok c₀)
    (actions : List (Action σ)) (hno : ∀ a ∈ actions, a.isAddBlock = false)
    (hgood : WellKnown P.crypto (knownIn actions)) (hwork : AddsWork P (knownIn actions))
    (hmet : c₀.Along P (OperationMet P) actions) :
    (∀ id, (c₀.run P actions).db.altBlocks.has id = true →
        (c₀.run P actions).db.main.blockExists id = false) ∧
      FitsParents (c₀.run P actions).db ∧
      ∀ prev, altChainTo (c₀.run P actions).db prev = .ok none ∨
        ∃ links split root, altChainTo (c₀.run P actions).db prev = .ok (some (links, split)) ∧
          (c₀.run P actions).db.main.blockHeights.get root = some split ∧
          Connected root links prev := by
  obtain ⟨htraced, happart⟩ := run_apart hgood hopen actions hno (fun _ h => h) hmet
  have hfits := htraced.fitsParents hgood hwork happart
  refine ⟨?_, hfits, ?_⟩
  · intro id hhas
    have hnot := happart.notMain id hhas
    rw [htraced.main.mem_ids] at hnot
    simpa using hnot
  · intro prev
    obtain ⟨answer, hanswer⟩ := altChainTo_answers hfits prev
    cases answer with
    | none => exact Or.inl hanswer
    | some walked =>
        obtain ⟨links, split⟩ := walked
        have hnil : Connected prev [] prev := rfl
        obtain ⟨root, hroot, hconn, _⟩ := altWalk_connected _ hanswer hnil nofun
        exact Or.inr ⟨links, split, root, hanswer, hroot, hconn⟩

/-! ### Fixed difficulties -/

/-- With a fixed difficulty, the work of a block is that of its height at most. -/
theorem Lineage.work_le {d : Nat} (hfixed : P.fixedDifficulty = some d) {id : Hash256}
    {stamps : List Stamp} (h : Lineage P known id stamps) {parent : Stamp}
    (htip : stamps.getLast? = some parent) :
    parent.cumulativeDifficulty + d ≤ 1 + stamps.length * d := by
  induction h generalizing parent with
  | genesis _ _ _ =>
      cases htip
      simp
  | @child blk id stamps parent' _ _ above tip _ ih =>
      have hbelow := ih tip
      have hdemand : demandedDifficulty P stamps = d := by
        unfold demandedDifficulty difficultyBy
        rw [if_neg (by simpa using above.ne_nil), hfixed]
      rw [List.getLast?_concat, Option.some.injEq] at htip
      rw [← htip, hdemand, List.length_append, List.length_singleton, Nat.add_mul, Nat.one_mul]
      have hwrap := Nat.mod_le (parent'.cumulativeDifficulty + d)
        340282366920938463463374607431768211456
      show wrap128 (parent'.cumulativeDifficulty + d) + d ≤ _
      unfold wrap128
      omega

/-- A fixed difficulty adds work as long as the blocks stay below a height. -/
theorem addsWork_of_fixed {d n : Nat} (hfixed : P.fixedDifficulty = some d) (hpos : 0 < d)
    (hheights : ∀ blk k, known blk → genHeight blk.minerTx = some k → k < n)
    (hfits : 1 + n * d ≤ u128Max) : AddsWork P known := by
  intro blk stamps parent _ hlineage htip
  have hdemand : demandedDifficulty P stamps = d := by
    unfold demandedDifficulty difficultyBy
    rw [if_neg (by simpa using hlineage.ne_nil), hfixed]
  have hlen : stamps.length ≤ n := by
    cases hlineage with
    | genesis hb _ hheight => exact hheights _ _ hb hheight
    | child hb _ _ _ hheight =>
        rw [List.length_append, List.length_singleton]
        exact hheights _ _ hb hheight
  have hle := hlineage.work_le hfixed htip
  have hmul : stamps.length * d ≤ n * d := Nat.mul_le_mul_right d hlen
  rw [hdemand]
  exact ⟨hpos, by omega⟩

end

namespace Sample

/-- The bare chain with the least difficulty. -/
def regtest : Params Unit := { bare with fixedDifficulty := some 1 }

/-- The first block and its rival, and the second block that stands on the rival. -/
def rivalry : List (Action Unit) :=
  laden ++ [.handleBlock rival rival.toBlob [] clock, .handleBlock second second.toBlob [] clock]

end Sample

section

open Sample

/-- The chain that switched to the rival has the first block beside it. -/
theorem altStore_sound_rivalry :
    ((opened ()).run regtest rivalry).height = 3 ∧
      ((opened ()).run regtest rivalry).db.altBlocks.size = 1 ∧
      ∀ id, ((opened ()).run regtest rivalry).db.altBlocks.has id = true →
        ((opened ()).run regtest rivalry).db.main.blockExists id = false := by
  have hgood : WellKnown crypto (knownIn rivalry) := by decide +kernel
  have hmet : (opened ()).Along regtest (OperationMet regtest) rivalry := by decide +kernel
  have hheights : ∀ blk ∈ (rivalry.filterMap Action.carried).map Handed.blk,
      ∀ k ∈ genHeight blk.minerTx, k < 3 := by decide +kernel
  have hwork : AddsWork regtest (knownIn rivalry) :=
    addsWork_of_fixed (n := 3) rfl Nat.one_pos
      (fun blk k hblk hk => hheights blk (knownIn_iff.mp hblk) k hk) (by decide)
  refine ⟨by decide +kernel, by decide +kernel, ?_⟩
  exact (altStore_sound (P := regtest) (new_empty regtest ()) rivalry (by decide) hgood hwork
    hmet).1

/-- With a difficulty that wraps, the block on the rival is recorded with less work than the
    rival. -/
theorem wrapped_alternative_recorded :
    ((((opened ()).run heavy rivalry).db.altBlocks.get
        ((second.blockId digest).getD 0)).map (·.1.cumulativeDifficulty)) = some 1 ∧
      (((opened ()).run heavy rivalry).db.altBlocks.get second.header.prevId).map
        (·.1.cumulativeDifficulty) = some (1 + 2 ^ 127) := by
  decide +kernel

end

end Wownero

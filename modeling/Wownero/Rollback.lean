import Wownero.AltChains
import Wownero.History
import Wownero.Sample
/-!
# A refused reorganisation is a rollback

When a block of the alternative chain is refused, the switch pops what it had applied, reloads
the caches and runs the old blocks through the twelve steps again.  If everything handed in was
canonical, the clock did not go back and the verifier stands by its word, the main chain and the
caches are then what they were before the call, and of the alternative blocks only those from
the refused one on are gone.
-/

namespace Wownero

open Outcome

/-! ### What is asked of the blocks handed in -/

/-- The blocks handed in are canonical, and no coinbase has the id of another transaction: two
    of one id claim one height, and none is listed in a block. -/
structure WellHanded (C : Crypto) (handed : Handed → Prop) : Prop where
  canonical : ∀ b, handed b → b.Canonical C
  coinbaseHeights : ∀ b b' hash, handed b → handed b' → b.minerHash C = .ok hash →
    b'.minerHash C = .ok hash → genHeight b.blk.minerTx = genHeight b'.blk.minerTx
  coinbaseNotListed : ∀ b b' hash, handed b → handed b' → b.minerHash C = .ok hash →
    hash ∉ b'.blk.txHashes

theorem WellHanded.mono {C : Crypto} {handed handed' : Handed → Prop} (h : WellHanded C handed)
    (hsub : ∀ b, handed' b → handed b) : WellHanded C handed' where
  canonical b hb := h.canonical b (hsub b hb)
  coinbaseHeights b b' hash hb hb' := h.coinbaseHeights b b' hash (hsub b hb) (hsub b' hb')
  coinbaseNotListed b b' hash hb hb' := h.coinbaseNotListed b b' hash (hsub b hb) (hsub b' hb')

section

variable {σ : Type} {P : Params σ} {quiet : σ → Prop} {handed : Handed → Prop}

/-! ### The main chain -/

/-- The main chain grew from nothing by blocks that were handed in, none later than the clock. -/
structure Rooted (P : Params σ) (quiet : σ → Prop) (handed : Handed → Prop) (clock : Nat)
    (c : Chain σ) : Prop where
  inStep : InStep P c
  memory : quiet c.verifier
  history : ∃ blocks, Grown P quiet MainTables.empty blocks c.db.main ∧
    ∀ x ∈ blocks, handed x.1 ∧ x.2 ≤ clock

theorem Rooted.sound {clock : Nat} {c : Chain σ} (h : Rooted P quiet handed clock c) :
    Sound c.db.main := by
  obtain ⟨blocks, hgrown, _⟩ := h.history
  exact hgrown.sound sound_empty

theorem Rooted.later {clock clock' : Nat} {c : Chain σ} (h : Rooted P quiet handed clock c)
    (hle : clock ≤ clock') : Rooted P quiet handed clock' c := by
  obtain ⟨blocks, hgrown, hblocks⟩ := h.history
  refine ⟨h.inStep, h.memory, blocks, hgrown, ?_⟩
  intro x hx
  obtain ⟨hhanded, hclock⟩ := hblocks x hx
  exact ⟨hhanded, hclock.trans hle⟩

/-- Only the main tables, the caches and the verifier's memory matter to a rooted chain. -/
theorem Rooted.of_eq {clock : Nat} {c c' : Chain σ} (h : Rooted P quiet handed clock c)
    (hmain : c'.db.main = c.db.main) (hstate : c'.state = c.state) (hq : quiet c'.verifier) :
    Rooted P quiet handed clock c' :=
  ⟨h.inStep.of_eq hmain hstate, hq, hmain ▸ h.history⟩

/-- A block accepted on a rooted chain brings nothing the store has already. -/
theorem Rooted.newBlock (hgood : WellHanded P.crypto handed) {clock : Nat} {c c' : Chain σ}
    (h : Rooted P quiet handed clock c) {b : Handed} (hb : handed b) {now fees reward : Nat}
    {v : σ} (haccepted : Accepted P c b.blk b.blob b.txs now fees reward v c') :
    NewBlock P.crypto c.db.main b.blk b.txs := by
  obtain ⟨hhave, _, _, _, _, _, hcoinbase⟩ := prechecks_ok.mp haccepted.prechecks
  obtain ⟨id, hid, hnew⟩ := stepHaveIt_ok hhave
  have hgen := stepCoinbase_genHeight hcoinbase
  obtain ⟨_, htxs, _⟩ := checkTransactions_ok haccepted.transactions
  refine ⟨?_, ?_, keyImages_of_genHeight hgen, htxs⟩
  · intro id' hid'
    rw [hid] at hid'
    cases hid'
    exact hnew
  · intro hash hhash
    refine ⟨?_, hgood.coinbaseNotListed b b hash hb hb hhash⟩
    rw [← Option.not_isSome_iff_eq_none]
    intro hin
    obtain ⟨blocks, hgrown, hblocks⟩ := h.history
    obtain ⟨x, hx, hlisted | ⟨hminer, k, hk, hgenx⟩⟩ := hgrown.indices hin
    · exact hgood.coinbaseNotListed b x.1 hash hb (hblocks x hx).1 hhash hlisted
    · have heq := hgood.coinbaseHeights b x.1 hash hb (hblocks x hx).1 hhash hminer
      rw [hgen, hgenx, Option.some.injEq] at heq
      rw [Chain.height] at heq
      omega

/-- **A block on a rooted chain.**  An accepted one makes it grow; either way it stays rooted. -/
theorem addBlock_rooted (hsteady : Steady P quiet) (hgood : WellHanded P.crypto handed)
    {clock now : Nat} (hle : clock ≤ now) {c : Chain σ} (h : Rooted P quiet handed clock c)
    {b : Handed} (hb : handed b) {result : Except Rejection Added} {c' : Chain σ}
    (hout : Chain.addBlock P c b.blk b.blob b.txs now = (result, c')) :
    Rooted P quiet handed now c' ∧ c'.db.altBlocks = c.db.altBlocks ∧ c'.altTxs = c.altTxs ∧
      c'.orphanedTxs = c.orphanedTxs ∧
      (∀ added, result = .ok added → Grew P quiet c.db.main b now c'.db.main) ∧
      ∀ r, result = .error r → c'.db.main = c.db.main ∧ c'.state = c.state := by
  have hq := addBlock_quiet hsteady h.memory b.blk b.blob b.txs now
  have hin := addBlock_inStep h.inStep b.blk b.blob b.txs now
  rw [hout] at hq hin
  cases result with
  | error r =>
      obtain ⟨v, rfl⟩ := addBlock_error hout
      refine ⟨Rooted.later (Rooted.of_eq h rfl rfl hq) hle, rfl, rfl, rfl, ?_, fun _ _ => ⟨rfl, rfl⟩⟩
      intro added hadded
      cases hadded
  | ok added =>
      obtain ⟨_, fees, reward, v, haccepted⟩ := addBlock_ok hout
      have hgrew : Grew P quiet c.db.main b now c'.db.main :=
        ⟨hgood.canonical b hb, h.newBlock hgood hb haccepted,
          c, c', fees, reward, v, rfl, h.inStep.state, h.memory, haccepted, rfl⟩
      obtain ⟨blocks, hgrown, hblocks⟩ := h.history
      refine ⟨⟨hin, hq, (b, now) :: blocks, hgrown.block hgrew, ?_⟩, haccepted.altBlocks,
        haccepted.altTxs, haccepted.orphanedTxs, fun _ _ => hgrew, ?_⟩
      · intro x hx
        rcases List.mem_cons.mp hx with rfl | hx
        · exact ⟨hb, Nat.le_refl _⟩
        · obtain ⟨hh, hcl⟩ := hblocks x hx
          exact ⟨hh, hcl.trans hle⟩
      · intro r hr
        cases hr

/-- A rooted chain passed through every height below its own. -/
theorem Rooted.splitAt {clock : Nat} {c : Chain σ} (h : Rooted P quiet handed clock c)
    (k : Nat) : ∃ base newer, Sound base ∧ Grown P quiet base newer c.db.main ∧
      newer.length = c.height - k ∧ base.height = min k c.height ∧
      (∀ x ∈ newer, handed x.1 ∧ x.2 ≤ clock) ∧
      ∃ older, Grown P quiet MainTables.empty older base ∧ ∀ x ∈ older, handed x.1 ∧ x.2 ≤ clock := by
  obtain ⟨blocks, hgrown, hblocks⟩ := h.history
  have hlen : c.height = blocks.length := by
    rw [Chain.height, hgrown.height_eq sound_empty]
    exact Nat.zero_add _
  rw [← List.take_append_drop (c.height - k) blocks] at hgrown
  obtain ⟨base, holder, hnewer⟩ := hgrown.split
  have hs := holder.sound sound_empty
  refine ⟨base, blocks.take (c.height - k), hs, hnewer, ?_, ?_, ?_, blocks.drop (c.height - k),
    holder, ?_⟩
  · rw [List.length_take]
    omega
  · have hb := holder.height_eq sound_empty
    rw [List.length_drop] at hb
    have hz : MainTables.empty.height = 0 := rfl
    omega
  · exact fun x hx => hblocks x (List.mem_of_mem_take hx)
  · exact fun x hx => hblocks x (List.mem_of_mem_drop hx)

/-! ### The alternative blocks -/

/-- The alternative blocks are blocks that were handed in, with their transactions. -/
def AltsHanded (handed : Handed → Prop) (c : Chain σ) : Prop :=
  ∀ id data blob, c.db.altBlocks.get id = some (data, blob) →
    ∃ blk txs, Block.fromBlob blob = .ok blk ∧ handed ⟨blk, blob, txs⟩ ∧
      ∀ txs', c.altTxs.get id = some txs' → txs' = txs

theorem AltsHanded.of_eq {c c' : Chain σ} (h : AltsHanded handed c)
    (hblocks : c'.db.altBlocks = c.db.altBlocks) (htxs : c'.altTxs = c.altTxs) :
    AltsHanded handed c' := by
  unfold AltsHanded
  rw [hblocks, htxs]
  exact h

theorem AltsHanded.put {c : Chain σ} (h : AltsHanded handed c) {id : Hash256}
    {data : AltBlockData} {blk : Block} {blob : Blob} {txs : List (Transaction × Blob)}
    (hparse : Block.fromBlob blob = .ok blk) (hb : handed ⟨blk, blob, txs⟩) :
    AltsHanded handed
      { c with db := c.db.addAltBlock id data blob, altTxs := c.altTxs.put id txs } := by
  intro id' data' blob' hget
  simp only [Store.addAltBlock] at hget ⊢
  rw [Table.get_put] at hget
  split_ifs at hget with hid
  · cases hget
    refine ⟨blk, txs, hparse, hb, ?_⟩
    intro txs' htxs'
    rw [hid, Table.get_put_self, Option.some.injEq] at htxs'
    exact htxs'.symm
  · obtain ⟨blk', txs', hparse', hb', htxs'⟩ := h id' data' blob' hget
    refine ⟨blk', txs', hparse', hb', ?_⟩
    intro txs'' hget'
    rw [Table.get_put_of_ne _ hid] at hget'
    exact htxs' txs'' hget'

theorem AltsHanded.removeAlts {c : Chain σ} (h : AltsHanded handed c) (links : List AltLink) :
    AltsHanded handed (c.removeAlts links) := by
  intro id data blob hget
  obtain ⟨h₁, h₂⟩ := removeAlts_get links c id
  rw [h₁] at hget
  split_ifs at hget with hid
  rw [if_neg hid] at h₂
  rw [h₂]
  exact h id data blob hget

theorem AltsHanded.keepPopped (hgood : WellHanded P.crypto handed) {c : Chain σ}
    (h : AltsHanded handed c) (popped : List Popped)
    (hpopped : ∀ p ∈ popped, handed ⟨p.block, p.block.toBlob, p.txs⟩) :
    AltsHanded handed (c.keepPopped popped) := by
  unfold Chain.keepPopped
  induction popped generalizing c with
  | nil => exact h
  | cons p popped ih =>
      have hp := hpopped p List.mem_cons_self
      refine ih ?_ fun q hq => hpopped q (List.mem_cons_of_mem _ hq)
      exact h.put (hgood.canonical _ hp).retrievable.parses hp

/-- The transactions gathered for the alternative chain are those its blocks were handed in
    with. -/
theorem gatherBodies_handed (hgood : WellHanded P.crypto handed) {c : Chain σ}
    (halts : AltsHanded handed c) {links : List AltLink}
    {bodies : List (List (Transaction × Blob))} (h : gatherBodies c.altTxs links = .ok bodies)
    (hlinks : ∀ l ∈ links, c.db.altBlocks.get l.id = some (l.data, l.blob) ∧
      Block.fromBlob l.blob = .ok l.block) :
    bodies.length = links.length ∧
      ∀ p ∈ links.zip bodies, handed ⟨p.1.block, p.1.blob, p.2⟩ := by
  induction links generalizing bodies with
  | nil =>
      simp only [gatherBodies, Except.ok.injEq] at h
      subst h
      simp
  | cons l links ih =>
      obtain ⟨hget, hparse⟩ := hlinks l List.mem_cons_self
      obtain ⟨blk, txs, hparse', hb, htxs⟩ := halts l.id l.data l.blob hget
      rw [hparse] at hparse'
      cases hparse'
      have hrest : ∀ rest, gatherBodies c.altTxs links = .ok rest → rest.length = links.length ∧
          ∀ p ∈ links.zip rest, handed ⟨p.1.block, p.1.blob, p.2⟩ :=
        fun _ h => ih h fun l' hl' => hlinks l' (List.mem_cons_of_mem _ hl')
      unfold gatherBodies at h
      split at h
      · rename_i hashes txs' hfound
        simp only [bind_eq_ok, pure_eq_ok] at h
        obtain ⟨others, hothers, rfl⟩ := h
        obtain ⟨hlen, hall⟩ := hrest others hothers
        refine ⟨by simp [hlen], ?_⟩
        intro p hp
        rcases List.mem_cons.mp hp with rfl | hp
        · rw [htxs txs' hfound]
          exact hb
        · exact hall p hp
      · rename_i hfound hhashes
        simp only [bind_eq_ok, pure_eq_ok] at h
        obtain ⟨others, hothers, rfl⟩ := h
        obtain ⟨hlen, hall⟩ := hrest others hothers
        refine ⟨by simp [hlen], ?_⟩
        -- A block that lists no transactions was handed in with none.
        have hempty : txs = [] := by
          have hnamed := (hgood.canonical _ hb).retrievable.listed.named
          rw [hhashes] at hnamed
          exact List.map_eq_nil_iff.mp hnamed
        intro p hp
        rcases List.mem_cons.mp hp with rfl | hp
        · rw [hempty] at hb
          exact hb
        · exact hall p hp
      · cases h

/-! ### The switch -/

/-- Applying an alternative chain makes the store grow by the blocks that were accepted. -/
theorem applyAlt_rooted (hsteady : Steady P quiet) (hgood : WellHanded P.crypto handed)
    {now : Nat} {blocks : List (AltLink × List (Transaction × Blob))}
    (hblocks : ∀ p ∈ blocks, handed ⟨p.1.block, p.1.blob, p.2⟩) {c : Chain σ}
    (h : Rooted P quiet handed now c) (i : Nat) {refused : Option (Nat × Rejection)}
    {c' : Chain σ} (hout : Chain.applyAlt P now i blocks c = (refused, c')) :
    Rooted P quiet handed now c' ∧ c'.db.altBlocks = c.db.altBlocks ∧ c'.altTxs = c.altTxs ∧
      c'.orphanedTxs = c.orphanedTxs ∧ ∃ added, Grown P quiet c.db.main added c'.db.main ∧
        match refused with
        | none => added.length = blocks.length
        | some (j, _) => j = i + added.length ∧ added.length < blocks.length := by
  induction blocks generalizing c i with
  | nil =>
      cases hout
      exact ⟨h, rfl, rfl, rfl, [], .base, rfl⟩
  | cons p blocks ih =>
      obtain ⟨link, txs⟩ := p
      have hb := hblocks (link, txs) List.mem_cons_self
      unfold Chain.applyAlt at hout
      cases hadd : Chain.addBlock P c link.block link.blob txs now with
      | mk result c₁ =>
          obtain ⟨hrooted, ha, hx, ho, hgrew, hkeep⟩ :=
            addBlock_rooted hsteady hgood (Nat.le_refl now) h hb hadd
          rw [hadd] at hout
          cases result with
          | error r =>
              cases hout
              refine ⟨hrooted, ha, hx, ho, [], ?_, rfl, Nat.succ_pos _⟩
              rw [(hkeep r rfl).1]
              exact .base
          | ok added =>
              have hrest := ih (fun p hp => hblocks p (List.mem_cons_of_mem _ hp)) hrooted (i + 1) hout
              obtain ⟨hrooted', ha', hx', ho', others, hgrown, hcount⟩ := hrest
              have hfirst : Grown P quiet c.db.main [(⟨link.block, link.blob, txs⟩, now)] c₁.db.main :=
                .block .base (hgrew added rfl)
              refine ⟨hrooted', ha'.trans ha, hx'.trans hx, ho'.trans ho, _, hfirst.append hgrown, ?_⟩
              cases refused with
              | none => simp [hcount]
              | some failure =>
                  obtain ⟨hj, hlt⟩ := hcount
                  simp only [List.length_append, List.length_cons, List.length_nil]
                  omega

/-- What a switch does to a rooted chain. -/
inductive Switched (P : Params σ) (handed : Handed → Prop) (c : Chain σ) (chain : List AltLink)
    (split now : Nat) : Except Rejection Added → Chain σ → Prop
  /-- The transactions of an alternative block were not at hand. -/
  | missing (hash : Hash256) :
      Switched P handed c chain split now (.error ⟨.transactions, .missingTx hash⟩) c
  /-- An alternative block was refused, and everything was put back. -/
  | restored (i : Nat) (r : Rejection) (c₁ c' : Chain σ)
      (bodies : List (List (Transaction × Blob))) (gathered : gatherBodies c.altTxs chain = .ok bodies)
      (tip : c₁.height = min (split + 1) c.height)
      (refused : (Chain.applyAlt P now 0 (chain.zip bodies) c₁).1 = some (i, r))
      (inside : i < chain.length) (main : c'.db.main = c.db.main) (state : c'.state = c.state)
      (alts : c'.db.altBlocks = (c.removeAlts (chain.drop i)).db.altBlocks)
      (orphaned : c'.orphanedTxs = c.orphanedTxs) :
      Switched P handed c chain split now (.error r) c'
  /-- The alternative chain became the main chain. -/
  | switched (c₁ c₂ : Chain σ) (bodies : List (List (Transaction × Blob))) (popped : List Popped)
      (gathered : gatherBodies c.altTxs chain = .ok bodies)
      (tip : c₁.height = min (split + 1) c.height) (inStep : InStep P c₁)
      (records : c₁.db.main.records = c.db.main.records.take (split + 1))
      (infos : c.db.main.records = c₁.db.main.records ++ popped.map (·.info))
      (ids : ∀ p ∈ popped, p.block.blockId P.crypto.cnFastHash = some p.info.hash)
      (kept : ∀ p ∈ popped, handed ⟨p.block, p.block.toBlob, p.txs⟩)
      (alts : c₂.db.altBlocks = c.db.altBlocks)
      (applied : Chain.applyAlt P now 0 (chain.zip bodies) c₁ = (none, c₂)) :
      Switched P handed c chain split now (.ok (.reorg (split + chain.length) popped.length))
        (Chain.finishSwitch P chain popped c₂)

theorem Grown.records_prefix {base t : MainTables} {blocks : List (Handed × Nat)}
    (h : Grown P quiet base blocks t) (hs : Sound base) :
    ∃ later, t.records = base.records ++ later := by
  induction h with
  | base => exact ⟨[], (List.append_nil _).symm⟩
  | block older grew ih =>
      obtain ⟨later, hlater⟩ := ih
      obtain ⟨c, c', fees, reward, v, rfl, _, _, haccepted, rfl⟩ := grew.accepted
      obtain ⟨info, hadded, _⟩ := haccepted.added
      refine ⟨later ++ [info], ?_⟩
      rw [hadded.records_eq (older.sound hs).numbered, hlater, List.append_assoc]

theorem KeptBlocks.forall_handed {blocks : List (Handed × Nat)} {popped : List Popped}
    (h : KeptBlocks blocks popped) (hall : ∀ x ∈ blocks, handed x.1) :
    ∀ p ∈ popped, handed ⟨p.block, p.block.toBlob, p.txs⟩ := by
  intro p hp
  have hmem : (⟨p.block, p.block.toBlob, p.txs⟩ : Handed) ∈ blocks.reverse.map (·.1) := by
    rw [← h]
    exact List.mem_map_of_mem hp
  obtain ⟨x, hx, hxe⟩ := List.mem_map.mp hmem
  rw [← hxe]
  exact hall x (List.mem_reverse.mp hx)

/-- **The switch.**  On a rooted chain a switch goes through, or finds transactions missing, or
    puts everything back. -/
theorem switchToAlternative_rooted (hsteady : Steady P quiet)
    (hgood : WellHanded P.crypto handed) {now : Nat} {c : Chain σ}
    (h : Rooted P quiet handed now c) (halts : AltsHanded handed c) {chain : List AltLink}
    (hlinks : ∀ l ∈ chain, c.db.altBlocks.get l.id = some (l.data, l.blob) ∧
      Block.fromBlob l.blob = .ok l.block) {split : Nat} {result : Except Rejection Added}
    {c' : Chain σ} (hout : Chain.switchToAlternative P c chain split now = (result, c')) :
    Switched P handed c chain split now result c' ∧ Rooted P quiet handed now c' ∧
      AltsHanded handed c' := by
  unfold Chain.switchToAlternative at hout
  cases hgather : gatherBodies c.altTxs chain with
  | error r =>
      rw [hgather] at hout
      cases hout
      obtain ⟨hash, rfl⟩ := gatherBodies_error hgather
      exact ⟨.missing hash, h, halts⟩
  | ok bodies =>
      obtain ⟨hbodies, hhanded⟩ := gatherBodies_handed hgood halts hgather hlinks
      -- Down to the split.
      obtain ⟨base, newer, hs, hnewer, hnlen, hbheight, hnhanded, older, holder, hohanded⟩ :=
        h.splitAt (split + 1)
      have hbase : base.height = split + 1 ∨ newer = [] := by
        by_cases hle : split + 1 ≤ c.height
        · exact Or.inl (by omega)
        · exact Or.inr (List.eq_nil_of_length_eq_zero (by omega))
      obtain ⟨popped, c₁, hpop, hkept, hm₁, ha₁, hx₁, ho₁, hq₁, hinfos, hids⟩ :=
        popTo_grown hsteady split hs hbase (by omega) h.memory hnewer c.height (by omega) []
      rw [List.append_nil] at hpop
      have hn₁ : HasNumbered c₁ := by
        show c₁.db.main.Numbered
        rw [hm₁]
        exact hs.numbered
      simp only [hgather, hpop, reloadState_eq hn₁] at hout
      have hroot₁ : Rooted P quiet handed now
          { c₁ with state := stateOf P.network c₁.db.main.records } :=
        ⟨hn₁.reloaded, hq₁, older, hm₁ ▸ holder, hohanded⟩
      have hheight₁ : ({ c₁ with state := stateOf P.network c₁.db.main.records } : Chain σ).height =
          min (split + 1) c.height := by
        show c₁.db.main.height = _
        rw [hm₁, hbheight]
      -- Up the alternative chain.
      cases happly : Chain.applyAlt P now 0 (chain.zip bodies)
          { c₁ with state := stateOf P.network c₁.db.main.records } with
      | mk refused c₂ =>
          obtain ⟨hroot₂, ha₂, hx₂, ho₂, added, hgrown₂, hcount⟩ :=
            applyAlt_rooted hsteady hgood hhanded hroot₁ 0 happly
          rw [happly] at hout
          cases refused with
          | none =>
              cases hout
              have hkeptHanded := hkept.forall_handed fun x hx => (hnhanded x hx).1
              obtain ⟨hm, hst⟩ := finishSwitch_frame (P := P) chain popped c₂
              refine ⟨.switched _ c₂ bodies popped hgather hheight₁ hn₁.reloaded ?_
                (by show _ = c₁.db.main.records ++ _; rw [hm₁]; exact hinfos) hids hkeptHanded (ha₂.trans ha₁)
                happly, ?_, ?_⟩
              · show c₁.db.main.records = _
                rw [hm₁]
                obtain ⟨later, hlater⟩ := hnewer.records_prefix hs
                have hblen : base.records.length = min (split + 1) c.height := by
                  rw [hs.numbered.length_records, hbheight]
                have hclen : c.db.main.records.length = c.height := h.sound.numbered.length_records
                rw [hlater]
                rw [hlater, List.length_append] at hclen
                by_cases hle : split + 1 ≤ c.height
                · rw [List.take_append_of_le_length (by omega), List.take_of_length_le (by omega)]
                · have hnil : later = [] := List.eq_nil_of_length_eq_zero (by omega)
                  rw [hnil, List.append_nil, List.take_of_length_le (by omega)]
              · refine hroot₂.of_eq hm hst ?_
                rw [finishSwitch_verifier]
                exact hroot₂.memory
              · have hkeep : AltsHanded handed (c₂.keepPopped popped) := by
                  refine AltsHanded.keepPopped hgood ?_ popped ?_
                  · exact halts.of_eq (ha₂.trans ha₁) (hx₂.trans hx₁)
                  · exact hkeptHanded
                exact (hkeep.removeAlts chain).of_eq rfl rfl
          | some failure =>
              obtain ⟨i, r⟩ := failure
              obtain ⟨hi, hlt⟩ := hcount
              have hi' : i = added.length := by omega
              -- And back.
              obtain ⟨c₃, hdrop, hm₃, ha₃, hx₃, ho₃, hq₃⟩ :=
                dropBlocks_grown hsteady (hm₁.symm ▸ hs) hroot₂.memory hgrown₂
              have hm₃' : c₃.db.main = base := hm₃.trans hm₁
              have hn₃ : HasNumbered c₃ := by
                show c₃.db.main.Numbered
                rw [hm₃']
                exact hs.numbered
              obtain ⟨c₄, hput, hm₄, hin₄, ha₄, hx₄, ho₄, hq₄⟩ :=
                putBack_grown hsteady hnewer (fun x hx => (hnhanded x hx).2) hkept
                  (c := { c₃ with state := stateOf P.network c₃.db.main.records }) hm₃'
                  hn₃.reloaded hq₃
              simp only [Chain.restore, hi', hdrop, reloadState_eq hn₃, hput] at hout
              cases hout
              obtain ⟨hmr, hsr⟩ := removeAlts_frame (chain.drop added.length) c₄
              obtain ⟨hvr, hor⟩ := removeAlts_rest (chain.drop added.length) c₄
              have halt₄ : c₄.db.altBlocks = c.db.altBlocks :=
                ha₄.trans (ha₃.trans (ha₂.trans ha₁))
              have htxs₄ : c₄.altTxs = c.altTxs := hx₄.trans (hx₃.trans (hx₂.trans hx₁))
              have horph₄ : c₄.orphanedTxs = c.orphanedTxs := ho₄.trans (ho₃.trans (ho₂.trans ho₁))
              have hst₄ : c₄.state = c.state := by rw [hin₄.state, hm₄, h.inStep.state]
              have hlt' : added.length < chain.length := by
                rw [List.length_zip, hbodies, Nat.min_self] at hlt
                exact hlt
              refine ⟨.restored added.length r _ _ bodies hgather hheight₁ ?_ hlt' (hmr.trans hm₄)
                (hsr.trans hst₄) ?_ (hor.trans horph₄), ?_, ?_⟩
              · rw [happly, hi']
              · exact removeAlts_altBlocks_congr _ halt₄
              · exact h.of_eq (hmr.trans hm₄) (hsr.trans hst₄) (hvr.symm ▸ hq₄)
              · exact (halts.of_eq halt₄ htxs₄).removeAlts _

/-! ### Whole operations -/

/-- What a refusal may leave of the alternative blocks: all of them, or all and the block itself
    whose chain lacked transactions, or all but those from the refused one on. -/
inductive AltsLeft (P : Params σ) (c : Chain σ) (blk : Block) (blob : Blob) (now : Nat)
    (r : Rejection) (c' : Chain σ) : Prop
  | all (same : c'.db.altBlocks = c.db.altBlocks)
  | missing (hash id : Hash256) (data : AltBlockData) (why : r = ⟨.transactions, .missingTx hash⟩)
      (stored : c'.db.altBlocks = c.db.altBlocks.put id (data, blob))
  | suffix (links : List AltLink) (split i : Nat) (last : AltLink) (c₁ : Chain σ)
      (bodies : List (List (Transaction × Blob)))
      (walk : altChainTo c.db blk.header.prevId = .ok (some (links, split)))
      (new : last.block = blk ∧ c.db.altBlocks.get last.id = none)
      (refused : (Chain.applyAlt P now 0 ((links ++ [last]).zip bodies) c₁).1 = some (i, r))
      (inside : i ≤ links.length)
      (left : ∀ id, c'.db.altBlocks.get id =
        if id ∈ (links.drop i).map (·.id) then none else c.db.altBlocks.get id)

/-- **A block handed to a rooted chain** leaves a rooted chain; a refused one leaves the main
    chain and the caches as they were. -/
theorem handleBlock_rooted (hsteady : Steady P quiet) (hgood : WellHanded P.crypto handed)
    {clock now : Nat} (hle : clock ≤ now) {c : Chain σ} (h : Rooted P quiet handed clock c)
    (halts : AltsHanded handed c) {b : Handed} (hb : handed b)
    {result : Except Rejection Added} {c' : Chain σ}
    (hout : Chain.handleBlock P c b.blk b.blob b.txs now = (result, c')) :
    Rooted P quiet handed now c' ∧ AltsHanded handed c' ∧
      ∀ r, result = .error r → c'.db.main = c.db.main ∧ c'.state = c.state ∧
        AltsLeft P c b.blk b.blob now r c' := by
  rcases handleBlock_cases P c b.blk b.blob b.txs now with
    ⟨r, hcase⟩ | hcase | ⟨id, links, split, difficulty, data, hpassed, hcase⟩
  · rw [hcase] at hout
    cases hout
    exact ⟨h.later hle, halts, fun _ _ => ⟨rfl, rfl, .all rfl⟩⟩
  · rw [hcase] at hout
    obtain ⟨hrooted, ha, hx, _, _, hkeep⟩ := addBlock_rooted hsteady hgood hle h hb hout
    refine ⟨hrooted, halts.of_eq ha hx, fun r hr => ?_⟩
    obtain ⟨hm, hs⟩ := hkeep r hr
    exact ⟨hm, hs, .all ha⟩
  · rw [hcase, Chain.storeAlternative] at hout
    have hparse := (hgood.canonical b hb).retrievable.parses
    have hfree := hpassed.free
    -- The chain with the block stored beside it.
    have hroot₁ : Rooted P quiet handed now
        { c with db := c.db.addAltBlock id data b.blob, altTxs := c.altTxs.put id b.txs } :=
      Rooted.later (Rooted.of_eq h rfl rfl h.memory) hle
    have halts₁ : AltsHanded handed
        { c with db := c.db.addAltBlock id data b.blob, altTxs := c.altTxs.put id b.txs } :=
      halts.put hparse hb
    dsimp only at hout
    split_ifs at hout
    · cases hout
      exact ⟨hroot₁, halts₁, fun r hr => by cases hr⟩
    · have hlinks := hpassed.links_stored hparse
      obtain ⟨hswitched, hroot', halts'⟩ :=
        switchToAlternative_rooted hsteady hgood hroot₁ halts₁ hlinks hout
      refine ⟨hroot', halts', fun r hr => ?_⟩
      cases hswitched with
      | missing hash =>
          cases hr
          exact ⟨rfl, rfl, .missing hash id data rfl rfl⟩
      | restored i r' c₁ c'' bodies _ _ hrefused hinside hmain hstate hleft _ =>
          cases hr
          refine ⟨hmain, hstate, .suffix links split i ⟨id, b.blk, b.blob, data⟩ c₁ bodies
            hpassed.chain ⟨rfl, hfree⟩ hrefused ?_ ?_⟩
          · simpa [Nat.lt_succ_iff] using hinside
          · intro k
            have hi : i ≤ links.length := by simpa [Nat.lt_succ_iff] using hinside
            rw [hleft, (removeAlts_get _ _ k).1, List.drop_append_of_le_length hi, List.map_append,
              Store.addAltBlock, Table.get_put]
            by_cases hk : k = id
            · simp [hk, hfree]
            · simp [hk]
      | switched => cases hr

theorem popMany_rooted (hsteady : Steady P quiet) {clock : Nat} (n : Nat) {c : Chain σ}
    (hn : n ≤ c.height) (hnum : c.db.main.Numbered) (hq : quiet c.verifier)
    (hist : ∃ blocks, Grown P quiet MainTables.empty blocks c.db.main ∧
      ∀ x ∈ blocks, handed x.1 ∧ x.2 ≤ clock) :
    ∃ c', Chain.popMany P n c = (.ok (), c') ∧ c'.db.main.Numbered ∧ quiet c'.verifier ∧
      c'.db.altBlocks = c.db.altBlocks ∧ c'.altTxs = c.altTxs ∧
      ∃ blocks, Grown P quiet MainTables.empty blocks c'.db.main ∧
        ∀ x ∈ blocks, handed x.1 ∧ x.2 ≤ clock := by
  induction n generalizing c with
  | zero => exact ⟨c, rfl, hnum, hq, rfl, rfl, hist⟩
  | succ n ih =>
      obtain ⟨blocks, hgrown, hblocks⟩ := hist
      have hheight : c.height = blocks.length :=
        (hgrown.height_eq sound_empty).trans (Nat.zero_add _)
      generalize hm : c.db.main = m at hgrown
      cases hgrown with
      | base =>
          rw [List.length_nil] at hheight
          omega
      | @block blocks t _ b now older grew =>
          subst hm
          have hs := older.sound sound_empty
          obtain ⟨c₁, hpop, hmain, halt, htxs, _, hver⟩ := popBlock_grown hs grew
          have hq₁ : quiet c₁.verifier := by
            rw [hver]
            exact observed_quiet hsteady hq
          have hh₁ := grew.height_eq hs
          obtain ⟨c', hmany, h₁, h₂, h₃, h₄, h₅⟩ :=
            ih (c := { c₁ with
                orphanedTxs := c₁.orphanedTxs ++ (b.txs.map (·.1)).map withBlob })
              (by rw [Chain.height] at hn ⊢; simp only [hmain]; omega) (hmain ▸ hs.numbered) hq₁
              ⟨blocks, hmain ▸ older, fun x hx => hblocks x (List.mem_cons_of_mem _ hx)⟩
          refine ⟨c', ?_, h₁, h₂, h₃.trans halt, h₄.trans htxs, h₅⟩
          rw [Chain.popMany, hpop]
          exact hmany

/-! ### Runs -/

/-- The clock an operation reads. -/
def Action.clock : Action σ → Option Nat
  | .handleBlock _ _ _ now => some now
  | .addBlock _ _ _ now => some now
  | _ => none

/-- The clocks of a run, in order. -/
def clocks (actions : List (Action σ)) : List Nat := actions.filterMap Action.clock

/-- The blocks a run is handed. -/
def handedIn (actions : List (Action σ)) (b : Handed) : Prop :=
  ∃ now, Action.handleBlock b.blk b.blob b.txs now ∈ actions ∨
    Action.addBlock b.blk b.blob b.txs now ∈ actions

/-- The block an operation carries. -/
def Action.carried : Action σ → Option Handed
  | .handleBlock blk blob txs _ => some ⟨blk, blob, txs⟩
  | .addBlock blk blob txs _ => some ⟨blk, blob, txs⟩
  | _ => none

theorem handedIn_iff {actions : List (Action σ)} {b : Handed} :
    handedIn actions b ↔ b ∈ actions.filterMap Action.carried := by
  rw [List.mem_filterMap]
  constructor
  · rintro ⟨now, h | h⟩
    · exact ⟨_, h, rfl⟩
    · exact ⟨_, h, rfl⟩
  · rintro ⟨a, ha, hb⟩
    cases a with
    | handleBlock blk blob txs now =>
        cases hb
        exact ⟨now, Or.inl ha⟩
    | addBlock blk blob txs now =>
        cases hb
        exact ⟨now, Or.inr ha⟩
    | popBlocks n => cases hb
    | takeOrphanedTxs => cases hb
    | reopen v => cases hb
    | others v => cases hb

/-- Whether the blocks of a run are well handed in can be computed. -/
theorem wellHanded_iff {C : Crypto} {actions : List (Action σ)} :
    WellHanded C (handedIn actions) ↔
      ∀ b ∈ actions.filterMap Action.carried, b.Canonical C ∧
        ∀ b' ∈ actions.filterMap Action.carried,
          (b.minerHash C = b'.minerHash C → (b.minerHash C).isOk →
            genHeight b.blk.minerTx = genHeight b'.blk.minerTx) ∧
          b.minerHash C ∉ b'.blk.txHashes.map .ok := by
  simp only [← handedIn_iff]
  constructor
  · intro h b hb
    refine ⟨h.canonical b hb, fun b' hb' => ⟨?_, ?_⟩⟩
    · intro hsame hok
      cases hminer : b.minerHash C with
      | error e =>
          rw [hminer] at hok
          cases hok
      | ok hash => exact h.coinbaseHeights b b' hash hb hb' hminer (hsame ▸ hminer)
    · intro hlisted
      obtain ⟨hash, hmem, hminer⟩ := List.mem_map.mp hlisted
      exact h.coinbaseNotListed b b' hash hb hb' hminer.symm hmem
  · intro h
    refine ⟨fun b hb => (h b hb).1, ?_, ?_⟩
    · intro b b' hash hb hb' hminer hminer'
      exact ((h b hb).2 b' hb').1 (hminer.trans hminer'.symm) (by rw [hminer]; rfl)
    · intro b b' hash hb hb' hminer hlisted
      exact ((h b hb).2 b' hb').2 (List.mem_map.mpr ⟨hash, hlisted, hminer.symm⟩)

instance (C : Crypto) (actions : List (Action σ)) : Decidable (WellHanded C (handedIn actions)) :=
  decidable_of_iff _ wellHanded_iff.symm

/-- What is asked of a run: a clock that does not go back, canonical blocks, and a verifier left
    in a quiet memory by others. -/
structure Orderly (P : Params σ) (quiet : σ → Prop) (actions : List (Action σ)) : Prop where
  clock : (clocks actions).Pairwise (· ≤ ·)
  handed : WellHanded P.crypto (handedIn actions)
  memories : ∀ v, Action.others v ∈ actions ∨ Action.reopen v ∈ actions → quiet v

/-- One operation of an orderly run. -/
theorem act_rooted (hsteady : Steady P quiet) (hgood : WellHanded P.crypto handed) {clock : Nat}
    {c : Chain σ} (h : Rooted P quiet handed clock c) (halts : AltsHanded handed c)
    {a : Action σ} (hclock : ∀ now, a.clock = some now → clock ≤ now)
    (hhanded : ∀ b, handedIn [a] b → handed b)
    (hmemory : ∀ v, Action.others v = a ∨ Action.reopen v = a → quiet v) :
    Rooted P quiet handed (a.clock.getD clock) (c.act P a).2 ∧
      AltsHanded handed (c.act P a).2 := by
  cases a with
  | handleBlock blk blob txs now =>
      have hb : handed ⟨blk, blob, txs⟩ := hhanded _ ⟨now, Or.inl List.mem_cons_self⟩
      obtain ⟨hr, ha, _⟩ := handleBlock_rooted hsteady hgood (hclock now rfl) h halts hb rfl
      exact ⟨hr, ha⟩
  | addBlock blk blob txs now =>
      have hb : handed ⟨blk, blob, txs⟩ := hhanded _ ⟨now, Or.inr List.mem_cons_self⟩
      obtain ⟨hr, ha, hx, _⟩ := addBlock_rooted hsteady hgood (hclock now rfl) h hb rfl
      exact ⟨hr, halts.of_eq ha hx⟩
  | popBlocks n =>
      obtain ⟨c₁, hmany, hnum, hq, ha, hx, hist⟩ :=
        popMany_rooted hsteady (min n (c.height - 1)) (by omega) h.inStep.numbered h.memory h.history
      have hpop : Chain.popBlocks P c n = (.ok (min n (c.height - 1)),
          { c₁ with state := stateOf P.network c₁.db.main.records }) := by
        simp only [Chain.popBlocks, hmany, reloadState_eq hnum]
      simp only [Chain.act, hpop]
      exact ⟨⟨HasNumbered.reloaded hnum, hq, hist⟩, halts.of_eq ha hx⟩
  | takeOrphanedTxs => exact ⟨h.of_eq rfl rfl h.memory, halts.of_eq rfl rfl⟩
  | reopen v =>
      have hq := hmemory v (Or.inr rfl)
      have hnew : Chain.new P c.db v =
          .ok ⟨c.db, stateOf P.network c.db.main.records, .empty, [], v⟩ := by
        rw [Chain.new, loadState_eq P h.inStep.numbered]
        rfl
      simp only [Chain.act, hnew]
      refine ⟨⟨⟨h.inStep.numbered, rfl⟩, hq, h.history⟩, ?_⟩
      intro id data blob hget
      obtain ⟨blk, txs, hparse, hb, _⟩ := halts id data blob hget
      refine ⟨blk, txs, hparse, hb, ?_⟩
      intro txs' hnone
      cases hnone
  | others v => exact ⟨h.of_eq rfl rfl (hmemory v (Or.inl rfl)), halts.of_eq rfl rfl⟩

/-- The latest clock of a run. -/
def latest (actions : List (Action σ)) : Nat := (clocks actions).getLastD 0

theorem latest_snoc (actions : List (Action σ)) (a : Action σ) :
    latest (actions ++ [a]) = a.clock.getD (latest actions) := by
  unfold latest clocks
  rw [List.filterMap_append]
  cases hclock : a.clock with
  | none => simp [hclock]
  | some now => simp [hclock, List.getLastD_eq_getLast?]

theorem latest_le {actions : List (Action σ)} {a : Action σ}
    (hsorted : (clocks (actions ++ [a])).Pairwise (· ≤ ·)) {now : Nat} (h : a.clock = some now) :
    latest actions ≤ now := by
  unfold latest
  cases hlast : (clocks actions).getLast? with
  | none => simp [List.getLastD_eq_getLast?, hlast]
  | some last =>
      rw [List.getLastD_eq_getLast?, hlast, Option.getD_some]
      unfold clocks at hsorted hlast
      rw [List.filterMap_append, List.pairwise_append] at hsorted
      refine hsorted.2.2 last (List.mem_of_getLast? hlast) now ?_
      simp [h]

/-- **Orderly runs** from an empty store lead to rooted chains. -/
theorem run_rooted (hsteady : Steady P quiet) {v : σ} (hv : quiet v) {c₀ : Chain σ}
    (hopen : Chain.new P Store.empty v = .ok c₀) {all : List (Action σ)}
    (horderly : Orderly P quiet all) (actions : List (Action σ)) (hpre : actions <+: all) :
    Rooted P quiet (handedIn all) (latest actions) (c₀.run P actions) ∧
      AltsHanded (handedIn all) (c₀.run P actions) := by
  have halways : c₀.Along P (fun _ _ => True) actions := fun _ _ _ _ => trivial
  have hempty : Chain.new P Store.empty v =
      .ok ⟨Store.empty, stateOf P.network [], .empty, [], v⟩ := by
    rw [Chain.new, loadState_eq P (t := Store.empty.main) MainTables.numbered_empty]
    rfl
  rw [hempty] at hopen
  cases hopen
  refine run_invariant (I := fun before c => before <+: all → Rooted P quiet (handedIn all) (latest before) c ∧
      AltsHanded (handedIn all) c) ?_ ?_ actions halways hpre
  · intro _
    refine ⟨⟨⟨MainTables.numbered_empty, rfl⟩, hv, [], .base, ?_⟩, ?_⟩
    · intro x hx
      cases hx
    · intro id data blob hget
      cases hget
  · intro before a c hI _ hinitial
    obtain ⟨hrooted, halts⟩ := hI ((List.prefix_append before [a]).trans hinitial)
    have hmem : a ∈ all := hinitial.subset (by simp)
    rw [latest_snoc]
    refine act_rooted hsteady horderly.handed hrooted halts ?_ ?_ ?_
    · intro now hnow
      have hsub : (clocks (before ++ [a])).Sublist (clocks all) :=
        hinitial.sublist.filterMap _
      exact latest_le (horderly.clock.sublist hsub) hnow
    · rintro b ⟨now, hb | hb⟩
      · exact ⟨now, Or.inl ((List.mem_singleton.mp hb).symm ▸ hmem)⟩
      · exact ⟨now, Or.inr ((List.mem_singleton.mp hb).symm ▸ hmem)⟩
    · rintro v' (rfl | rfl)
      · exact horderly.memories v' (Or.inl hmem)
      · exact horderly.memories v' (Or.inr hmem)

/-- **A refused reorganisation is a rollback.**  In an orderly run from an empty store, a block
    that `handle_block` refuses leaves the main chain and the caches as they were, whatever the
    switch had popped and applied in between; of the alternative blocks only those from the
    refused one on are gone. -/
theorem refused_block_rolls_back (P : Params σ) (quiet : σ → Prop) (hsteady : Steady P quiet)
    {v : σ} (hv : quiet v) {c₀ : Chain σ} (hopen : Chain.new P Store.empty v = .ok c₀)
    (actions : List (Action σ)) (blk : Block) (blob : Blob) (txs : List (Transaction × Blob))
    (now : Nat)
    (horderly : Orderly P quiet (actions ++ [.handleBlock blk blob txs now])) (r : Rejection)
    (hrefused : ((c₀.run P actions).handleBlock P blk blob txs now).1 = .error r) :
    ((c₀.run P actions).handleBlock P blk blob txs now).2.db.main = (c₀.run P actions).db.main ∧
      ((c₀.run P actions).handleBlock P blk blob txs now).2.state = (c₀.run P actions).state ∧
      AltsLeft P (c₀.run P actions) blk blob now r
        ((c₀.run P actions).handleBlock P blk blob txs now).2 := by
  obtain ⟨hrooted, halts⟩ :=
    run_rooted hsteady hv hopen horderly actions (List.prefix_append _ _)
  have hle : latest actions ≤ now := latest_le horderly.clock rfl
  have hb : handedIn (actions ++ [.handleBlock blk blob txs now]) ⟨blk, blob, txs⟩ :=
    ⟨now, Or.inl (by simp)⟩
  obtain ⟨_, _, hkeep⟩ :=
    handleBlock_rooted hsteady horderly.handed hle hrooted halts hb rfl
  exact hkeep r hrefused

end

section

open Sample

/-- The switch to a greedy block is rolled back. -/
theorem refused_block_rolls_back_fork :
    (((opened ()).run bare (fork first.toBlob)).handleBlock bare greedy greedy.toBlob [] clock).1 =
        .error ⟨.coinbaseAmount, .minerReward .overspend⟩ ∧
      (((opened ()).run bare (fork first.toBlob)).handleBlock bare greedy greedy.toBlob []
        clock).2.db.main = ((opened ()).run bare (fork first.toBlob)).db.main := by
  have hrefused : (((opened ()).run bare (fork first.toBlob)).handleBlock bare greedy
      greedy.toBlob [] clock).1 = .error ⟨.coinbaseAmount, .minerReward .overspend⟩ := by
    decide +kernel
  refine ⟨hrefused, ?_⟩
  refine (refused_block_rolls_back bare (fun _ => True) (steady_of_none rfl) trivial
    (new_empty bare ()) _ _ _ _ _ ⟨?_, ?_, fun _ _ => trivial⟩ _ hrefused).1
  · decide
  · decide +kernel

/-- A byte after the end of a block is lost when the block is put back. -/
theorem trailing_byte_not_rolled_back :
    Block.fromBlob (first.toBlob ++ [0]) = .ok first ∧
      (((opened ()).run bare (fork (first.toBlob ++ [0]))).handleBlock bare greedy greedy.toBlob []
        clock).1 = .error ⟨.coinbaseAmount, .minerReward .overspend⟩ ∧
      (((opened ()).run bare (fork (first.toBlob ++ [0]))).handleBlock bare greedy greedy.toBlob []
        clock).2.db.main ≠ ((opened ()).run bare (fork (first.toBlob ++ [0]))).db.main := by
  decide +kernel

end

end Wownero

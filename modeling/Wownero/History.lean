import Wownero.Caches
import Wownero.Validation
/-!
# The history of a chain

A store that grew by accepted blocks shrinks by pops through exactly the stores it grew through,
and grows again, at any later time, through the same ones.  `Grown` relates a store to one it
grew from; a store grown from the empty one has a whole history.

Blocks are asked to be canonical here: their bytes, and those of their transactions, parse to
what was handed in and are written back unchanged.  The undo path keeps no bytes of its own.
-/

namespace Wownero

open Outcome

/-- A block as it is handed in. -/
structure Handed where
  blk : Block
  blob : Blob
  txs : List (Transaction × Blob)

/-- The bytes are the only serialisation of what was handed in. -/
structure Handed.Canonical (C : Crypto) (b : Handed) : Prop where
  retrievable : Retrievable C b.blk b.blob b.txs
  writes : b.blk.toBlob = b.blob
  txsWrite : ∀ p ∈ b.txs, p.1.write = p.2

instance (C : Crypto) (b : Handed) : Decidable (b.Canonical C) :=
  decidable_of_iff
    ((Block.fromBlob b.blob = .ok b.blk ∧
        Transaction.fromBlob b.blk.minerTx.write = .ok b.blk.minerTx ∧
        (∀ p ∈ b.txs, Transaction.fromBlob p.2 = .ok p.1) ∧
        b.txs.map (fun p => storedTxHash C p.1 p.2) = b.blk.txHashes.map .ok) ∧
      b.blk.toBlob = b.blob ∧ ∀ p ∈ b.txs, p.1.write = p.2)
    ⟨fun ⟨⟨h₁, h₂, h₃, h₄⟩, h₅, h₆⟩ => ⟨⟨h₁, h₂, h₃, h₄⟩, h₅, h₆⟩,
      fun ⟨⟨h₁, h₂, h₃, h₄⟩, h₅, h₆⟩ => ⟨⟨h₁, h₂, h₃, h₄⟩, h₅, h₆⟩⟩

theorem Handed.Canonical.withBlob_txs {C : Crypto} {b : Handed} (h : b.Canonical C) :
    (b.txs.map (·.1)).map withBlob = b.txs := by
  rw [List.map_map]
  refine (List.map_congr_left fun p hp => ?_).trans (List.map_id _)
  have hwrite := h.txsWrite p hp
  have hparse := h.retrievable.listed.parses p hp
  simp only [Function.comp, withBlob, hwrite, hparse, id]

section

variable {σ : Type}

/-- A block was accepted on one store at a clock, and left another. -/
structure Grew (P : Params σ) (quiet : σ → Prop) (t : MainTables) (b : Handed) (now : Nat)
    (t' : MainTables) : Prop where
  canonical : b.Canonical P.crypto
  new : NewBlock P.crypto t b.blk b.txs
  accepted : ∃ c c' fees reward v, c.db.main = t ∧ c.state = stateOf P.network t.records ∧
    quiet c.verifier ∧ Accepted P c b.blk b.blob b.txs now fees reward v c' ∧ c'.db.main = t'

/-- One store grew from another by these blocks, newest first. -/
inductive Grown (P : Params σ) (quiet : σ → Prop) (base : MainTables) :
    List (Handed × Nat) → MainTables → Prop
  | base : Grown P quiet base [] base
  | block {blocks : List (Handed × Nat)} {t t' : MainTables} {b : Handed} {now : Nat}
      (older : Grown P quiet base blocks t) (grew : Grew P quiet t b now t') :
      Grown P quiet base ((b, now) :: blocks) t'

variable {P : Params σ} {quiet : σ → Prop} {base t t' : MainTables}

/-! ### Growing and shrinking -/

theorem Grew.popped {b : Handed} {now : Nat} (h : Grew P quiet t b now t') (hs : Sound t) :
    Sound t' ∧ t'.popBlock P.crypto = .ok ((b.blk, b.txs.map (·.1)), t) := by
  obtain ⟨c, c', fees, reward, v, rfl, _, _, haccepted, rfl⟩ := h.accepted
  exact popBlock_addBlock haccepted.main hs h.canonical.retrievable h.new

theorem Grew.added {b : Handed} {now : Nat} (h : Grew P quiet t b now t') :
    ∃ info, AddedBlock P.crypto t b.blk b.blob info t' := by
  obtain ⟨c, c', fees, reward, v, rfl, _, _, haccepted, rfl⟩ := h.accepted
  obtain ⟨info, hadded, _⟩ := haccepted.added
  exact ⟨info, hadded⟩

theorem Grew.height_eq {b : Handed} {now : Nat} (h : Grew P quiet t b now t') (hs : Sound t) :
    t'.height = t.height + 1 := by
  obtain ⟨info, hadded⟩ := h.added
  exact hadded.height_eq hs.numbered

theorem Grown.sound {blocks : List (Handed × Nat)} (h : Grown P quiet base blocks t)
    (hs : Sound base) : Sound t := by
  induction h with
  | base => exact hs
  | block _ grew ih => exact (grew.popped ih).1

theorem Grown.height_eq {blocks : List (Handed × Nat)} (h : Grown P quiet base blocks t)
    (hs : Sound base) : t.height = base.height + blocks.length := by
  induction h with
  | base => rfl
  | block older grew ih =>
      rw [grew.height_eq (older.sound hs), ih, List.length_cons, Nat.add_assoc]

/-- A store that grew by two lists of blocks passed through the store between them. -/
theorem Grown.split {newer older : List (Handed × Nat)}
    (h : Grown P quiet base (newer ++ older) t) :
    ∃ mid, Grown P quiet base older mid ∧ Grown P quiet mid newer t := by
  induction newer generalizing t with
  | nil => exact ⟨t, h, .base⟩
  | cons x newer ih =>
      cases h with
      | block hrest grew =>
          obtain ⟨mid, h₁, h₂⟩ := ih hrest
          exact ⟨mid, h₁, .block h₂ grew⟩

theorem Grown.append {newer older : List (Handed × Nat)} {mid : MainTables}
    (h₁ : Grown P quiet base older mid) (h₂ : Grown P quiet mid newer t) :
    Grown P quiet base (newer ++ older) t := by
  induction h₂ with
  | base => exact h₁
  | block _ grew ih => exact .block ih grew

/-! ### Pops -/

/-- A pop of the chain, on a store that has grown. -/
theorem popBlock_grown {c : Chain σ} {b : Handed} {now : Nat} (hs : Sound t)
    (h : Grew P quiet t b now c.db.main) :
    ∃ c', Chain.popBlock P c = .ok ((b.blk, b.txs.map (·.1)), c') ∧ c'.db.main = t ∧
      c'.db.altBlocks = c.db.altBlocks ∧ c'.altTxs = c.altTxs ∧ c'.orphanedTxs = c.orphanedTxs ∧
      c'.verifier = ({ c with db := { c.db with main := t } }.observed P).verifier := by
  obtain ⟨_, hpop⟩ := h.popped hs
  refine ⟨Chain.observed P { c with db := { c.db with main := t } }, ?_, ?_, ?_, ?_, ?_, rfl⟩
  · rw [Chain.popBlock, hpop]
  all_goals simp

/-- Dropping the blocks a store grew by leads back to where it grew from. -/
theorem dropBlocks_grown (hsteady : Steady P quiet) {blocks : List (Handed × Nat)}
    (hs : Sound base) {c : Chain σ} (hquiet : quiet c.verifier)
    (h : Grown P quiet base blocks c.db.main) :
    ∃ c', Chain.dropBlocks P blocks.length c = (.ok (), c') ∧ c'.db.main = base ∧
      c'.db.altBlocks = c.db.altBlocks ∧ c'.altTxs = c.altTxs ∧
      c'.orphanedTxs = c.orphanedTxs ∧ quiet c'.verifier := by
  induction blocks generalizing c with
  | nil =>
      generalize hm : c.db.main = m at h
      cases h
      exact ⟨c, rfl, hm, rfl, rfl, rfl, hquiet⟩
  | cons x blocks ih =>
      obtain ⟨b, now⟩ := x
      generalize hm : c.db.main = m at h
      cases h with
      | block older grew =>
          rename_i t
          subst hm
          obtain ⟨c₁, hpop, hmain, halt, htxs, horph, hver⟩ := popBlock_grown (older.sound hs) grew
          have hq : quiet c₁.verifier := by
            rw [hver]
            exact observed_quiet hsteady hquiet
          obtain ⟨c₂, hdrop, h₁, h₂, h₃, h₄, h₅⟩ := ih hq (hmain ▸ older)
          refine ⟨c₂, ?_, h₁, h₂.trans halt, h₃.trans htxs, h₄.trans horph, h₅⟩
          rw [List.length_cons, Chain.dropBlocks, hpop]
          exact hdrop

/-! ### Putting blocks back -/

/-- What a switch keeps of the blocks it popped: as they were handed in. -/
def KeptBlocks (blocks : List (Handed × Nat)) (popped : List Popped) : Prop :=
  popped.map (fun p => (⟨p.block, p.block.toBlob, p.txs⟩ : Handed)) =
    blocks.reverse.map (·.1)

theorem putBack_append (now : Nat) (first second : List Popped) (c : Chain σ) :
    Chain.putBack P now (first ++ second) c =
      match Chain.putBack P now first c with
      | (.ok (), c') => Chain.putBack P now second c'
      | (.error r, c') => (.error r, c') := by
  induction first generalizing c with
  | nil => rfl
  | cons p first ih =>
      simp only [List.cons_append, Chain.putBack]
      cases Chain.addBlock P c p.block p.block.toBlob p.txs now with
      | mk result c₁ =>
          cases result with
          | ok added => exact ih c₁
          | error r => rfl

/-- A block a store grew by, added to that store again. -/
theorem addBlock_regrown (hsteady : Steady P quiet) {b : Handed} {now now' : Nat}
    (h : Grew P quiet t b now t') (hle : now ≤ now') {c : Chain σ} (hmain : c.db.main = t)
    (hstate : c.state = stateOf P.network t.records) (hquiet : quiet c.verifier) :
    ∃ added c', Chain.addBlock P c b.blk b.blob b.txs now' = (.ok added, c') ∧
      c'.db.main = t' ∧ c'.db.altBlocks = c.db.altBlocks ∧ c'.altTxs = c.altTxs ∧
      c'.orphanedTxs = c.orphanedTxs ∧ quiet c'.verifier := by
  obtain ⟨c₀, c₁, fees, reward, v, hmain₀, hstate₀, hquiet₀, haccepted, hmain₁⟩ := h.accepted
  obtain ⟨added, c', hadd, hm, _⟩ := addBlock_again hsteady haccepted (hmain.trans hmain₀.symm)
    (hstate.trans hstate₀.symm) hquiet₀ hquiet hle
  obtain ⟨_, fees', reward', v', haccepted'⟩ := addBlock_ok hadd
  have hq := addBlock_quiet hsteady hquiet b.blk b.blob b.txs now'
  rw [hadd] at hq
  exact ⟨added, c', hadd, hm.trans hmain₁, haccepted'.altBlocks, haccepted'.altTxs,
    haccepted'.orphanedTxs, hq⟩

/-- **Putting back.**  The blocks a store grew by, put back onto the store it grew from, lead to
    the same store again. -/
theorem putBack_grown (hsteady : Steady P quiet) {blocks : List (Handed × Nat)}
    (h : Grown P quiet base blocks t) {now : Nat}
    (hclock : ∀ x ∈ blocks, x.2 ≤ now) {popped : List Popped} (hkept : KeptBlocks blocks popped)
    {c : Chain σ} (hmain : c.db.main = base) (hc : InStep P c) (hquiet : quiet c.verifier) :
    ∃ c', Chain.putBack P now popped c = (.ok (), c') ∧ c'.db.main = t ∧ InStep P c' ∧
      c'.db.altBlocks = c.db.altBlocks ∧ c'.altTxs = c.altTxs ∧
      c'.orphanedTxs = c.orphanedTxs ∧ quiet c'.verifier := by
  induction h generalizing popped with
  | base =>
      have hnil : popped = [] := by simpa [KeptBlocks] using hkept
      subst hnil
      exact ⟨c, rfl, hmain, hc, rfl, rfl, rfl, hquiet⟩
  | @block blocks t t' b at₀ older grew ih =>
      -- The newest block is the last one put back.
      have hsplit : ∃ front p, popped = front ++ [p] ∧ KeptBlocks blocks front ∧
          (⟨p.block, p.block.toBlob, p.txs⟩ : Handed) = b := by
        unfold KeptBlocks at hkept
        rw [List.reverse_cons, List.map_append] at hkept
        obtain ⟨front, last, hpopped, hfront, hlast⟩ := List.map_eq_append_iff.mp hkept
        obtain ⟨p, hp, hpe⟩ := List.map_eq_singleton_iff.mp hlast
        exact ⟨front, p, by rw [hpopped, hp], hfront, hpe⟩
      obtain ⟨front, p, rfl, hfront, hb⟩ := hsplit
      obtain ⟨c₁, hput, hm₁, hin₁, ha₁, hx₁, ho₁, hq₁⟩ :=
        ih (fun x hx => hclock x (List.mem_cons_of_mem _ hx)) hfront
      have hstate₁ : c₁.state = stateOf P.network t.records := by rw [hin₁.state, hm₁]
      obtain ⟨added, c₂, hadd, hm₂, ha₂, hx₂, ho₂, hq₂⟩ :=
        addBlock_regrown hsteady grew (hclock _ List.mem_cons_self) hm₁ hstate₁ hq₁
      have hin₂ := addBlock_inStep hin₁ b.blk b.blob b.txs now
      rw [hadd] at hin₂
      refine ⟨c₂, ?_, hm₂, hin₂, ha₂.trans ha₁, hx₂.trans hx₁, ho₂.trans ho₁, hq₂⟩
      rw [putBack_append, hput]
      subst hb
      simp only [Chain.putBack, hadd]

/-! ### Popping down to the split -/

/-- **Popping down.**  The switch pops exactly the blocks above the split, keeps them as they
    were handed in, and ends on the store they grew from. -/
theorem popTo_grown (hsteady : Steady P quiet) (split : Nat) {blocks : List (Handed × Nat)}
    (hs : Sound base) (hbase : base.height = split + 1 ∨ blocks = []) 
    (hlow : base.height ≤ split + 1) {c : Chain σ} (hquiet : quiet c.verifier)
    (h : Grown P quiet base blocks c.db.main) (fuel : Nat) (hfuel : blocks.length ≤ fuel)
    (acc : List Popped) :
    ∃ popped c', Chain.popTo P split fuel c acc = (.ok (popped ++ acc), c') ∧
      KeptBlocks blocks popped ∧ c'.db.main = base ∧ c'.db.altBlocks = c.db.altBlocks ∧
      c'.altTxs = c.altTxs ∧ c'.orphanedTxs = c.orphanedTxs ∧ quiet c'.verifier ∧
      c.db.main.records = base.records ++ popped.map (·.info) ∧
      ∀ p ∈ popped, p.block.blockId P.crypto.cnFastHash = some p.info.hash := by
  induction blocks generalizing c fuel acc with
  | nil =>
      generalize hm : c.db.main = m at h
      cases h
      refine ⟨[], c, ?_, rfl, hm, rfl, rfl, rfl, hquiet, by simp, by simp⟩
      cases fuel with
      | zero => rfl
      | succ fuel =>
          have hheight : ¬c.height > split + 1 := by
            rw [Chain.height, hm]
            omega
          rw [Chain.popTo, if_neg hheight]
          rfl
  | cons x blocks ih =>
      obtain ⟨b, now⟩ := x
      have hheight := h.height_eq hs
      generalize hm : c.db.main = m at h
      cases h with
      | block older grew =>
          subst hm
          cases fuel with
          | zero => simp at hfuel
          | succ fuel =>
              have hbase' : base.height = split + 1 := by simpa using hbase
              have habove : c.height > split + 1 := by
                rw [Chain.height, hheight, List.length_cons]
                omega
              obtain ⟨c₁, hpop, hmain, halt, htxs, horph, hver⟩ :=
                popBlock_grown (older.sound hs) grew
              obtain ⟨info, hadded⟩ := grew.added
              have hrec := hadded.records_eq (older.sound hs).numbered
              have hinfo : c.db.main.blockInfo.get (c.height - 1) = some info := by
                rw [hadded.get_info (older.sound hs).numbered, Chain.height,
                  grew.height_eq (older.sound hs), Nat.add_sub_cancel, if_pos rfl]
              have hq : quiet c₁.verifier := by
                rw [hver]
                exact observed_quiet hsteady hquiet
              have hlen : blocks.length ≤ fuel := by simpa using hfuel
              obtain ⟨popped, c₂, hto, hkept, h₁, h₂, h₃, h₄, h₅, h₆, h₇⟩ :=
                ih (Or.inl hbase') hq (hmain ▸ older) fuel hlen
                  (⟨info, b.blk, (b.txs.map (·.1)).map withBlob⟩ :: acc)
              refine ⟨popped ++ [⟨info, b.blk, (b.txs.map (·.1)).map withBlob⟩], c₂, ?_, ?_, h₁,
                h₂.trans halt, h₃.trans htxs, h₄.trans horph, h₅, ?_, ?_⟩
              · rw [Chain.popTo, if_pos habove, MainTables.getBlockInfo, hinfo]
                simp only [MainTables.orNotFound, hpop, hto, List.append_assoc,
                  List.singleton_append]
              · unfold KeptBlocks at hkept ⊢
                rw [List.map_append, List.reverse_cons, List.map_append, hkept,
                  grew.canonical.withBlob_txs]
                simp [grew.canonical.writes]
              · rw [hmain] at h₆
                rw [hrec, h₆, List.map_append, List.append_assoc]
                rfl
              · intro p hp
                rcases List.mem_append.mp hp with hp | hp
                · exact h₇ p hp
                · rw [List.mem_singleton.mp hp]
                  exact hadded.hash

/-! ### Which transactions the store holds -/

theorem addTransactions_txIndices {C : Crypto} {height : Nat} {txs : List (Transaction × Blob)}
    {hashes : List Hash256} {t t' : MainTables} (h : addTransactions C height txs t = .ok t')
    (hlisted : ListedAs C hashes txs) {hash : Hash256} (hin : (t'.txIndices.get hash).isSome) :
    (t.txIndices.get hash).isSome ∨ hash ∈ hashes := by
  induction txs generalizing t hashes with
  | nil =>
      simp only [addTransactions, Except.ok.injEq] at h
      subst h
      exact Or.inl hin
  | cons p txs ih =>
      obtain ⟨tx, blob⟩ := p
      cases hashes with
      | nil => exact absurd hlisted.named (by simp)
      | cons first hashes =>
          simp only [addTransactions, bind_eq_ok] at h
          obtain ⟨t₁, h₁, h₂⟩ := h
          obtain ⟨txHash, stored, indices, t₀, hadded⟩ := addTransaction_added h₁
          obtain ⟨hhead, htail⟩ := List.cons.inj hlisted.named
          have heq : txHash = first := Except.ok.inj (hadded.hash.symm.trans hhead)
          have hlisted' : ListedAs C hashes txs :=
            ⟨fun p hp => hlisted.parses p (List.mem_cons_of_mem _ hp), htail⟩
          rcases ih h₂ hlisted' with hold | hmem
          · by_cases hhash : hash = txHash
            · exact Or.inr (by rw [hhash, heq]; exact List.mem_cons_self)
            · rw [hadded.txIndices, get_txIndices_add_of_ne hhash] at hold
              exact Or.inl hold
          · exact Or.inr (List.mem_cons_of_mem _ hmem)

/-- The hash a block's coinbase is stored under. -/
def Handed.minerHash (C : Crypto) (b : Handed) : Except DbError Hash256 :=
  storedTxHash C b.blk.minerTx b.blk.minerTx.write

theorem Grew.txIndices {b : Handed} {now : Nat} (h : Grew P quiet t b now t') {hash : Hash256}
    (hin : (t'.txIndices.get hash).isSome) :
    (t.txIndices.get hash).isSome ∨ b.minerHash P.crypto = .ok hash ∨ hash ∈ b.blk.txHashes := by
  obtain ⟨c, c', fees, reward, v, rfl, _, _, haccepted, rfl⟩ := h.accepted
  obtain ⟨info, t₁, t₂, _, h₁, h₂, htables⟩ := addBlock_steps haccepted.main
  rw [htables] at hin
  obtain ⟨txHash, stored, indices, t₀, hminer⟩ := addTransaction_added h₁
  rcases addTransactions_txIndices h₂ h.canonical.retrievable.listed hin with hold | hmem
  · by_cases hhash : hash = txHash
    · exact Or.inr (Or.inl (by rw [hhash]; exact hminer.hash))
    · rw [hminer.txIndices, get_txIndices_add_of_ne hhash] at hold
      exact Or.inl hold
  · exact Or.inr (Or.inr hmem)

theorem Grew.genHeight_eq {b : Handed} {now : Nat} (h : Grew P quiet t b now t') :
    genHeight b.blk.minerTx = some t.height := by
  obtain ⟨c, c', fees, reward, v, rfl, _, _, haccepted, rfl⟩ := h.accepted
  obtain ⟨_, _, _, _, _, _, hcoinbase⟩ := prechecks_ok.mp haccepted.prechecks
  exact stepCoinbase_genHeight hcoinbase

/-- Every transaction of a grown store is a coinbase of a height below, or listed in a block. -/
theorem Grown.indices {blocks : List (Handed × Nat)}
    (h : Grown P quiet MainTables.empty blocks t) {hash : Hash256}
    (hin : (t.txIndices.get hash).isSome) :
    ∃ x ∈ blocks, hash ∈ x.1.blk.txHashes ∨
      x.1.minerHash P.crypto = .ok hash ∧
        ∃ k, k < t.height ∧ genHeight x.1.blk.minerTx = some k := by
  induction h with
  | base => simp [MainTables.empty] at hin
  | @block blocks t t' b now older grew ih =>
      have hheight := grew.height_eq (older.sound sound_empty)
      rcases grew.txIndices hin with hold | hminer | hlisted
      · obtain ⟨x, hx, hcase⟩ := ih hold
        refine ⟨x, List.mem_cons_of_mem _ hx, hcase.imp id ?_⟩
        rintro ⟨hhash, k, hk, hgen⟩
        exact ⟨hhash, k, by omega, hgen⟩
      · exact ⟨(b, now), List.mem_cons_self, Or.inr ⟨hminer, t.height, by omega, grew.genHeight_eq⟩⟩
      · exact ⟨(b, now), List.mem_cons_self, Or.inl hlisted⟩

end

end Wownero

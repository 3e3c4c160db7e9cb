import Wownero.RctCodec
import Wownero.Sample
import Wownero.StoreInverse
/-!
# How exactly popping undoes adding

A block carries its coinbase within its own bytes, where it is read without being expanded, while
the coinbase is taken out of the store as any transaction is, parsed again and expanded.  The two
agree on every other transaction: the id it is found under, the outputs it is filed with and the
key images it spends are worked out from bytes that read back as they were.  So what decides
whether a block can be popped is whether its coinbase expands, over whatever store it was put on.
-/

namespace Wownero

open Outcome Wownero.Archive

variable {C : Crypto}

/-! ### The coinbase read back -/

/-- The coinbase of a block is read as it stands. -/
theorem Block.fromBlob_miner {blob : Blob} {blk : Block} (h : Block.fromBlob blob = .ok blk) :
    ∃ r r', Transaction.read r = .ok (blk.minerTx, r') := by
  simp only [Block.fromBlob, parse, bind_eq_ok, pure_eq_ok] at h
  obtain ⟨⟨parsed, left⟩, hread, rfl⟩ := h
  unfold Block.read at hread
  obtain ⟨header, r₁, _, hread⟩ := run_bind_eq_ok.mp hread
  obtain ⟨minerTx, r₂, hminer, hread⟩ := run_bind_eq_ok.mp hread
  have hbehind : parsed.minerTx = minerTx := by
    refine Finds.found (Q := fun blk => blk.minerTx = minerTx) hread ?_
    refine (finds_any _).bind fun n _ => finds_guard fun _ => ?_
    refine (finds_any _).bind fun left _ => finds_guard fun _ => ?_
    exact (finds_any _).bind fun hashes _ => finds_pure rfl
  rw [hbehind]
  exact ⟨r₁, r₂, hminer⟩

/-- What was read is parsed again from the bytes it is written as, if it expands. -/
theorem fromBlob_write {r r' : Reader} {tx : Transaction} (h : Transaction.read r = .ok (tx, r')) :
    Transaction.fromBlob tx.write = tx.expand >>= fun _ => .ok tx.measured := by
  have hread := Transaction.reread h [] 0
  rw [List.append_nil] at hread
  have hparse : parse Transaction.read tx.write = .ok tx.measured := by
    unfold parse Reader.new
    rw [hread]
    rfl
  unfold Transaction.fromBlob
  rw [hparse]
  rfl

/-- Where its two regions end is nothing the tables are filled from. -/
theorem Transaction.measured_alike (tx : Transaction) : StoredAlike C tx tx.measured := by
  have hfrom (os : List TxOut) : ∀ i, storedOutputsFrom C tx.measured i os = storedOutputsFrom C tx i os := by
    induction os with
    | nil => exact fun _ => rfl
    | cons o os ih =>
        intro i
        simp only [storedOutputsFrom, ih]
        rfl
  refine ⟨?_, rfl⟩
  unfold storedOutputs
  rw [hfrom]
  rfl

/-! ### Additions -/

/-- What `add_block` is called with. -/
structure Addition where
  blk : Block
  blob : Blob
  weight : Nat
  longTermWeight : Nat
  cumulativeDifficulty : Nat
  coins : Nat
  txs : List (Transaction × Blob)

/-- The call. -/
def Addition.add (C : Crypto) (a : Addition) (t : MainTables) : Except DbError MainTables :=
  t.addBlock C a.blk a.blob a.weight a.longTermWeight a.cumulativeDifficulty a.coins a.txs

/-- What `pop_block` is to answer it with. -/
def Addition.popped (a : Addition) : Block × List Transaction := (a.blk, a.txs.map (·.1))

/-- A block parsed from its bytes, with the transactions it lists, each parsed from its own, none of
    which brings an id or a key image that is known or brought twice. -/
structure Addition.Proper (C : Crypto) (t : MainTables) (a : Addition) : Prop where
  parses : Block.fromBlob a.blob = .ok a.blk
  listed : ListedAs C a.blk.txHashes a.txs
  new : NewTransactions C t a.blk a.txs

/-- The coinbase expands, and the block is none that is stored. -/
structure Addition.Undoable (C : Crypto) (t : MainTables) (a : Addition) : Prop where
  expands : a.blk.minerTx.expand = .ok ()
  new : ∀ id, a.blk.blockId C.cnFastHash = some id → t.blockHeights.get id = none

/-- The stores that blocks added and popped lead to. -/
inductive Reachable (C : Crypto) : MainTables → Prop
  | empty : Reachable C .empty
  | add {t t' : MainTables} {a : Addition} (hreach : Reachable C t) (hproper : a.Proper C t)
      (hadd : a.add C t = .ok t') : Reachable C t'
  | pop {t t' : MainTables} {popped : Block × List Transaction} (hreach : Reachable C t)
      (hpop : t.popBlock C = .ok (popped, t')) : Reachable C t'

/-- Stores made of additions, one on another, whatever the heights by id are. -/
inductive Stacked (C : Crypto) : MainTables → Prop
  | empty (heights : Table Hash256 Nat) : Stacked C (MainTables.empty.withHeights heights)
  | add {t t' : MainTables} {a : Addition} (hstack : Stacked C t) (hproper : a.Proper C t)
      (hadd : a.add C t = .ok t') (heights : Table Hash256 Nat) : Stacked C (t'.withHeights heights)

theorem Stacked.withHeights {t : MainTables} (h : Stacked C t) (heights : Table Hash256 Nat) :
    Stacked C (t.withHeights heights) := by
  cases h with
  | empty _ => exact .empty heights
  | add hstack hproper hadd _ => exact .add hstack hproper hadd heights

/-- Heights by id number nothing. -/
theorem Sound.withHeights {t : MainTables} (h : Sound t) (heights : Table Hash256 Nat) :
    Sound (t.withHeights heights) :=
  ⟨⟨h.numbered.blocks, h.numbered.blockInfo, h.numbered.same⟩,
    ⟨h.txs.txsPruned, h.txs.txsPrunable, h.txs.txsPrunableHash, h.txs.txOutputs,
      ⟨h.txs.outs.outputTxs, h.txs.outs.outputAmounts⟩⟩, h.hfVersions⟩

theorem Addition.Proper.addedWhole {t t' : MainTables} {a : Addition} (h : a.Proper C t) (hs : Sound t)
    (hadd : a.add C t = .ok t') :
    ∃ info minerHash t₁, AddedWhole C t a.blk a.blob a.txs info minerHash t₁ t' :=
  addBlock_addedWhole hadd hs h.listed h.new

theorem Stacked.sound {t : MainTables} (h : Stacked C t) : Sound t := by
  induction h with
  | empty heights => exact sound_empty.withHeights heights
  | add _ hproper hadd heights ih =>
      obtain ⟨info, minerHash, t₁, hadded⟩ := hproper.addedWhole ih hadd
      exact hadded.sound.withHeights heights

/-! ### One block -/

/-- **Popping over an addition.**  It ends well exactly when the coinbase expands, and takes away all
    that was added and whatever height the block's id is listed with. -/
theorem Addition.Proper.popBlock_eq {t t' : MainTables} {a : Addition} (h : a.Proper C t) (hs : Sound t)
    (hadd : a.add C t = .ok t') :
    ∃ id, a.blk.blockId C.cnFastHash = some id ∧ t'.blockHeights = t.blockHeights.add id t.height ∧
      ∀ heights, (t'.withHeights heights).popBlock C =
        if a.blk.minerTx.expand = .ok () then .ok (a.popped, t.withHeights (heights.del id))
        else .error (.wrongLength 0 a.blk.minerTx.write.length) := by
  obtain ⟨info, minerHash, t₁, hadded⟩ := h.addedWhole hs hadd
  refine ⟨info.hash, hadded.id, hadded.blockHeights, ?_⟩
  intro heights
  obtain ⟨r, r', hread⟩ := Block.fromBlob_miner h.parses
  have hparse := fromBlob_write hread
  cases hexpand : a.blk.minerTx.expand with
  | ok _ =>
      rw [hexpand, ok_bind] at hparse
      rw [if_pos rfl]
      exact hadded.popped hs h.parses h.new hparse (Transaction.measured_alike _) heights
  | error e =>
      rw [hexpand, error_bind] at hparse
      rw [if_neg (by simp)]
      exact hadded.not_popped h.parses hparse heights

/-- Popping leaves a stack. -/
theorem Stacked.pop {t t' : MainTables} {popped : Block × List Transaction} (h : Stacked C t)
    (hpop : t.popBlock C = .ok (popped, t')) : Stacked C t' := by
  cases h with
  | empty heights => cases hpop
  | add hstack hproper hadd heights =>
      obtain ⟨id, _, _, hpopped⟩ := hproper.popBlock_eq hstack.sound hadd
      rw [hpopped heights] at hpop
      split_ifs at hpop
      cases hpop
      exact hstack.withHeights _

/-- **Every store that is reached is a stack of additions.** -/
theorem Reachable.stacked {t : MainTables} (h : Reachable C t) : Stacked C t := by
  induction h with
  | empty => exact .empty .empty
  | @add t t' a _ hproper hadd ih => exact .add ih hproper hadd t'.blockHeights
  | pop _ hpop ih => exact ih.pop hpop

theorem Addition.Proper.popBlock_iff {t t' : MainTables} {a : Addition} (h : a.Proper C t) (hs : Sound t)
    (hadd : a.add C t = .ok t') : t'.popBlock C = .ok (a.popped, t) ↔ a.Undoable C t := by
  obtain ⟨id, hid, hheights, hpopped⟩ := h.popBlock_eq hs hadd
  have hpop := hpopped t'.blockHeights
  rw [show t'.withHeights t'.blockHeights = t' from rfl] at hpop
  rw [hpop]
  constructor
  · intro heq
    split_ifs at heq with hexpand
    refine ⟨hexpand, ?_⟩
    intro id' hid'
    rw [hid] at hid'
    cases hid'
    have hsame : t'.blockHeights.del id = t.blockHeights := by
      have := congrArg MainTables.blockHeights (Prod.mk.inj (Except.ok.inj heq)).2
      exact this
    rw [← hsame, Table.get_del_self]
  · intro hundo
    rw [if_pos hundo.expands, hheights, Table.add_of_get_none (hundo.new id hid),
      Table.del_put_of_get_none (hundo.new id hid)]
    rfl

/-! ### Many blocks -/

/-- Blocks added one on another, `cond` holding of each on the store it was added to. -/
inductive Additions (C : Crypto) (cond : MainTables → Addition → Prop) :
    MainTables → List Addition → MainTables → Prop
  | nil (t : MainTables) : Additions C cond t [] t
  | cons {t t₁ t' : MainTables} {a : Addition} {as : List Addition} (hproper : a.Proper C t)
      (hcond : cond t a) (hadd : a.add C t = .ok t₁) (hrest : Additions C cond t₁ as t') :
      Additions C cond t (a :: as) t'

/-- As many blocks popped: what came out, the tip first, and the store left. -/
def popBlocks (C : Crypto) :
    Nat → MainTables → Except DbError (List (Block × List Transaction) × MainTables)
  | 0, t => .ok ([], t)
  | n + 1, t => do
    let tip ← t.popBlock C
    let rest ← popBlocks C n tip.2
    return (tip.1 :: rest.1, rest.2)

theorem popBlocks_succ_last {n : Nat} {t t₁ t₂ : MainTables} {outs : List (Block × List Transaction)}
    {out : Block × List Transaction} (hpops : popBlocks C n t = .ok (outs, t₁))
    (hpop : t₁.popBlock C = .ok (out, t₂)) : popBlocks C (n + 1) t = .ok (outs ++ [out], t₂) := by
  induction n generalizing t outs with
  | zero =>
      cases hpops
      rw [popBlocks, hpop]
      rfl
  | succ n ih =>
      rw [popBlocks, bind_eq_ok] at hpops
      obtain ⟨tip, htip, hpops⟩ := hpops
      rw [bind_eq_ok] at hpops
      obtain ⟨rest, hrest, hpops⟩ := hpops
      cases hpops
      rw [popBlocks, htip, ok_bind, ih hrest]
      rfl

/-- **Blocks added are popped in reverse**, back to the store they were added to. -/
theorem Additions.popBlocks {t t' : MainTables} {as : List Addition}
    (h : Additions C (fun t a => a.Undoable C t) t as t') (hs : Sound t) :
    popBlocks C as.length t' = .ok ((as.map Addition.popped).reverse, t) := by
  induction h with
  | nil t => rfl
  | cons hproper hcond hadd _ ih =>
      obtain ⟨info, minerHash, t₁, hadded⟩ := hproper.addedWhole hs hadd
      rw [List.map_cons, List.reverse_cons]
      exact popBlocks_succ_last (ih hadded.sound) ((hproper.popBlock_iff hs hadd).mpr hcond)

/-- **How exactly popping undoes adding**, on every store that is reached.  The block just added is
    popped, and the store is what it was, if and only if its coinbase expands and its id was new; no
    output is ever found out of place; and blocks of that kind are popped one after another down to
    the store they were added to. -/
theorem popBlock_undoes_addBlock_iff {t : MainTables} (hreach : Reachable C t) :
    (∀ (a : Addition) (t' : MainTables), a.Proper C t → a.add C t = .ok t' →
      (t'.popBlock C = .ok (a.popped, t) ↔ a.Undoable C t) ∧
      ∀ what expected found, t'.popBlock C ≠ .error (.tipMismatch what expected found)) ∧
    ∀ (as : List Addition) (t' : MainTables), Additions C (fun t a => a.Undoable C t) t as t' →
      popBlocks C as.length t' = .ok ((as.map Addition.popped).reverse, t) := by
  have hs := hreach.stacked.sound
  refine ⟨?_, fun as t' h => h.popBlocks hs⟩
  intro a t' hproper hadd
  refine ⟨hproper.popBlock_iff hs hadd, ?_⟩
  intro what expected found
  obtain ⟨id, _, _, hpopped⟩ := hproper.popBlock_eq hs hadd
  have hpop := hpopped t'.blockHeights
  rw [show t'.withHeights t'.blockHeights = t' from rfl] at hpop
  rw [hpop]
  split_ifs
  · simp
  · simp

namespace Sample

/-- A block without transactions on an empty store. -/
def alone (blk : Block) : Addition := ⟨blk, blk.toBlob, 0, 0, 1, 0, []⟩

theorem alone_proper {blk : Block} (hparse : Block.fromBlob blk.toBlob = .ok blk)
    (hhashes : blk.txHashes = []) (himages : blk.minerTx.keyImages = []) :
    (alone blk).Proper crypto .empty := by
  refine ⟨hparse, ⟨fun p hp => absurd hp List.not_mem_nil, ?_⟩, ?_, ?_, ?_⟩
  · show _ = blk.txHashes.map _
    rw [hhashes]
    rfl
  · intro h _
    exact ⟨rfl, by show h ∉ blk.txHashes; rw [hhashes]; exact List.not_mem_nil⟩
  · intro image himage
    exact absurd himage (by rw [show (alone blk).blk.minerTx.keyImages = [] from himages]; exact List.not_mem_nil)
  · refine ⟨?_, ?_, fun p hp => absurd hp List.not_mem_nil, List.Pairwise.nil⟩
    · intro h hmem
      exact absurd hmem (by rw [show (alone blk).blk.txHashes = [] from hhashes]; exact List.not_mem_nil)
    · rw [show (alone blk).blk.txHashes = [] from hhashes]
      exact List.nodup_nil

/-- A coinbase without outputs, of a type that is to have one range proof and has none. -/
def bareCoinbase : Transaction :=
  sized ⟨2, 4, [.gen 0], [], []⟩
    { ty := .bulletproofPlus, clsags := [⟨[0], 0, 0⟩], pseudoOuts := [0] }

def bareBlock : Block := { genesis with minerTx := bareCoinbase }

/-- A block is parsed and added to an empty store, and is not popped: the coinbase it was parsed with
    is not parsed again. -/
theorem bareBlock_not_popped :
    Reachable crypto .empty ∧ (alone bareBlock).Proper crypto .empty ∧
    ∃ t', (alone bareBlock).add crypto .empty = .ok t' ∧
      t'.popBlock crypto = .error (.wrongLength 0 138) := by
  refine ⟨.empty, alone_proper (by decide +kernel) rfl rfl, ?_⟩
  have hpop : ((alone bareBlock).add crypto .empty).bind (fun t' => t'.popBlock crypto) =
      .error (.wrongLength 0 138) := by decide +kernel
  have hadded : ((alone bareBlock).add crypto .empty).isOk = true := by decide +kernel
  cases hadd : (alone bareBlock).add crypto .empty with
  | ok t' =>
      rw [hadd] at hpop
      exact ⟨t', rfl, hpop⟩
  | error e =>
      rw [hadd] at hadded
      cases hadded

/-- The first block of the miner is popped again. -/
theorem popBlock_undoes_addBlock_iff_genesis :
    ∃ t', (alone genesis).add crypto .empty = .ok t' ∧
      t'.popBlock crypto = .ok ((genesis, []), .empty) := by
  have hproper : (alone genesis).Proper crypto .empty := alone_proper (by decide +kernel) rfl rfl
  have hadded : ((alone genesis).add crypto .empty).isOk = true := by decide +kernel
  cases hadd : (alone genesis).add crypto .empty with
  | ok t' =>
      have hiff := ((popBlock_undoes_addBlock_iff Reachable.empty).1 (alone genesis) t' hproper hadd).1
      exact ⟨t', rfl, hiff.mpr ⟨by decide +kernel, fun _ _ => rfl⟩⟩
  | error e =>
      rw [hadd] at hadded
      cases hadded

end Sample

end Wownero

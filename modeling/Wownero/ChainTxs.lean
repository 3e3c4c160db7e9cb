import Wownero.Sample
import Wownero.Signatures
import Wownero.Upkeep
/-!
# The transactions verified ahead

A node verifies the transactions of a batch of blocks before it takes the chain's lock, and keeps
the ids of those that passed in a set it shares among its peers' threads.  When the chain asks
for a transaction whose id is waiting there, the id is taken out and the answer is yes.

The steps of the threads between two questions of the chain, and between two changes of its
store, are any number of events in any order, drawn from a schedule.  Beside every id the model
remembers what was checked and how many blocks had been popped by then; the node remembers the id
alone.
-/

namespace Wownero

open Outcome Wownero.TxRules

/-! ### The work of a batch -/

/-- `PendingTx`. -/
structure PendingTx where
  id : Hash256
  tx : Transaction
  version : Nat
  deriving DecidableEq, Repr

section

variable (C : Crypto)

/-- The transactions of one block that parse, under the version the block declares. -/
def pendingTxs (version : Nat) (txs : List Blob) : List PendingTx :=
  txs.filterMap fun blob =>
    match Mempool.identify C blob with
    | .ok (tx, id) => some ⟨id, tx, version⟩
    | .error _ => none

/-- The loop of `tx_work`, which ends at the first block that is none. -/
def txWorkFrom (lowest : Nat) : List BlockEntry → List PendingTx
  | [] => []
  | entry :: entries =>
      match Block.fromBlob entry.block with
      | .error _ => []
      | .ok block =>
          match block.minerTx.txPrefix.vin with
          | [.gen height] =>
              if height < lowest then txWorkFrom lowest entries
              else pendingTxs C block.header.majorVersion entry.txs ++ txWorkFrom lowest entries
          | _ => []

/-- `tx_work`. -/
def txWork (trustedBelow : Nat) (t : MainTables) (blocks : List BlockEntry) : List PendingTx :=
  txWorkFrom C (max t.height trustedBelow) blocks

end

/-! ### The threads -/

/-- How far the verification of a batch has come: the work is collected, what is waiting already
    is left out, and the height is read before the first check. -/
inductive Progress where
  | collected
  | filtered (todo : List PendingTx)
  | checking (todo : List PendingTx) (height pops : Nat)
  deriving DecidableEq, Repr

/-- A batch between `tx_work` and `forget`. -/
structure Batch where
  work : List PendingTx
  now : Nat
  progress : Progress
  deriving DecidableEq, Repr

/-- One step of a peer's thread. -/
inductive Event where
  /-- A batch arrives, and `tx_work` collects what there is to verify. -/
  | collect (blocks : List BlockEntry) (now : Nat)
  /-- `prevalidate` leaves out what is waiting already. -/
  | filter (batch : Nat)
  /-- `prevalidate` reads the height. -/
  | readHeight (batch : Nat)
  /-- One of its threads verifies a transaction. -/
  | check (batch pending : Nat)
  /-- `forget`, once the batch is applied. -/
  | forget (batch : Nat)
  deriving DecidableEq, Repr

/-- What stands behind a waiting id: what was verified, and how many blocks had been popped when
    the height for it was read. -/
structure Checked where
  tx : Transaction
  version : Nat
  height : Nat
  now : Nat
  pops : Nat
  deriving DecidableEq, Repr

/-- A question the chain was answered with yes, and what was waiting for it, if anything. -/
structure Answer where
  store : MainTables
  tx : Transaction
  hfVersion : Nat
  chainHeight : Nat
  now : Nat
  pops : Nat
  waiting : Option Checked

/-- `ChainTxs` with the threads around it.  Beside them stand the height of the store when they
    last looked, how many blocks were popped so far, and every yes so far. -/
structure ChainTxs where
  ready : Table Hash256 Checked
  batches : List Batch
  schedule : List (List Event)
  seen : Nat
  pops : Nat
  answers : List Answer

/-- `ChainTxs::new` over a store, with a schedule to come. -/
def ChainTxs.new (t : MainTables) (schedule : List (List Event)) : ChainTxs :=
  ⟨.empty, [], schedule, t.height, 0, []⟩

section

variable (C : Crypto) (trustedBelow : Nat)

/-- Verify one transaction of a batch: what passes waits. -/
def ChainTxs.prevalidateOne (s : ChainTxs) (t : MainTables) (now height pops : Nat)
    (p : PendingTx) : ChainTxs :=
  match Mempool.verify C t p.tx p.version height now with
  | .ok () => { s with ready := s.ready.add p.id ⟨p.tx, p.version, height, now, pops⟩ }
  | .error _ => s

/-- The batch at place `i`, moved on. -/
def ChainTxs.setProgress (s : ChainTxs) (i : Nat) (batch : Batch) (progress : Progress) :
    ChainTxs :=
  { s with batches := s.batches.set i { batch with progress := progress } }

def ChainTxs.filterBatch (s : ChainTxs) (i : Nat) (batch : Batch) : ChainTxs :=
  match batch.progress with
  | .collected =>
      s.setProgress i batch (.filtered (batch.work.filter fun p => !s.ready.has p.id))
  | _ => s

def ChainTxs.readBatchHeight (s : ChainTxs) (t : MainTables) (i : Nat) (batch : Batch) :
    ChainTxs :=
  match batch.progress with
  | .filtered todo => s.setProgress i batch (.checking todo t.height s.pops)
  | _ => s

def ChainTxs.checkPending (s : ChainTxs) (t : MainTables) (i j : Nat) (batch : Batch) :
    ChainTxs :=
  match batch.progress with
  | .checking todo height pops =>
      match todo[j]? with
      | some p =>
          (s.setProgress i batch (.checking (todo.eraseIdx j) height pops)).prevalidateOne C t
            batch.now height pops p
      | none => s
  | _ => s

/-- `forget`. -/
def ChainTxs.forgetBatch (s : ChainTxs) (i : Nat) (batch : Batch) : ChainTxs :=
  { s with
    ready := batch.work.foldl (fun ready p => ready.del p.id) s.ready
    batches := s.batches.eraseIdx i }

/-- Do something with the batch at place `i`, if there is one. -/
def ChainTxs.withBatch (s : ChainTxs) (i : Nat) (f : Batch → ChainTxs) : ChainTxs :=
  match s.batches[i]? with
  | some batch => f batch
  | none => s

/-- One event. -/
def ChainTxs.step (s : ChainTxs) (t : MainTables) : Event → ChainTxs
  | .collect blocks now =>
      { s with batches := s.batches ++ [⟨txWork C trustedBelow t blocks, now, .collected⟩] }
  | .filter i => s.withBatch i (s.filterBatch i)
  | .readHeight i => s.withBatch i (s.readBatchHeight t i)
  | .check i j => s.withBatch i (s.checkPending C t i j)
  | .forget i => s.withBatch i (s.forgetBatch i)

/-- Events in a row. -/
def ChainTxs.steps (s : ChainTxs) (t : MainTables) (events : List Event) : ChainTxs :=
  events.foldl (fun s e => s.step C trustedBelow t e) s

/-- What the schedule has next. -/
def ChainTxs.interleave (s : ChainTxs) (t : MainTables) : ChainTxs :=
  match s.schedule with
  | [] => s
  | events :: later => { s with schedule := later }.steps C trustedBelow t events

/-- `TxCheckError` from what `verify` says. -/
def txCheckError (r : Mempool.Rejection) : TxCheckError :=
  match r with
  | .unsupportedRctType _ => .unsupported r.reason
  | _ => .invalid r.reason

/-- `ChainTxs::verify`, after the threads: an id that is waiting is taken, not copied. -/
def ChainTxs.answer (s : ChainTxs) (t : MainTables) (hash : Hash256) (tx : Transaction)
    (hfVersion chainHeight now : Nat) : Except TxCheckError Unit × ChainTxs :=
  match s.ready.get hash with
  | some waiting =>
      (.ok (), { s with
        ready := s.ready.del hash
        answers := ⟨t, tx, hfVersion, chainHeight, now, s.pops, some waiting⟩ :: s.answers })
  | none =>
      match Mempool.verify C t tx hfVersion chainHeight now with
      | .ok () =>
          (.ok (), { s with
            answers := ⟨t, tx, hfVersion, chainHeight, now, s.pops, none⟩ :: s.answers })
      | .error r => (.error (txCheckError r), s)

/-- `ChainTxs::verify`. -/
def ChainTxs.verify (s : ChainTxs) (t : MainTables) (hash : Hash256) (tx : Transaction)
    (hfVersion chainHeight now : Nat) : Except TxCheckError Unit × ChainTxs :=
  (s.interleave C trustedBelow t).answer C t hash tx hfVersion chainHeight now

/-- The store is looked at: a lower height than before is a pop. -/
def ChainTxs.look (s : ChainTxs) (t : MainTables) : ChainTxs :=
  { s with seen := t.height, pops := if t.height < s.seen then s.pops + 1 else s.pops }

/-- What the threads do after a change of the store. -/
def ChainTxs.observe (s : ChainTxs) (t : MainTables) : ChainTxs :=
  (s.look t).interleave C trustedBelow t

/-- `ChainTxs` as the chain's verifier. -/
def chainTxs : TxVerifier ChainTxs :=
  ⟨ChainTxs.verify C trustedBelow, ChainTxs.observe C trustedBelow⟩

end

/-! ### What an answer is worth -/

/-- The verification the chain was spared would have passed. -/
def Answer.Sound (C : Crypto) (a : Answer) : Prop :=
  Mempool.verify C a.store a.tx a.hfVersion a.chainHeight a.now = .ok ()

instance (C : Crypto) (a : Answer) : Decidable (a.Sound C) := inferInstanceAs (Decidable (_ = _))

/-- What was waiting covers the question: it was the same transaction, no block was popped since
    the height was read, the clock did not go back, and the version did not begin to ask for the
    age of ring members. -/
structure Checked.Covers (w : Checked) (a : Answer) : Prop where
  tx : w.tx = a.tx
  pops : w.pops = a.pops
  now : w.now ≤ a.now
  version : hfVersionEnforceMinAge ≤ w.version ∨ a.hfVersion < hfVersionEnforceMinAge

/-- A yes is covered: by a verification on the spot, or by what was waiting. -/
def Answer.Covered (a : Answer) : Prop :=
  a.chainHeight ≤ u64Max ∧ ∀ w, a.waiting = some w → w.Covers a

/-- What is waiting was verified at a height the store has not gone below, over outputs it still
    has. -/
def Checked.Standing (C : Crypto) (t : MainTables) (w : Checked) : Prop :=
  w.height ≤ t.height ∧ ∃ t₀, Mempool.verify C t₀ w.tx w.version w.height w.now = .ok () ∧
    Mempool.KeepsOutputs t₀ t

/-- The invariant of the shared set.  What was checked before the last pop is left out of it. -/
structure ChainTxs.Valid (C : Crypto) (s : ChainTxs) (t : MainTables) : Prop where
  seen : s.seen = t.height
  ready : ∀ id w, s.ready.get id = some w →
    w.pops ≤ s.pops ∧ (w.pops = s.pops → w.Standing C t)
  batches : ∀ b ∈ s.batches, ∀ todo height pops, b.progress = .checking todo height pops →
    pops ≤ s.pops ∧ (pops = s.pops → height ≤ t.height)
  answers : ∀ a ∈ s.answers, a.Covered → a.Sound C

section

variable {C : Crypto} {trustedBelow : Nat}

theorem ChainTxs.valid_new (t : MainTables) (schedule : List (List Event)) :
    (ChainTxs.new t schedule).Valid C t := by
  refine ⟨rfl, ?_, ?_, ?_⟩
  · intro id w hget
    cases hget
  · intro b hb
    cases hb
  · intro a ha
    cases ha

/-- Only the set and the batches matter beside the height, the pops and the answers. -/
theorem ChainTxs.Valid.of_eq {s s' : ChainTxs} {t : MainTables} (h : s.Valid C t)
    (hseen : s'.seen = s.seen) (hpops : s'.pops = s.pops) (hanswers : s'.answers = s.answers)
    (hready : ∀ id w, s'.ready.get id = some w →
      w.pops ≤ s.pops ∧ (w.pops = s.pops → w.Standing C t))
    (hbatches : ∀ b ∈ s'.batches, ∀ todo height pops, b.progress = .checking todo height pops →
      pops ≤ s.pops ∧ (pops = s.pops → height ≤ t.height)) : s'.Valid C t := by
  refine ⟨hseen.trans h.seen, ?_, ?_, ?_⟩
  · rw [hpops]
    exact hready
  · rw [hpops]
    exact hbatches
  · rw [hanswers]
    exact h.answers

theorem ChainTxs.Valid.setProgress {s : ChainTxs} {t : MainTables} (h : s.Valid C t) (i : Nat)
    (batch : Batch) {progress : Progress}
    (hp : ∀ todo height pops, progress = .checking todo height pops →
      pops ≤ s.pops ∧ (pops = s.pops → height ≤ t.height)) :
    (s.setProgress i batch progress).Valid C t := by
  refine h.of_eq rfl rfl rfl h.ready ?_
  intro b hb
  rcases List.mem_or_eq_of_mem_set hb with hb | rfl
  · exact h.batches b hb
  · exact hp

theorem ChainTxs.Valid.prevalidateOne {s : ChainTxs} {t : MainTables} (h : s.Valid C t)
    {now height pops : Nat} (hpops : pops ≤ s.pops)
    (hheight : pops = s.pops → height ≤ t.height) (p : PendingTx) :
    (s.prevalidateOne C t now height pops p).Valid C t := by
  unfold ChainTxs.prevalidateOne
  cases hverify : Mempool.verify C t p.tx p.version height now with
  | error r => exact h
  | ok u =>
      refine h.of_eq rfl rfl rfl ?_ h.batches
      intro id w hget
      unfold Table.add at hget
      split_ifs at hget with hhas
      · exact h.ready id w hget
      · rw [Table.get_put] at hget
        split_ifs at hget
        · cases hget
          exact ⟨hpops, fun heq => ⟨hheight heq, t, hverify, Mempool.KeepsOutputs.refl t⟩⟩
        · exact h.ready id w hget

theorem ChainTxs.Valid.withBatch {s : ChainTxs} {t : MainTables} (h : s.Valid C t) {i : Nat}
    {f : Batch → ChainTxs} (hf : ∀ batch ∈ s.batches, (f batch).Valid C t) :
    (s.withBatch i f).Valid C t := by
  unfold ChainTxs.withBatch
  cases hget : s.batches[i]? with
  | none => exact h
  | some batch => exact hf batch (List.mem_of_getElem? hget)

/-- **One event** keeps the invariant. -/
theorem ChainTxs.Valid.step {s : ChainTxs} {t : MainTables} (h : s.Valid C t) (e : Event) :
    (s.step C trustedBelow t e).Valid C t := by
  cases e with
  | collect blocks now =>
      refine h.of_eq rfl rfl rfl h.ready ?_
      intro b hb todo height pops hp
      rcases List.mem_append.mp hb with hb | hb
      · exact h.batches b hb todo height pops hp
      · rw [List.mem_singleton.mp hb] at hp
        cases hp
  | filter i =>
      refine h.withBatch fun batch _ => ?_
      unfold ChainTxs.filterBatch
      split
      · exact h.setProgress i batch nofun
      · exact h
  | readHeight i =>
      refine h.withBatch fun batch _ => ?_
      unfold ChainTxs.readBatchHeight
      split
      · refine h.setProgress i batch ?_
        intro todo height pops hp
        cases hp
        exact ⟨Nat.le_refl _, fun _ => Nat.le_refl _⟩
      · exact h
  | check i j =>
      refine h.withBatch fun batch hbatch => ?_
      unfold ChainTxs.checkPending
      split
      · rename_i todo height pops hprogress
        have hread := h.batches batch hbatch todo height pops hprogress
        split
        · refine (h.setProgress i batch ?_).prevalidateOne hread.1 hread.2 _
          intro todo' height' pops' hp
          cases hp
          exact hread
        · exact h
      · exact h
  | forget i =>
      refine h.withBatch fun batch _ => ?_
      refine h.of_eq rfl rfl rfl ?_ ?_
      · intro id w hget
        rw [ChainTxs.forgetBatch, Table.get_foldl_del] at hget
        split_ifs at hget
        exact h.ready id w hget
      · intro b hb
        exact h.batches b (List.mem_of_mem_eraseIdx hb)

/-- Events in a row keep it. -/
theorem ChainTxs.Valid.steps {s : ChainTxs} {t : MainTables} (h : s.Valid C t)
    (trustedBelow : Nat) (events : List Event) : (s.steps C trustedBelow t events).Valid C t := by
  unfold ChainTxs.steps
  induction events generalizing s with
  | nil => exact h
  | cons e events ih => exact ih (h.step e)

theorem ChainTxs.Valid.interleave {s : ChainTxs} {t : MainTables} (h : s.Valid C t) :
    (s.interleave C trustedBelow t).Valid C t := by
  unfold ChainTxs.interleave
  split
  · exact h
  · refine ChainTxs.Valid.steps ?_ _ _
    exact h.of_eq rfl rfl rfl h.ready h.batches

/-- What is waiting and covers the question is as good as a verification. -/
theorem Checked.Standing.sound {t : MainTables} {w : Checked} (h : w.Standing C t) {a : Answer}
    (hstore : a.store = t) (hheight : a.chainHeight = t.height) (hfits : a.chainHeight ≤ u64Max)
    (hcovers : w.Covers a) : a.Sound C := by
  obtain ⟨hle, t₀, hverified, hkeeps⟩ := h
  rw [Answer.Sound, hstore, ← hcovers.tx]
  exact Mempool.verify_mono hverified hkeeps (hheight ▸ hle) hfits hcovers.now hcovers.version

/-- **One question** keeps the invariant, when it is asked at the height of the store. -/
theorem ChainTxs.Valid.answer {s : ChainTxs} {t : MainTables} (h : s.Valid C t) (hash : Hash256)
    (tx : Transaction) (hfVersion now : Nat) :
    (s.answer C t hash tx hfVersion t.height now).2.Valid C t := by
  unfold ChainTxs.answer
  cases hget : s.ready.get hash with
  | some waiting =>
      refine ⟨h.seen, ?_, h.batches, ?_⟩
      · intro id w hw
        rw [Table.get_del] at hw
        split_ifs at hw
        exact h.ready id w hw
      · intro a ha hcovered
        rcases List.mem_cons.mp ha with rfl | ha
        · have hcovers := hcovered.2 waiting rfl
          exact ((h.ready hash waiting hget).2 hcovers.pops).sound rfl rfl hcovered.1 hcovers
        · exact h.answers a ha hcovered
  | none =>
      simp only
      cases hverify : Mempool.verify C t tx hfVersion t.height now with
      | error r => exact h
      | ok u =>
          refine ⟨h.seen, h.ready, h.batches, ?_⟩
          intro a ha hcovered
          rcases List.mem_cons.mp ha with rfl | ha
          · exact hverify
          · exact h.answers a ha hcovered

/-! ### Blocks, pops and runs -/

theorem addOutputs_keepsOutputs {txHash : Hash256} {unlockTime height : Nat}
    {outs : List (StoredOutput × TxOut)} {i : Nat} {t t' : MainTables} {indices : List Nat}
    (h : addOutputs txHash unlockTime height i outs t = .ok (indices, t')) :
    Mempool.KeepsOutputs t t' := by
  induction outs generalizing i t indices with
  | nil =>
      simp only [addOutputs, Except.ok.injEq, Prod.mk.injEq] at h
      obtain ⟨_, rfl⟩ := h
      exact Mempool.KeepsOutputs.refl t
  | cons out outs ih =>
      obtain ⟨s, o⟩ := out
      simp only [addOutputs, bind_eq_ok, pure_eq_ok] at h
      obtain ⟨pubkey, _, ⟨rest, t₁⟩, hrest, heq⟩ := h
      cases heq
      refine Mempool.KeepsOutputs.trans ?_ (ih hrest)
      intro key out hget
      exact Table.get_add_of_get hget _ _

theorem addTransaction_keepsOutputs {t t' : MainTables} {height : Nat} {tx : Transaction}
    {blob : Blob} (h : addTransaction C t height tx blob = .ok t') :
    Mempool.KeepsOutputs t t' := by
  simp only [addTransaction, bind_eq_ok, pure_eq_ok] at h
  obtain ⟨txHash, _, halves, _, stored, _, ⟨indices, t₁⟩, hout, rfl⟩ := h
  have hkeeps := addOutputs_keepsOutputs hout
  exact fun key out hget => hkeeps key out hget

theorem addTransactions_keepsOutputs {height : Nat} {txs : List (Transaction × Blob)}
    {t t' : MainTables} (h : addTransactions C height txs t = .ok t') :
    Mempool.KeepsOutputs t t' := by
  induction txs generalizing t with
  | nil =>
      simp only [addTransactions, Except.ok.injEq] at h
      exact h ▸ Mempool.KeepsOutputs.refl t
  | cons p txs ih =>
      obtain ⟨tx, blob⟩ := p
      simp only [addTransactions, bind_eq_ok] at h
      obtain ⟨t₁, h₁, h₂⟩ := h
      exact (addTransaction_keepsOutputs h₁).trans (ih h₂)

theorem addBlock_keepsOutputs {t t' : MainTables} {blk : Block} {blob : Blob}
    {weight longTermWeight cumulativeDifficulty coins : Nat} {txs : List (Transaction × Blob)}
    (h : t.addBlock C blk blob weight longTermWeight cumulativeDifficulty coins txs = .ok t') :
    Mempool.KeepsOutputs t t' := by
  obtain ⟨info, t₁, t₂, _, h₁, h₂, rfl⟩ := addBlock_steps h
  have hkeeps := (addTransaction_keepsOutputs h₁).trans (addTransactions_keepsOutputs h₂)
  exact fun key out hget => hkeeps key out hget

/-- A store that grew and kept its outputs keeps what is waiting. -/
theorem ChainTxs.Valid.look_grown {s : ChainTxs} {t t' : MainTables} (h : s.Valid C t)
    (hle : t.height ≤ t'.height) (hkeeps : Mempool.KeepsOutputs t t') :
    (s.look t').Valid C t' := by
  have hpops : (s.look t').pops = s.pops := if_neg (by rw [h.seen]; omega)
  refine ⟨rfl, ?_, ?_, h.answers⟩
  · intro id w hget
    rw [hpops]
    refine ⟨(h.ready id w hget).1, fun heq => ?_⟩
    obtain ⟨hheight, t₀, hverified, hkept⟩ := (h.ready id w hget).2 heq
    exact ⟨hheight.trans hle, t₀, hverified, hkept.trans hkeeps⟩
  · intro b hb todo height pops hp
    rw [hpops]
    obtain ⟨hcount, hheight⟩ := h.batches b hb todo height pops hp
    exact ⟨hcount, fun heq => (hheight heq).trans hle⟩

/-- A pop leaves nothing that counts. -/
theorem ChainTxs.Valid.look_popped {s : ChainTxs} {t t' : MainTables} (h : s.Valid C t)
    (hlt : t'.height < t.height) : (s.look t').Valid C t' := by
  have hpops : (s.look t').pops = s.pops + 1 := if_pos (by rw [h.seen]; exact hlt)
  refine ⟨rfl, ?_, ?_, h.answers⟩
  · intro id w hget
    have hcount := (h.ready id w hget).1
    rw [hpops]
    exact ⟨by omega, fun heq => by omega⟩
  · intro b hb todo height pops hp
    have hcount := (h.batches b hb todo height pops hp).1
    rw [hpops]
    exact ⟨by omega, fun heq => by omega⟩

/-- The set is valid over a store whose blocks are numbered. -/
def ChainTxs.ValidOver (C : Crypto) (s : ChainTxs) (t : MainTables) : Prop :=
  s.Valid C t ∧ t.Numbered

/-- **Questions, blocks and pops** keep the set valid, whatever the threads do in between. -/
theorem chainTxs_kept (C : Crypto) (trustedBelow : Nat) :
    MemoryKept C (chainTxs C trustedBelow) (ChainTxs.ValidOver C) where
  verify := by
    intro s t hash tx hfVersion now h
    exact ⟨h.1.interleave.answer hash tx hfVersion now, h.2⟩
  added := by
    intro s t t' blk blob weight longTermWeight cumulativeDifficulty coins txs h hadd
    obtain ⟨info, hadded, _⟩ := addBlock_added hadd
    have hheight := hadded.height_eq h.2
    have hgrown := h.1.look_grown (by omega) (addBlock_keepsOutputs hadd)
    exact ⟨hgrown.interleave, hadded.numbered h.2⟩
  popped := by
    intro s t t' popped h hpop
    obtain ⟨info, hpopped, _⟩ := popBlock_popped hpop
    have hheight := hpopped.height_eq h.2
    have hlooked : (s.look t').Valid C t' := h.1.look_popped (by omega)
    exact ⟨hlooked.interleave, hpopped.numbered h.2⟩

/-- What the operations of a run may do to the set beside asking: the threads move between two
    operations, with another schedule to come, and a restart begins anew. -/
def PeersMove (P : Params ChainTxs) (c : Chain ChainTxs) : Action ChainTxs → Prop
  | .others v => ∃ events schedule,
      v = { c.verifier.steps P.crypto P.trustedBelow c.db.main events with schedule := schedule }
  | .reopen v => ∃ schedule, v = ChainTxs.new c.db.main schedule
  | _ => True

theorem run_validOver (P : Params ChainTxs)
    (hP : P.txVerifier = some (chainTxs P.crypto P.trustedBelow)) {schedule : List (List Event)}
    {c₀ : Chain ChainTxs}
    (hopen : Chain.new P Store.empty (ChainTxs.new MainTables.empty schedule) = .ok c₀)
    (actions : List (Action ChainTxs)) (hpeers : c₀.Along P (PeersMove P) actions) :
    (c₀.run P actions).verifier.ValidOver P.crypto (c₀.run P actions).db.main := by
  have hk := (chainTxs_kept P.crypto P.trustedBelow).upkeep hP
  refine (run_holds hk ?_ hopen ⟨ChainTxs.valid_new _ schedule, MainTables.numbered_empty⟩ actions
    hpeers).inv
  intro c a h hmove
  cases a with
  | others v =>
      obtain ⟨events, schedule', rfl⟩ := hmove
      have hsteps := h.inv.1.steps P.trustedBelow events
      exact ⟨hsteps.of_eq rfl rfl rfl hsteps.ready hsteps.batches, h.inv.2⟩
  | reopen v =>
      obtain ⟨schedule', rfl⟩ := hmove
      exact ⟨ChainTxs.valid_new _ schedule', h.inv.2⟩
  | handleBlock blk blob txs now => exact fun _ _ => trivial
  | addBlock blk blob txs now => exact fun _ _ => trivial
  | popBlocks n => trivial
  | takeOrphanedTxs => trivial

/-- **What was verified ahead is worth a verification** as long as it covers the question.  In
    every run, with the threads of any number of batches between its steps, every yes the chain
    was given would have been given by the full verification, on the store as it stood: unless
    what was waiting under the id was another transaction, was checked before a block was popped
    or at a later clock, or under a version that does not ask for the age of ring members. -/
theorem covered_answers_sound (P : Params ChainTxs)
    (hP : P.txVerifier = some (chainTxs P.crypto P.trustedBelow)) (schedule : List (List Event))
    {c₀ : Chain ChainTxs}
    (hopen : Chain.new P Store.empty (ChainTxs.new MainTables.empty schedule) = .ok c₀)
    (actions : List (Action ChainTxs)) (hpeers : c₀.Along P (PeersMove P) actions) :
    ∀ a ∈ (c₀.run P actions).verifier.answers, a.Covered → a.Sound P.crypto :=
  (run_validOver P hP hopen actions hpeers).1.answers

end

namespace Sample

/-- A node of the test network. -/
def node : Params ChainTxs where
  crypto := crypto
  pow := .trusting
  network := .testnet
  txVerifier := some (chainTxs crypto 0)

def start : Chain ChainTxs := opened (ChainTxs.new .empty [])

/-- A payment that spends the first coinbase. -/
def payment : Transaction := pay 0 (fullRing 8 4)

end Sample

end Wownero

import Wownero.Announce
/-!
# A block, relayed

A block that was announced and added is announced to the other peers: without transactions to those
that reconstruct, whole to the rest.  What was added is the announcement completed from the pool,
what is relayed is the announcement as it arrived.  The two agree only when it arrived whole.
-/

namespace Wownero

open Outcome Mempool

/-! ### A block from outside -/

/-- What `submit` finds wrong with a block before the chain sees it.  The source makes sentences of
    them. -/
inductive Malformed where
  | blockDoesNotParse (error : Archive.Error)
  | txCount (named came : Nat)
  | txDoesNotParse (index : Nat) (error : Archive.Error)
  | txHasNoHash (index : Nat)
  | otherTx (index : Nat) (id named : Hash256)
  deriving DecidableEq, Repr

/-- `Refusal`. -/
inductive Refusal where
  | malformed (what : Malformed)
  | rejected (r : Rejection)
  | checkpointed (r : Rejection)
  deriving DecidableEq, Repr

/-- `Submitted`. -/
structure Submitted where
  added : Added
  block : Block
  txs : List (Transaction × Blob)

section

variable (C : Crypto)

/-- The loop of `submit`: each transaction has the hash the block lists at its place. -/
def matchTxs : Nat → List Blob → List Hash256 → Except Malformed (List (Transaction × Blob))
  | i, blob :: blobs, h :: hs =>
      match Transaction.fromBlob blob with
      | .error e => .error (.txDoesNotParse i e)
      | .ok tx =>
          match transactionHashFromBlob C.cnFastHash tx blob with
          | none => .error (.txHasNoHash i)
          | some id =>
              if id ≠ h then .error (.otherTx i id h)
              else (matchTxs (i + 1) blobs hs).map fun parsed => (tx, blob) :: parsed
  | _, _, _ => .ok []

/-- What `submit` does before the chain sees the block. -/
def receive (blob : Blob) (txs : List Blob) :
    Except Malformed (Block × List (Transaction × Blob)) :=
  match Block.fromBlob blob with
  | .error e => .error (.blockDoesNotParse e)
  | .ok block =>
      if txs.length ≠ block.txHashes.length then
        .error (.txCount block.txHashes.length txs.length)
      else (matchTxs C 0 txs block.txHashes).map fun parsed => (block, parsed)

/-- A block that came with its transactions: one for each hash it lists, in order, and none
    beside. -/
def BlockEntry.Whole (entry : BlockEntry) : Prop :=
  ∃ block, Block.fromBlob entry.block = .ok block ∧
    entry.txs.map (txBlobId C) = block.txHashes.map some

variable {C}

theorem matchTxs_isOk {i : Nat} {txs : List Blob} {hs : List Hash256}
    (hlen : txs.length = hs.length) :
    (∃ parsed, matchTxs C i txs hs = .ok parsed) ↔ txs.map (txBlobId C) = hs.map some := by
  induction txs generalizing i hs with
  | nil =>
      rw [List.length_nil, eq_comm, List.length_eq_zero_iff] at hlen
      subst hlen
      exact iff_of_true ⟨[], rfl⟩ rfl
  | cons blob txs ih =>
      obtain ⟨h, hs, rfl⟩ := List.exists_cons_of_length_eq_add_one hlen.symm
      rw [List.length_cons, List.length_cons, Nat.add_right_cancel_iff] at hlen
      rw [List.map_cons, List.map_cons, List.cons.injEq, matchTxs, txBlobId]
      cases hparse : Transaction.fromBlob blob with
      | error e => simp [Except.toOption]
      | ok tx =>
          cases hhash : transactionHashFromBlob C.cnFastHash tx blob with
          | none => simp [Except.toOption, hhash]
          | some id =>
              by_cases heq : id = h
              · have hrest := @ih (i + 1) hs hlen
                rw [← hrest]
                cases hmatch : matchTxs C (i + 1) txs hs with
                | error e => simp [hhash, heq, Except.map]
                | ok parsed => simp [hhash, heq, Except.map, Except.toOption]
              · simp [heq, Except.toOption, hhash]

/-- The receiver's check passes exactly on a whole block. -/
theorem receive_isOk {entry : BlockEntry} :
    (∃ received, receive C entry.block entry.txs = .ok received) ↔ entry.Whole C := by
  unfold receive BlockEntry.Whole
  cases hparse : Block.fromBlob entry.block with
  | error e => simp
  | ok block =>
      simp only [Except.ok.injEq, exists_eq_left']
      by_cases hlen : entry.txs.length = block.txHashes.length
      · rw [if_neg (not_not.mpr hlen), ← @matchTxs_isOk C 0 _ _ hlen]
        cases hmatch : matchTxs C 0 entry.txs block.txHashes with
        | error e => simp [Except.map]
        | ok parsed => simp [Except.map]
      · rw [if_pos hlen]
        refine iff_of_false nofun ?_
        intro heq
        have hlength := congrArg List.length heq
        rw [List.length_map, List.length_map] at hlength
        exact hlen hlength

end

section

variable {σ : Type} (P : Params σ)

/-- Whether a block is the one the checkpoints name at a height. -/
def isCheckpointed (height : Nat) (block : Block) : Bool :=
  (checkpointAt P.network height).any fun cp => block.blockId P.crypto.cnFastHash == some cp.hash

/-- `LocalChain::submit`. -/
def Chain.submit (c : Chain σ) (blob : Blob) (txs : List Blob) (now : Nat) :
    Except Refusal Submitted × Chain σ :=
  match receive P.crypto blob txs with
  | .error what => (.error (.malformed what), c)
  | .ok (block, parsed) =>
      match c.handleBlock P block blob parsed now with
      | (.ok added, c') => (.ok ⟨added, block, parsed⟩, c')
      | (.error r, c') =>
          (.error (if isCheckpointed P c.height block then .checkpointed r else .rejected r), c')

/-! ### Its verdict -/

/-- Whether the sender is to blame. -/
def BlockError.blamesSender : BlockError → Bool
  | .pow (.cryptoNightNotImplemented ..) | .pow (.randomWow _) => false
  | .storage _ | .notRestored .. | .missingTx _ => false
  | .txSignature _ (.unsupported _) => false
  | .badTimestamp (.tooFarInTheFuture _) => false
  | _ => true

variable (explain : Rejection → String) (explainMalformed : Malformed → String)

/-- `verdict`. -/
def verdict (r : Rejection) : BlockVerdict :=
  match r.error with
  | .alreadyExists _ => .alreadyHave
  | .orphan _ | .notOnTip .. => .orphan
  | e => .rejected (explain r) e.blamesSender

/-- The verdict on a refused block. -/
def Refusal.verdict : Refusal → BlockVerdict
  | .malformed what => .rejected (explainMalformed what) true
  | .rejected r => Wownero.verdict explain r
  | .checkpointed r =>
      match Wownero.verdict explain r with
      | .rejected reason _ => .rejected (reason ++ "; the block is the checkpointed one, so " ++
          "this node's rules are wrong, not the peer") false
      | other => other

/-! ### What follows in the pool -/

/-- A transaction that came off the chain, as the pool takes it: they all parse from their bytes. -/
def returnedTx (p : Transaction × Blob) : Option ReturnedTx :=
  if h : Transaction.fromBlob p.2 = .ok p.1 then some ⟨p.1, p.2, h⟩ else none

/-- `settle`: what replaced blocks carried goes back to the pool. -/
def NodeCore.settle (n : NodeCore σ) (now : Nat) : NodeCore σ where
  chain := { n.chain with orphanedTxs := [] }
  pool := (n.chain.orphanedTxs.filterMap returnedTx).foldl (fun pool r =>
    (pool.addKeptByBlock P.crypto n.chain.db.main r (currentVersion P n.chain.db.main) now).2)
    n.pool

/-- `after`. -/
def NodeCore.after (n : NodeCore σ) (s : Submitted) (now : Nat) : NodeCore σ :=
  match s.added with
  | .altChain _ => n
  | .mainChain _ =>
      NodeCore.settle P
        { n with pool := n.pool.removeMined s.block.txHashes (s.txs.flatMap (·.1.keyImages)) } now
  | .reorg .. => NodeCore.settle P { n with pool := n.pool.removeConfirmed n.chain.db.main } now

/-- `apply`. -/
def NodeCore.apply (n : NodeCore σ) (blob : Blob) (txs : List Blob) (now : Nat) :
    BlockVerdict × NodeCore σ :=
  match n.chain.submit P blob txs now with
  | (.ok s, chain) =>
      (match s.added with | .altChain _ => .alternative | _ => .added,
        NodeCore.after P { n with chain := chain } s now)
  | (.error refusal, chain) => (refusal.verdict explain explainMalformed, { n with chain := chain })

/-- `new_block`. -/
def NodeCore.newBlock (n : NodeCore σ) (entry : BlockEntry) (now : Nat) :
    BlockVerdict × NodeCore σ :=
  match n.fill P.crypto entry with
  | .ok txs => n.apply P explain explainMalformed entry.block txs now
  | .error v => (v, n)

/-- `submit_block`: the verdict, and the block with its transactions for relaying. -/
def NodeCore.submitBlock (n : NodeCore σ) (blob : Blob) (now : Nat) :
    (BlockVerdict × Option BlockEntry) × NodeCore σ :=
  match n.fill P.crypto ⟨blob, [], 0⟩ with
  | .ok txs =>
      let applied := n.apply P explain explainMalformed blob txs now
      ((applied.1, if applied.1 = .added then some ⟨blob, txs, 0⟩ else none), applied.2)
  | .error v => ((v, none), n)

variable {P} {explain} {explainMalformed}

/-- A block is added with the transactions it lists. -/
theorem apply_added {n : NodeCore σ} {blob : Blob} {txs : List Blob} {now weight : Nat}
    (h : (n.apply P explain explainMalformed blob txs now).1 = .added) :
    BlockEntry.Whole P.crypto ⟨blob, txs, weight⟩ := by
  rw [← receive_isOk]
  unfold NodeCore.apply Chain.submit at h
  cases hreceived : receive P.crypto blob txs with
  | error what =>
      rw [hreceived] at h
      cases h
  | ok received => exact ⟨received, rfl⟩

/-- What `submit_block` hands on for relaying is whole. -/
theorem submitBlock_whole {n n' : NodeCore σ} {blob : Blob} {now : Nat} {v : BlockVerdict}
    {entry : BlockEntry}
    (h : n.submitBlock P explain explainMalformed blob now = ((v, some entry), n')) :
    entry.Whole P.crypto := by
  unfold NodeCore.submitBlock at h
  cases hfill : n.fill P.crypto ⟨blob, [], 0⟩ with
  | error v =>
      rw [hfill] at h
      cases h
  | ok txs =>
      rw [hfill] at h
      simp only [Prod.mk.injEq] at h
      obtain ⟨⟨_, hrelay⟩, _⟩ := h
      split_ifs at hrelay with hadded
      cases hrelay
      exact apply_added hadded

end

/-! ### The other peers -/

namespace P2p

/-- The states of a connection. -/
inductive ConnState where
  | handshake
  | synchronizing
  | standby
  | normal
  deriving DecidableEq, Repr

/-- `Conn`, as far as announcements read and write it. -/
structure Conn where
  id : Nat
  state : ConnState
  supportFlags : Nat
  currentHeight : Nat
  deriving DecidableEq, Repr

/-- `SUPPORT_FLAG_FLUFFY_BLOCKS`. -/
def supportFlagFluffyBlocks : Nat := 1

def Conn.fluffy (c : Conn) : Bool := c.supportFlags &&& supportFlagFluffyBlocks != 0

/-- `NewBlock`. -/
structure NewBlock where
  entry : BlockEntry
  currentBlockchainHeight : Nat
  deriving DecidableEq, Repr

/-- What a connection is notified of. -/
inductive Notification where
  | newBlock (nb : NewBlock)
  | newFluffyBlock (nb : NewBlock)
  | requestFluffyMissingTx (blockHash : Hash256) (currentBlockchainHeight : Nat)
      (missingTxIndices : List Nat)
  deriving DecidableEq, Repr

/-- `relay_block`: what each connection is sent. -/
def relayBlock (conns : List Conn) (height : Nat) (entry : BlockEntry) (except : Option Nat) :
    List (Conn × Notification) :=
  let fluffy : NewBlock := ⟨{ entry with txs := [] }, height⟩
  let full : NewBlock := ⟨entry, height⟩
  (conns.filter fun c => some c.id != except && c.state = .normal).map fun c =>
    (c, if c.fluffy then .newFluffyBlock fluffy else .newBlock full)

/-- What an announcement leads to, besides what becomes of the block. -/
inductive Reaction where
  | notify (sent : List (Conn × Notification))
  | requestChain
  | fault (reason : String) (ban : Bool)
  deriving DecidableEq, Repr

/-- The notifications among it. -/
def Reaction.sent : Reaction → List (Conn × Notification)
  | .notify sent => sent
  | _ => []

section

variable {σ : Type} (P : Params σ) (explain : Rejection → String)
  (explainMalformed : Malformed → String)

/-- What the verdict on an announced block leads to. -/
def react (conns : List Conn) (conn : Conn) (maySync : Bool) (nb : NewBlock) (height : Nat) :
    BlockVerdict → Reaction
  | .added => .notify (relayBlock conns height nb.entry (some conn.id))
  | .alternative | .alreadyHave => .notify []
  | .orphan => if maySync then .requestChain else .notify []
  | .missingTxs indices =>
      match (Block.fromBlob nb.entry.block).toOption.bind (·.blockId P.crypto.cnFastHash) with
      | none => .fault "announced a block that does not parse" true
      | some id => .notify [(conn, .requestFluffyMissingTx id height indices)]
  | .rejected reason ban => if ban then .fault reason true else .notify []

/-- `on_new_block`.  `maySync` says that syncing is not switched off and nothing is pending. -/
def onNewBlock (n : NodeCore σ) (conns : List Conn) (conn : Conn) (maySync : Bool) (nb : NewBlock)
    (now : Nat) : Reaction × Conn × NodeCore σ :=
  if conn.state ≠ .normal then (.notify [], conn, n)
  else
    let conn := { conn with currentHeight := max conn.currentHeight nb.currentBlockchainHeight }
    let done := n.newBlock P explain explainMalformed nb.entry now
    (react P conns conn maySync nb done.2.chain.height done.1, conn, done.2)

theorem mem_relayBlock_newBlock {conns : List Conn} {height : Nat} {entry : BlockEntry}
    {except : Option Nat} {c : Conn} {nb : NewBlock} :
    (c, .newBlock nb) ∈ relayBlock conns height entry except ↔
      (c ∈ conns ∧ some c.id ≠ except ∧ c.state = .normal ∧ c.fluffy = false) ∧
        nb = ⟨entry, height⟩ := by
  simp only [relayBlock, List.mem_map, List.mem_filter, Bool.and_eq_true, bne_iff_ne,
    decide_eq_true_eq, Prod.mk.injEq]
  constructor
  · rintro ⟨c', ⟨hmem, hother, hnormal⟩, rfl, hsent⟩
    cases hfluffy : c'.fluffy with
    | true => simp [hfluffy] at hsent
    | false =>
        rw [hfluffy] at hsent
        cases hsent
        exact ⟨⟨hmem, hother, hnormal, rfl⟩, rfl⟩
  · rintro ⟨⟨hmem, hother, hnormal, hfluffy⟩, rfl⟩
    exact ⟨c, ⟨hmem, hother, hnormal⟩, rfl, by simp [hfluffy]⟩

variable {P} {explain} {explainMalformed}

/-- What is sent when an announced block was added. -/
theorem onNewBlock_added {n : NodeCore σ} {conns : List Conn} {conn : Conn} {maySync : Bool}
    {nb : NewBlock} {now : Nat} (hstate : conn.state = .normal)
    (hadded : (n.newBlock P explain explainMalformed nb.entry now).1 = .added) :
    (onNewBlock P explain explainMalformed n conns conn maySync nb now).1.sent =
      relayBlock conns (n.newBlock P explain explainMalformed nb.entry now).2.chain.height nb.entry
        (some conn.id) := by
  simp only [onNewBlock, hstate, ne_eq, not_true_eq_false, if_false, hadded, react, Reaction.sent]

/-- **A whole-block relay is whole** exactly when there is nobody to relay it to, or the block
    arrived with its transactions, all of them in order and none beside.  What was taken from the
    pool does not go on. -/
theorem relayed_whole_iff (n : NodeCore σ) (conns : List Conn) (conn : Conn) (maySync : Bool)
    (nb : NewBlock) (now : Nat) (hstate : conn.state = .normal)
    (hadded : (n.newBlock P explain explainMalformed nb.entry now).1 = .added) :
    (∀ c relayed, (c, .newBlock relayed) ∈
        (onNewBlock P explain explainMalformed n conns conn maySync nb now).1.sent →
      relayed.entry.block = nb.entry.block ∧
        ∃ received, receive P.crypto relayed.entry.block relayed.entry.txs = .ok received) ↔
      (∀ c ∈ conns, c.id ≠ conn.id → c.state = .normal → c.fluffy = true) ∨
        nb.entry.Whole P.crypto := by
  simp only [onNewBlock_added hstate hadded, mem_relayBlock_newBlock, receive_isOk]
  constructor
  · intro hwhole
    by_cases hnobody : ∀ c ∈ conns, c.id ≠ conn.id → c.state = .normal → c.fluffy = true
    · exact Or.inl hnobody
    · push Not at hnobody
      obtain ⟨c, hmem, hother, hnormal, hfluffy⟩ := hnobody
      refine Or.inr (hwhole c _ ⟨⟨hmem, ?_, hnormal, by simpa using hfluffy⟩, rfl⟩).2
      simpa using hother
  · rintro (hnobody | hwhole) c relayed ⟨⟨hmem, hother, hnormal, hfluffy⟩, rfl⟩
    · rw [hnobody c hmem (by simpa using hother) hnormal] at hfluffy
      cases hfluffy
    · exact ⟨rfl, hwhole⟩

end

end P2p

end Wownero

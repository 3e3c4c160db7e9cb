import Mathlib.Algebra.Group.Fin.Basic
import Mathlib.Tactic.Ring
import Wownero.Runs
/-!
# A network small enough to evaluate

Primitives that can be computed on paper, blocks that a miner with nothing else to do would make,
and the runs of such a miner.  Statements about concrete blocks are about these.
-/

namespace Wownero.Sample

open Wownero Wownero.TxRules

/-! ### Primitives -/

/-- A hash: the bytes as digits, modulo the largest prime below `2 ^ 256`. -/
def digest (bytes : Blob) : Hash256 :=
  BitVec.ofNat 256 (bytes.foldl (fun acc b => acc * 257 + b.toNat + 1) 7 % (2 ^ 256 - 189))

/-- Forty points: a prime subgroup of order five, and torsion of order eight beside it.  Multiples
    are computed by multiplication. -/
@[reducible] def points : AddCommGroup (Fin 40) :=
  { (inferInstance : AddCommGroup (Fin 40)) with
    nsmul := fun n p => Fin.ofNat 40 (n * p.val)
    nsmul_zero := fun p => Fin.ext (by show 0 * p.val % 40 = 0; simp)
    nsmul_succ := fun n p => Fin.ext (by
      show (n + 1) * p.val % 40 = (n * p.val % 40 + p.val) % 40
      rw [Nat.add_mul]
      omega) }

/-- Primitives over them.  A point is spelled as its number, a key hashes to the point one, and
    range proofs and miner signatures are taken on trust. -/
def crypto : Crypto where
  Point := Fin 40
  group := points
  decEq := inferInstance
  ell := 5
  invEight := 2
  basepoint := 8
  hPoint := 16
  decodePoint b := if h : b.toNat < 40 then some ⟨b.toNat, h⟩ else none
  encodePoint p := BitVec.ofNat 256 p.val
  cnFastHash := digest
  geFromfeFrombytes _ := 1
  checkSignature _ _ _ := true
  bppVerify _ := .ok ()

/-- A chain of the fork table of the main network, without checkpoints, whose proofs of work and
    signatures nobody checks. -/
def bare : Params Unit where
  crypto := crypto
  pow := .trusting
  network := .fakechain

/-- The bare chain, with a difficulty of which two are more than `u128` holds. -/
def heavy : Params Unit := { bare with fixedDifficulty := some (2 ^ 127) }

/-- The bare chain, trusting its first two blocks. -/
def trusting : Params Unit := { bare with trustedBelow := 2 }

section

variable {σ : Type} (P : Params σ)

/-- A chain that was just opened over an empty store. -/
def opened (v : σ) : Chain σ := ⟨Store.empty, ChainState.default, .empty, [], v⟩

theorem new_empty (v : σ) : Chain.new P Store.empty v = .ok (opened v) := rfl

/-! ### A miner -/

/-- A coinbase of version 2. -/
def coinbase (height unlockTime : Nat) (vout : List TxOut) : Transaction :=
  let p : TransactionPrefix := ⟨2, unlockTime, [.gen height], vout, []⟩
  { txPrefix := p, prefixSize := p.write.length, unprunableSize := p.write.length + 1 }

/-- A block on the tip of a chain that lists these transactions and claims the reward and their
    fees, five minutes for each block after the first. -/
def nextBlock (c : Chain σ) (fees : Nat) (txHashes : List Hash256) : Block :=
  let version := currentVersion P c.db.main
  let reward := (u64Max - c.state.alreadyGeneratedCoins) / 2 ^ 20
  let unlockTime := (chainUnlockTime P c.db.main c.height version).toOption.getD 0
  { header := ⟨version, version, 300 * c.height, (topHash c.db.main).getD nullHash, 0,
      Signature.zero, 0⟩
    minerTx := coinbase c.height unlockTime [⟨reward + fees, .toKey 8⟩]
    txHashes := txHashes }

/-- The clock of the miner. -/
def clock : Nat := 400000000

/-- One operation of the miner: a block without transactions. -/
def mineEmpty (c : Chain σ) : Action σ :=
  let blk := nextBlock P c 0 []
  .addBlock blk blk.toBlob [] clock

/-- The miner at work: what was done, and the chain it has led to. -/
def mined (c : Chain σ) : Nat → List (Action σ) × Chain σ
  | 0 => ([], c)
  | n + 1 =>
      let before := mined c n
      let a := mineEmpty P before.2
      (before.1 ++ [a], (before.2.act P a).2)

/-- The chain the miner has led to is that of its operations. -/
theorem mined_run (c : Chain σ) (n : Nat) : c.run P (mined P c n).1 = (mined P c n).2 := by
  induction n with
  | zero => rfl
  | succ n ih => rw [mined, run_snoc, ih]

end

/-! ### A fork -/

def genesis : Block := nextBlock bare (opened ()) 0 []

def afterGenesis : Chain Unit := ((opened ()).addBlock bare genesis genesis.toBlob [] clock).2

def first : Block := nextBlock bare afterGenesis 0 []

/-- The first block with another nonce. -/
def rival : Block := { first with header := { first.header with nonce := 1 } }

def afterRival : Chain Unit := (afterGenesis.addBlock bare rival rival.toBlob [] clock).2

def second : Block := nextBlock bare afterRival 0 []

/-- The second block, with a coinbase that claims too much. -/
def greedy : Block := nextBlock bare afterRival 1 []

/-- The first block under these bytes on the main chain, and its rival beside it. -/
def fork (blob : Blob) : List (Action Unit) :=
  [.addBlock genesis genesis.toBlob [] clock, .addBlock first blob [] clock,
    .handleBlock rival rival.toBlob [] clock]

/-! ### A spender -/

/-- A small scalar. -/
def scalar (n : Nat) : EcScalar := BitVec.ofNat 256 (n * 2 ^ 248)

/-- An input with the scalars of its signature. -/
structure Spend where
  amount : Nat
  keyOffsets : List Nat
  kImage : KeyImage
  s : List Nat
  c1 : Nat

def Spend.input (x : Spend) : TxIn := .toKey x.amount x.keyOffsets x.kImage

def Spend.clsag (x : Spend) : Clsag := ⟨x.s.map scalar, scalar x.c1, 1⟩

/-- A transaction with the sizes its parser finds. -/
def sized (p : TransactionPrefix) (rct : RctSignatures) : Transaction where
  txPrefix := p
  rctSignatures := rct
  prefixSize := p.write.length
  unprunableSize := p.write.length + rct.writeBase.length

/-- A transaction whose commitments, those of its inputs included, are all to nothing. -/
def spend (ty : RctType) (fee unlockTime : Nat) (ins : List Spend) (targets : List TxOutTarget) :
    Transaction :=
  sized
    ⟨2, unlockTime, ins.map Spend.input, targets.map fun target => ⟨0, target⟩, []⟩
    { ty := ty
      txnFee := fee
      ecdhInfo := targets.map fun _ => ⟨0, 0⟩
      outPk := targets.map fun _ => 0
      bulletproofsPlus := [⟨0, 0, 0, 0, 0, 0, List.replicate 7 0, List.replicate 7 0⟩]
      clsags := ins.map Spend.clsag
      pseudoOuts := ins.map fun _ => 0 }

/-- More than any fee a node asks for. -/
def fee : Nat := 1000000000000

/-- A payment of everything to the fee and nothing to two keys. -/
def pay (unlockTime : Nat) (x : Spend) : Transaction :=
  spend .bulletproofPlus fee unlockTime [x] [.toKey 8, .toKey 16]

/-- A full ring around the first output, with a key image and the challenge it begins at. -/
def fullRing (kImage : KeyImage) (c1 : Nat) : Spend :=
  ⟨0, List.replicate 22 0, kImage, List.replicate 22 0, c1⟩

/-- The id a transaction is stored under. -/
def txId (tx : Transaction) : Hash256 := (storedTxHash crypto tx tx.write).toOption.getD 0

end Wownero.Sample

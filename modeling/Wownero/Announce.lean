import Wownero.Node
import Wownero.Spends
/-!
# An announced block, completed in rounds

A block is announced with some of its transactions, the rest is taken from the pool, and what is
still missing is asked for.  The answer is judged as if it were the first message: nothing of the
announcement has been kept.  What came with the announcement and with nothing else is missing again,
and is asked for next.
-/

namespace Wownero

open Outcome Mempool

/-! ### Transactions by their hashes -/

section

variable {C : Crypto}

/-- The hash a transaction on the wire is known by, if it parses and has one. -/
def txBlobId (C : Crypto) (blob : Blob) : Option Hash256 :=
  (Transaction.fromBlob blob).toOption.bind fun tx => transactionHashFromBlob C.cnFastHash tx blob

/-- The hashes of what came with a message. -/
def BlockEntry.suppliedIds (C : Crypto) (entry : BlockEntry) : List Hash256 :=
  entry.txs.filterMap (txBlobId C)

theorem suppliedTxs_cons {supplied : Table Hash256 Blob} {blob : Blob} {blobs : List Blob}
    {table : Table Hash256 Blob} :
    suppliedTxs C supplied (blob :: blobs) = .ok table ↔
      ∃ h, txBlobId C blob = some h ∧ suppliedTxs C (supplied.put h blob) blobs = .ok table := by
  rw [suppliedTxs, txBlobId]
  cases hparse : Transaction.fromBlob blob with
  | error e => simp [Except.toOption]
  | ok tx =>
      cases hhash : transactionHashFromBlob C.cnFastHash tx blob with
      | none => simp [Except.toOption, hhash]
      | some h => simp [Except.toOption, hhash]

/-- The table holds what it held and what was supplied. -/
theorem has_suppliedTxs {supplied table : Table Hash256 Blob} {blobs : List Blob}
    (h : suppliedTxs C supplied blobs = .ok table) (id : Hash256) :
    table.has id = true ↔ supplied.has id = true ∨ id ∈ blobs.filterMap (txBlobId C) := by
  induction blobs generalizing supplied with
  | nil =>
      simp only [suppliedTxs, Except.ok.injEq] at h
      subst h
      simp
  | cons blob blobs ih =>
      obtain ⟨h', hid, hrest⟩ := suppliedTxs_cons.mp h
      rw [ih hrest, List.filterMap_cons_some hid, List.mem_cons, Table.has_eq, Table.get_put,
        Table.has_eq]
      by_cases heq : id = h'
      · simp [heq]
      · simp [heq]

/-- Transactions that all parse and have hashes are supplied. -/
theorem suppliedTxs_of_ids {supplied : Table Hash256 Blob} {blobs : List Blob}
    (h : ∀ blob ∈ blobs, (txBlobId C blob).isSome = true) :
    ∃ table, suppliedTxs C supplied blobs = .ok table := by
  induction blobs generalizing supplied with
  | nil => exact ⟨supplied, rfl⟩
  | cons blob blobs ih =>
      rw [List.forall_mem_cons] at h
      obtain ⟨id, hid⟩ := Option.isSome_iff_exists.mp h.1
      obtain ⟨table, htable⟩ := @ih (supplied.put id blob) h.2
      exact ⟨table, suppliedTxs_cons.mpr ⟨id, hid, htable⟩⟩

/-! ### What is missing -/

/-- A place in a list with a head is the head or a place in the tail. -/
private theorem exists_place_cons {x : Hash256} {hs : List Hash256} {i k : Nat}
    {Q R : Hash256 → Prop} :
    (∃ j h, k = i + j ∧ (x :: hs)[j]? = some h ∧ Q h ∧ (R h ∨ h ∈ (x :: hs).take j)) ↔
      (k = i ∧ Q x ∧ R x) ∨
        ∃ j h, k = i + 1 + j ∧ hs[j]? = some h ∧ Q h ∧ ((R h ∨ h = x) ∨ h ∈ hs.take j) := by
  constructor
  · rintro ⟨j, h, hk, hget, hq, hr⟩
    cases j with
    | zero =>
        cases hget
        exact Or.inl ⟨hk, hq, hr.resolve_right (List.not_mem_nil)⟩
    | succ j =>
        refine Or.inr ⟨j, h, by omega, hget, hq, ?_⟩
        rw [List.take_succ_cons, List.mem_cons] at hr
        rcases hr with hr | hr | hr
        · exact Or.inl (Or.inl hr)
        · exact Or.inl (Or.inr hr)
        · exact Or.inr hr
  · rintro (⟨rfl, hq, hr⟩ | ⟨j, h, hk, hget, hq, hr⟩)
    · exact ⟨0, x, rfl, rfl, hq, Or.inl hr⟩
    · refine ⟨j + 1, h, by omega, hget, hq, ?_⟩
      rw [List.take_succ_cons, List.mem_cons]
      rcases hr with (hr | hr) | hr
      · exact Or.inl hr
      · exact Or.inr (Or.inl hr)
      · exact Or.inr (Or.inr hr)

/-- **What is missing**: each place whose hash the pool does not hold, and that was not supplied or
    was supplied for an earlier place. -/
theorem mem_fillFrom_missing {pool : TxPool} {supplied : Table Hash256 Blob} {hs : List Hash256}
    {i k : Nat} :
    k ∈ (fillFrom pool supplied i hs).2 ↔ ∃ j h, k = i + j ∧ hs[j]? = some h ∧
      pool.contains h = false ∧ (supplied.has h = false ∨ h ∈ hs.take j) := by
  induction hs generalizing supplied i with
  | nil => simp [fillFrom]
  | cons x hs ih =>
      rw [exists_place_cons (Q := fun h => pool.contains h = false)
        (R := fun h => supplied.has h = false)]
      cases hget : supplied.get x with
      | some blob =>
          have hhas : supplied.has x = true := by rw [Table.has_eq, hget]; rfl
          -- The transaction is used up: from here on it counts as not supplied.
          have hdel : ∀ h, (supplied.del x).has h = false ↔ supplied.has h = false ∨ h = x := by
            intro h
            rw [Table.has_eq, Table.get_del, Table.has_eq]
            by_cases heq : h = x
            · simp [heq]
            · simp [heq]
          simp only [fillFrom, hget, ih, hdel, hhas, Bool.true_eq_false, and_false, false_or]
      | none =>
          have hhas : supplied.has x = false := by rw [Table.has_eq, hget]; rfl
          have hor : ∀ h, (supplied.has h = false ∨ h = x) ↔ supplied.has h = false := by
            intro h
            constructor
            · rintro (hnot | rfl)
              · exact hnot
              · exact hhas
            · exact Or.inl
          cases hpool : pool.byId.get x with
          | some e =>
              have hheld : pool.contains x = true := by
                rw [TxPool.contains, Table.has_eq, hpool]
                rfl
              simp only [fillFrom, hget, hpool, ih, hor, hheld, Bool.true_eq_false, false_and,
                and_false, false_or]
          | none =>
              have hheld : pool.contains x = false := by
                rw [TxPool.contains, Table.has_eq, hpool]
                rfl
              simp only [fillFrom, hget, hpool, List.mem_cons, ih, hor, hheld, hhas, and_true]

/-! ### The second round -/

/-- The answer to a request: the same block, and a transaction for each index asked for. -/
structure AnswersMissing (C : Crypto) (entry : BlockEntry) (indices : List Nat)
    (answer : BlockEntry) : Prop where
  block : answer.block = entry.block
  txs : ∀ block, Block.fromBlob entry.block = .ok block →
    answer.txs.map (txBlobId C) = indices.map fun i => block.txHashes[i]?

variable {σ : Type}

/-- What completes the block the second time: the node has the block by then, or the pool has what
    came with the announcement and what the block lists twice. -/
def NodeCore.Completes (C : Crypto) (n : NodeCore σ) (entry : BlockEntry) : Prop :=
  ∀ block id, Block.fromBlob entry.block = .ok block → block.blockId C.cnFastHash = some id →
    n.chain.db.haveBlock id = true ∨ ∀ h ∈ block.txHashes,
      h ∈ entry.suppliedIds C ∨ 1 < block.txHashes.count h → n.pool.contains h = true

theorem openEntry_ok {s : Store} {entry : BlockEntry} {block : Block}
    {supplied : Table Hash256 Blob} (h : openEntry C s entry = .ok (block, supplied)) :
    Block.fromBlob entry.block = .ok block ∧ ∃ id, block.blockId C.cnFastHash = some id ∧
      s.haveBlock id = false ∧ suppliedTxs C .empty entry.txs = .ok supplied := by
  unfold openEntry at h
  split at h
  · cases h
  · rename_i blk hparse
    split at h
    · cases h
    · rename_i id hid
      split_ifs at h with hhave
      cases hsupplied : suppliedTxs C .empty entry.txs with
      | error v =>
          rw [hsupplied] at h
          cases h
      | ok table =>
          rw [hsupplied] at h
          cases h
          exact ⟨hparse, id, hid, by simpa using hhave, rfl⟩

theorem suppliedTxs_ne_missing {supplied : Table Hash256 Blob} {blobs : List Blob}
    {indices : List Nat} : suppliedTxs C supplied blobs ≠ .error (.missingTxs indices) := by
  induction blobs generalizing supplied with
  | nil => exact nofun
  | cons blob blobs ih =>
      unfold suppliedTxs
      split
      · exact nofun
      · split
        · exact nofun
        · exact ih

theorem openEntry_ne_missing {s : Store} {entry : BlockEntry} {indices : List Nat} :
    openEntry C s entry ≠ .error (.missingTxs indices) := by
  unfold openEntry
  split
  · exact nofun
  · split
    · exact nofun
    · split_ifs
      · exact nofun
      · cases hsupplied : suppliedTxs C .empty entry.txs with
        | error v =>
            rintro ⟨⟩
            exact suppliedTxs_ne_missing hsupplied
        | ok table => exact nofun

theorem fill_missing_iff {n : NodeCore σ} {entry : BlockEntry} {indices : List Nat} :
    n.fill C entry = .error (.missingTxs indices) ↔ ∃ block supplied,
      openEntry C n.chain.db entry = .ok (block, supplied) ∧
        indices = (fillFrom n.pool supplied 0 block.txHashes).2 ∧ indices ≠ [] := by
  unfold NodeCore.fill
  cases hopen : openEntry C n.chain.db entry with
  | error v =>
      refine iff_of_false ?_ ?_
      · rintro ⟨⟩
        exact openEntry_ne_missing hopen
      · rintro ⟨_, _, ⟨⟩, _⟩
  | ok opened =>
      obtain ⟨block, supplied⟩ := opened
      simp only
      split_ifs with hempty
      · refine iff_of_false nofun ?_
        rintro ⟨_, _, ⟨⟩, rfl, hne⟩
        exact hne (List.isEmpty_iff.mp hempty)
      · constructor
        · rintro ⟨⟩
          exact ⟨block, supplied, rfl, rfl, fun heq => hempty (List.isEmpty_iff.mpr heq)⟩
        · rintro ⟨_, _, ⟨⟩, rfl, _⟩
          rfl

/-- What is in the pool, or was supplied for its first place. -/
theorem fillFrom_complete_iff {pool : TxPool} {supplied : Table Hash256 Blob} {hs : List Hash256} :
    (fillFrom pool supplied 0 hs).2 = [] ↔ ∀ (j : Nat) (h : Hash256), hs[j]? = some h →
      pool.contains h = true ∨ (supplied.has h = true ∧ h ∉ hs.take j) := by
  rw [List.eq_nil_iff_forall_not_mem]
  constructor
  · intro hnone j h hget
    have hj := hnone j
    rw [mem_fillFrom_missing] at hj
    by_contra hnot
    rw [not_or, Bool.not_eq_true] at hnot
    refine hj ⟨j, h, (Nat.zero_add j).symm, hget, hnot.1, ?_⟩
    by_cases hhas : supplied.has h = true
    · exact Or.inr (not_not.mp fun hmem => hnot.2 ⟨hhas, hmem⟩)
    · exact Or.inl (by simpa using hhas)
  · intro hall k hk
    obtain ⟨j, h, _, hget, hpool, hrest⟩ := mem_fillFrom_missing.mp hk
    rcases hall j h hget with hheld | ⟨hhas, hfirst⟩
    · rw [hpool] at hheld
      cases hheld
    · rcases hrest with hnot | hmem
      · rw [hhas] at hnot
        cases hnot
      · exact hfirst hmem

theorem count_take_pos {hs : List Hash256} {j : Nat} {h : Hash256} (hget : hs[j]? = some h)
    (hmem : h ∈ hs.take j) : 1 < hs.count h := by
  obtain ⟨hj, rfl⟩ := List.getElem?_eq_some_iff.mp hget
  have hsplit : hs.count hs[j] = (hs.take j).count hs[j] + (hs.drop j).count hs[j] := by
    rw [← List.count_append, List.take_append_drop]
  have hdrop : 0 < (hs.drop j).count hs[j] := by
    rw [List.count_pos_iff, List.drop_eq_getElem_cons hj]
    exact List.mem_cons_self
  have htake : 0 < (hs.take j).count hs[j] := List.count_pos_iff.mpr hmem
  omega

theorem exists_later_of_count {hs : List Hash256} {h : Hash256} (hcount : 1 < hs.count h) :
    ∃ j, hs[j]? = some h ∧ h ∈ hs.take j := by
  induction hs with
  | nil => simp at hcount
  | cons x hs ih =>
      rw [List.count_cons] at hcount
      by_cases heq : x = h
      · subst heq
        rw [if_pos (beq_self_eq_true x)] at hcount
        have hmem : x ∈ hs := List.count_pos_iff.mp (by omega)
        obtain ⟨j, hj, rfl⟩ := List.mem_iff_getElem.mp hmem
        exact ⟨j + 1, by simp [hj], by simp⟩
      · obtain ⟨j, hget, hmem⟩ := ih (by simpa [heq] using hcount)
        exact ⟨j + 1, by simpa using hget, by simp [hmem]⟩

/-- **The second round.**  Once the answer is there, nothing is missing exactly when the node has
    the block by then, or its pool holds whatever came with the announcement and whatever the block
    lists twice. -/
theorem answered_iff (n n' : NodeCore σ) (entry answer : BlockEntry) (indices : List Nat)
    (hmissing : n.fill C entry = .error (.missingTxs indices))
    (hanswer : AnswersMissing C entry indices answer)
    (hpool : ∀ id, n.pool.contains id = true → n'.pool.contains id = true) :
    (∀ again, n'.fill C answer ≠ .error (.missingTxs again)) ↔ n'.Completes C entry := by
  obtain ⟨block, supplied, hopen, hindices, _⟩ := fill_missing_iff.mp hmissing
  obtain ⟨hparse, id, hid, _, hsupplied⟩ := openEntry_ok hopen
  have hasked := hanswer.txs block hparse
  have hfirst := has_suppliedTxs hsupplied
  -- What is asked for is listed, not in the pool, and was not supplied or was used up.
  have hindex : ∀ i, i ∈ indices ↔ ∃ h, block.txHashes[i]? = some h ∧
      n.pool.contains h = false ∧ (supplied.has h = false ∨ h ∈ block.txHashes.take i) := by
    intro i
    rw [hindices, mem_fillFrom_missing]
    simp only [Nat.zero_add]
    constructor
    · rintro ⟨j, h, rfl, hget, hrest⟩
      exact ⟨h, hget, hrest⟩
    · rintro ⟨h, hget, hrest⟩
      exact ⟨i, h, rfl, hget, hrest⟩
  have hids : ∀ h, h ∈ answer.suppliedIds C ↔ ∃ i ∈ indices, block.txHashes[i]? = some h := by
    intro h
    rw [BlockEntry.suppliedIds, List.mem_filterMap]
    have hmem := congrArg (some h ∈ ·) hasked
    simpa using hmem
  obtain ⟨table, htable⟩ : ∃ table, suppliedTxs C .empty answer.txs = .ok table := by
    refine suppliedTxs_of_ids fun blob hblob => ?_
    have hmem : txBlobId C blob ∈ indices.map fun i => block.txHashes[i]? :=
      hasked ▸ List.mem_map_of_mem hblob
    obtain ⟨i, hi, heq⟩ := List.mem_map.mp hmem
    obtain ⟨h, hget, _⟩ := (hindex i).mp hi
    rw [← heq, hget]
    rfl
  have hsecond : ∀ h, table.has h = true ↔ ∃ i ∈ indices, block.txHashes[i]? = some h := by
    intro h
    rw [has_suppliedTxs htable, ← hids, BlockEntry.suppliedIds]
    simp [Table.has_eq]
  have hcompletes : n'.Completes C entry ↔ n'.chain.db.haveBlock id = true ∨
      ∀ h ∈ block.txHashes, h ∈ entry.suppliedIds C ∨ 1 < block.txHashes.count h →
        n'.pool.contains h = true := by
    constructor
    · intro h
      exact h block id hparse hid
    · intro h block' id' hparse' hid'
      rw [hparse] at hparse'
      cases hparse'
      rw [hid] at hid'
      cases hid'
      exact h
  rw [hcompletes]
  cases hhave : n'.chain.db.haveBlock id with
  | true =>
      refine iff_of_true ?_ (Or.inl rfl)
      intro again hagain
      obtain ⟨block', supplied', hopen', _⟩ := fill_missing_iff.mp hagain
      obtain ⟨hparse', id', hid', hnot, _⟩ := openEntry_ok hopen'
      rw [hanswer.block, hparse] at hparse'
      cases hparse'
      rw [hid] at hid'
      cases hid'
      rw [hhave] at hnot
      cases hnot
  | false =>
      have hopen' : openEntry C n'.chain.db answer = .ok (block, table) := by
        simp only [openEntry, hanswer.block, hparse, hid, hhave, htable, Except.map,
          Bool.false_eq_true, if_false]
      have hfill : (∀ again, n'.fill C answer ≠ .error (.missingTxs again)) ↔
          (fillFrom n'.pool table 0 block.txHashes).2 = [] := by
        constructor
        · intro hnone
          by_contra hne
          exact hnone _ (fill_missing_iff.mpr ⟨block, table, hopen', rfl, hne⟩)
        · rintro hnil again hagain
          obtain ⟨block', supplied', hopen'', rfl, hne⟩ := fill_missing_iff.mp hagain
          rw [hopen'] at hopen''
          cases hopen''
          exact hne hnil
      rw [hfill, fillFrom_complete_iff]
      simp only [Bool.false_eq_true, false_or]
      constructor
      · intro hall h hmem hcase
        by_contra hnot
        have honce : ∀ j, block.txHashes[j]? = some h → table.has h = true ∧
            h ∉ block.txHashes.take j := fun j hget => (hall j h hget).resolve_left hnot
        rcases hcase with hin | hcount
        · obtain ⟨j, hj, rfl⟩ := List.mem_iff_getElem.mp hmem
          have hget := List.getElem?_eq_getElem hj
          obtain ⟨i, hi, hget'⟩ := (hsecond _).mp (honce j hget).1
          obtain ⟨h', hget'', _, hrest⟩ := (hindex i).mp hi
          rw [hget'] at hget''
          cases hget''
          rcases hrest with hnot' | hearlier
          · have hhas := (hfirst block.txHashes[j]).mpr (Or.inr hin)
            rw [hhas] at hnot'
            cases hnot'
          · exact (honce i hget').2 hearlier
        · obtain ⟨j, hget, hearlier⟩ := exists_later_of_count hcount
          exact (honce j hget).2 hearlier
      · intro hall j h hget
        have hmem := List.mem_of_getElem? hget
        by_cases hheld : n'.pool.contains h = true
        · exact Or.inl hheld
        · have hnot := mt (hall h hmem) hheld
          rw [not_or] at hnot
          have hearlier : h ∉ block.txHashes.take j := fun hin =>
            hnot.2 (count_take_pos hget hin)
          refine Or.inr ⟨(hsecond h).mpr ⟨j, (hindex j).mpr ⟨h, hget, ?_, Or.inl ?_⟩, hget⟩, hearlier⟩
          · simpa using mt (hpool h) hheld
          · rw [← Bool.not_eq_true, hfirst]
            rintro (hempty | hin)
            · cases hempty
            · exact hnot.1 hin

/-- A peer whose store was written by blocks that come back as they went in answers so. -/
theorem blockWithTxs_answers {peer : NodeCore σ} {blocks : List Handed}
    (hbooks : Books C blocks peer.chain.db.main) {id : Hash256} {indices : List Nat}
    {entry answer : BlockEntry} (h : peer.blockWithTxs id indices = some answer)
    (hsame : answer.block = entry.block) : AnswersMissing C entry indices answer := by
  simp only [NodeCore.blockWithTxs, Option.bind_eq_bind, Option.bind_eq_some_iff,
    Option.pure_def, Option.some.injEq] at h
  obtain ⟨height, _, blob, hblob, block, hblock, txs, htxs, rfl⟩ := h
  refine ⟨hsame, ?_⟩
  intro block' hparse
  simp only at hsame
  rw [← hsame] at hparse
  rw [hparse] at hblock
  cases hblock
  rw [hbooks.blobs] at hblob
  obtain ⟨b, hb, rfl⟩ := Option.map_eq_some_iff.mp hblob
  have hmem := List.mem_of_getElem? hb
  have hretrievable := (hbooks.faithful b hmem).retrievable
  rw [hretrievable.parses] at hparse
  cases hparse
  have hlen := hretrievable.listed.length_eq
  -- Each id the block lists leads to bytes of that id.
  have hfound : ∀ (i : Nat) (blob : Blob), ((b.blk.txHashes[i]?).bind fun h =>
      (peer.chain.db.main.getTxBlob h).toOption) = some blob →
      txBlobId C blob = b.blk.txHashes[i]? := by
    intro i blob hget
    obtain ⟨h, hi, htx⟩ := Option.bind_eq_some_iff.mp hget
    obtain ⟨hlt, rfl⟩ := List.getElem?_eq_some_iff.mp hi
    have hp : i < b.txs.length := hlen ▸ hlt
    have hzip : (b.blk.txHashes[i], b.txs[i]) ∈ b.blk.txHashes.zip b.txs := by
      rw [← List.getElem_zip (h := by rw [List.length_zip]; omega)]
      exact List.getElem_mem _
    rw [hbooks.filed b hmem _ hzip] at htx
    cases htx
    have hstored := storedTxHash_eq_ok.mp
      (List.forall₂_zip hretrievable.listed.forall₂ hzip)
    rw [txBlobId, hretrievable.listed.parses _ (List.getElem_mem hp), hi]
    exact hstored
  clear hb
  induction indices generalizing txs with
  | nil =>
      cases htxs
      rfl
  | cons i indices ih =>
      rw [List.mapM_cons] at htxs
      simp only [Option.bind_eq_bind, Option.bind_eq_some_iff, Option.pure_def,
        Option.some.injEq] at htxs
      obtain ⟨blob, hi, rest, hrest, rfl⟩ := htxs
      rw [List.map_cons, List.map_cons, hfound i blob (Option.bind_eq_some_iff.mpr hi)]
      exact congrArg _ (ih rest hrest)

end

namespace Sample

/-- A block on the chain of one that lists two transactions. -/
def pairBlock : Block := { first with txHashes := [txId (tiny 1), txId (tiny 2)] }

/-- Announced with these of them. -/
def announcedWith (txs : List Blob) : BlockEntry := ⟨pairBlock.toBlob, txs, 0⟩

/-- The block is read back, and its transactions are two. -/
theorem pairBlock_outcomes : Block.fromBlob pairBlock.toBlob = .ok pairBlock ∧
    pairBlock.txHashes.Nodup := by
  decide +kernel

/-- Announced without transactions, the block is complete with the answer. -/
theorem answered_iff_bare :
    (withPool .new).fill crypto (announcedWith []) = .error (.missingTxs [0, 1]) ∧
      ∀ again, (withPool .new).fill crypto (announcedWith [(tiny 1).write, (tiny 2).write]) ≠
        .error (.missingTxs again) := by
  have hmissing : (withPool .new).fill crypto (announcedWith []) = .error (.missingTxs [0, 1]) := by
    decide +kernel
  have hanswer : AnswersMissing crypto (announcedWith []) [0, 1]
      (announcedWith [(tiny 1).write, (tiny 2).write]) := by
    refine ⟨rfl, ?_⟩
    intro block hblock
    rw [announcedWith, pairBlock_outcomes.1] at hblock
    cases hblock
    decide +kernel
  refine ⟨hmissing, (answered_iff (withPool .new) (withPool .new) _ _ _ hmissing hanswer
    fun _ h => h).mpr ?_⟩
  intro block id hblock _
  rw [announcedWith, pairBlock_outcomes.1] at hblock
  cases hblock
  refine Or.inr fun h _ hcase => ?_
  rcases hcase with hin | htwice
  · cases hin
  · exact absurd (List.nodup_iff_count_le_one.mp pairBlock_outcomes.2 h) (Nat.not_le.mpr htwice)

/-- Announced with one of its transactions, the block lacks that one when the other arrives, and the
    other again when the first is sent once more. -/
theorem announced_twice_missing :
    (withPool .new).fill crypto (announcedWith [(tiny 1).write]) = .error (.missingTxs [1]) ∧
      AnswersMissing crypto (announcedWith [(tiny 1).write]) [1]
        (announcedWith [(tiny 2).write]) ∧
      (withPool .new).fill crypto (announcedWith [(tiny 2).write]) = .error (.missingTxs [0]) := by
  refine ⟨by decide +kernel, ⟨rfl, ?_⟩, by decide +kernel⟩
  intro block hblock
  rw [announcedWith, pairBlock_outcomes.1] at hblock
  cases hblock
  decide +kernel

end Sample

end Wownero

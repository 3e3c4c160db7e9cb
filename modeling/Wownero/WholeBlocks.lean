import Wownero.Lookups
import Wownero.Paths
/-!
# Whole blocks only

What a wallet holds should be of the blocks it has: outputs and spends of blocks between its first
and its last, filed where the lookups say, under a chain of hashes that name each other.  A refresh
keeps all of it but where it records as it reads: the transactions of a block are scanned one by
one, and a later one may not parse.
-/

namespace Wownero

open Wownero.Archive

/-- An output of a block from `lo` on and below `h`, spent below `h` if at all. -/
structure Transfer.Timely (lo h : Nat) (t : Transfer) : Prop where
  low : lo ≤ t.blockHeight
  high : t.blockHeight < h
  spends : t.spentHeight < h
  marks : t.spent = false → t.spentHeight = 0

variable {C : Crypto}

namespace WalletState

/-- Everything held is of blocks from `lo` on and below `h`, or spent below `h`. -/
structure HeldBelow (lo h : Nat) (w : WalletState) : Prop where
  transfers : ∀ t ∈ w.transfers, t.Timely lo h
  sent : ∀ s ∈ w.sent, ∀ c, s.state = .confirmed c → c < h

/-- A wallet that holds what is of its own blocks, each output once, filed where it is held. -/
structure Whole (w : WalletState) : Prop where
  heights : w.HeldBelow w.startHeight w.scanHeight
  byImage : w.ImagesListed
  byKey : w.KeysListed
  distinct : (w.transfers.map (·.publicKey)).Nodup

/-- What recording an output keeps whatever its image. -/
structure Filed (lo h : Nat) (w : WalletState) : Prop where
  heights : w.HeldBelow lo h
  keys : w.KeysListed
  images : w.ImagesLead

theorem whole_iff {w : WalletState} :
    w.Whole ↔ w.Filed w.startHeight w.scanHeight ∧ ¬ w.Misfiled := by
  constructor
  · rintro ⟨hheights, himages, hkeys, -⟩
    rcases imagesListed_iff.mp himages with ⟨hlead, hfiled⟩
    exact ⟨⟨hheights, hkeys, hlead⟩, hfiled⟩
  · rintro ⟨⟨hheights, hkeys, hlead⟩, hfiled⟩
    exact ⟨hheights, imagesListed_iff.mpr ⟨hlead, hfiled⟩, hkeys, hkeys.distinct⟩

/-! ### What is held, whatever the chain -/

theorem Transfer.Timely.mono {lo lo' h h' : Nat} {t : Transfer} (ht : t.Timely lo h) (hlo : lo' ≤ lo)
    (hle : h ≤ h') : t.Timely lo' h' where
  low := Nat.le_trans hlo ht.low
  high := Nat.lt_of_lt_of_le ht.high hle
  spends := Nat.lt_of_lt_of_le ht.spends hle
  marks := ht.marks

theorem HeldBelow.mono {lo lo' h h' : Nat} {w : WalletState} (hw : w.HeldBelow lo h) (hlo : lo' ≤ lo)
    (hle : h ≤ h') : w.HeldBelow lo' h' where
  transfers t ht := Transfer.Timely.mono (hw.transfers t ht) hlo hle
  sent s hs c hc := Nat.lt_of_lt_of_le (hw.sent s hs c hc) hle

theorem Filed.mono {lo lo' h h' : Nat} {w : WalletState} (hw : w.Filed lo h) (hlo : lo' ≤ lo)
    (hle : h ≤ h') : w.Filed lo' h' where
  heights := hw.heights.mono hlo hle
  keys := hw.keys
  images := hw.images

/-- Wallets with the same purse hold the same. -/
theorem Filed.of_purse {lo h : Nat} {w w' : WalletState} (hw : w.Filed lo h) (hsame : w'.purse = w.purse) :
    w'.Filed lo h := by
  have htransfers : w'.transfers = w.transfers := (congrArg (fun v : WalletState => v.transfers) hsame :)
  have himages : w'.byKeyImage = w.byKeyImage := (congrArg (fun v : WalletState => v.byKeyImage) hsame :)
  have hkeys : w'.byPublicKey = w.byPublicKey := (congrArg (fun v : WalletState => v.byPublicKey) hsame :)
  have hsent : w'.sent = w.sent := (congrArg (fun v : WalletState => v.sent) hsame :)
  refine ⟨⟨?_, ?_⟩, hw.keys.of_map (by rw [htransfers]) hkeys, hw.images.of_map (by rw [htransfers]) himages⟩
  · rw [htransfers]
    exact hw.heights.transfers
  · rw [hsent]
    exact hw.heights.sent

theorem misfiled_of_purse {w w' : WalletState} (hsame : w'.purse = w.purse) :
    w'.Misfiled ↔ w.Misfiled := by
  have htransfers : w'.transfers = w.transfers := (congrArg (fun v : WalletState => v.transfers) hsame :)
  have himages : w'.byKeyImage = w.byKeyImage := (congrArg (fun v : WalletState => v.byKeyImage) hsame :)
  exact misfiled_iff_of_map (by rw [htransfers]) himages

section

variable {lo h height : Nat} {w : WalletState}

/-- A rewrite that leaves keys and images keeps everything filed, if it leaves heights in order. -/
theorem Filed.modifyTransfer (hw : w.Filed lo h) (i : Nat) {f : Transfer → Transfer} (hf : Keeps f)
    (htimely : ∀ t ∈ w.transfers, (f t).Timely lo h) : (w.modifyTransfer i f).Filed lo h := by
  refine ⟨⟨?_, hw.heights.sent⟩, ?_, ?_⟩
  · intro t ht
    rcases mem_modify ht with ht | ⟨t₀, ht₀, -, rfl⟩
    · exact hw.heights.transfers t ht
    · exact htimely t₀ ht₀
  · exact hw.keys.of_map (map_modify_of_same fun t _ => hf.publicKey t) rfl
  · exact hw.images.of_map (map_modify_of_same fun t _ => hf.keyImage t) rfl

theorem misfiled_modifyTransfer (w : WalletState) (i : Nat) {f : Transfer → Transfer} (hf : Keeps f) :
    (w.modifyTransfer i f).Misfiled ↔ w.Misfiled :=
  misfiled_iff_of_map (map_modify_of_same fun t _ => hf.keyImage t) rfl

theorem Transfer.Timely.spendAt {t : Transfer} (ht : t.Timely lo h) (hlt : height < h) :
    (spendAt height t).Timely lo h := by
  unfold WalletState.spendAt
  split
  · exact ⟨ht.low, ht.high, hlt, fun hspent => by cases hspent⟩
  · exact ht

theorem Filed.spendInputs (hw : w.Filed lo h) (hlt : height < h) (images : List KeyImage) :
    (w.spendInputs height images).Filed lo h := by
  unfold WalletState.spendInputs
  induction images generalizing w with
  | nil => exact hw
  | cons k images ih =>
      rw [List.foldl_cons]
      apply ih
      split
      · exact hw
      · rename_i i _
        apply hw.modifyTransfer i (keeps_spendAt height)
        intro t ht
        exact Transfer.Timely.spendAt (hw.heights.transfers t ht) hlt

theorem misfiled_spendInputs (w : WalletState) (height : Nat) (images : List KeyImage) :
    (w.spendInputs height images).Misfiled ↔ w.Misfiled := by
  unfold WalletState.spendInputs
  induction images generalizing w with
  | nil => rfl
  | cons k images ih =>
      rw [List.foldl_cons, ih]
      split
      · rfl
      · exact misfiled_modifyTransfer w _ (keeps_spendAt height)

theorem Filed.addTransfer (hw : w.Filed lo h) {t : Transfer} (ht : t.Timely lo h) :
    (w.addTransfer t).2.Filed lo h := by
  refine ⟨?_, hw.keys.addTransfer t, hw.images.addTransfer hw.keys.keysFound t⟩
  rcases addTransfer_cases hw.keys.keysFound t with ⟨i, held, -, -, -, heq⟩ |
    ⟨i, held, -, -, -, -, heq⟩ | ⟨-, heq⟩
  · rw [heq]
    exact hw.heights
  · rw [heq]
    refine ⟨?_, hw.heights.sent⟩
    intro t' ht'
    rcases mem_modify ht' with ht' | ⟨t₀, -, -, rfl⟩
    · exact hw.heights.transfers t' ht'
    · exact ⟨ht.low, ht.high, ht.spends, ht.marks⟩
  · rw [heq]
    refine ⟨?_, hw.heights.sent⟩
    intro t' ht'
    rcases List.mem_append.mp ht' with ht' | ht'
    · exact hw.heights.transfers t' ht'
    · rw [List.mem_singleton.mp ht']
      exact ht

theorem timely_transferOf (w : WalletState) (hlo : lo ≤ height) (timestamp : Nat) (tx : Transaction)
    (txid : Hash256) (indices : List Nat) (r : Received) :
    (transferOf C w height timestamp tx txid indices r).Timely lo (height + 1) where
  low := hlo
  high := Nat.lt_succ_self height
  spends := Nat.succ_pos height
  marks := fun _ => rfl

theorem Filed.spendSeen (hw : w.Filed lo h) {seen : SeenSpend} (hlt : seen.height < h) :
    (w.spendSeen seen).Filed lo h := by
  rcases spendSeen_transfers w seen with ⟨htransfers, himages, hkeys, -⟩
  refine ⟨⟨?_, ?_⟩, hw.keys.of_map (by rw [htransfers]) hkeys, hw.images.of_map (by rw [htransfers]) himages⟩
  · rw [htransfers]
    exact hw.heights.transfers
  · intro s hs c hc
    rcases mem_spendSeen hs with hs | ⟨-, hstate, -⟩
    · exact hw.heights.sent s hs c hc
    · rw [hstate, SentState.confirmed.injEq] at hc
      omega

theorem misfiled_spendSeen (w : WalletState) (seen : SeenSpend) :
    (w.spendSeen seen).Misfiled ↔ w.Misfiled := by
  rcases spendSeen_transfers w seen with ⟨htransfers, himages, -, -⟩
  exact misfiled_iff_of_map (by rw [htransfers]) himages

theorem Filed.receiveOutputs (hw : w.Filed lo (height + 1)) (hlo : lo ≤ height) (timestamp : Nat)
    (tx : Transaction) (txid : Hash256) (indices : List Nat) (account : Option UInt32)
    (found : List Received) (received : Nat) (summary : RefreshSummary) :
    (receiveOutputs C height timestamp tx txid indices account found w received summary).1.1.Filed lo
      (height + 1) := by
  apply receiveOutputs_induct (P := Filed lo (height + 1)) _ hw
  intro w r _ hw
  exact hw.addTransfer (timely_transferOf w hlo timestamp tx txid indices r)

/-- One transaction of a block keeps what is held in order, up to the height of the block. -/
theorem Filed.scanSeenTx (hw : w.Filed lo (height + 1)) (hlo : lo ≤ height) (timestamp : Nat) (t : SeenTx) :
    (w.scanSeenTx C height timestamp t).Filed lo (height + 1) := by
  have hreceive : (w.receiveFrom C height timestamp t.tx t.txid t.indices).1.Filed lo (height + 1) :=
    (hw.spendInputs (Nat.lt_succ_self height) t.tx.keyImages).receiveOutputs hlo ..
  unfold WalletState.scanSeenTx
  refine Filed.of_purse (w := (w.processTransaction C height timestamp t.tx t.txid t.indices {}).1) ?_ rfl
  rw [processTransaction_fst]
  rcases recordSpend_cases (w.receiveFrom C height timestamp t.tx t.txid t.indices).1 height timestamp
    t.tx t.txid (w.receiveFrom C height timestamp t.tx t.txid t.indices).2 (w.namedBy t.tx) with
    heq | ⟨-, rings, seen, -, hheight, heq⟩
  · rw [heq]
    exact hreceive
  · rw [heq]
    exact Filed.spendSeen (w := { (w.receiveFrom C height timestamp t.tx t.txid t.indices).1 with rings := rings })
      ⟨⟨hreceive.heights.transfers, hreceive.heights.sent⟩, hreceive.keys, hreceive.images⟩ (by omega)

theorem Filed.scanTxs (hw : w.Filed lo (height + 1)) (hlo : lo ≤ height) (timestamp : Nat)
    (txs : List SeenTx) :
    (txs.foldl (WalletState.scanSeenTx C height timestamp) w).Filed lo (height + 1) := by
  induction txs generalizing w with
  | nil => exact hw
  | cons t txs ih => exact ih (hw.scanSeenTx hlo timestamp t)

end

/-! ### Images filed wrongly along a block -/

/-- Recording these outputs files an image wrongly. -/
def MisfilesReceipts (C : Crypto) (height timestamp : Nat) (t : SeenTx) : WalletState → List Received → Prop
  | _, [] => False
  | w, r :: found =>
      w.Misfiles (transferOf C w height timestamp t.tx t.txid t.indices r) ∨
        MisfilesReceipts C height timestamp t
          (w.addTransfer (transferOf C w height timestamp t.tx t.txid t.indices r)).2 found

/-- Scanning these transactions files an image wrongly. -/
def MisfilesTxs (C : Crypto) (height timestamp : Nat) : WalletState → List SeenTx → Prop
  | _, [] => False
  | w, t :: txs =>
      MisfilesReceipts C height timestamp t (w.spendInputs height t.tx.keyImages) (foundIn C w.keys t.tx) ∨
        MisfilesTxs C height timestamp (w.scanSeenTx C height timestamp t) txs

section

variable {lo height timestamp : Nat} {w : WalletState}

theorem misfiled_receiveOutputs (timestamp : Nat) (hw : w.Filed lo (height + 1)) (hlo : lo ≤ height)
    (t : SeenTx) (account : Option UInt32) (found : List Received) (received : Nat) (summary : RefreshSummary) :
    (receiveOutputs C height timestamp t.tx t.txid t.indices account found w received
        summary).1.1.Misfiled ↔
      w.Misfiled ∨ MisfilesReceipts C height timestamp t w found := by
  induction found generalizing w received summary with
  | nil => simp [WalletState.receiveOutputs, MisfilesReceipts]
  | cons r found ih =>
      have hnext := hw.addTransfer
        (timely_transferOf (C := C) w hlo timestamp t.tx t.txid t.indices r)
      obtain ⟨received', summary', heq⟩ := receiveOutputs_cons (C := C) height timestamp t.tx t.txid
        t.indices account r found w received summary
      rw [heq, ih hnext received' summary', misfiled_addTransfer hw.keys hw.images, MisfilesReceipts,
        or_assoc]

theorem misfiled_scanSeenTx (hw : w.Filed lo (height + 1)) (hlo : lo ≤ height) (t : SeenTx) :
    (w.scanSeenTx C height timestamp t).Misfiled ↔
      w.Misfiled ∨ MisfilesReceipts C height timestamp t (w.spendInputs height t.tx.keyImages)
        (foundIn C w.keys t.tx) := by
  have hspent := hw.spendInputs (Nat.lt_succ_self height) t.tx.keyImages
  have hreceive := misfiled_receiveOutputs (C := C) timestamp hspent hlo t
    (w.spendingAccount t.tx) (foundIn C (w.spendInputs height t.tx.keyImages).keys t.tx) 0 {}
  rw [misfiled_spendInputs, keys_spendInputs] at hreceive
  rw [← hreceive]
  show (w.processTransaction C height timestamp t.tx t.txid t.indices {}).1.Misfiled ↔ _
  rw [processTransaction_fst]
  have hsame : (w.receiveFrom C height timestamp t.tx t.txid t.indices).1.Misfiled ↔
      (receiveOutputs C height timestamp t.tx t.txid t.indices (w.spendingAccount t.tx)
        (foundIn C w.keys t.tx) (w.spendInputs height t.tx.keyImages) 0 {}).1.1.Misfiled := by
    unfold receiveFrom
    simp only [keys_spendInputs]
  rw [← hsame]
  rcases recordSpend_cases (w.receiveFrom C height timestamp t.tx t.txid t.indices).1 height timestamp
    t.tx t.txid (w.receiveFrom C height timestamp t.tx t.txid t.indices).2 (w.namedBy t.tx) with
    heq | ⟨-, rings, seen, -, -, heq⟩
  · rw [heq]
  · rw [heq, misfiled_spendSeen]
    rfl

/-- An image is misfiled after a block if one was before, or if the block does it. -/
theorem misfiled_scanTxs (timestamp : Nat) (hw : w.Filed lo (height + 1)) (hlo : lo ≤ height)
    (txs : List SeenTx) :
    (txs.foldl (WalletState.scanSeenTx C height timestamp) w).Misfiled ↔
      w.Misfiled ∨ MisfilesTxs C height timestamp w txs := by
  induction txs generalizing w with
  | nil => simp [MisfilesTxs]
  | cons t txs ih =>
      rw [List.foldl_cons, ih (hw.scanSeenTx hlo timestamp t), misfiled_scanSeenTx hw hlo t, MisfilesTxs,
        or_assoc]

end

/-! ### A block refused part way through -/

/-- The wallet would record this output: its key is new, or the output held with it is not spent and
    smaller. -/
def Takes (w : WalletState) (r : Received) : Prop :=
  ∀ held ∈ w.transfers, held.publicKey = r.publicKey → held.spent = false ∧ held.amount < r.amount

/-- A transaction spends an output of the wallet, or has one it would record. -/
def Touches (C : Crypto) (w : WalletState) (tx : Transaction) : Prop :=
  (∃ held ∈ w.transfers, ∃ k ∈ tx.keyImages, held.keyImage = some k) ∨
    ∃ r ∈ foundIn C w.keys tx, w.Takes r

/-- An output or a record of a block at this height is held. -/
def MarkedAt (height : Nat) (w : WalletState) : Prop :=
  (∃ t ∈ w.transfers, t.blockHeight = height) ∨ ∃ s ∈ w.sent, s.state = .confirmed height

theorem HeldBelow.not_markedAt {lo h : Nat} {w : WalletState} (hw : w.HeldBelow lo h) :
    ¬ w.MarkedAt h := by
  rintro (⟨t, ht, hheight⟩ | ⟨s, hs, hstate⟩)
  · have := (hw.transfers t ht).high
    omega
  · exact Nat.lt_irrefl h (hw.sent s hs h hstate)

section

variable {height timestamp : Nat} {w : WalletState}

theorem lookup_none_of_untouched (himages : w.ImagesLead) {tx : Transaction}
    (h : ∀ held ∈ w.transfers, ∀ k ∈ tx.keyImages, held.keyImage ≠ some k) :
    ∀ k ∈ tx.keyImages, w.byKeyImage.lookup k = none := by
  intro k hk
  by_contra hlook
  rcases Option.ne_none_iff_exists'.mp hlook with ⟨i, hi⟩
  rcases himages k i hi with ⟨held, hget, hkey⟩
  exact h held (List.mem_of_getElem? hget) k hk hkey

theorem spendInputs_of_none {images : List KeyImage} (h : ∀ k ∈ images, w.byKeyImage.lookup k = none) :
    w.spendInputs height images = w := by
  unfold WalletState.spendInputs
  induction images with
  | nil => rfl
  | cons k images ih =>
      rw [List.foldl_cons, h k List.mem_cons_self]
      exact ih fun k' hk' => h k' (List.mem_cons_of_mem _ hk')

theorem namedBy_of_none {tx : Transaction} (h : ∀ k ∈ tx.keyImages, w.byKeyImage.lookup k = none) :
    w.namedBy tx = [] := by
  unfold namedBy
  rw [List.filterMap_eq_nil_iff]
  intro k hk
  simp [h k hk]

/-- An output the wallet would not record leaves the wallet as it is. -/
theorem addTransfer_of_not_takes (hkeys : w.KeysListed) {r : Received} (h : ¬ w.Takes r) {t : Transfer}
    (hkey : t.publicKey = r.publicKey) (hamount : t.amount = r.amount) :
    w.addTransfer t = (.ignored, w) := by
  unfold Takes at h
  push Not at h
  rcases h with ⟨held, hmem, hsame, hkept⟩
  rcases addTransfer_cases hkeys.keysFound t with ⟨i, held', -, -, -, heq⟩ |
    ⟨i, held', hget, -, hsame', ⟨hspent, hless⟩, -⟩ | ⟨hnew, -⟩
  · exact heq
  · obtain rfl := hkeys.held_unique hmem (List.mem_of_getElem? hget)
      (hsame.trans (hkey.symm.trans hsame'.symm))
    have := hkept hspent
    omega
  · exact absurd (hsame.trans hkey.symm) (hnew held hmem)

theorem addTransfer_of_takes (hkeys : w.KeysListed) {r : Received} (h : w.Takes r) {t : Transfer}
    (hkey : t.publicKey = r.publicKey) (hamount : t.amount = r.amount) :
    ∃ t' ∈ (w.addTransfer t).2.transfers, t'.blockHeight = t.blockHeight := by
  rcases addTransfer_cases hkeys.keysFound t with ⟨i, held, hget, hsame, hkept, -⟩ |
    ⟨i, held, hget, -, -, -, heq⟩ | ⟨-, heq⟩
  · rcases h held (List.mem_of_getElem? hget) (hsame.trans hkey) with ⟨hspent, hless⟩
    rcases hkept with hkept | hkept
    · simp [hspent] at hkept
    · omega
  · rw [heq]
    refine ⟨held.giveWay t, ?_, rfl⟩
    apply List.mem_of_getElem? (i := i)
    simp [modifyTransfer, hget]
  · rw [heq]
    exact ⟨t, List.mem_append_right _ (List.mem_singleton_self t), rfl⟩

theorem receiveOutputs_untouched (hkeys : w.KeysListed) (tx : Transaction) (txid : Hash256)
    (indices : List Nat) (account : Option UInt32) {found : List Received}
    (h : ∀ r ∈ found, ¬ w.Takes r) (received : Nat) (summary : RefreshSummary) :
    (receiveOutputs C height timestamp tx txid indices account found w received summary).1.1 = w := by
  induction found generalizing received summary with
  | nil => rfl
  | cons r found ih =>
      obtain ⟨received', summary', heq⟩ := receiveOutputs_cons (C := C) height timestamp tx txid indices
        account r found w received summary
      rw [heq, addTransfer_of_not_takes hkeys (h r List.mem_cons_self) rfl rfl]
      exact ih (fun r' hr' => h r' (List.mem_cons_of_mem _ hr')) received' summary'

/-- **A transaction that does not touch a wallet leaves it as it is.** -/
theorem scanSeenTx_untouched {lo h : Nat} (hw : w.Filed lo h) {t : SeenTx} (hnot : ¬ w.Touches C t.tx) :
    w.scanSeenTx C height timestamp t = w.purse := by
  unfold Touches at hnot
  push Not at hnot
  rcases hnot with ⟨hspends, htakes⟩
  have hnone := lookup_none_of_untouched hw.images hspends
  unfold WalletState.scanSeenTx
  rw [processTransaction_fst, namedBy_of_none hnone]
  show (w.receiveFrom C height timestamp t.tx t.txid t.indices).1.purse = w.purse
  unfold receiveFrom
  simp only [spendInputs_of_none hnone]
  rw [receiveOutputs_untouched hw.keys]
  exact htakes

theorem MarkedAt.spendInputs (h : w.MarkedAt height) (at_ : Nat) (images : List KeyImage) :
    (w.spendInputs at_ images).MarkedAt height := by
  unfold WalletState.spendInputs
  induction images generalizing w with
  | nil => exact h
  | cons k images ih =>
      rw [List.foldl_cons]
      apply ih
      split
      · exact h
      · rename_i i _
        refine h.imp_left ?_
        rintro ⟨t, ht, hheight⟩
        rcases List.mem_iff_getElem?.mp ht with ⟨j, hget⟩
        refine ⟨if i = j then spendAt at_ t else t, ?_, ?_⟩
        · apply List.mem_of_getElem? (i := j)
          simp only [modifyTransfer, List.getElem?_modify, hget, Option.map_eq_map, Option.map_some]
        · split
          · rw [spendAt_blockHeight]
            exact hheight
          · exact hheight

theorem MarkedAt.addTransfer (hkeys : w.KeysListed) (h : w.MarkedAt height) {t : Transfer}
    (ht : t.blockHeight = height) : (w.addTransfer t).2.MarkedAt height := by
  rcases addTransfer_cases hkeys.keysFound t with ⟨i, held, -, -, -, heq⟩ |
    ⟨i, held, hget, -, -, -, heq⟩ | ⟨-, heq⟩
  · rw [heq]
    exact h
  · rw [heq]
    refine .inl ⟨held.giveWay t, ?_, ht⟩
    apply List.mem_of_getElem? (i := i)
    simp [modifyTransfer, hget]
  · rw [heq]
    exact .inl ⟨t, List.mem_append_right _ (List.mem_singleton_self t), ht⟩

theorem markedAt_spendSeen (w : WalletState) (seen : SeenSpend) :
    (w.spendSeen seen).MarkedAt seen.height := by
  right
  unfold WalletState.spendSeen
  simp only
  split
  · rename_i i hfound
    rcases List.findIdx?_eq_some_iff_getElem.mp hfound with ⟨hlt, -⟩
    have hat (f : SentTx → SentTx) : (w.sent.modify i f)[i]? = some (f w.sent[i]) := by
      simp [List.getElem?_eq_getElem hlt]
    exact ⟨_, List.mem_of_getElem? (hat _), rfl⟩
  · exact ⟨_, List.mem_append_right _ (List.mem_singleton_self _), rfl⟩

theorem MarkedAt.recordSpend (h : w.MarkedAt height) (tx : Transaction) (txid : Hash256) (received : Nat)
    (named : List (KeyImage × Transfer)) :
    (w.recordSpend height timestamp tx txid received named).MarkedAt height := by
  rcases recordSpend_cases w height timestamp tx txid received named with
    heq | ⟨-, rings, seen, -, hheight, heq⟩
  · rw [heq]
    exact h
  · rw [heq, ← hheight]
    exact markedAt_spendSeen _ seen

theorem MarkedAt.receiveOutputs {lo : Nat} (hw : w.Filed lo (height + 1)) (hlo : lo ≤ height)
    (h : w.MarkedAt height) (tx : Transaction) (txid : Hash256) (indices : List Nat)
    (account : Option UInt32) (found : List Received) (received : Nat) (summary : RefreshSummary) :
    (receiveOutputs C height timestamp tx txid indices account found w received
      summary).1.1.MarkedAt height := by
  refine (receiveOutputs_induct (P := fun w => Filed lo (height + 1) w ∧ MarkedAt height w) ?_ ⟨hw, h⟩
    received summary).2
  rintro w r - ⟨hw, h⟩
  exact ⟨hw.addTransfer (timely_transferOf w hlo timestamp tx txid indices r), h.addTransfer hw.keys rfl⟩

theorem MarkedAt.scanSeenTx {lo : Nat} (hw : w.Filed lo (height + 1)) (hlo : lo ≤ height)
    (h : w.MarkedAt height) (t : SeenTx) : (w.scanSeenTx C height timestamp t).MarkedAt height := by
  show (w.processTransaction C height timestamp t.tx t.txid t.indices {}).1.MarkedAt height
  rw [processTransaction_fst]
  apply MarkedAt.recordSpend
  exact (h.spendInputs height t.tx.keyImages).receiveOutputs
    (hw.spendInputs (Nat.lt_succ_self height) t.tx.keyImages) hlo ..

/-- The first of the outputs found that the wallet would record marks it. -/
theorem markedAt_receiveOutputs {lo : Nat} (hw : w.Filed lo (height + 1)) (hlo : lo ≤ height)
    (tx : Transaction) (txid : Hash256) (indices : List Nat) (account : Option UInt32)
    {found : List Received} (h : ∃ r ∈ found, w.Takes r) (received : Nat) (summary : RefreshSummary) :
    (receiveOutputs C height timestamp tx txid indices account found w received
      summary).1.1.MarkedAt height := by
  induction found generalizing received summary with
  | nil =>
      rcases h with ⟨r, hr, -⟩
      cases hr
  | cons r found ih =>
      obtain ⟨received', summary', heq⟩ := receiveOutputs_cons (C := C) height timestamp tx txid indices
        account r found w received summary
      rw [heq]
      by_cases hr : w.Takes r
      · have hmarked : (w.addTransfer (transferOf C w height timestamp tx txid indices r)).2.MarkedAt
            height := .inl (addTransfer_of_takes hw.keys hr rfl rfl)
        exact hmarked.receiveOutputs (hw.addTransfer (timely_transferOf w hlo timestamp tx txid indices r))
          hlo ..
      · rw [addTransfer_of_not_takes hw.keys hr rfl rfl]
        apply ih
        rcases h with ⟨r', hr', htakes⟩
        rcases List.mem_cons.mp hr' with rfl | hr'
        · exact absurd htakes hr
        · exact ⟨r', hr', htakes⟩

theorem namedBy_ne_nil (himages : w.ImagesListed) {tx : Transaction}
    (h : ∃ held ∈ w.transfers, ∃ k ∈ tx.keyImages, held.keyImage = some k) : w.namedBy tx ≠ [] := by
  rcases h with ⟨held, hmem, k, hk, hkey⟩
  rcases List.mem_iff_getElem?.mp hmem with ⟨i, hget⟩
  have hlook := (himages k i).mpr ⟨held, hget, hkey⟩
  intro hnil
  unfold namedBy at hnil
  rw [List.filterMap_eq_nil_iff] at hnil
  have := hnil k hk
  simp [hlook, hget] at this

/-- **A transaction that touches a wallet leaves a mark of its height.** -/
theorem markedAt_scanSeenTx {lo : Nat} (hw : w.Filed lo (height + 1)) (himages : w.ImagesListed)
    (hlo : lo ≤ height) {t : SeenTx} (h : w.Touches C t.tx) :
    (w.scanSeenTx C height timestamp t).MarkedAt height := by
  show (w.processTransaction C height timestamp t.tx t.txid t.indices {}).1.MarkedAt height
  rw [processTransaction_fst]
  by_cases hspends : ∃ held ∈ w.transfers, ∃ k ∈ t.tx.keyImages, held.keyImage = some k
  · -- It spends an output of the wallet, so the wallet has it on record.
    rcases recordSpend_cases (w.receiveFrom C height timestamp t.tx t.txid t.indices).1 height timestamp
      t.tx t.txid (w.receiveFrom C height timestamp t.tx t.txid t.indices).2 (w.namedBy t.tx) with
      heq | ⟨-, rings, seen, -, hheight, heq⟩
    · have hnamed := namedBy_ne_nil himages hspends
      unfold WalletState.recordSpend at heq ⊢
      cases haccount : (w.namedBy t.tx).getLast?.map (·.2.subaddress.major) with
      | none => simp [hnamed] at haccount
      | some account => exact markedAt_spendSeen _ _
    · rw [heq, ← hheight]
      exact markedAt_spendSeen _ seen
  · -- It spends none, so the wallet is as it was when the outputs are recorded.
    apply MarkedAt.recordSpend
    have htakes := h.resolve_left hspends
    push Not at hspends
    have hnone := lookup_none_of_untouched hw.images hspends
    unfold receiveFrom
    simp only [spendInputs_of_none hnone]
    exact markedAt_receiveOutputs hw hlo _ _ _ _ htakes _ _

theorem MarkedAt.scanTxs {lo : Nat} (hw : w.Filed lo (height + 1)) (hlo : lo ≤ height)
    (h : w.MarkedAt height) (txs : List SeenTx) :
    (txs.foldl (WalletState.scanSeenTx C height timestamp) w).MarkedAt height := by
  induction txs generalizing w with
  | nil => exact h
  | cons t txs ih => exact ih (hw.scanSeenTx hlo timestamp t) (h.scanSeenTx hw hlo t)

theorem purse_keys (w : WalletState) : w.purse.keys = w.keys := rfl

/-- The transactions scanned before a block is refused leave a mark, or leave the wallet as it was. -/
theorem scanTxs_touches (timestamp : Nat) {lo : Nat} (hw : w.Filed lo (height + 1))
    (himages : w.ImagesListed) (hlo : lo ≤ height) (txs : List SeenTx) :
    ((∃ t ∈ txs, w.Touches C t.tx) ∧
      (txs.foldl (WalletState.scanSeenTx C height timestamp) w.purse).MarkedAt height) ∨
    ((∀ t ∈ txs, ¬ w.Touches C t.tx) ∧
      txs.foldl (WalletState.scanSeenTx C height timestamp) w.purse = w.purse) := by
  have hpurse : w.purse.Filed lo (height + 1) := hw.of_purse rfl
  induction txs with
  | nil => exact .inr ⟨fun t ht => absurd ht List.not_mem_nil, rfl⟩
  | cons t txs ih =>
      rw [List.foldl_cons]
      by_cases ht : w.Touches C t.tx
      · left
        refine ⟨⟨t, List.mem_cons_self, ht⟩, ?_⟩
        have hmarked : (w.purse.scanSeenTx C height timestamp t).MarkedAt height :=
          markedAt_scanSeenTx hpurse himages hlo ht
        exact hmarked.scanTxs (hpurse.scanSeenTx hlo timestamp t) hlo txs
      · rw [scanSeenTx_untouched hpurse ht, purse_purse]
        rcases ih with ⟨⟨t', ht', htouch⟩, hmarked⟩ | ⟨hnone, hsame⟩
        · exact .inl ⟨⟨t', List.mem_cons_of_mem _ ht', htouch⟩, hmarked⟩
        · refine .inr ⟨?_, hsame⟩
          intro t' ht'
          rcases List.mem_cons.mp ht' with rfl | ht'
          · exact ht
          · exact hnone t' ht'

end

end WalletState

end Wownero

import Wownero.WholeBlocks
/-!
# A refresh leaves whole blocks

One call to a node, whatever it answers: blocks taken back, hashes filled in below, blocks compared,
skipped and scanned.  Taking back keeps a wallet whole, and so does every block but one that is
refused after a transaction of it was recorded, or that files an image wrongly.
-/

namespace Wownero

open Wownero.Archive

variable {C : Crypto}

namespace WalletState

/-! ### Blocks taken back -/

section

variable {lo h height : Nat} {w : WalletState}

/-- No two outputs held have one image. -/
theorem ImagesListed.apart (himages : w.ImagesListed) :
    w.transfers.Pairwise fun t t' => ∀ k, t.keyImage = some k → t'.keyImage ≠ some k := by
  rw [List.pairwise_iff_getElem]
  intro i j hi hj hij k hk hk'
  have hfirst := (himages k i).mpr ⟨_, List.getElem?_eq_getElem hi, hk⟩
  have hsecond := (himages k j).mpr ⟨_, List.getElem?_eq_getElem hj, hk'⟩
  rw [hfirst, Option.some.injEq] at hsecond
  omega

/-- The lookups built again are right where keys and images are distinct. -/
theorem reindex_listed (hkeys : (w.transfers.map (·.publicKey)).Nodup)
    (himages : w.transfers.Pairwise fun t t' => ∀ k, t.keyImage = some k → t'.keyImage ≠ some k) :
    w.reindex.KeysListed ∧ w.reindex.ImagesListed := by
  constructor
  · intro p i
    have hlook := @lookup_foldl_index (fun t => some t.publicKey) w.transfers ?_ p i
    · simp only [Option.some.injEq] at hlook
      exact hlook
    · intro i j t t' k hi hj hk hk'
      have hlt := (List.getElem?_eq_some_iff.mp hi).1
      refine (List.getElem?_inj (by rwa [List.length_map]) hkeys).mp ?_
      rw [List.getElem?_map, List.getElem?_map, hi, hj, Option.map_some, Option.map_some,
        Option.some.inj hk, Option.some.inj hk']
  · intro k i
    apply lookup_foldl_index (fun t => t.keyImage)
    intro i j t t' k hi hj hk hk'
    rw [List.pairwise_iff_getElem] at himages
    rcases List.getElem?_eq_some_iff.mp hi with ⟨hilt, rfl⟩
    rcases List.getElem?_eq_some_iff.mp hj with ⟨hjlt, rfl⟩
    rcases Nat.lt_trichotomy i j with hij | hij | hij
    · exact absurd hk' (himages i j hilt hjlt hij k hk)
    · exact hij
    · exact absurd hk (himages j i hjlt hilt hij k hk')

theorem Transfer.Timely.setSpent {t : Transfer} (ht : t.Timely lo h) (spent : Bool) :
    (setSpent spent t).Timely lo h := by
  have hpos : 0 < h := Nat.lt_of_le_of_lt (Nat.zero_le _) ht.high
  unfold WalletState.setSpent
  split
  · exact ⟨ht.low, ht.high, hpos, fun _ => rfl⟩
  · split
    · rename_i hzero
      simp only [Bool.and_eq_true, beq_iff_eq] at hzero
      exact ⟨ht.low, ht.high, ht.spends, fun _ => hzero.2⟩
    · exact ht

theorem Transfer.Timely.unspendFrom {t : Transfer} (ht : t.Timely lo h) (hlt : t.blockHeight < height) :
    (unspendFrom height t).Timely lo height := by
  unfold WalletState.unspendFrom
  split
  · exact ⟨ht.low, hlt, Nat.lt_of_le_of_lt (Nat.zero_le _) hlt, fun _ => rfl⟩
  · rename_i hkept
    refine ⟨ht.low, hlt, ?_, ht.marks⟩
    cases hspent : t.spent with
    | false =>
        rw [ht.marks hspent]
        exact Nat.lt_of_le_of_lt (Nat.zero_le _) hlt
    | true => simpa [hspent] using hkept

theorem Filed.setInputsSpent (hw : w.Filed lo h) (images : List KeyImage) (spent : Bool) :
    (w.setInputsSpent images spent).Filed lo h := by
  unfold WalletState.setInputsSpent
  induction images generalizing w with
  | nil => exact hw
  | cons k images ih =>
      rw [List.foldl_cons]
      apply ih
      unfold setInputSpent
      split
      · exact hw
      · rename_i i _
        apply hw.modifyTransfer i (keeps_setSpent spent)
        intro t ht
        exact Transfer.Timely.setSpent (hw.heights.transfers t ht) spent

theorem misfiled_setInputsSpent (w : WalletState) (images : List KeyImage) (spent : Bool) :
    (w.setInputsSpent images spent).Misfiled ↔ w.Misfiled := by
  unfold WalletState.setInputsSpent
  induction images generalizing w with
  | nil => rfl
  | cons k images ih =>
      rw [List.foldl_cons, ih]
      unfold setInputSpent
      split
      · rfl
      · exact misfiled_modifyTransfer w _ (keeps_setSpent spent)

theorem startHeight_detach (w : WalletState) (height : Nat) : (w.detach height).startHeight = w.startHeight :=
  (congrArg (fun v : WalletState => v.startHeight) (w.chainPart_detach height) :)

theorem hashes_detach (w : WalletState) (height : Nat) :
    (w.detach height).hashes = w.hashes.take (height - w.startHeight) :=
  (congrArg (fun v : WalletState => v.hashes) (w.chainPart_detach height) :)

theorem scanHeight_detach (hlow : w.startHeight ≤ height) (hhigh : height ≤ w.scanHeight) :
    (w.detach height).scanHeight = height := by
  rw [scanHeight] at hhigh ⊢
  rw [startHeight_detach, hashes_detach, List.length_take]
  omega

/-- **Blocks taken back leave a whole wallet.** -/
theorem Whole.detach (hw : w.Whole) (hlow : w.startHeight ≤ height) (hhigh : height ≤ w.scanHeight) :
    (w.detach height).Whole := by
  rw [whole_iff, scanHeight_detach hlow hhigh, startHeight_detach]
  have hkept : ((w.transfers.filter fun t => t.blockHeight < height).map (unspendFrom height)).map
      (·.publicKey) = (w.transfers.filter fun t => t.blockHeight < height).map (·.publicKey) := by
    rw [List.map_map]
    apply List.map_congr_left
    intro t _
    simp only [Function.comp_apply, WalletState.unspendFrom]
    split <;> rfl
  have himage (t : Transfer) : (unspendFrom height t).keyImage = t.keyImage := by
    unfold WalletState.unspendFrom
    split <;> rfl
  have hsub : (w.transfers.filter fun t => t.blockHeight < height).Sublist w.transfers :=
    List.filter_sublist
  rcases reindex_listed (w := { w with
    hashes := w.hashes.take (height - w.startHeight)
    transfers := (w.transfers.filter fun t => t.blockHeight < height).map (unspendFrom height) })
    (by rw [hkept]; exact hw.distinct.sublist (hsub.map _))
    (by
      rw [List.pairwise_map]
      simp only [himage]
      exact hw.byImage.apart.sublist hsub) with ⟨hkeys, himages⟩
  rcases imagesListed_iff.mp himages with ⟨hlead, hfiled⟩
  obtain ⟨v, hv⟩ : ∃ v : WalletState, v = { ({ w with
    hashes := w.hashes.take (height - w.startHeight)
    transfers := (w.transfers.filter fun t => t.blockHeight < height).map (unspendFrom height) } :
      WalletState).reindex with sent := w.sent.filterMap (detachRecord height) } := ⟨_, rfl⟩
  have hdetach : w.detach height = v.setInputsSpent v.pendingInputs true := hv ▸ rfl
  rw [hdetach, misfiled_setInputsSpent]
  refine ⟨Filed.setInputsSpent (w := v) ⟨⟨?_, ?_⟩, hv ▸ hkeys, hv ▸ hlead⟩ _ _, hv ▸ hfiled⟩
  · intro t ht
    rw [hv] at ht
    rcases List.mem_map.mp ht with ⟨t₀, ht₀, rfl⟩
    rcases List.mem_filter.mp ht₀ with ⟨hmem, hlt⟩
    exact Transfer.Timely.unspendFrom (hw.heights.transfers t₀ hmem) (of_decide_eq_true hlt)
  · intro s hs c hc
    rw [hv] at hs
    rcases List.mem_filterMap.mp hs with ⟨s₀, hs₀, hdetach⟩
    unfold detachRecord at hdetach
    split at hdetach
    · split at hdetach
      · split at hdetach
        · cases hdetach
        · cases hdetach
          cases hc
      · rename_i hstate hlt
        cases hdetach
        rw [hstate, SentState.confirmed.injEq] at hc
        omega
    · rename_i hstate
      cases hdetach
      exact absurd hc (hstate c)

end

/-! ### One block -/

/-- A block on the tip is taken whole: if all its transactions can be read, scanning them files no
    image wrongly, and if not, none that is read before the first that cannot touches the wallet. -/
structure TakenWhole (C : Crypto) (w : WalletState) (height : Nat) (block : Block)
    (bundle : BlockBundle) : Prop where
  files : w.Scans height block bundle →
    (∀ blob ∈ bundle.txs, ∃ tx, bundle.parseTx blob = .ok tx) →
    ¬ MisfilesTxs C height block.header.timestamp w.purse (bundle.seen C block).txs
  spares : w.Scans height block bundle →
    (¬ ∀ blob ∈ bundle.txs, ∃ tx, bundle.parseTx blob = .ok tx) →
    ∀ t ∈ (bundle.seen C block).txs, ¬ w.Touches C t.tx

/-- A wallet in order but for an image filed wrongly. -/
structure Tainted (w : WalletState) : Prop where
  filed : w.Filed w.startHeight w.scanHeight
  misfiled : w.Misfiled

theorem Tainted.not_whole {w : WalletState} (h : w.Tainted) : ¬ w.Whole :=
  fun hw => (whole_iff.mp hw).2 h.misfiled

/-- The hashes on the end are of blocks that each name the one before. -/
def Follows (C : Crypto) : Option Hash256 → List (Block × Hash256) → Prop
  | _, [] => True
  | previous, (block, id) :: rest =>
      block.blockId C.cnFastHash = some id ∧ (∀ p ∈ previous, block.header.prevId = p) ∧
        Follows C (some id) rest

section

variable {w : WalletState}

theorem fields_of_chainPart {w' : WalletState} {hashes : List Hash256}
    (h : w'.chainPart = { w.chainPart with hashes := hashes }) :
    w'.hashes = hashes ∧ w'.startHeight = w.startHeight :=
  ⟨(congrArg (fun v : WalletState => v.hashes) h :),
    (congrArg (fun v : WalletState => v.startHeight) h :)⟩

theorem scanHeight_push {w' : WalletState} {id : Hash256}
    (h : w'.hashes = w.hashes ++ [id] ∧ w'.startHeight = w.startHeight) :
    w'.scanHeight = w.scanHeight + 1 := by
  rw [scanHeight, h.1, h.2, List.length_append, List.length_singleton, scanHeight, Nat.add_assoc]

/-- A hash put on the end leaves what is held in order. -/
theorem Filed.push (hw : w.Filed w.startHeight w.scanHeight) (id : Hash256) :
    ({ w with hashes := w.hashes ++ [id] } : WalletState).Filed w.startHeight
      ({ w with hashes := w.hashes ++ [id] } : WalletState).scanHeight := by
  have hheight : ({ w with hashes := w.hashes ++ [id] } : WalletState).scanHeight = w.scanHeight + 1 :=
    scanHeight_push ⟨rfl, rfl⟩
  rw [hheight]
  exact (hw.mono (Nat.le_refl _) (Nat.le_succ _)).of_purse rfl

/-- What a block on the tip does to the hashes: nothing, or its own is put on the end. -/
theorem processBlock_hashes (w : WalletState) (block : Block) (id : Hash256) (bundle : BlockBundle)
    (summary : RefreshSummary) :
    (w.processBlock C w.scanHeight block id bundle summary).2.startHeight = w.startHeight ∧
    ((∃ e, (w.processBlock C w.scanHeight block id bundle summary).1 = .error e) ∧
        (w.processBlock C w.scanHeight block id bundle summary).2.hashes = w.hashes ∨
      (∃ summary', (w.processBlock C w.scanHeight block id bundle summary).1 = .ok summary') ∧
        (w.processBlock C w.scanHeight block id bundle summary).2.hashes = w.hashes ++ [id] ∧
        ∀ previous ∈ w.hashes.getLast?, block.header.prevId = previous) := by
  rcases processBlock_outcome (C := C) w block id bundle summary with ⟨-, e, heq⟩ |
    ⟨hlast, ⟨-, heq⟩ | ⟨-, r, w', heq, -, ⟨-, hok, hchain⟩ | ⟨-, herror, hchain⟩⟩⟩
  · rw [heq]
    exact ⟨rfl, .inl ⟨⟨e, rfl⟩, rfl⟩⟩
  · rw [heq]
    exact ⟨rfl, .inr ⟨⟨summary, rfl⟩, rfl, hlast⟩⟩
  · rw [heq]
    rcases fields_of_chainPart hchain with ⟨hhashes, hstart⟩
    exact ⟨hstart, .inr ⟨hok, hhashes, hlast⟩⟩
  · rw [heq]
    have hfields : w'.hashes = w.hashes ∧ w'.startHeight = w.startHeight := fields_of_chainPart hchain
    rcases hfields with ⟨hhashes, hstart⟩
    exact ⟨hstart, .inl ⟨herror, hhashes⟩⟩

theorem filed_of_scan {w' : WalletState} (hw : w.Filed w.startHeight w.scanHeight) {b : SeenBlock}
    (hpurse : w'.purse = w.purse.scanSeen C w.scanHeight b) :
    w'.Filed w.startHeight (w.scanHeight + 1) := by
  have hlo : w.startHeight ≤ w.scanHeight := Nat.le_add_right ..
  have hpursed : w.purse.Filed w.startHeight (w.scanHeight + 1) :=
    (hw.mono (Nat.le_refl _) (Nat.le_succ _)).of_purse rfl
  have hscan : (w.purse.scanSeen C w.scanHeight b).Filed w.startHeight (w.scanHeight + 1) :=
    hpursed.scanTxs hlo b.timestamp b.txs
  apply hscan.of_purse
  rw [hpurse, purse_scanSeen rfl]

theorem misfiled_of_scan {w' : WalletState} (hw : w.Filed w.startHeight w.scanHeight) {b : SeenBlock}
    (hpurse : w'.purse = w.purse.scanSeen C w.scanHeight b) :
    w'.Misfiled ↔ w.Misfiled ∨ MisfilesTxs C w.scanHeight b.timestamp w.purse b.txs := by
  have hlo : w.startHeight ≤ w.scanHeight := Nat.le_add_right ..
  have hpursed : w.purse.Filed w.startHeight (w.scanHeight + 1) :=
    (hw.mono (Nat.le_refl _) (Nat.le_succ _)).of_purse rfl
  have hscan := misfiled_scanTxs (C := C) b.timestamp hpursed hlo b.txs
  have hsame : w'.purse.Misfiled ↔ w'.Misfiled := misfiled_of_purse rfl
  rw [← hsame, hpurse]
  exact hscan

/-- A block leaves a tainted wallet tainted, whatever becomes of it. -/
theorem Tainted.processBlock (hw : w.Tainted) (block : Block) (id : Hash256) (bundle : BlockBundle)
    (summary : RefreshSummary) :
    (w.processBlock C w.scanHeight block id bundle summary).2.Misfiled ∧
      ((∃ summary', (w.processBlock C w.scanHeight block id bundle summary).1 = .ok summary') →
        (w.processBlock C w.scanHeight block id bundle summary).2.Tainted) := by
  rcases processBlock_outcome (C := C) w block id bundle summary with ⟨-, e, heq⟩ |
    ⟨-, ⟨-, heq⟩ | ⟨-, r, w', heq, hpurse, ⟨-, -, hchain⟩ | ⟨-, ⟨e, rfl⟩, -⟩⟩⟩
  · rw [heq]
    exact ⟨hw.misfiled, fun _ => hw⟩
  · rw [heq]
    exact ⟨hw.misfiled, fun _ => ⟨hw.filed.push id, hw.misfiled⟩⟩
  · rw [heq]
    have hmisfiled := (misfiled_of_scan hw.filed hpurse).mpr (.inl hw.misfiled)
    refine ⟨hmisfiled, fun _ => ⟨?_, hmisfiled⟩⟩
    rw [scanHeight_push (fields_of_chainPart hchain), (fields_of_chainPart hchain).2]
    exact filed_of_scan hw.filed hpurse
  · rw [heq]
    refine ⟨(misfiled_of_scan hw.filed hpurse).mpr (.inl hw.misfiled), ?_⟩
    rintro ⟨summary', hok⟩
    cases hok

/-- What a block on the tip does to a whole wallet: it leaves it whole if it is taken whole, else it
    is refused and leaves a mark, or taken and files an image wrongly. -/
theorem Whole.processBlock (hw : w.Whole) (block : Block) (id : Hash256) (bundle : BlockBundle)
    (summary : RefreshSummary) :
    (TakenWhole C w w.scanHeight block bundle ∧
      (w.processBlock C w.scanHeight block id bundle summary).2.Whole) ∨
    ¬ TakenWhole C w w.scanHeight block bundle ∧
      ((∃ e, (w.processBlock C w.scanHeight block id bundle summary).1 = .error e) ∧
        ¬ (w.processBlock C w.scanHeight block id bundle summary).2.Whole ∨
      (w.processBlock C w.scanHeight block id bundle summary).2.Tainted) := by
  have hfiled := (whole_iff.mp hw).1
  have hlo : w.startHeight ≤ w.scanHeight := Nat.le_add_right ..
  have hskip (hno : ¬ w.Scans w.scanHeight block bundle) : TakenWhole C w w.scanHeight block bundle :=
    ⟨fun h => absurd h hno, fun h => absurd h hno⟩
  rcases processBlock_outcome (C := C) w block id bundle summary with ⟨hno, e, heq⟩ |
    ⟨-, ⟨hbelow, heq⟩ | ⟨hscans, r, w', heq, hpurse, ⟨hparse, -, hchain⟩ | ⟨hbad, ⟨e, rfl⟩, hchain⟩⟩⟩
  · rw [heq]
    exact .inl ⟨hskip hno, hw⟩
  · rw [heq]
    exact .inl ⟨hskip fun hscans => absurd hscans.from_ (Nat.not_le.mpr hbelow),
      whole_iff.mpr ⟨hfiled.push id, (whole_iff.mp hw).2⟩⟩
  · rw [heq]
    have hnext : w'.Filed w'.startHeight w'.scanHeight := by
      rw [scanHeight_push (fields_of_chainPart hchain), (fields_of_chainPart hchain).2]
      exact filed_of_scan hfiled hpurse
    have hmisfiled := misfiled_of_scan hfiled hpurse
    rw [or_iff_right (whole_iff.mp hw).2] at hmisfiled
    by_cases hfiles : MisfilesTxs C w.scanHeight block.header.timestamp w.purse (bundle.seen C block).txs
    · exact .inr ⟨fun h => h.files hscans hparse hfiles, .inr ⟨hnext, hmisfiled.mpr hfiles⟩⟩
    · refine .inl ⟨⟨fun _ _ => hfiles, fun _ hbad => absurd hparse hbad⟩, whole_iff.mpr ⟨hnext, ?_⟩⟩
      rw [hmisfiled]
      exact hfiles
  · rw [heq]
    have hfields : w'.hashes = w.hashes ∧ w'.startHeight = w.startHeight := fields_of_chainPart hchain
    rcases hfields with ⟨hhashes, hstart⟩
    have hheight : w'.scanHeight = w.scanHeight := by rw [scanHeight, hhashes, hstart, scanHeight]
    rcases scanTxs_touches (C := C) block.header.timestamp
      (hfiled.mono (Nat.le_refl _) (Nat.le_succ w.scanHeight)) hw.byImage hlo (bundle.seen C block).txs with
      ⟨⟨t, ht, htouch⟩, hmarked⟩ | ⟨hspares, hsame⟩
    · refine .inr ⟨fun h => h.spares hscans hbad t ht htouch, .inl ⟨⟨e, rfl⟩, ?_⟩⟩
      intro hwhole
      have hnot := hwhole.heights.not_markedAt
      rw [hheight] at hnot
      apply hnot
      have hmark : w'.purse.MarkedAt w.scanHeight := by
        rw [hpurse]
        exact hmarked
      exact hmark
    · refine .inl ⟨⟨fun _ hparse => absurd hparse hbad, fun _ _ => hspares⟩, whole_iff.mpr ⟨?_, ?_⟩⟩
      · rw [hheight, hstart]
        exact hfiled.of_purse (hpurse.trans hsame)
      · rw [misfiled_of_purse (hpurse.trans hsame)]
        exact (whole_iff.mp hw).2

end

/-! ### The blocks of a reply -/

/-- What a block does to the wallet, and whether it is refused, does not depend on the summary. -/
theorem processTransactions_summary (bundle : BlockBundle) (height timestamp slot : Nat)
    (txs : List (Blob × Hash256)) (w : WalletState) (summary summary' : RefreshSummary) :
    (processTransactions C bundle height timestamp slot txs w summary).2 =
      (processTransactions C bundle height timestamp slot txs w summary').2 ∧
    (processTransactions C bundle height timestamp slot txs w summary).1.isOk =
      (processTransactions C bundle height timestamp slot txs w summary').1.isOk := by
  induction txs generalizing slot w summary summary' with
  | nil => exact ⟨rfl, rfl⟩
  | cons p txs ih =>
      obtain ⟨blob, txid⟩ := p
      rw [processTransactions, processTransactions]
      cases bundle.parseTx blob with
      | error e => exact ⟨rfl, rfl⟩
      | ok tx =>
          simp only [processTransaction_fst]
          exact ih ..

theorem processBlock_summary (w : WalletState) (height : Nat) (block : Block) (id : Hash256)
    (bundle : BlockBundle) (summary summary' : RefreshSummary) :
    (w.processBlock C height block id bundle summary).2 =
      (w.processBlock C height block id bundle summary').2 ∧
    (w.processBlock C height block id bundle summary).1.isOk =
      (w.processBlock C height block id bundle summary').1.isOk := by
  unfold processBlock
  split
  · exact ⟨rfl, rfl⟩
  split
  · exact ⟨rfl, rfl⟩
  split
  · exact ⟨rfl, rfl⟩
  simp only [processTransaction_fst]
  generalize hfirst : processTransactions C bundle height block.header.timestamp 1 _ _
    (w.processTransaction C height block.header.timestamp block.minerTx _ _ summary).2 = result
  generalize hsecond : processTransactions C bundle height block.header.timestamp 1 _ _
    (w.processTransaction C height block.header.timestamp block.minerTx _ _ summary').2 = result'
  obtain ⟨hsame, hok⟩ := processTransactions_summary (C := C) bundle height block.header.timestamp 1
    (bundle.txs.zip block.txHashes)
    ((w.receiveFrom C height block.header.timestamp block.minerTx
      ((transactionHash C.cnFastHash block.minerTx).getD nullHash) (bundle.outputIndices.headD [])).1.recordSpend
        height block.header.timestamp block.minerTx
        ((transactionHash C.cnFastHash block.minerTx).getD nullHash)
        (w.receiveFrom C height block.header.timestamp block.minerTx
          ((transactionHash C.cnFastHash block.minerTx).getD nullHash)
          (bundle.outputIndices.headD [])).2 (w.namedBy block.minerTx))
    (w.processTransaction C height block.header.timestamp block.minerTx
      ((transactionHash C.cnFastHash block.minerTx).getD nullHash) (bundle.outputIndices.headD [])
      summary).2
    (w.processTransaction C height block.header.timestamp block.minerTx
      ((transactionHash C.cnFastHash block.minerTx).getD nullHash) (bundle.outputIndices.headD [])
      summary').2
  rw [hfirst, hsecond] at hsame hok
  obtain ⟨r, v⟩ := result
  obtain ⟨r', v'⟩ := result'
  obtain rfl : v = v' := hsame
  cases r <;> cases r' <;> first | exact ⟨rfl, rfl⟩ | cases hok

/-- The blocks of a reply are taken whole: each of those put on the tip, over what the ones before
    it leave. -/
def TakesBlocks (C : Crypto) : Nat → List BlockBundle → WalletState → Prop
  | _, [], _ => True
  | height, bundle :: rest, w =>
      if height < w.startHeight then TakesBlocks C (height + 1) rest w
      else
        match parseBundle C height bundle with
        | .error _ => True
        | .ok (block, hash) =>
            let add (w : WalletState) : Prop :=
              TakenWhole C w height block bundle ∧
                match w.processBlock C height block hash bundle {} with
                | (.error _, _) => True
                | (.ok _, w) => TakesBlocks C (height + 1) rest w
            if height < w.scanHeight then
              if w.hashes[height - w.startHeight]? = some hash then TakesBlocks C (height + 1) rest w
              else
                match w.checkReorgDepth (w.scanHeight - height) with
                | .error _ => True
                | .ok () => add (w.detach height)
            else add w

section

variable {w : WalletState}

theorem not_below_start (w : WalletState) : ¬ w.scanHeight < w.startHeight :=
  Nat.not_lt.mpr (Nat.le_add_right ..)

/-- A block above the tip is added. -/
theorem processBlocks_tip (bundle : BlockBundle) (rest : List BlockBundle) (w : WalletState)
    (summary : RefreshSummary) :
    processBlocks C w.scanHeight (bundle :: rest) w summary =
      match parseBundle C w.scanHeight bundle with
      | .error e => (.error e, w)
      | .ok (block, hash) =>
          match w.processBlock C w.scanHeight block hash bundle summary with
          | (.error e, w') => (.error e, w')
          | (.ok summary, w') => processBlocks C (w.scanHeight + 1) rest w'
              { summary with blocksScanned := summary.blocksScanned + 1 } := by
  rw [processBlocks, if_neg (not_below_start w)]
  cases parseBundle C w.scanHeight bundle with
  | error e => rfl
  | ok parsed =>
      simp only [Nat.lt_irrefl, if_false] <;>
        rcases w.processBlock C w.scanHeight parsed.1 parsed.2 bundle summary with ⟨_ | _, _⟩ <;> rfl

theorem takesBlocks_tip (bundle : BlockBundle) (rest : List BlockBundle) (w : WalletState) :
    TakesBlocks C w.scanHeight (bundle :: rest) w =
      match parseBundle C w.scanHeight bundle with
      | .error _ => True
      | .ok (block, hash) =>
          TakenWhole C w w.scanHeight block bundle ∧
            match w.processBlock C w.scanHeight block hash bundle {} with
            | (.error _, _) => True
            | (.ok _, w') => TakesBlocks C (w.scanHeight + 1) rest w' := by
  rw [TakesBlocks, if_neg (not_below_start w)]
  cases parseBundle C w.scanHeight bundle with
  | error e => rfl
  | ok parsed => simp only [Nat.lt_irrefl, if_false]

/-- A block that was put on the end is the new tip. -/
theorem scanHeight_of_taken {block : Block} {id : Hash256} {bundle : BlockBundle}
    {summary summary' : RefreshSummary} {w' : WalletState}
    (h : w.processBlock C w.scanHeight block id bundle summary = (.ok summary', w')) :
    w.scanHeight + 1 = w'.scanHeight := by
  obtain ⟨hstart, ⟨⟨e, he⟩, -⟩ | ⟨-, hhashes, -⟩⟩ := processBlock_hashes (C := C) w block id bundle summary
  · rw [h] at he
    cases he
  · rw [h] at hstart hhashes
    exact (scanHeight_push ⟨hhashes, hstart⟩).symm

theorem processBlock_ok_any {block : Block} {id : Hash256} {bundle : BlockBundle} {height : Nat}
    {summary summary' : RefreshSummary} {w' : WalletState}
    (h : w.processBlock C height block id bundle summary = (.ok summary', w')) :
    ∃ summary₀, w.processBlock C height block id bundle {} = (.ok summary₀, w') := by
  obtain ⟨hsame, hok⟩ := processBlock_summary (C := C) w height block id bundle summary {}
  rw [h] at hsame hok
  generalize w.processBlock C height block id bundle {} = result at hsame hok
  obtain ⟨r, v⟩ := result
  obtain rfl : w' = v := hsame
  cases r with
  | error e => cases hok
  | ok summary₀ => exact ⟨summary₀, rfl⟩

theorem processBlock_error_any {block : Block} {id : Hash256} {bundle : BlockBundle} {height : Nat}
    {summary : RefreshSummary} {e : RefreshError} {w' : WalletState}
    (h : w.processBlock C height block id bundle summary = (.error e, w')) :
    ∃ e₀, w.processBlock C height block id bundle {} = (.error e₀, w') := by
  obtain ⟨hsame, hok⟩ := processBlock_summary (C := C) w height block id bundle summary {}
  rw [h] at hsame hok
  generalize w.processBlock C height block id bundle {} = result at hsame hok
  obtain ⟨r, v⟩ := result
  obtain rfl : w' = v := hsame
  cases r with
  | error e₀ => exact ⟨e₀, rfl⟩
  | ok summary₀ => cases hok

/-- A tainted wallet stays tainted through the blocks above its tip: it takes none back. -/
theorem Tainted.processBlocks (hw : w.Tainted) (bundles : List BlockBundle) (summary : RefreshSummary) :
    (processBlocks C w.scanHeight bundles w summary).2.Misfiled := by
  induction bundles generalizing w summary with
  | nil => exact hw.misfiled
  | cons bundle rest ih =>
      rw [processBlocks_tip]
      split
      · exact hw.misfiled
      · rename_i block hash _
        obtain ⟨hmisfiled, htainted⟩ := hw.processBlock (C := C) block hash bundle summary
        split
        · rename_i heq
          rw [heq] at hmisfiled
          exact hmisfiled
        · rename_i summary' w' heq
          rw [heq] at htainted
          rw [scanHeight_of_taken heq]
          exact ih (htainted ⟨summary', rfl⟩) _

/-- Blocks above the tip leave a whole wallet whole exactly if they are taken whole. -/
theorem Whole.processBlocks_tip (hw : w.Whole) (bundles : List BlockBundle) (summary : RefreshSummary) :
    (processBlocks C w.scanHeight bundles w summary).2.Whole ↔ TakesBlocks C w.scanHeight bundles w := by
  induction bundles generalizing w summary with
  | nil => exact iff_of_true hw trivial
  | cons bundle rest ih =>
      rw [WalletState.processBlocks_tip, takesBlocks_tip]
      cases parseBundle C w.scanHeight bundle with
      | error e => exact iff_of_true hw trivial
      | ok parsed =>
          obtain ⟨block, hash⟩ := parsed
          simp only
          have hblock := hw.processBlock (C := C) block hash bundle summary
          rcases heq : w.processBlock C w.scanHeight block hash bundle summary with ⟨r, w'⟩
          rw [heq] at hblock
          cases r with
          | error e =>
              obtain ⟨e₀, heq₀⟩ := processBlock_error_any heq
              simp only [heq₀, and_true]
              rcases hblock with ⟨htaken, hwhole⟩ | ⟨hnot, ⟨-, hbroken⟩ | htainted⟩
              · exact iff_of_true hwhole htaken
              · exact iff_of_false hbroken hnot
              · exact iff_of_false htainted.not_whole hnot
          | ok summary' =>
              obtain ⟨summary₀, heq₀⟩ := processBlock_ok_any heq
              simp only [heq₀]
              rw [scanHeight_of_taken heq]
              rcases hblock with ⟨htaken, hwhole⟩ | ⟨hnot, ⟨⟨e, he⟩, -⟩ | htainted⟩
              · rw [ih hwhole]
                exact (and_iff_right htaken).symm
              · cases he
              · refine iff_of_false ?_ fun h => hnot h.1
                intro hwhole
                exact (whole_iff.mp hwhole).2 (htainted.processBlocks rest _)

/-- The blocks added above the tip each name the one before. -/
theorem follows_processBlocks_tip (w : WalletState) (bundles : List BlockBundle)
    (summary : RefreshSummary) :
    ∃ added, (processBlocks C w.scanHeight bundles w summary).2.hashes = w.hashes ++ added.map (·.2) ∧
      Follows C w.hashes.getLast? added := by
  induction bundles generalizing w summary with
  | nil => exact ⟨[], by simp [processBlocks], trivial⟩
  | cons bundle rest ih =>
      rw [WalletState.processBlocks_tip]
      cases hparse : parseBundle C w.scanHeight bundle with
      | error e => exact ⟨[], by simp, trivial⟩
      | ok parsed =>
          obtain ⟨block, hash⟩ := parsed
          have hid : block.blockId C.cnFastHash = some hash := by
            unfold parseBundle at hparse
            split at hparse
            · cases hparse
            · split at hparse
              · cases hparse
              · rename_i hnamed
                cases hparse
                exact hnamed
          simp only
          obtain ⟨-, hhashes⟩ := processBlock_hashes (C := C) w block hash bundle summary
          rcases heq : w.processBlock C w.scanHeight block hash bundle summary with ⟨r, w'⟩
          rw [heq] at hhashes
          cases r with
          | error e =>
              rcases hhashes with ⟨-, hsame⟩ | ⟨⟨summary', hok⟩, -⟩
              · exact ⟨[], by simpa using hsame, trivial⟩
              · cases hok
          | ok summary' =>
              rcases hhashes with ⟨⟨e, he⟩, -⟩ | ⟨-, hpush, hlast⟩
              · cases he
              replace hpush : w'.hashes = w.hashes ++ [hash] := hpush
              obtain ⟨added, hadded, hfollows⟩ := ih w'
                { summary' with blocksScanned := summary'.blocksScanned + 1 }
              rw [← scanHeight_of_taken heq] at hadded
              refine ⟨(block, hash) :: added, ?_, hid, hlast, ?_⟩
              · simp only
                rw [hadded, hpush, List.append_assoc]
                rfl
              · rw [hpush, List.getLast?_append, List.getLast?_singleton] at hfollows
                exact hfollows

end

/-! ### A reply -/

/-- The hashes held are some of those held before, and those of blocks added that each name the one
    before. -/
def AddsLinked (C : Crypto) (held hashes : List Hash256) : Prop :=
  ∃ n added, hashes = held.take n ++ added.map (·.2) ∧ Follows C (held.take n).getLast? added

theorem AddsLinked.refl (held : List Hash256) : AddsLinked C held held :=
  ⟨held.length, [], by simp, trivial⟩

section

variable {w : WalletState} {height : Nat}

/-- Where a block differs from the one held at its height, the rest of the reply is added after what
    was held from there on is taken back. -/
theorem processBlocks_differs {bundle : BlockBundle} (rest : List BlockBundle) {block : Block}
    {hash : Hash256} (hlow : w.startHeight ≤ height) (hhigh : height < w.scanHeight)
    (hparse : parseBundle C height bundle = .ok (block, hash))
    (hdiffers : w.hashes[height - w.startHeight]? ≠ some hash)
    (hdepth : w.checkReorgDepth (w.scanHeight - height) = .ok ()) (summary : RefreshSummary) :
    processBlocks C height (bundle :: rest) w summary =
        processBlocks C height (bundle :: rest) (w.detach height) { summary with reorgTo := some height } ∧
      (TakesBlocks C height (bundle :: rest) w ↔ TakesBlocks C height (bundle :: rest) (w.detach height)) := by
  have hnot : ¬ height < w.startHeight := Nat.not_lt.mpr hlow
  have hnot' : ¬ height < (w.detach height).startHeight := by rwa [startHeight_detach]
  have htip : ¬ height < (w.detach height).scanHeight := by
    rw [scanHeight_detach hlow (Nat.le_of_lt hhigh)]
    exact Nat.lt_irrefl height
  constructor
  · rw [WalletState.processBlocks, WalletState.processBlocks]
    simp only [if_neg hnot, if_neg hnot', hparse, if_pos hhigh, if_neg hdiffers, hdepth, if_neg htip]
  · rw [TakesBlocks, TakesBlocks]
    simp only [if_neg hnot, if_neg hnot', hparse, if_pos hhigh, if_neg hdiffers, hdepth, if_neg htip]

/-- The blocks above a tip, with some of the hashes held before. -/
theorem Whole.processBlocks_onto {held : List Hash256} (hw : w.Whole) (bundles : List BlockBundle)
    (summary : RefreshSummary) {n : Nat} (hhashes : w.hashes = held.take n) :
    ((WalletState.processBlocks C w.scanHeight bundles w summary).2.Whole ↔
        TakesBlocks C w.scanHeight bundles w) ∧
      AddsLinked C held (WalletState.processBlocks C w.scanHeight bundles w summary).2.hashes := by
  refine ⟨hw.processBlocks_tip bundles summary, ?_⟩
  obtain ⟨added, hadded, hfollows⟩ := follows_processBlocks_tip (C := C) w bundles summary
  rw [hhashes] at hadded hfollows
  exact ⟨n, added, hadded, hfollows⟩

/-- The blocks of a reply leave a whole wallet whole exactly if they are taken whole, and the hashes
    they add name each other. -/
theorem Whole.processBlocks (hw : w.Whole) (hhigh : height ≤ w.scanHeight) (bundles : List BlockBundle)
    (summary : RefreshSummary) :
    ((processBlocks C height bundles w summary).2.Whole ↔ TakesBlocks C height bundles w) ∧
      AddsLinked C w.hashes (processBlocks C height bundles w summary).2.hashes := by
  induction bundles generalizing height summary with
  | nil => exact ⟨iff_of_true hw trivial, .refl _⟩
  | cons bundle rest ih =>
      rcases Nat.lt_or_eq_of_le hhigh with hlt | heq
      · by_cases hlow : height < w.startHeight
        · rw [WalletState.processBlocks, TakesBlocks, if_pos hlow, if_pos hlow]
          exact ih hlt summary
        cases hparse : parseBundle C height bundle with
        | error e =>
            rw [WalletState.processBlocks, TakesBlocks, if_neg hlow, if_neg hlow, hparse]
            exact ⟨iff_of_true hw trivial, .refl _⟩
        | ok parsed =>
            obtain ⟨block, hash⟩ := parsed
            by_cases hsame : w.hashes[height - w.startHeight]? = some hash
            · rw [WalletState.processBlocks, TakesBlocks, if_neg hlow, if_neg hlow, hparse]
              simp only [if_pos hlt, if_pos hsame]
              exact ih hlt summary
            cases hdepth : w.checkReorgDepth (w.scanHeight - height) with
            | error e =>
                rw [WalletState.processBlocks, TakesBlocks, if_neg hlow, if_neg hlow, hparse]
                simp only [if_pos hlt, if_neg hsame, hdepth]
                exact ⟨iff_of_true hw trivial, .refl _⟩
            | ok _ =>
                have hlow' := Nat.le_of_not_lt hlow
                obtain ⟨hblocks, htakes⟩ := processBlocks_differs rest hlow' hlt hparse hsame
                  hdepth summary
                have honto := (hw.detach hlow' hhigh).processBlocks_onto (C := C) (bundle :: rest)
                  { summary with reorgTo := some height } (hashes_detach w height)
                rw [scanHeight_detach hlow' hhigh] at honto
                rw [hblocks, htakes]
                exact honto
      · rw [heq]
        exact hw.processBlocks_onto _ _ (List.take_length).symm

end

/-- A reply is taken whole: its blocks are, if the wallet looks at them. -/
def TakesBatch (C : Crypto) (w : WalletState) (batch : BlockSource.Batch) : Prop :=
  batch.startHeight ≤ w.scanHeight → (w.hashes = [] ∨ w.startHeight ≤ batch.startHeight) →
    TakesBlocks C batch.startHeight batch.blocks w

/-- The reply to the request for blocks is taken whole, over the wallet as it looks at it. -/
def TakesReply (C : Crypto) (w : WalletState) (source : BlockSource) : Prop :=
  ∀ batch batchSize,
    requestBlocks source (w.historyAt w.granularity) (if w.hashes.isEmpty then w.startHeight else 0)
      (w.batchSize + 1) w.batchSize = (.ok batch, batchSize) →
    TakesBatch C
      { w with
        batchSize := min (batchSize * 2) maxBlocksPerCall
        firstRefreshDone := true
        everRefreshed := true } batch

section

variable {w : WalletState}

theorem Whole.of_same {w' : WalletState} (hw : w.Whole) (hpurse : w'.purse = w.purse)
    (hhashes : w'.hashes = w.hashes) (hstart : w'.startHeight = w.startHeight) : w'.Whole := by
  have hheight : w'.scanHeight = w.scanHeight := by rw [scanHeight, hhashes, hstart, scanHeight]
  rw [whole_iff] at hw ⊢
  rw [hheight, hstart, misfiled_of_purse hpurse]
  exact ⟨hw.1.of_purse hpurse, hw.2⟩

theorem Whole.processBatch (hw : w.Whole) (granularity : Nat) (batch : BlockSource.Batch) :
    ((processBatch C w granularity batch).2.Whole ↔ TakesBatch C w batch) ∧
      AddsLinked C w.hashes (processBatch C w granularity batch).2.hashes := by
  unfold WalletState.processBatch TakesBatch
  simp only
  split
  · rename_i hempty
    rw [List.isEmpty_iff.mp hempty]
    exact ⟨iff_of_true hw fun _ _ => trivial, .refl _⟩
  split
  · rename_i hgap
    exact ⟨iff_of_true hw fun hle => absurd hle (Nat.not_le.mpr hgap), .refl _⟩
  rename_i hhigh
  split
  · rename_i hbelow
    have hskips : ¬ (w.hashes = [] ∨ w.startHeight ≤ batch.startHeight) := by
      rintro (hnil | hle)
      · simp [hnil] at hbelow
      · omega
    split
    · exact ⟨iff_of_true hw fun _ h => absurd h hskips, .refl _⟩
    · refine ⟨iff_of_true (hw.detach (Nat.le_refl _) (Nat.le_add_right ..)) fun _ h => absurd h hskips, 0,
        [], ?_, trivial⟩
      simp [hashes_detach]
  · rename_i hlooks
    have hstarts : w.hashes = [] ∨ w.startHeight ≤ batch.startHeight := by
      by_cases hnil : w.hashes = []
      · exact .inl hnil
      · right
        simp only [Bool.not_eq_true', List.isEmpty_eq_false_iff, not_and_or] at hlooks
        exact Nat.le_of_not_lt (hlooks.resolve_right fun h => h hnil)
    have hblocks := hw.processBlocks (C := C) (Nat.le_of_not_lt hhigh) batch.blocks
      { currentHeight := batch.currentHeight }
    generalize WalletState.processBlocks C batch.startHeight batch.blocks w
      { currentHeight := batch.currentHeight } = result at hblocks
    have hiff : (batch.startHeight ≤ w.scanHeight → w.hashes = [] ∨ w.startHeight ≤ batch.startHeight →
        TakesBlocks C batch.startHeight batch.blocks w) ↔ TakesBlocks C batch.startHeight batch.blocks w :=
      ⟨fun h => h (Nat.le_of_not_lt hhigh) hstarts, fun h _ _ => h⟩
    rw [hiff]
    rcases result with ⟨_ | _, w'⟩
    · exact hblocks
    · simp only
      split <;> exact hblocks

theorem Whole.refreshBlocks (hw : w.Whole) (source : BlockSource) :
    ((w.refreshBlocks C source).2.Whole ↔ w.TakesReply C source) ∧
      AddsLinked C w.hashes (w.refreshBlocks C source).2.hashes := by
  unfold WalletState.refreshBlocks TakesReply
  simp only
  rw [show (if (w.firstRefreshDone || w.trustedDaemon) = true then 1 else firstRefreshGranularity) =
    w.granularity from rfl]
  generalize requestBlocks source (w.historyAt w.granularity)
    (if w.hashes.isEmpty = true then w.startHeight else 0) (w.batchSize + 1) w.batchSize = result
  rcases result with ⟨e | batch, batchSize⟩
  · refine ⟨iff_of_true (hw.of_same rfl rfl rfl) ?_, .refl _⟩
    rintro batch size heq
    cases heq
  · have hasked : ({ w with
        batchSize := min (batchSize * 2) maxBlocksPerCall
        firstRefreshDone := true
        everRefreshed := true } : WalletState).Whole := hw.of_same rfl rfl rfl
    obtain ⟨hwhole, hadds⟩ := hasked.processBatch (C := C) w.granularity batch
    refine ⟨hwhole.trans ⟨?_, fun h => h batch batchSize rfl⟩, hadds⟩
    rintro h batch' size heq
    cases heq
    exact h

end

/-! ### Hashes filled in below -/

theorem reached_gatherHashes {base target : Nat} (height : Nat) (hashes fill : List Hash256)
    {gathered : List Hash256} {atTarget : Option Hash256}
    (hlow : base ≤ height) (hhigh : height ≤ base + fill.length)
    (h : gatherHashes base target height hashes fill = .ok (gathered, atTarget)) :
    atTarget.isSome → target ≤ base + gathered.length := by
  induction hashes generalizing height fill with
  | nil =>
      rw [gatherHashes] at h
      cases h
      intro hsome
      cases hsome
  | cons hash hashes ih =>
      rw [gatherHashes] at h
      split at h
      · cases h
        intro _
        omega
      simp only at h
      split at h
      · rename_i held hget
        have hlt := (List.getElem?_eq_some_iff.mp hget).1
        split at h
        · exact ih (height + 1) fill (by omega) (by omega) h
        split at h
        · cases h
        · refine ih (height + 1) _ (by omega) ?_ h
          rw [List.length_append, List.length_take, List.length_singleton]
          omega
      · rename_i hnone
        have hge := List.getElem?_eq_none_iff.mp hnone
        refine ih (height + 1) _ (by omega) ?_ h
        rw [List.length_append, List.length_singleton]
        omega

/-- The end of a filling in leaves whole blocks: where the wallet holds no hashes, a list that ends
    with none gained is not below a spend on record. -/
def FillsWhole (w : WalletState) (source : BlockSource) (target : Nat) : Prop :=
  ∀ listed gathered atTarget, w.hashes = [] →
    source.getHashes (w.fillHistory w.gathering) = .ok (some listed) →
    w.historyBase ≤ listed.startHeight → listed.startHeight < w.historyBase + w.gathering.length →
    gatherHashes w.historyBase target listed.startHeight listed.hashes w.gathering =
      .ok (gathered, atTarget) →
    gathered.length ≤ w.gathering.length →
    ∀ s ∈ w.sent, ∀ c, s.state = .confirmed c → c < w.historyBase + gathered.length

section

variable {w : WalletState} {gathered : List Hash256}

theorem fillTarget_aims {target : Nat} (h : w.fillTarget = some target) :
    w.historyBase < target ∧ w.startHeight ≤ target ∧
      (w.hashes ≠ [] → target = w.startHeight) := by
  unfold fillTarget at h
  simp only [Option.ite_none_right_eq_some, Option.some.injEq] at h
  rcases h with ⟨⟨hbelow, -⟩, rfl⟩
  refine ⟨hbelow, ?_, ?_⟩
  · split
    · exact Nat.le_max_right ..
    · exact Nat.le_refl _
  · intro hne
    simp [hne]

/-- Hashes put under a wallet's leave it whole if what it holds stays below the end. -/
theorem Whole.join (hw : w.Whole) (gathered : List Hash256)
    (hbase : w.transfers = [] ∨ w.historyBase ≤ w.startHeight)
    (hsent : ∀ s ∈ w.sent, ∀ c, s.state = .confirmed c →
      c < w.historyBase + (gathered.length + w.hashes.length))
    (hheight : w.transfers = [] ∨ w.scanHeight ≤ w.historyBase + (gathered.length + w.hashes.length)) :
    ({ w with hashes := gathered ++ w.hashes, startHeight := w.historyBase } : WalletState).Whole := by
  have hscan : ({ w with hashes := gathered ++ w.hashes, startHeight := w.historyBase } :
      WalletState).scanHeight = w.historyBase + (gathered.length + w.hashes.length) := by
    rw [scanHeight, List.length_append]
  refine ⟨⟨?_, ?_⟩, hw.byImage, hw.byKey, hw.distinct⟩
  · intro t ht
    replace ht : t ∈ w.transfers := ht
    have hne : w.transfers ≠ [] := List.ne_nil_of_mem ht
    rw [hscan]
    exact Transfer.Timely.mono (hw.heights.transfers t ht) (hbase.resolve_left hne) (hheight.resolve_left hne)
  · rw [hscan]
    exact hsent

theorem Whole.transfers_nil (hw : w.Whole) (hnil : w.hashes = []) : w.transfers = [] := by
  rw [List.eq_nil_iff_forall_not_mem]
  intro t ht
  have htimely := hw.heights.transfers t ht
  have hlow := htimely.low
  have hhigh := htimely.high
  rw [scanHeight, hnil, List.length_nil] at hhigh
  omega

theorem Whole.joinFill (hw : w.Whole) {target : Nat} (htarget : w.fillTarget = some target)
    {atTarget : Option Hash256} (hat : atTarget.isSome → target ≤ w.historyBase + gathered.length)
    (summary : RefreshSummary) :
    (w.joinFill gathered (atTarget.isSome || decide (w.historyBase + gathered.length ≥ target)) atTarget
        summary).2.Whole ↔
      (w.hashes = [] → ∀ s ∈ w.sent, ∀ c, s.state = .confirmed c → c < w.historyBase + gathered.length) := by
  obtain ⟨hbelow, haims, hexact⟩ := fillTarget_aims htarget
  unfold WalletState.joinFill
  simp only
  cases hhashes : w.hashes with
  | nil =>
      simp only [true_implies, List.append_nil]
      have hnone := hw.transfers_nil hhashes
      constructor
      · intro hwhole
        exact hwhole.heights.sent
      · intro hsent
        have hjoin := hw.join gathered (.inl hnone) (by simpa [hhashes] using hsent) (.inl hnone)
        simpa [hhashes] using hjoin
  | cons first rest =>
      have hne : w.hashes ≠ [] := by simp [hhashes]
      obtain rfl := hexact hne
      refine iff_of_true ?_ fun h => by cases h
      simp only
      split
      · exact hw
      rename_i hreached
      have hlen : w.startHeight ≤ w.historyBase + gathered.length := by
        simp only [Bool.not_eq_true', Bool.not_eq_false, Bool.or_eq_true, decide_eq_true_eq] at hreached
        exact hreached.elim hat id
      split
      · split
        · exact hw
        · -- All that is held goes before the hashes are put in its place.
          have hdetached := hw.detach (Nat.le_refl _) (Nat.le_add_right w.startHeight w.hashes.length)
          have hnil : (w.detach w.startHeight).hashes = [] := by simp [hashes_detach]
          have hsame : (w.detach w.startHeight).historyBase = w.historyBase :=
            (congrArg (fun v : WalletState => v.historyBase) (w.chainPart_detach w.startHeight) :)
          have hnone := hdetached.transfers_nil hnil
          have hjoin := hdetached.join gathered (.inl hnone) (by
            intro s hs c hc
            have hlt := hdetached.heights.sent s hs c hc
            rw [scanHeight, hnil, startHeight_detach, List.length_nil] at hlt
            rw [hsame]
            omega) (.inl hnone)
          rw [hsame] at hjoin
          exact hjoin
      · have hend : w.scanHeight ≤ w.historyBase + (gathered.length + w.hashes.length) := by
          rw [scanHeight]
          omega
        have hjoin := hw.join gathered (.inr (Nat.le_of_lt hbelow)) (fun s hs c hc =>
          Nat.lt_of_lt_of_le (hw.heights.sent s hs c hc) hend) (.inr hend)
        rw [hhashes] at hjoin
        exact hjoin

theorem Whole.fillBelow (hw : w.Whole) (source : BlockSource) {target : Nat}
    (htarget : w.fillTarget = some target) :
    (w.fillBelow source target).2.Whole ↔ w.FillsWhole source target := by
  have hsame (fill : List Hash256) : ({ w with fill := fill } : WalletState).Whole := hw.of_same rfl rfl rfl
  unfold WalletState.fillBelow FillsWhole
  simp only
  rw [show (if w.fill.isEmpty = true then [w.fillStart] else w.fill) = w.gathering from rfl]
  rw [show ({ w with fill := w.gathering } : WalletState).fillHistory w.gathering =
    w.fillHistory w.gathering from rfl]
  split
  · rename_i e herror
    refine iff_of_true (hsame _) ?_
    rintro listed gathered atTarget - hlisted
    rw [herror] at hlisted
    cases hlisted
  · rename_i hnone
    refine iff_of_true (hsame _) ?_
    rintro listed gathered atTarget - hlisted
    rw [hnone] at hlisted
    cases hlisted
  rename_i listed hlisted
  split
  · rename_i hunasked
    refine iff_of_true (hsame _) ?_
    rintro listed' gathered atTarget - hlisted' hlow hhigh
    rw [hlisted] at hlisted'
    cases hlisted'
    rcases hunasked with hunasked | hunasked <;> omega
  rename_i hasked
  split
  · rename_i e herror
    refine iff_of_true (hsame _) ?_
    rintro listed' gathered atTarget - hlisted' - - hgather
    rw [hlisted] at hlisted'
    cases hlisted'
    rw [herror] at hgather
    cases hgather
  rename_i gathered atTarget hgather
  have hat := reached_gatherHashes listed.startHeight listed.hashes w.gathering (by omega) (by omega) hgather
  obtain ⟨hbelow, haims, -⟩ := fillTarget_aims htarget
  split
  · rename_i hgains
    refine iff_of_true (hsame _) ?_
    rintro listed' gathered' atTarget' - hlisted' - - hgather' hle
    rw [hlisted] at hlisted'
    cases hlisted'
    rw [hgather] at hgather'
    cases hgather'
    simp only [Bool.and_eq_true, decide_eq_true_eq] at hgains
    omega
  rename_i hjoins
  have hjoin := Whole.joinFill (w := { w with fill := [] }) (hsame []) htarget hat
    { currentHeight := listed.currentHeight }
  have hiff : (w.hashes = [] → ∀ s ∈ w.sent, ∀ c, s.state = .confirmed c →
      c < w.historyBase + gathered.length) ↔ w.FillsWhole source target := by
    constructor
    · rintro h listed' gathered' atTarget' hnil hlisted' - - hgather' -
      rw [hlisted] at hlisted'
      cases hlisted'
      rw [hgather] at hgather'
      cases hgather'
      exact h hnil
    · intro h hnil s hs c hc
      by_cases hle : gathered.length ≤ w.gathering.length
      · exact h listed gathered atTarget hnil hlisted (by omega) (by omega) hgather hle s hs c hc
      · -- The list gained and still the wallet starts over: it got as far as the target.
        have hreached : target ≤ w.historyBase + gathered.length := by
          simp only [Bool.and_eq_true, Bool.not_eq_true', Bool.or_eq_false_iff, decide_eq_true_eq,
            decide_eq_false_iff_not, not_and] at hjoins
          by_contra hshort
          refine hjoins ⟨?_, by omega⟩ (by omega)
          rw [Bool.eq_false_iff]
          exact fun hsome => hshort (hat hsome)
        have hlt := hw.heights.sent s hs c hc
        rw [scanHeight, hnil, List.length_nil] at hlt
        omega
  replace hjoin := hjoin.trans hiff
  rw [FillsWhole] at hjoin
  rw [← hjoin]
  rw [show ({ w with fill := [] } : WalletState).historyBase = w.historyBase from rfl]
  generalize WalletState.joinFill { w with fill := [] } gathered
    (atTarget.isSome || decide (w.historyBase + gathered.length ≥ target)) atTarget
    { currentHeight := listed.currentHeight } = result
  rcases result with ⟨_ | _, w'⟩ <;> exact Iff.rfl

end

/-! ### One call -/

/-- A node that lists no hashes leaves the wallet as it was, with none gathered. -/
theorem fillBelow_quiet (w : WalletState) (source : BlockSource) (target : Nat)
    (h : (w.fillBelow source target).1 = .ok none) :
    (w.fillBelow source target).2 = { w with fill := [] } := by
  unfold WalletState.fillBelow at h ⊢
  simp only at h ⊢
  rw [show (if w.fill.isEmpty = true then [w.fillStart] else w.fill) = w.gathering from rfl] at h ⊢
  split at h
  · cases h
  · rfl
  · split at h
    · cases h
    split at h
    · cases h
    split at h
    · cases h
    split at h <;> cases h

/-- A call leaves whole blocks: the reply to its request for blocks is taken whole, or the hashes it
    fills in leave what is on record below the end. -/
def TakesWhole (C : Crypto) (w : WalletState) (source : BlockSource) : Prop :=
  match w.fillTarget with
  | none => w.TakesReply C source
  | some target =>
      match w.fillBelow source target with
      | (.ok none, w) => w.TakesReply C source
      | _ => w.FillsWhole source target

/-- A call that asks for blocks adds to the hashes it keeps those of blocks that name each other. -/
def KeepsLinked (C : Crypto) (w : WalletState) (source : BlockSource) : Prop :=
  w.Asking source → AddsLinked C w.hashes (w.refreshOnce C source).2.hashes

end WalletState

open WalletState

/-- Whatever a node answers, a call to it leaves a whole wallet whole, with the blocks added naming
    each other, exactly if every block put on the tip is taken whole. -/
theorem refresh_leaves_whole_iff {w : WalletState} (hw : w.Whole) (source : BlockSource) :
    (w.refreshOnce C source).2.Whole ∧ w.KeepsLinked C source ↔ w.TakesWhole C source := by
  unfold KeepsLinked refreshOnce TakesWhole
  cases htarget : w.fillTarget with
  | none =>
      simp only
      obtain ⟨hwhole, hadds⟩ := hw.refreshBlocks (C := C) source
      exact ⟨fun h => hwhole.mp h.1, fun h => ⟨hwhole.mpr h, fun _ => hadds⟩⟩
  | some target =>
      simp only
      have hfill := hw.fillBelow source htarget
      have hquiet := fillBelow_quiet w source target
      have hasks : w.Asking source → (w.fillBelow source target).1 = .ok none := fun h => h target htarget
      generalize w.fillBelow source target = result at hfill hquiet hasks
      rcases result with ⟨e | _ | summary, w'⟩
      · exact ⟨fun h => hfill.mp h.1, fun h => ⟨hfill.mpr h, fun h => by cases hasks h⟩⟩
      · have hsame : w' = { w with fill := [] } := hquiet rfl
        subst hsame
        have hbare : ({ w with fill := [] } : WalletState).Whole := hw.of_same rfl rfl rfl
        obtain ⟨hwhole, hadds⟩ := hbare.refreshBlocks (C := C) source
        exact ⟨fun h => hwhole.mp h.1, fun h => ⟨hwhole.mpr h, fun _ => hadds⟩⟩
      · exact ⟨fun h => hfill.mp h.1, fun h => ⟨hfill.mpr h, fun h => by cases hasks h⟩⟩

namespace Sample

theorem emptyWallet_whole : emptyWallet.wallet.Whole := by
  refine ⟨⟨?_, ?_⟩, ?_, ?_, List.nodup_nil⟩
  · exact fun t ht => absurd ht List.not_mem_nil
  · exact fun s hs => absurd hs List.not_mem_nil
  · intro k i
    exact iff_of_false (fun h => by cases h) (by rintro ⟨t, ⟨⟩, -⟩)
  · intro p i
    exact iff_of_false (fun h => by cases h) (by rintro ⟨t, ⟨⟩, -⟩)

/-- The block that spends, on the block that pays. -/
def spendingOnTop : Block :=
  { spendingBlock with
    header := { spendingBlock.header with prevId := (payingBlock.blockId grid.cnFastHash).getD nullHash } }

/-- A node that answers with both, the second of whose transactions cannot be read. -/
def halfReadable : BlockSource where
  getBlocks _ _ _ := .ok
    ⟨[⟨payingBlock.toBlob, [], [], false⟩, ⟨spendingOnTop.toBlob, [spendingBlob, []], [], true⟩], 1, 3⟩

/-- A wallet is paid three in one block, and the next block is refused at its second transaction: what
    it was paid is marked spent at a height it has no block of, and its balance is zero. -/
theorem half_scanned_block :
    emptyWallet.wallet.Whole ∧
    (emptyWallet.wallet.refreshOnce grid halfReadable).1 =
      .error (.badTransaction 2 (.invalidValue "transaction version")) ∧
    (emptyWallet.wallet.refreshOnce grid halfReadable).2.scanHeight = 2 ∧
    (emptyWallet.wallet.refreshOnce grid halfReadable).2.transfers.map
      (fun t => (t.amount, t.spent, t.spentHeight)) = [(3, true, 2)] ∧
    (emptyWallet.wallet.refreshOnce grid halfReadable).2.balance = 0 ∧
    ¬ (emptyWallet.wallet.refreshOnce grid halfReadable).2.Whole := by
  have hheight : (emptyWallet.wallet.refreshOnce grid halfReadable).2.scanHeight = 2 := by decide +kernel
  have hmarks : (emptyWallet.wallet.refreshOnce grid halfReadable).2.transfers.map
      (fun t => (t.amount, t.spent, t.spentHeight)) = [(3, true, 2)] := by decide +kernel
  refine ⟨emptyWallet_whole, by decide +kernel, hheight, hmarks, by decide +kernel, ?_⟩
  intro hwhole
  generalize (emptyWallet.wallet.refreshOnce grid halfReadable).2 = w at hheight hmarks hwhole
  rcases List.mem_map.mp (hmarks ▸ List.mem_singleton_self (3, true, 2)) with ⟨t, ht, hmark⟩
  have hspends := (hwhole.heights.transfers t ht).spends
  simp only [Prod.mk.injEq] at hmark
  omega

theorem refresh_leaves_whole_iff_half :
    (emptyWallet.wallet.refreshOnce grid halfReadable).2.Whole ∧
      emptyWallet.wallet.KeepsLinked grid halfReadable ↔ emptyWallet.wallet.TakesWhole grid halfReadable :=
  refresh_leaves_whole_iff emptyWallet_whole halfReadable

end Sample

end Wownero

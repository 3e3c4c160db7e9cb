import Wownero.Marks
/-!
# Spent means spent

A transfer is marked spent while a block of the wallet's chain spends its image, or a transaction
still waiting for a block does; its height says which.  The wallet keeps no list of the images its
chain spends, so that list is kept beside it here, and every operation of the wallet is followed on
both.
-/

namespace Wownero

/-! ### What a chain spends -/

/-- The images the blocks of a chain spend, each with the height of its block, in the order of the
    chain. -/
abbrev Spends := List (Nat × KeyImage)

/-- A block of the chain spends this image. -/
def OnChain (spends : Spends) (k : KeyImage) : Prop := ∃ h, (h, k) ∈ spends

/-- The height of the first block that spends an image, or zero. -/
def firstSpend (k : KeyImage) : Spends → Nat
  | [] => 0
  | row :: spends => if row.2 = k then row.1 else firstSpend k spends

/-- The height an output with this image is spent at, or zero. -/
def spentAt (spends : Spends) : Option KeyImage → Nat
  | some k => firstSpend k spends
  | none => 0

/-- The rows of a chain up to a height: above genesis, and in order. -/
structure Ordered (spends : Spends) (height : Nat) : Prop where
  positive : ∀ row ∈ spends, 0 < row.1
  below : ∀ row ∈ spends, row.1 < height
  sorted : spends.Pairwise fun a b => a.1 ≤ b.1

theorem firstSpend_pos_iff {spends : Spends} (h : ∀ row ∈ spends, 0 < row.1) (k : KeyImage) :
    0 < firstSpend k spends ↔ OnChain spends k := by
  induction spends with
  | nil => simp [firstSpend, OnChain]
  | cons row spends ih =>
      rw [firstSpend]
      split
      · rename_i hk
        exact iff_of_true (h row List.mem_cons_self) ⟨row.1, by rw [← hk]; exact List.mem_cons_self⟩
      · rename_i hk
        rw [ih fun r hr => h r (List.mem_cons_of_mem _ hr)]
        constructor
        · rintro ⟨height, hmem⟩
          exact ⟨height, List.mem_cons_of_mem _ hmem⟩
        · rintro ⟨height, hmem⟩
          rcases List.mem_cons.mp hmem with rfl | hmem
          · exact absurd rfl hk
          · exact ⟨height, hmem⟩

theorem firstSpend_append {spends : Spends} (h : ∀ row ∈ spends, 0 < row.1) (rows : Spends)
    (k : KeyImage) : firstSpend k (spends ++ rows) =
      if 0 < firstSpend k spends then firstSpend k spends else firstSpend k rows := by
  induction spends with
  | nil => rfl
  | cons row spends ih =>
      rw [List.cons_append, firstSpend, firstSpend]
      by_cases hk : row.2 = k
      · simp only [hk, if_true, if_pos (h row List.mem_cons_self)]
      · simp only [hk, if_false]
        exact ih fun r hr => h r (List.mem_cons_of_mem _ hr)

/-- The images a transaction spends, at one height. -/
theorem firstSpend_map (height : Nat) (images : List KeyImage) (k : KeyImage) :
    firstSpend k (images.map (height, ·)) = if k ∈ images then height else 0 := by
  induction images with
  | nil => rfl
  | cons k' images ih =>
      rw [List.map_cons, firstSpend]
      by_cases hk : k' = k
      · simp [hk]
      · simp [hk, Ne.symm hk, ih]

/-- Blocks taken back take their rows with them. -/
theorem firstSpend_filter {spends : Spends} (h : spends.Pairwise fun a b => a.1 ≤ b.1) (height : Nat)
    (k : KeyImage) : firstSpend k (spends.filter (·.1 < height)) =
      if firstSpend k spends < height then firstSpend k spends else 0 := by
  induction spends with
  | nil => exact (ite_self 0).symm
  | cons row spends ih =>
      obtain ⟨hfirst, hrest⟩ := List.pairwise_cons.mp h
      rw [List.filter_cons, firstSpend]
      by_cases hlow : row.1 < height
      · simp only [hlow, decide_true, if_true]
        rw [firstSpend]
        split
        · rfl
        · exact ih hrest
      · -- Every later block is at least as high, and gone too.
        have hnone : spends.filter (·.1 < height) = [] := by
          rw [List.filter_eq_nil_iff]
          intro r hr
          have := hfirst r hr
          simp only [decide_eq_true_eq]
          omega
        simp only [hlow, decide_false, Bool.false_eq_true, if_false, hnone]
        by_cases hk : row.2 = k
        · simp only [hk, if_true, if_neg hlow]
          rfl
        · simp only [hk, if_false]
          rw [← ih hrest, hnone]

theorem spentAt_pos_iff {spends : Spends} (h : ∀ row ∈ spends, 0 < row.1) (image : Option KeyImage) :
    0 < spentAt spends image ↔ ∃ k, image = some k ∧ OnChain spends k := by
  cases image with
  | none => simp [spentAt]
  | some k => simp [spentAt, firstSpend_pos_iff h]

theorem spentAt_filter {spends : Spends} (h : spends.Pairwise fun a b => a.1 ≤ b.1) (height : Nat)
    (image : Option KeyImage) : spentAt (spends.filter (·.1 < height)) image =
      if spentAt spends image < height then spentAt spends image else 0 := by
  cases image with
  | none => exact (ite_self 0).symm
  | some k => exact firstSpend_filter h height k

theorem spentAt_append_map {spends : Spends} (h : ∀ row ∈ spends, 0 < row.1) (height : Nat)
    (images : List KeyImage) (image : Option KeyImage) :
    spentAt (spends ++ images.map (height, ·)) image =
      if 0 < spentAt spends image then spentAt spends image
      else if image.any images.contains = true then height else 0 := by
  cases image with
  | none => simp [spentAt]
  | some k => simp [spentAt, firstSpend_append h, firstSpend_map]

namespace WalletState

variable {image : PublicKey → Option KeyImage}

/-! ### Marks that are right -/

/-- An output is marked as the chain and the transactions waiting for a block say. -/
structure Marked (w : WalletState) (spends : Spends) (t : Transfer) : Prop where
  height : t.spentHeight = spentAt spends t.keyImage
  spent : t.spent = (decide (0 < t.spentHeight) || t.keyImage.any w.isPendingInput)

/-- Outputs that are marked for what the chain spends, and for nothing that is not pending. -/
structure HalfMarked (w : WalletState) (spends : Spends) (t : Transfer) : Prop where
  height : t.spentHeight = spentAt spends t.keyImage
  chain : 0 < t.spentHeight → t.spent = true
  pending : t.spent = true → 0 < t.spentHeight ∨ t.keyImage.any w.isPendingInput = true

theorem Marked.half {w : WalletState} {spends : Spends} {t : Transfer} (h : w.Marked spends t) :
    w.HalfMarked spends t := by
  refine ⟨h.height, ?_, ?_⟩
  · intro hpos
    rw [h.spent, decide_eq_true hpos, Bool.true_or]
  · intro hspent
    rw [h.spent, Bool.or_eq_true, decide_eq_true_eq] at hspent
    exact hspent

/-- The books of a wallet: its indexes, and its marks against what its chain spends. -/
structure Books (image : PublicKey → Option KeyImage) (w : WalletState) (spends : Spends) : Prop where
  indexed : w.Indexed image
  ordered : Ordered spends w.scanHeight
  within : ∀ t ∈ w.transfers, w.refreshFromHeight ≤ t.blockHeight ∧ t.blockHeight < w.scanHeight
  marked : ∀ t ∈ w.transfers, w.Marked spends t

theorem isPendingInput_iff (w : WalletState) (k : KeyImage) :
    w.isPendingInput k = true ↔ ∃ s ∈ w.sent, s.state = .pending ∧ k ∈ s.keyImages := by
  simp [isPendingInput, List.any_eq_true]

theorem mem_pendingInputs_iff (w : WalletState) (k : KeyImage) :
    k ∈ w.pendingInputs ↔ w.isPendingInput k = true := by
  rw [isPendingInput_iff]
  simp only [pendingInputs, List.mem_flatMap, List.mem_filter, beq_iff_eq]
  constructor
  · rintro ⟨s, ⟨hs, hstate⟩, hk⟩
    exact ⟨s, hs, hstate, hk⟩
  · rintro ⟨s, hs, hstate, hk⟩
    exact ⟨s, ⟨hs, hstate⟩, hk⟩

theorem namedIn_pendingInputs (w : WalletState) (t : Transfer) :
    t.namedIn w.pendingInputs = t.keyImage.any w.isPendingInput := by
  rw [Bool.eq_iff_iff, Transfer.namedIn_iff, Option.any_eq_true]
  simp only [mem_pendingInputs_iff]

/-- Spending what is pending completes the marks. -/
theorem marked_spendPendingInputs {w : WalletState} {spends : Spends} (hindexed : w.Indexed image)
    (hmarked : ∀ t ∈ w.transfers, w.HalfMarked spends t) :
    ∀ t ∈ w.spendPendingInputs.transfers, w.spendPendingInputs.Marked spends t := by
  intro t ht
  rw [spendPendingInputs, hindexed.setInputsSpent_eq] at ht ⊢
  obtain ⟨t, hmem, rfl⟩ := List.mem_map.mp ht
  have half := hmarked t hmem
  by_cases hnamed : t.namedIn w.pendingInputs = true
  · rw [Transfer.markIn_of_named hnamed]
    rw [namedIn_pendingInputs] at hnamed
    have hspent : (setSpent true t).spent = true ∧ (setSpent true t).spentHeight = t.spentHeight ∧
        (setSpent true t).keyImage = t.keyImage := by
      unfold setSpent
      by_cases h : t.spent = true
      · simp [h]
      · have hzero : t.spentHeight = 0 := by
          by_contra hne
          exact h (half.chain (by omega))
        simp [h, hzero]
    obtain ⟨hs, hh, hk⟩ := hspent
    refine ⟨by rw [hh, hk, half.height], ?_⟩
    rw [hs, hh, hk]
    show true = (decide (0 < t.spentHeight) || t.keyImage.any w.isPendingInput)
    rw [hnamed, Bool.or_true]
  · rw [Transfer.markIn_of_not hnamed]
    rw [namedIn_pendingInputs] at hnamed
    refine ⟨half.height, ?_⟩
    show t.spent = (decide (0 < t.spentHeight) || t.keyImage.any w.isPendingInput)
    rw [Bool.eq_false_iff.mpr hnamed, Bool.or_false, Bool.eq_iff_iff, decide_eq_true_eq]
    exact ⟨fun h => (half.pending h).resolve_right hnamed, half.chain⟩

theorem indexed_spendPendingInputs {w : WalletState} (h : w.Indexed image) :
    w.spendPendingInputs.Indexed image := by
  rw [spendPendingInputs, h.setInputsSpent_eq]
  exact h.map ((keeps_setSpent true).markIn _) rfl rfl rfl

/-! ### Sending -/

/-- An output handed to a node in a transaction. -/
def takeOut (t : Transfer) : Transfer := { t with spent := true, spentHeight := 0 }

theorem foldl_modify {f : Transfer → Transfer} (hidem : ∀ t, f (f t) = f t) (inputs : List Nat)
    (w : WalletState) : inputs.foldl (fun w i => w.modifyTransfer i f) w =
      { w with transfers := w.transfers.mapIdx fun i t => if i ∈ inputs then f t else t } := by
  induction inputs generalizing w with
  | nil =>
      have hid : (w.transfers.mapIdx fun i t => if i ∈ ([] : List Nat) then f t else t) =
          w.transfers := by
        apply List.ext_getElem?
        intro j
        rw [List.getElem?_mapIdx]
        cases w.transfers[j]? <;> simp
      rw [List.foldl_nil, hid]
  | cons i inputs ih =>
      rw [List.foldl_cons, ih]
      simp only [modifyTransfer]
      congr 1
      apply List.ext_getElem?
      intro j
      rw [List.getElem?_mapIdx, List.getElem?_mapIdx, List.getElem?_modify]
      cases w.transfers[j]? with
      | none => rfl
      | some t =>
          simp only [Option.map_eq_map, Option.map_some, Option.some.injEq, List.mem_cons]
          by_cases hij : i = j
          · subst hij
            simp only [if_true, true_or]
            split
            · exact hidem t
            · rfl
          · simp only [hij, Ne.symm hij, if_false, false_or]

/-- A plan over unspent outputs of known images. -/
structure Plannable (w : WalletState) (plan : SpendPlan) : Prop where
  unspent : ∀ i ∈ plan.inputs, ∃ t, w.transfers[i]? = some t ∧ t.spent = false
  known : ∀ i ∈ plan.inputs, ∀ t, w.transfers[i]? = some t → t.keyImage ≠ none

theorem Plannable.transfers_eq {w : WalletState} {plan : SpendPlan} (h : w.Plannable plan)
    (hindexed : w.Indexed image) :
    (w.transfers.mapIdx fun i t => if i ∈ plan.inputs then takeOut t else t) =
      w.transfers.map (Transfer.markIn takeOut ((w.planned plan).filterMap (·.keyImage))) := by
  apply List.ext_getElem?
  intro j
  rw [List.getElem?_mapIdx, List.getElem?_map]
  cases hget : w.transfers[j]? with
  | none => rfl
  | some t =>
      have hiff : j ∈ plan.inputs ↔
          t.namedIn ((w.planned plan).filterMap (·.keyImage)) = true := by
        rw [Transfer.namedIn_iff]
        simp only [planned, List.mem_filterMap]
        constructor
        · intro hj
          obtain ⟨k, hk⟩ := Option.ne_none_iff_exists'.mp (h.known j hj t hget)
          exact ⟨k, hk, t, ⟨j, hj, hget⟩, hk⟩
        · rintro ⟨k, hk, t', ⟨i, hi, hget'⟩, hk'⟩
          have hj := (hindexed.byImage k j).mpr ⟨t, hget, hk⟩
          rw [(hindexed.byImage k i).mpr ⟨t', hget', hk'⟩, Option.some.injEq] at hj
          exact hj ▸ hi
      simp only [Option.map_some, Option.some.injEq]
      by_cases hj : j ∈ plan.inputs
      · rw [if_pos hj, Transfer.markIn_of_named (hiff.mp hj)]
      · rw [if_neg hj, Transfer.markIn_of_not (fun hn => hj (hiff.mpr hn))]

theorem keeps_takeOut : Keeps takeOut := ⟨fun _ => rfl, fun _ => rfl⟩

theorem any_isPendingInput_append (w : WalletState) {s : SentTx} (hs : s.state = .pending)
    (t : Transfer) : (t.keyImage.any { w with sent := w.sent ++ [s] }.isPendingInput) =
      (t.keyImage.any w.isPendingInput || t.namedIn s.keyImages) := by
  unfold Transfer.namedIn
  cases t.keyImage with
  | none => rfl
  | some k => simp [isPendingInput, hs]

/-- Sending keeps the books: what the plan spends is pending then. -/
theorem Books.recordSent {w : WalletState} {spends : Spends} (h : w.Books image spends)
    {plan : SpendPlan} (hplan : w.Plannable plan) {txid : Hash256}
    (hfresh : ∀ s ∈ w.sent, s.txid ≠ txid) (payees : List String) (pid : Option Hash8) (now : Nat) :
    (w.recordSent txid plan payees pid now).Books image spends := by
  have hnone : w.sent.findIdx? (·.txid == txid) = none := by
    rw [List.findIdx?_eq_none_iff]
    intro s hs
    exact beq_false_of_ne (hfresh s hs)
  unfold WalletState.recordSent
  simp only
  have hfold := foldl_modify (f := takeOut) (fun _ => rfl) plan.inputs w
  rw [hplan.transfers_eq h.indexed] at hfold
  unfold takeOut at hfold
  rw [hfold]
  simp only [hnone]
  generalize hrecord : SentTx.mk txid SentState.pending _ _ _ _ _ _ _ _ _ _ _ = record
  have hstate : record.state = .pending := by rw [← hrecord]
  have himages : record.keyImages = (w.planned plan).filterMap (·.keyImage) := by rw [← hrecord]
  rw [← himages]
  refine ⟨h.indexed.map (keeps_takeOut.markIn record.keyImages) rfl rfl rfl, h.ordered, ?_, ?_⟩
  · intro t ht
    obtain ⟨t, hmem, rfl⟩ := List.mem_map.mp ht
    have hheight : (t.markIn takeOut record.keyImages).blockHeight = t.blockHeight := by
      unfold Transfer.markIn
      split <;> rfl
    have := h.within t hmem
    rw [← hheight] at this
    exact this
  · intro t ht
    obtain ⟨t, hmem, rfl⟩ := List.mem_map.mp ht
    have hmarked := h.marked t hmem
    by_cases hnamed : t.namedIn record.keyImages = true
    · have hunspent : t.spent = false := by
        rw [himages, Transfer.namedIn_iff] at hnamed
        obtain ⟨k, hk, hin⟩ := hnamed
        obtain ⟨t', ht', hk'⟩ := List.mem_filterMap.mp hin
        obtain ⟨i, hi, hget⟩ := List.mem_filterMap.mp ht'
        obtain ⟨j, hj⟩ := List.mem_iff_getElem?.mp hmem
        have hij := (h.indexed.byImage k i).mpr ⟨t', hget, hk'⟩
        rw [(h.indexed.byImage k j).mpr ⟨t, hj, hk⟩, Option.some.injEq] at hij
        obtain ⟨t₀, hget₀, hunspent⟩ := hplan.unspent i hi
        rw [← hij, hj, Option.some.injEq] at hget₀
        rw [hget₀, hunspent]
      have hzero : t.spentHeight = 0 := by
        have := hmarked.spent
        rw [hunspent, eq_comm, Bool.or_eq_false_iff, decide_eq_false_iff_not] at this
        omega
      rw [Transfer.markIn_of_named hnamed]
      refine ⟨?_, ?_⟩
      · show 0 = spentAt spends t.keyImage
        rw [← hmarked.height, hzero]
      · show true = (decide (0 < 0) || t.keyImage.any { w with sent := w.sent ++ [record] }.isPendingInput)
        rw [any_isPendingInput_append w hstate, hnamed, Bool.or_true, Bool.or_true]
    · rw [Transfer.markIn_of_not hnamed]
      refine ⟨hmarked.height, ?_⟩
      show t.spent = (_ || t.keyImage.any { w with sent := w.sent ++ [record] }.isPendingInput)
      rw [any_isPendingInput_append w hstate, Bool.eq_false_iff.mpr hnamed, Bool.or_false]
      exact hmarked.spent

/-! ### The pool -/

/-- The books of a wallet whose marks spending what is pending completes. -/
theorem books_spendPendingInputs {w : WalletState} {spends : Spends} (hindexed : w.Indexed image)
    (hordered : Ordered spends w.scanHeight)
    (hwithin : ∀ t ∈ w.transfers, w.refreshFromHeight ≤ t.blockHeight ∧ t.blockHeight < w.scanHeight)
    (hmarked : ∀ t ∈ w.transfers, w.HalfMarked spends t) : w.spendPendingInputs.Books image spends := by
  have hmarks := marked_spendPendingInputs hindexed hmarked
  have hindex := indexed_spendPendingInputs hindexed
  rw [spendPendingInputs, hindexed.setInputsSpent_eq] at hmarks hindex ⊢
  refine ⟨hindex, hordered, ?_, hmarks⟩
  intro t ht
  obtain ⟨t, hmem, rfl⟩ := List.mem_map.mp ht
  have hheight : (t.markIn (setSpent true) w.pendingInputs).blockHeight = t.blockHeight := by
    unfold Transfer.markIn setSpent
    repeat' split
    all_goals rfl
  have := hwithin t hmem
  rw [← hheight] at this
  exact this

/-- Marks that were right stay half right when nothing pending is forgotten. -/
theorem Marked.of_pending {w w' : WalletState} {spends : Spends} {t : Transfer}
    (h : w.Marked spends t)
    (hpending : ∀ k, w.isPendingInput k = true → w'.isPendingInput k = true) :
    w'.HalfMarked spends t := by
  refine ⟨h.height, h.half.chain, fun hspent => (h.half.pending hspent).imp_right ?_⟩
  simp only [Option.any_eq_true]
  rintro ⟨k, hk, hpend⟩
  exact ⟨k, hk, hpending k hpend⟩

theorem judge_keyImages (pool : List Hash256) (now : Nat) (s : SentTx) :
    (judge pool now s).keyImages = s.keyImages := by
  unfold judge
  repeat' split
  all_goals rfl

/-- A pending record stays pending, or fails now. -/
theorem judge_of_pending {pool : List Hash256} {now : Nat} {s : SentTx} (h : s.state = .pending) :
    (judge pool now s).state = .pending ∨ failsNow pool now s = true := by
  have hheight : s.height = none := by rw [SentTx.height, h]
  unfold failsNow judge
  rw [hheight, h]
  simp only [Option.isSome_none, Bool.false_eq_true, if_false, beq_self_eq_true, Bool.true_and]
  split
  · exact .inl rfl
  · split
    · exact .inr rfl
    · exact .inl h

/-- The images of the records that fail now. -/
def failedImages (w : WalletState) (pool : List Hash256) (now : Nat) : List KeyImage :=
  (w.sent.filter (failsNow pool now)).flatMap (·.keyImages)

/-- The wallet with every record judged. -/
def judged (w : WalletState) (pool : List Hash256) (now : Nat) : WalletState :=
  { w with sent := w.sent.map (judge pool now) }

theorem updatePending_snd (w : WalletState) (pool : List Hash256) (now : Nat) :
    (w.updatePending pool now).2 =
      ((w.judged pool now).setInputsSpent (w.failedImages pool now) false).spendPendingInputs := rfl

theorem isPendingInput_judged {w : WalletState} {pool : List Hash256} {now : Nat} {k : KeyImage}
    (h : w.isPendingInput k = true) (hk : k ∉ w.failedImages pool now) :
    (w.judged pool now).isPendingInput k = true := by
  rw [isPendingInput_iff] at h ⊢
  obtain ⟨s, hs, hstate, hin⟩ := h
  refine ⟨judge pool now s, List.mem_map_of_mem hs, ?_, by rwa [judge_keyImages]⟩
  refine (judge_of_pending hstate).resolve_right fun hfails => hk ?_
  exact List.mem_flatMap.mpr ⟨s, List.mem_filter.mpr ⟨hs, hfails⟩, hin⟩

/-- Given back, an output not spent by a block is unspent. -/
theorem setSpent_false (t : Transfer) : (setSpent false t).keyImage = t.keyImage ∧
    (setSpent false t).blockHeight = t.blockHeight ∧
    (setSpent false t).spentHeight = t.spentHeight ∧
    (setSpent false t).spent = (t.spent && decide (0 < t.spentHeight)) := by
  unfold setSpent
  by_cases h : t.spent = true
  · by_cases hzero : t.spentHeight = 0
    · simp [h, hzero]
    · simp [h, hzero, Nat.pos_of_ne_zero hzero]
  · simp [h]

/-- The marks after what failed was given back, before what is pending is spent again. -/
theorem Books.given_back {w : WalletState} {spends : Spends} (h : w.Books image spends)
    (pool : List Hash256) (now : Nat) {t : Transfer} (hmem : t ∈ w.transfers) :
    (w.judged pool now).HalfMarked spends
      (t.markIn (setSpent false) (w.failedImages pool now)) := by
  have hmarked := h.marked t hmem
  by_cases hnamed : t.namedIn (w.failedImages pool now) = true
  · rw [Transfer.markIn_of_named hnamed]
    obtain ⟨hkey, -, hheight, hspent⟩ := setSpent_false t
    refine ⟨by rw [hheight, hkey, hmarked.height], ?_, ?_⟩
    · intro hpos
      rw [hheight] at hpos
      rw [hspent, hmarked.half.chain hpos, decide_eq_true hpos, Bool.and_true]
    · intro hs
      rw [hspent, Bool.and_eq_true, decide_eq_true_eq] at hs
      rw [hheight]
      exact .inl hs.2
  · rw [Transfer.markIn_of_not hnamed]
    refine ⟨hmarked.height, hmarked.half.chain, fun hspent => (hmarked.half.pending hspent).imp_right ?_⟩
    simp only [Option.any_eq_true]
    rintro ⟨k, hk, hpend⟩
    refine ⟨k, hk, isPendingInput_judged hpend fun hin => hnamed ?_⟩
    exact Transfer.namedIn_iff.mpr ⟨k, hk, hin⟩

/-- Judging what waits for a block keeps the books. -/
theorem Books.updatePending {w : WalletState} {spends : Spends} (h : w.Books image spends)
    (pool : List Hash256) (now : Nat) : (w.updatePending pool now).2.Books image spends := by
  have hindexed : (w.judged pool now).Indexed image :=
    ⟨h.indexed.images, h.indexed.distinct, h.indexed.byImage, h.indexed.byKey⟩
  rw [updatePending_snd, hindexed.setInputsSpent_eq]
  apply books_spendPendingInputs
  · exact hindexed.map ((keeps_setSpent false).markIn _) rfl rfl rfl
  · exact h.ordered
  · intro t ht
    obtain ⟨t, hmem, rfl⟩ := List.mem_map.mp ht
    have hheight : (t.markIn (setSpent false) (w.failedImages pool now)).blockHeight =
        t.blockHeight := by
      unfold Transfer.markIn
      split
      · exact (setSpent_false t).2.1
      · rfl
    have := h.within t hmem
    rw [← hheight] at this
    exact this
  · intro t ht
    obtain ⟨t, hmem, rfl⟩ := List.mem_map.mp ht
    obtain ⟨h₁, h₂, h₃⟩ := h.given_back pool now hmem
    exact ⟨h₁, h₂, h₃⟩

variable {C : Crypto}

/-- What the pool shows is recorded as waiting, and nothing else changes. -/
theorem foldl_notePoolTx (now : Nat) (pool : List PooledTx) (found : List Hash256)
    (w : WalletState) : ∃ more : List SentTx, (∀ s ∈ more, s.state = .pending) ∧
      (pool.foldl (notePoolTx C now) (found, w)).2 = { w with sent := w.sent ++ more } := by
  induction pool generalizing found w with
  | nil => exact ⟨[], by simp, by simp⟩
  | cons p pool ih =>
      rw [List.foldl_cons]
      unfold notePoolTx
      simp only
      split
      · exact ih found w
      · cases hrecord : w.pooledRecord C p now with
        | none => exact ih found w
        | some record =>
            obtain ⟨more, hmore, heq⟩ := ih (found ++ [p.txid]) { w with sent := w.sent ++ [record] }
            refine ⟨record :: more, ?_, ?_⟩
            · intro s hs
              rcases List.mem_cons.mp hs with rfl | hs
              · unfold pooledRecord at hrecord
                simp only at hrecord
                split at hrecord
                · cases hrecord
                · rw [Option.some.injEq] at hrecord
                  rw [← hrecord]
              · exact hmore s hs
            · simp only [List.append_assoc, List.singleton_append] at heq
              exact heq

/-- What the pool spends keeps the books. -/
theorem Books.notePoolSpends {w : WalletState} {spends : Spends} (h : w.Books image spends)
    (pool : List PooledTx) (now : Nat) : (w.notePoolSpends C pool now).2.Books image spends := by
  unfold WalletState.notePoolSpends
  obtain ⟨more, hmore, heq⟩ := foldl_notePoolTx (C := C) now pool [] w
  simp only [heq]
  apply books_spendPendingInputs
  · exact ⟨h.indexed.images, h.indexed.distinct, h.indexed.byImage, h.indexed.byKey⟩
  · exact h.ordered
  · exact h.within
  · intro t ht
    refine (h.marked t ht).of_pending fun k hk => ?_
    rw [isPendingInput_iff] at hk ⊢
    obtain ⟨s, hs, hstate, hin⟩ := hk
    exact ⟨s, List.mem_append_left _ hs, hstate, hin⟩

/-! ### Taking blocks back -/

theorem unspendFrom_keeps (height : Nat) : Keeps (unspendFrom height) := by
  constructor <;> intro t <;> unfold unspendFrom <;> split <;> rfl

theorem unspendFrom_blockHeight (height : Nat) (t : Transfer) :
    (unspendFrom height t).blockHeight = t.blockHeight := by
  unfold unspendFrom
  split <;> rfl

theorem detachRecord_of_pending {height : Nat} {s : SentTx} (h : s.state = .pending) :
    detachRecord height s = some s := by
  unfold detachRecord
  rw [h]

/-- Taking blocks back keeps the books, against what is left of the chain. -/
theorem Books.detach (hapart : Apart image) {w : WalletState} {spends : Spends}
    (h : w.Books image spends) (height : Nat) :
    (w.detach height).Books image (spends.filter (·.1 < height)) := by
  unfold WalletState.detach detachSent
  simp only
  have hkeep (t : Transfer)
      (ht : t ∈ (w.transfers.filter fun t => t.blockHeight < height).map (unspendFrom height)) :
      ∃ t₀ ∈ w.transfers, t₀.blockHeight < height ∧ t = unspendFrom height t₀ := by
    obtain ⟨t₀, hmem, rfl⟩ := List.mem_map.mp ht
    obtain ⟨hmem, hlow⟩ := List.mem_filter.mp hmem
    exact ⟨t₀, hmem, by simpa using hlow, rfl⟩
  apply books_spendPendingInputs
  · refine indexed_reindex (w := { w with
      hashes := w.hashes.take (height - w.startHeight)
      transfers := (w.transfers.filter fun t => t.blockHeight < height).map (unspendFrom height)
      sent := w.sent.filterMap (detachRecord height) }) hapart ?_ ?_
    · intro t ht
      obtain ⟨t₀, hmem, -, rfl⟩ := hkeep t ht
      rw [(unspendFrom_keeps height).keyImage, (unspendFrom_keeps height).publicKey,
        h.indexed.images t₀ hmem]
    · simp only [List.map_map]
      have : (fun t : Transfer => t.publicKey) ∘ unspendFrom height = fun t => t.publicKey :=
        funext (unspendFrom_keeps height).publicKey
      rw [this]
      exact (List.filter_sublist.map _).nodup h.indexed.distinct
  · refine ⟨?_, ?_, h.ordered.sorted.filter _⟩
    · intro row hrow
      exact h.ordered.positive row (List.mem_of_mem_filter hrow)
    · intro row hrow
      obtain ⟨hmem, hlow⟩ := List.mem_filter.mp hrow
      have hbelow := h.ordered.below row hmem
      simp only [decide_eq_true_eq] at hlow
      rw [scanHeight] at hbelow
      show row.1 < w.startHeight + (w.hashes.take (height - w.startHeight)).length
      rw [List.length_take]
      omega
  · intro t ht
    obtain ⟨t₀, hmem, hlow, rfl⟩ := hkeep t ht
    obtain ⟨hfrom, hbelow⟩ := h.within t₀ hmem
    rw [unspendFrom_blockHeight]
    refine ⟨hfrom, ?_⟩
    rw [scanHeight] at hbelow
    show t₀.blockHeight < w.startHeight + (w.hashes.take (height - w.startHeight)).length
    rw [List.length_take]
    omega
  · intro t ht
    obtain ⟨t₀, hmem, hlow, rfl⟩ := hkeep t ht
    have hmarked := h.marked t₀ hmem
    have hspent := hmarked.spent
    have hheight := hmarked.height
    have hfilter := spentAt_filter h.ordered.sorted height t₀.keyImage
    rw [← hheight] at hfilter
    unfold unspendFrom
    by_cases hgone : (t₀.spent && decide (t₀.spentHeight ≥ height)) = true
    · rw [if_pos hgone]
      simp only [Bool.and_eq_true, decide_eq_true_eq] at hgone
      refine ⟨?_, by simp, by simp⟩
      show 0 = spentAt _ t₀.keyImage
      rw [hfilter, if_neg (by omega)]
    · rw [if_neg hgone]
      simp only [Bool.and_eq_true, decide_eq_true_eq, not_and] at hgone
      have hbelow : t₀.spentHeight < height := by
        -- An output that is not spent has no height, and some block was below.
        by_contra hge
        have hunspent : t₀.spent = false := by
          by_contra hs
          exact hgone (by simpa using hs) (by omega)
        rw [hunspent, eq_comm, Bool.or_eq_false_iff, decide_eq_false_iff_not] at hspent
        omega
      refine ⟨by rw [hfilter, if_pos hbelow], hmarked.half.chain, fun hs =>
        (hmarked.half.pending hs).imp_right ?_⟩
      simp only [Option.any_eq_true]
      rintro ⟨k, hk, hpend⟩
      refine ⟨k, hk, ?_⟩
      rw [isPendingInput_iff] at hpend ⊢
      obtain ⟨s, hs, hstate, hin⟩ := hpend
      exact ⟨s, List.mem_filterMap.mpr ⟨s, hs, detachRecord_of_pending hstate⟩, hstate, hin⟩

/-! ### One transaction of a block -/

/-- The books while a block at this height is read. -/
structure Scanning (image : PublicKey → Option KeyImage) (w : WalletState) (spends : Spends)
    (height : Nat) : Prop where
  indexed : w.Indexed image
  ordered : Ordered spends (height + 1)
  within : ∀ t ∈ w.transfers, w.refreshFromHeight ≤ t.blockHeight ∧ t.blockHeight ≤ height
  marked : ∀ t ∈ w.transfers, w.Marked spends t

theorem spendAt_spec (height : Nat) {w : WalletState} {spends : Spends}
    {t : Transfer} (h : w.HalfMarked spends t) :
    (spendAt height t).spent = true ∧ (spendAt height t).blockHeight = t.blockHeight ∧
      (spendAt height t).keyImage = t.keyImage ∧
      (spendAt height t).spentHeight = if 0 < t.spentHeight then t.spentHeight else height := by
  unfold spendAt
  by_cases hheight : 0 < t.spentHeight
  · have hspent := h.chain hheight
    have hne : ¬ t.spentHeight = 0 := by omega
    simp [hspent, hne, hheight]
  · have hzero : t.spentHeight = 0 := by omega
    simp [hzero]

/-- The images a transaction spends are spent at the height of its block. -/
theorem Scanning.spendInputs {w : WalletState} {spends : Spends} {height : Nat}
    (h : w.Scanning image spends height) (hpos : 0 < height) (images : List KeyImage) :
    (w.spendInputs height images).Scanning image (spends ++ images.map (height, ·)) height := by
  rw [h.indexed.spendInputs_eq]
  refine ⟨h.indexed.map ((keeps_spendAt height).markIn images) rfl rfl rfl, ?_, ?_, ?_⟩
  · refine ⟨?_, ?_, ?_⟩
    · intro row hrow
      rcases List.mem_append.mp hrow with hold | hnew
      · exact h.ordered.positive row hold
      · obtain ⟨k, -, rfl⟩ := List.mem_map.mp hnew
        exact hpos
    · intro row hrow
      rcases List.mem_append.mp hrow with hold | hnew
      · exact h.ordered.below row hold
      · obtain ⟨k, -, rfl⟩ := List.mem_map.mp hnew
        exact Nat.lt_succ_self height
    · rw [List.pairwise_append]
      refine ⟨h.ordered.sorted, ?_, ?_⟩
      · rw [List.pairwise_map]
        exact List.pairwise_of_forall fun _ _ => Nat.le_refl height
      · intro a ha b hb
        obtain ⟨k, -, rfl⟩ := List.mem_map.mp hb
        exact Nat.lt_succ_iff.mp (h.ordered.below a ha)
  · intro t ht
    obtain ⟨t, hmem, rfl⟩ := List.mem_map.mp ht
    have hblock : (t.markIn (spendAt height) images).blockHeight = t.blockHeight := by
      unfold Transfer.markIn
      split
      · exact (spendAt_spec height (h.marked t hmem).half).2.1
      · rfl
    have := h.within t hmem
    rw [← hblock] at this
    exact this
  · intro t ht
    obtain ⟨t, hmem, rfl⟩ := List.mem_map.mp ht
    have hmarked := h.marked t hmem
    have happend := spentAt_append_map h.ordered.positive height images t.keyImage
    rw [← hmarked.height] at happend
    by_cases hnamed : t.namedIn images = true
    · obtain ⟨hspent, -, hkey, hheight⟩ := spendAt_spec height hmarked.half
      rw [Transfer.markIn_of_named hnamed]
      have hat : 0 < (spendAt height t).spentHeight := by
        rw [hheight]
        split <;> assumption
      refine ⟨?_, ?_⟩
      · rw [hheight, hkey, happend]
        unfold Transfer.namedIn at hnamed
        rw [hnamed]
        rfl
      · rw [hspent, decide_eq_true hat, Bool.true_or]
    · rw [Transfer.markIn_of_not hnamed]
      refine ⟨?_, hmarked.spent⟩
      unfold Transfer.namedIn at hnamed
      rw [happend, if_neg hnamed]
      split
      · rfl
      · omega

/-- An output that no block spends is recorded as the transactions waiting for a block say. -/
theorem Scanning.addTransfer (hapart : Apart image) {w : WalletState} {spends : Spends} {height : Nat}
    (h : w.Scanning image spends height) (hrefresh : w.refreshFromHeight ≤ height) {t : Transfer}
    (hkey : t.keyImage = image t.publicKey) (hblock : t.blockHeight = height)
    (hspent : t.spent = t.keyImage.any w.isPendingInput) (hzero : t.spentHeight = 0)
    (htimely : (∀ held ∈ w.transfers, held.publicKey ≠ t.publicKey) → spentAt spends t.keyImage = 0) :
    (w.addTransfer t).2.Scanning image spends height := by
  have hindexed := h.indexed.addTransfer hapart hkey
  rcases h.indexed.addTransfer_cases t with
    ⟨i, held, hget, hsame, ⟨-, heq⟩ | ⟨hunspent, -, heq⟩⟩ | ⟨hnew, heq⟩
  · rw [heq]
    exact h
  · rw [heq] at hindexed ⊢
    have hheld := h.marked held (List.mem_of_getElem? hget)
    have himage : held.keyImage.orElse (fun _ => t.keyImage) = t.keyImage := by
      rw [h.indexed.images held (List.mem_of_getElem? hget), hsame, ← hkey]
      cases t.keyImage <;> rfl
    have hcases {t' : Transfer} (ht' : t' ∈ w.transfers.modify i fun _ => { t with
        keyImage := held.keyImage.orElse fun _ => t.keyImage
        keyImageRequest := (held.keyImage.orElse fun _ => t.keyImage).isNone
        frozen := held.frozen }) : t' ∈ w.transfers ∨ t' = { t with
          keyImage := t.keyImage
          keyImageRequest := t.keyImage.isNone
          frozen := held.frozen } := by
      obtain ⟨j, hj⟩ := List.mem_iff_getElem?.mp ht'
      rw [List.getElem?_modify, himage] at hj
      by_cases hij : i = j
      · subst hij
        rw [hget] at hj
        simp only [if_true, Option.map_eq_map, Option.map_some, Option.some.injEq] at hj
        exact .inr hj.symm
      · simp only [hij, if_false, Option.map_eq_map, Option.map_id_fun', id_eq] at hj
        exact .inl (List.mem_of_getElem? hj)
    refine ⟨hindexed, h.ordered, ?_, ?_⟩
    · intro t' ht'
      rcases hcases ht' with hold | rfl
      · exact h.within t' hold
      · exact ⟨hblock ▸ hrefresh, hblock.le⟩
    · intro t' ht'
      rcases hcases ht' with hold | rfl
      · exact ⟨(h.marked t' hold).height, (h.marked t' hold).spent⟩
      · have hnone : spentAt spends t.keyImage = 0 := by
          have hs := hheld.spent
          rw [hunspent, eq_comm, Bool.or_eq_false_iff, decide_eq_false_iff_not] at hs
          have hh := hheld.height
          rw [h.indexed.images held (List.mem_of_getElem? hget), hsame, ← hkey] at hh
          omega
        refine ⟨?_, ?_⟩
        · show t.spentHeight = spentAt spends t.keyImage
          rw [hzero, hnone]
        · show t.spent = (decide (0 < t.spentHeight) || t.keyImage.any w.isPendingInput)
          rw [hspent, hzero]
          rfl
  · rw [heq] at hindexed ⊢
    refine ⟨hindexed, h.ordered, ?_, ?_⟩
    · intro t' ht'
      rcases List.mem_append.mp ht' with hold | hone
      · exact h.within t' hold
      · rw [List.mem_singleton.mp hone]
        exact ⟨hblock ▸ hrefresh, hblock.le⟩
    · intro t' ht'
      rcases List.mem_append.mp ht' with hold | hone
      · exact ⟨(h.marked t' hold).height, (h.marked t' hold).spent⟩
      · rw [List.mem_singleton.mp hone]
        refine ⟨by rw [hzero, htimely hnew], ?_⟩
        show t.spent = (decide (0 < t.spentHeight) || t.keyImage.any w.isPendingInput)
        rw [hspent, hzero]
        rfl

/-- Outputs only join the keys held. -/
theorem held_addTransfer {w : WalletState} (h : w.Indexed image) (t : Transfer) (p : PublicKey) :
    (∃ held ∈ (w.addTransfer t).2.transfers, held.publicKey = p) ↔
      (∃ held ∈ w.transfers, held.publicKey = p) ∨ t.publicKey = p := by
  rcases h.addTransfer_cases t with
    ⟨i, held, hget, hsame, ⟨-, heq⟩ | ⟨-, -, heq⟩⟩ | ⟨-, heq⟩
  · rw [heq]
    refine ⟨.inl, ?_⟩
    rintro (hold | rfl)
    · exact hold
    · exact ⟨held, List.mem_of_getElem? hget, hsame⟩
  · rw [heq]
    have hpub : (w.transfers.modify i fun _ => { t with
        keyImage := held.keyImage.orElse fun _ => t.keyImage
        keyImageRequest := (held.keyImage.orElse fun _ => t.keyImage).isNone
        frozen := held.frozen }).map (·.publicKey) = w.transfers.map (·.publicKey) := by
      apply List.ext_getElem?
      intro j
      simp only [List.getElem?_map, List.getElem?_modify]
      by_cases hij : i = j
      · subst hij
        simp only [if_true, hget, Option.map_eq_map, Option.map_some, hsame]
      · simp only [hij, if_false, Option.map_eq_map, Option.map_id_fun', id_eq]
    have hmem (l : List Transfer) : (∃ held ∈ l, held.publicKey = p) ↔ p ∈ l.map (·.publicKey) := by
      rw [List.mem_map]
    rw [hmem, hmem]
    simp only [modifyTransfer, hpub]
    refine ⟨.inl, ?_⟩
    rintro (hold | rfl)
    · exact hold
    · exact List.mem_map.mpr ⟨held, List.mem_of_getElem? hget, hsame⟩
  · rw [heq]
    simp only [List.mem_append, List.mem_singleton, or_and_right, exists_or, exists_eq_left]

section

variable {height : Nat}

/-- The outputs found, recorded one after another. -/
theorem Scanning.receiveOutputs (hapart : Apart image) (timestamp : Nat) (tx : Transaction)
    (txid : Hash256) (indices : List Nat) (account : Option UInt32) {found : List Received}
    (hfound : ∀ r ∈ found, r.keyImage = image r.publicKey) {w : WalletState}
    {spends : Spends} (h : w.Scanning image spends height) (hrefresh : w.refreshFromHeight ≤ height)
    (htimely : ∀ r ∈ found, (∀ held ∈ w.transfers, held.publicKey ≠ r.publicKey) →
      spentAt spends r.keyImage = 0) (received : Nat) (summary : RefreshSummary) :
    Scanning image (receiveOutputs C height timestamp tx txid indices account found w received
        summary).1.1 spends height ∧
      (receiveOutputs C height timestamp tx txid indices account found w received summary).1.1.sent =
        w.sent ∧
      ∀ p, (∃ held ∈ (receiveOutputs C height timestamp tx txid indices account found w received
          summary).1.1.transfers, held.publicKey = p) ↔
        (∃ held ∈ w.transfers, held.publicKey = p) ∨ ∃ r ∈ found, r.publicKey = p := by
  induction found generalizing w received summary with
  | nil => exact ⟨h, rfl, fun p => by simp [WalletState.receiveOutputs]⟩
  | cons r found ih =>
      have hadd := h.addTransfer hapart hrefresh
        (t := transferOf C w height timestamp tx txid indices r) (hfound r List.mem_cons_self) rfl rfl
        rfl (htimely r List.mem_cons_self)
      have hheld := held_addTransfer h.indexed (transferOf C w height timestamp tx txid indices r)
      have hframe := frame_of_chainPart
        (chainPart_addTransfer w (transferOf C w height timestamp tx txid indices r))
      have hsent : (w.addTransfer (transferOf C w height timestamp tx txid indices r)).2.sent =
          w.sent := by
        unfold WalletState.addTransfer
        repeat' split
        all_goals rfl
      have hrefresh' : (w.addTransfer (transferOf C w height timestamp tx txid indices
          r)).2.refreshFromHeight ≤ height :=
        (congrArg (fun v : WalletState => v.refreshFromHeight) hframe :).trans_le hrefresh
      have hrest := ih (fun r' hr' => hfound r' (List.mem_cons_of_mem _ hr')) hadd hrefresh' fun r' hr' hno =>
        htimely r' (List.mem_cons_of_mem _ hr') fun held hmem hsame =>
          absurd ((hheld r'.publicKey).mpr (.inl ⟨held, hmem, hsame⟩)) <| by
            rintro ⟨held', hmem', hsame'⟩
            exact hno held' hmem' hsame'
      have hall (p : PublicKey) : ((∃ held ∈ (w.addTransfer (transferOf C w height timestamp tx txid
          indices r)).2.transfers, held.publicKey = p) ∨ ∃ r ∈ found, r.publicKey = p) ↔
          (∃ held ∈ w.transfers, held.publicKey = p) ∨ ∃ r' ∈ r :: found, r'.publicKey = p := by
        rw [hheld p, or_assoc]
        simp only [List.mem_cons, exists_eq_or_imp]
        rfl
      rw [WalletState.receiveOutputs]
      split
      · rename_i w' heq
        rw [heq] at hrest hsent hall
        obtain ⟨h₁, h₂, h₃⟩ := hrest received summary
        exact ⟨h₁, h₂.trans hsent, fun p => (h₃ p).trans (hall p)⟩
      · rename_i receipt w' _ heq
        rw [heq] at hrest hsent hall
        obtain ⟨h₁, h₂, h₃⟩ := hrest _ _
        exact ⟨h₁, h₂.trans hsent, fun p => (h₃ p).trans (hall p)⟩

/-- A transaction seen in a block no longer waits for one; every other record is as it was. -/
theorem spendSeen_sent (w : WalletState) (seen : SeenSpend) (s : SentTx) (hstate : s.state = .pending) :
    (s ∈ (w.spendSeen seen).sent → s ∈ w.sent) ∧
      (s ∈ w.sent → s.txid ≠ seen.txid → s ∈ (w.spendSeen seen).sent) := by
  unfold spendSeen
  simp only
  split
  · rename_i i hi
    obtain ⟨hlt, hbeq, -⟩ := List.findIdx?_eq_some_iff_getElem.mp hi
    constructor
    · intro hmem
      obtain ⟨j, hj⟩ := List.mem_iff_getElem?.mp hmem
      rw [List.getElem?_modify] at hj
      by_cases hij : i = j
      · subst hij
        rw [List.getElem?_eq_getElem hlt] at hj
        simp only [if_true, Option.map_eq_map, Option.map_some, Option.some.injEq] at hj
        rw [← hj] at hstate
        cases hstate
      · simp only [hij, if_false, Option.map_eq_map, Option.map_id_fun', id_eq] at hj
        exact List.mem_of_getElem? hj
    · intro hmem hne
      obtain ⟨j, hj⟩ := List.mem_iff_getElem?.mp hmem
      have hij : i ≠ j := by
        rintro rfl
        rw [List.getElem?_eq_getElem hlt, Option.some.injEq] at hj
        exact hne (by rw [← hj]; exact eq_of_beq hbeq)
      apply List.mem_of_getElem? (i := j)
      rw [List.getElem?_modify, hj]
      simp only [hij, if_false, Option.map_eq_map, Option.map_some]
  · constructor
    · intro hmem
      rcases List.mem_append.mp hmem with hold | hone
      · exact hold
      · rw [List.mem_singleton.mp hone] at hstate
        cases hstate
    · intro hmem _
      exact List.mem_append_left _ hmem

theorem spendSeen_transfers (w : WalletState) (seen : SeenSpend) :
    (w.spendSeen seen).transfers = w.transfers ∧ (w.spendSeen seen).byKeyImage = w.byKeyImage ∧
      (w.spendSeen seen).byPublicKey = w.byPublicKey ∧
      (w.spendSeen seen).refreshFromHeight = w.refreshFromHeight := by
  unfold spendSeen
  simp only
  split <;> exact ⟨rfl, rfl, rfl, rfl⟩

/-- The record of a transaction seen in a block holds nothing the block does not spend. -/
theorem Scanning.spendSeen {w : WalletState} {spends : Spends} (h : w.Scanning image spends height)
    {seen : SeenSpend} (hmatch : ∀ s ∈ w.sent, s.state = .pending → s.txid = seen.txid →
      ∀ k ∈ s.keyImages, OnChain spends k) : (w.spendSeen seen).Scanning image spends height := by
  obtain ⟨htransfers, hbyImage, hbyKey, hrefresh⟩ := spendSeen_transfers w seen
  refine ⟨h.indexed.of_keys (by rw [htransfers]) hbyImage hbyKey, h.ordered, ?_, ?_⟩
  · rw [htransfers, hrefresh]
    exact h.within
  · intro t ht
    rw [htransfers] at ht
    have hmarked := h.marked t ht
    refine ⟨hmarked.height, ?_⟩
    rw [hmarked.spent]
    by_cases hpos : 0 < t.spentHeight
    · rw [decide_eq_true hpos, Bool.true_or, Bool.true_or]
    rw [decide_eq_false hpos, Bool.false_or, Bool.false_or, Bool.eq_iff_iff]
    simp only [Option.any_eq_true, isPendingInput_iff]
    constructor
    · rintro ⟨k, hk, s, hs, hstate, hin⟩
      refine ⟨k, hk, s, (spendSeen_sent w seen s hstate).2 hs fun hsame => hpos ?_, hstate, hin⟩
      rw [hmarked.height, spentAt_pos_iff h.ordered.positive]
      exact ⟨k, hk, hmatch s hs hstate hsame k hin⟩
    · rintro ⟨k, hk, s, hs, hstate, hin⟩
      exact ⟨k, hk, s, (spendSeen_sent w seen s hstate).1 hs, hstate, hin⟩

/-- What a scan of a transaction finds. -/
def foundIn (C : Crypto) (keys : ScanKeys) (tx : Transaction) : List Received :=
  (scanTransaction C tx keys).toOption.getD []

theorem keys_of_frame {w w' : WalletState} (h : w'.frame = w.frame) : w'.keys = w.keys :=
  (congrArg (fun v : WalletState => v.keys) h :)

/-- A transaction of a block keeps the books. -/
theorem Scanning.processTransaction (hapart : Apart image) (timestamp : Nat) (tx : Transaction)
    (txid : Hash256) (indices : List Nat) {w : WalletState} {spends : Spends} (h : w.Scanning image spends height) (hpos : 0 < height) (hrefresh : w.refreshFromHeight ≤ height)
    (hfound : ∀ r ∈ foundIn C w.keys tx, r.keyImage = image r.publicKey)
    (htimely : ∀ r ∈ foundIn C w.keys tx, (∀ held ∈ w.transfers, held.publicKey ≠ r.publicKey) →
      ∀ k, r.keyImage = some k → ¬ OnChain (spends ++ tx.keyImages.map (height, ·)) k)
    (hmatch : ∀ s ∈ w.sent, s.state = .pending → s.txid = txid → ∀ k ∈ s.keyImages, k ∈ tx.keyImages)
    (summary : RefreshSummary) :
    Scanning image (w.processTransaction C height timestamp tx txid indices summary).1
        (spends ++ tx.keyImages.map (height, ·)) height ∧
      (∀ s ∈ (w.processTransaction C height timestamp tx txid indices summary).1.sent,
        s.state = .pending → s ∈ w.sent) ∧
      ∀ p, (∃ held ∈ (w.processTransaction C height timestamp tx txid indices summary).1.transfers,
          held.publicKey = p) ↔
        (∃ held ∈ w.transfers, held.publicKey = p) ∨
          ∃ r ∈ foundIn C w.keys tx, r.publicKey = p := by
  have hspend := h.spendInputs hpos tx.keyImages
  have hframe := frame_of_chainPart (chainPart_spendInputs w height tx.keyImages)
  have hkeys := keys_of_frame hframe
  have heq := h.indexed.spendInputs_eq tx.keyImages height
  have hsent : (w.spendInputs height tx.keyImages).sent = w.sent := by rw [heq]
  have hpub (p : PublicKey) : (∃ held ∈ (w.spendInputs height tx.keyImages).transfers,
      held.publicKey = p) ↔ ∃ held ∈ w.transfers, held.publicKey = p := by
    rw [heq]
    have hkeeps := (keeps_spendAt height).markIn tx.keyImages
    constructor
    · rintro ⟨held, hmem, hp⟩
      obtain ⟨t, ht, rfl⟩ := List.mem_map.mp hmem
      exact ⟨t, ht, by rw [← hkeeps.publicKey t, hp]⟩
    · rintro ⟨t, ht, hp⟩
      exact ⟨_, List.mem_map_of_mem ht, by rw [hkeeps.publicKey t, hp]⟩
  have hfound' : ∀ r ∈ foundIn C (w.spendInputs height tx.keyImages).keys tx,
      r.keyImage = image r.publicKey := by rwa [hkeys]
  have hreceive := hspend.receiveOutputs (C := C) hapart timestamp tx txid indices
    ((w.namedBy tx).getLast?.map (·.2.subaddress.major)) hfound'
    ((congrArg (fun v : WalletState => v.refreshFromHeight) hframe :).trans_le hrefresh) ?_ 0
    { summary with
      spent := summary.spent + (w.spendEvents height txid tx.keyImages).length
      events := summary.events ++ w.spendEvents height txid tx.keyImages }
  · obtain ⟨hscan, hsent', hheld⟩ := hreceive
    rw [hsent] at hsent'
    have hheld' (p : PublicKey) := (hheld p).trans (or_congr (hpub p) (by rw [hkeys]))
    unfold WalletState.processTransaction
    simp only
    split
    · refine ⟨hscan, fun s hs _ => hsent' ▸ hs, hheld'⟩
    · refine ⟨Scanning.spendSeen ?_ ?_, ?_, ?_⟩
      · exact ⟨hscan.indexed.of_keys rfl rfl rfl, hscan.ordered, hscan.within, fun t ht =>
          ⟨(hscan.marked t ht).height, (hscan.marked t ht).spent⟩⟩
      · intro s hs hstate hsame k hk
        have hs' : s ∈ w.sent := hsent' ▸ hs
        exact ⟨height, List.mem_append_right _ (List.mem_map_of_mem (hmatch s hs' hstate hsame k hk))⟩
      · intro s hs hstate
        have := (spendSeen_sent _ _ s hstate).1 hs
        exact hsent' ▸ this
      · intro p
        rw [(spendSeen_transfers _ _).1]
        exact hheld' p
  · intro r hr hno
    rw [hkeys] at hr
    have hnot := htimely r hr fun held hmem hsame =>
      absurd ((hpub r.publicKey).mpr ⟨held, hmem, hsame⟩) fun ⟨held', hmem', hsame'⟩ =>
        hno held' hmem' hsame'
    by_contra hne
    obtain ⟨k, hk, hon⟩ := (spentAt_pos_iff hspend.ordered.positive r.keyImage).mp (by omega)
    exact hnot k hk hon

end

/-! ### One block -/

/-- The wallet holds an output with this key. -/
def Holds (w : WalletState) (p : PublicKey) : Prop := ∃ held ∈ w.transfers, held.publicKey = p

/-- The transactions of a block that can be read, each with the id the block gives it. -/
def blockTxs (C : Crypto) (block : Block) (bundle : BlockBundle) : List (Transaction × Hash256) :=
  (block.minerTx, (transactionHash C.cnFastHash block.minerTx).getD nullHash) ::
    (bundle.txs.zip block.txHashes).filterMap fun p =>
      (bundle.parseTx p.1).toOption.map fun tx => (tx, p.2)

/-- The images transactions spend, at one height. -/
def spendsOf (height : Nat) (txs : List (Transaction × Hash256)) : Spends :=
  txs.flatMap fun p => p.1.keyImages.map (height, ·)

/-- No output of these transactions is found after its image was spent, unless its key is held by
    then. -/
def Timely (C : Crypto) (keys : ScanKeys) (height : Nat) :
    Spends → (PublicKey → Prop) → List (Transaction × Hash256) → Prop
  | _, _, [] => True
  | spends, held, (tx, _) :: txs =>
      (∀ r ∈ foundIn C keys tx, ¬ held r.publicKey →
        ∀ k, r.keyImage = some k → ¬ OnChain (spends ++ tx.keyImages.map (height, ·)) k) ∧
      Timely C keys height (spends ++ tx.keyImages.map (height, ·))
        (fun p => held p ∨ ∃ r ∈ foundIn C keys tx, r.publicKey = p) txs

/-- A transaction with the id of one that waits for a block spends what that one spends. -/
def Matches (w : WalletState) (txs : List (Transaction × Hash256)) : Prop :=
  ∀ p ∈ txs, ∀ s ∈ w.sent, s.state = .pending → s.txid = p.2 → ∀ k ∈ s.keyImages, k ∈ p.1.keyImages

/-- Every output a scan finds has the image of its key. -/
def Finds (C : Crypto) (keys : ScanKeys) (image : PublicKey → Option KeyImage) : Prop :=
  ∀ tx, ∀ r ∈ foundIn C keys tx, r.keyImage = image r.publicKey

section

variable {height timestamp : Nat}

theorem Scanning.processTransactions (hapart : Apart image) {keys : ScanKeys}
    (hfinds : Finds C keys image) (hpos : 0 < height) (bundle : BlockBundle)
    (txs : List (Blob × Hash256)) (hparse : ∀ p ∈ txs, ∃ tx, bundle.parseTx p.1 = .ok tx) {w : WalletState} (hkeys : w.keys = keys)
    {spends : Spends} (h : w.Scanning image spends height) (hrefresh : w.refreshFromHeight ≤ height)
    (htimely : Timely C keys height spends w.Holds
      (txs.filterMap fun p => (bundle.parseTx p.1).toOption.map fun tx => (tx, p.2)))
    (hmatch : w.Matches
      (txs.filterMap fun p => (bundle.parseTx p.1).toOption.map fun tx => (tx, p.2)))
    (slot : Nat) (summary : RefreshSummary) :
    ∃ summary' w', processTransactions C bundle height timestamp slot txs w summary =
        (.ok summary', w') ∧
      w'.Scanning image (spends ++ spendsOf height
        (txs.filterMap fun p => (bundle.parseTx p.1).toOption.map fun tx => (tx, p.2))) height := by
  induction txs generalizing w spends slot summary with
  | nil => exact ⟨summary, w, rfl, by simpa [spendsOf] using h⟩
  | cons p txs ih =>
      obtain ⟨blob, txid⟩ := p
      obtain ⟨tx, htx⟩ := hparse (blob, txid) List.mem_cons_self
      have hcons : ((blob, txid) :: txs).filterMap (fun p =>
          (bundle.parseTx p.1).toOption.map fun tx => (tx, p.2)) = (tx, txid) ::
          txs.filterMap fun p => (bundle.parseTx p.1).toOption.map fun tx => (tx, p.2) := by
        rw [List.filterMap_cons, htx]
        rfl
      rw [hcons] at htimely hmatch ⊢
      obtain ⟨hnow, hlater⟩ := htimely
      obtain ⟨hscan, hsent, hheld⟩ := h.processTransaction (C := C) hapart timestamp tx txid
        (bundle.outputIndices.getD slot []) hpos hrefresh
        (by rw [hkeys]; exact hfinds tx)
        (by
          rw [hkeys]
          intro r hr hno
          exact hnow r hr fun ⟨held, hmem, hsame⟩ => hno held hmem hsame)
        (fun s hs => hmatch (tx, txid) List.mem_cons_self s hs) summary
      have hframe := frame_processTransaction (C := C) w height timestamp tx txid
        (bundle.outputIndices.getD slot []) summary
      have hholds : (w.processTransaction C height timestamp tx txid
          (bundle.outputIndices.getD slot []) summary).1.Holds =
          fun p => w.Holds p ∨ ∃ r ∈ foundIn C keys tx, r.publicKey = p := by
        funext p
        rw [eq_iff_iff, ← hkeys]
        exact hheld p
      rw [WalletState.processTransactions, htx]
      simp only
      obtain ⟨summary', w', hok, hscan'⟩ := ih (fun q hq => hparse q (List.mem_cons_of_mem _ hq))
        ((keys_of_frame hframe).trans hkeys) hscan
        ((congrArg (fun v : WalletState => v.refreshFromHeight) hframe :).trans_le hrefresh)
        (by rw [hholds]; exact hlater)
        (fun q hq s hs hstate => hmatch q (List.mem_cons_of_mem _ hq) s (hsent s hs hstate) hstate)
        (slot + 1) _
      refine ⟨summary', w', hok, ?_⟩
      rw [spendsOf, List.flatMap_cons, ← List.append_assoc]
      exact hscan'

end

/-- A block the books survive: above genesis, every transaction of it readable, no output found too
    late, and what waits for a block found in it as it was sent. -/
structure Scannable (C : Crypto) (w : WalletState) (spends : Spends) (block : Block)
    (bundle : BlockBundle) : Prop where
  above : 0 < w.scanHeight
  readable : ∀ blob ∈ bundle.txs, ∃ tx, bundle.parseTx blob = .ok tx
  timely : Timely C w.keys w.scanHeight spends w.Holds (blockTxs C block bundle)
  matched : w.Matches (blockTxs C block bundle)

theorem Books.scanning {w : WalletState} {spends : Spends} (h : w.Books image spends) :
    w.Scanning image spends w.scanHeight :=
  ⟨h.indexed, ⟨h.ordered.positive, fun row hrow => (h.ordered.below row hrow).trans (Nat.lt_succ_self _),
    h.ordered.sorted⟩, fun t ht => ⟨(h.within t ht).1, (h.within t ht).2.le⟩, h.marked⟩

/-- With its hash put on the end, the block is part of the chain. -/
theorem Scanning.pushHash {w : WalletState} {spends : Spends} {height : Nat}
    (h : w.Scanning image spends height) (hheight : height = w.scanHeight) (hash : Hash256) :
    (w.pushHash height hash).Books image spends := by
  have hnext : (w.pushHash height hash).scanHeight = height + 1 := by
    rw [WalletState.pushHash, if_pos hheight, scanHeight, hheight, scanHeight, List.length_append]
    rfl
  have hpush : w.pushHash height hash = { w with hashes := w.hashes ++ [hash] } := if_pos hheight
  refine ⟨?_, by rw [hnext]; exact h.ordered, ?_, ?_⟩
  · rw [hpush]
    exact h.indexed.of_keys rfl rfl rfl
  · rw [hnext, hpush]
    exact fun t ht => ⟨(h.within t ht).1, Nat.lt_succ_of_le (h.within t ht).2⟩
  · rw [hpush]
    exact fun t ht => ⟨(h.marked t ht).height, (h.marked t ht).spent⟩

theorem ordered_append {spends : Spends} {height : Nat} (h : Ordered spends height)
    (hpos : 0 < height) (txs : List (Transaction × Hash256)) :
    Ordered (spends ++ spendsOf height txs) (height + 1) := by
  have hrows : ∀ row ∈ spendsOf height txs, row.1 = height := by
    intro row hrow
    obtain ⟨p, -, hrow⟩ := List.mem_flatMap.mp hrow
    obtain ⟨k, -, rfl⟩ := List.mem_map.mp hrow
    rfl
  refine ⟨?_, ?_, ?_⟩
  · intro row hrow
    rcases List.mem_append.mp hrow with hold | hnew
    · exact h.positive row hold
    · rw [hrows row hnew]
      exact hpos
  · intro row hrow
    rcases List.mem_append.mp hrow with hold | hnew
    · exact (h.below row hold).trans (Nat.lt_succ_self _)
    · rw [hrows row hnew]
      exact Nat.lt_succ_self _
  · rw [List.pairwise_append]
    refine ⟨h.sorted, ?_, ?_⟩
    · rw [List.pairwise_iff_getElem]
      intro i j hi hj _
      rw [hrows _ (List.getElem_mem hi), hrows _ (List.getElem_mem hj)]
    · intro a ha b hb
      rw [hrows b hb]
      exact (h.below a ha).le

/-- Scanning a block keeps the books; one that is refused changes nothing. -/
theorem Books.processBlock (hapart : Apart image) {w : WalletState} (hfinds : Finds C w.keys image)
    {spends : Spends} (h : w.Books image spends) {block : Block} {bundle : BlockBundle}
    (hblock : w.Scannable C spends block bundle) (id : Hash256) (summary : RefreshSummary) :
    (∃ e, w.processBlock C w.scanHeight block id bundle summary = (.error e, w)) ∨
      ∃ summary' w', w.processBlock C w.scanHeight block id bundle summary = (.ok summary', w') ∧
        w'.keys = w.keys ∧
        w'.Books image (spends ++ spendsOf w.scanHeight (blockTxs C block bundle)) := by
  unfold WalletState.processBlock
  split
  · exact .inl ⟨_, rfl⟩
  split
  · rename_i hbelow
    -- Nothing is held below where scanning starts.
    have hnone : w.transfers = [] := by
      rw [List.eq_nil_iff_forall_not_mem]
      intro t ht
      have := h.within t ht
      omega
    have hordered := ordered_append h.ordered hblock.above (blockTxs C block bundle)
    have hscan : w.Scanning image (spends ++ spendsOf w.scanHeight (blockTxs C block bundle))
        w.scanHeight := by
      refine ⟨h.indexed, hordered, ?_, ?_⟩
      · intro t ht
        rw [hnone] at ht
        cases ht
      · intro t ht
        rw [hnone] at ht
        cases ht
    refine .inr ⟨summary, _, rfl, ?_, hscan.pushHash rfl id⟩
    rw [WalletState.pushHash, if_pos rfl]
    rfl
  split
  · exact .inl ⟨_, rfl⟩
  rename_i hbelow hcount
  have hfrom : w.refreshFromHeight ≤ w.scanHeight := by omega
  have hkeys₁ := frame_processTransaction (C := C) w w.scanHeight block.header.timestamp block.minerTx
    ((transactionHash C.cnFastHash block.minerTx).getD nullHash) (bundle.outputIndices.headD []) summary
  obtain ⟨hnow, hlater⟩ := hblock.timely
  obtain ⟨hscan, hsent, hheld⟩ := h.scanning.processTransaction (C := C) hapart block.header.timestamp
    block.minerTx ((transactionHash C.cnFastHash block.minerTx).getD nullHash)
    (bundle.outputIndices.headD []) hblock.above hfrom (hfinds block.minerTx)
    (fun r hr hno => hnow r hr fun ⟨held, hmem, hsame⟩ => hno held hmem hsame)
    (fun s hs => hblock.matched _ List.mem_cons_self s hs) summary
  simp only
  generalize hfirst : w.processTransaction C w.scanHeight block.header.timestamp block.minerTx
    ((transactionHash C.cnFastHash block.minerTx).getD nullHash) (bundle.outputIndices.headD [])
    summary = first at hkeys₁ hscan hsent hheld ⊢
  have hholds : first.1.Holds = fun p => w.Holds p ∨
      ∃ r ∈ foundIn C w.keys block.minerTx, r.publicKey = p := by
    funext p
    rw [eq_iff_iff]
    exact hheld p
  obtain ⟨summary', w', hok, hscan'⟩ := hscan.processTransactions (C := C) hapart hfinds hblock.above
    bundle (bundle.txs.zip block.txHashes) (fun p hp => hblock.readable p.1 (List.of_mem_zip hp).1) (keys_of_frame hkeys₁)
    ((congrArg (fun v : WalletState => v.refreshFromHeight) hkeys₁ :).trans_le hfrom)
    (by rw [hholds]; exact hlater)
    (fun q hq s hs hstate => hblock.matched q (List.mem_cons_of_mem _ hq) s (hsent s hs hstate) hstate)
    1 first.2
  have hframe := frame_processTransactions (C := C) bundle w.scanHeight block.header.timestamp 1
    (bundle.txs.zip block.txHashes) first.1 first.2
  rw [hok] at hframe
  have hframe' : w'.frame = w.frame := hframe.trans hkeys₁
  rw [hok]
  refine .inr ⟨summary', _, rfl, ?_, ?_⟩
  · rw [WalletState.pushHash]
    have hkeys' : w'.keys = w.keys := keys_of_frame hframe'
    split
    · exact hkeys'
    · exact hkeys'
  · have hheight : w.scanHeight = w'.scanHeight := by
      rw [scanHeight, scanHeight, ← hashes_of_frame hframe', ← startHeight_of_frame hframe']
    rw [List.append_assoc] at hscan'
    exact hscan'.pushHash hheight id

/-! ### The keys stay -/

theorem keys_recordSent (w : WalletState) (txid : Hash256) (plan : SpendPlan) (payees : List String)
    (pid : Option Hash8) (now : Nat) : (w.recordSent txid plan payees pid now).keys = w.keys :=
  keys_of_frame (frame_of_chainPart
    (foldl_kept (fun w i => chainPart_modifyTransfer w i _) plan.inputs w))

theorem keys_updatePending (w : WalletState) (pool : List Hash256) (now : Nat) :
    (w.updatePending pool now).2.keys = w.keys := by
  rw [updatePending_snd]
  refine (keys_of_frame (frame_of_chainPart (chainPart_spendPendingInputs _))).trans ?_
  exact keys_of_frame (frame_of_chainPart
    (foldl_kept (fun w k => chainPart_setInputSpent w false k) _ (w.judged pool now)))

theorem keys_notePoolSpends (w : WalletState) (pool : List PooledTx) (now : Nat) :
    (w.notePoolSpends C pool now).2.keys = w.keys := by
  obtain ⟨more, -, heq⟩ := foldl_notePoolTx (C := C) now pool [] w
  unfold notePoolSpends
  simp only [heq]
  exact keys_of_frame (frame_of_chainPart (chainPart_spendPendingInputs _))

theorem keys_detach (w : WalletState) (height : Nat) : (w.detach height).keys = w.keys :=
  (congrArg (fun v : WalletState => v.keys) (frame_detach w height) :)

end WalletState

/-! ### Runs -/

/-- What can happen to a wallet. -/
inductive WalletEvent where
  | recordSent (txid : Hash256) (plan : SpendPlan) (payees : List String) (paymentId : Option Hash8)
      (now : Nat)
  | updatePending (pool : List Hash256) (now : Nat)
  | notePoolSpends (pool : List PooledTx) (now : Nat)
  | scan (block : Block) (id : Hash256) (bundle : BlockBundle)
  | detach (height : Nat)

/-- A wallet, and what the blocks of its chain spend. -/
structure SpendLedger where
  wallet : WalletState
  spends : Spends

namespace SpendLedger

variable {C : Crypto} {image : PublicKey → Option KeyImage}

/-- One event.  A block that is scanned is the wallet's next. -/
def act (C : Crypto) (l : SpendLedger) : WalletEvent → SpendLedger
  | .recordSent txid plan payees pid now => { l with wallet := l.wallet.recordSent txid plan payees pid now }
  | .updatePending pool now => { l with wallet := (l.wallet.updatePending pool now).2 }
  | .notePoolSpends pool now => { l with wallet := (l.wallet.notePoolSpends C pool now).2 }
  | .scan block id bundle =>
      match l.wallet.processBlock C l.wallet.scanHeight block id bundle {} with
      | (.error _, w) => ⟨w, l.spends⟩
      | (.ok _, w) =>
          ⟨w, l.spends ++ WalletState.spendsOf l.wallet.scanHeight (WalletState.blockTxs C block bundle)⟩
  | .detach height => ⟨l.wallet.detach height, l.spends.filter (·.1 < height)⟩

def run (C : Crypto) (l : SpendLedger) (events : List WalletEvent) : SpendLedger := events.foldl (act C) l

/-- Sends are of unspent outputs whose images are known, under a new id; blocks are such that the
    books survive them. -/
def Meets (C : Crypto) (l : SpendLedger) : WalletEvent → Prop
  | .recordSent txid plan _ _ _ => l.wallet.Plannable plan ∧ ∀ s ∈ l.wallet.sent, s.txid ≠ txid
  | .scan block _ bundle => l.wallet.Scannable C l.spends block bundle
  | _ => True

/-- Every event of a run is such. -/
def Along (C : Crypto) : SpendLedger → List WalletEvent → Prop
  | _, [] => True
  | l, e :: events => l.Meets C e ∧ (l.act C e).Along C events

/-- The books of a ledger. -/
def Balanced (image : PublicKey → Option KeyImage) (l : SpendLedger) : Prop :=
  l.wallet.Books image l.spends

theorem Balanced.act (hapart : WalletState.Apart image) {l : SpendLedger}
    (hfinds : WalletState.Finds C l.wallet.keys image) (h : l.Balanced image) {e : WalletEvent}
    (he : l.Meets C e) : (l.act C e).Balanced image ∧ (l.act C e).wallet.keys = l.wallet.keys := by
  cases e with
  | recordSent txid plan payees pid now =>
      exact ⟨WalletState.Books.recordSent h he.1 he.2 payees pid now,
        l.wallet.keys_recordSent txid plan payees pid now⟩
  | updatePending pool now =>
      exact ⟨WalletState.Books.updatePending h pool now, l.wallet.keys_updatePending pool now⟩
  | notePoolSpends pool now =>
      exact ⟨WalletState.Books.notePoolSpends h pool now, l.wallet.keys_notePoolSpends pool now⟩
  | scan block id bundle =>
      unfold SpendLedger.act
      rcases WalletState.Books.processBlock hapart hfinds h he id {} with
        ⟨e, heq⟩ | ⟨summary, w', heq, hkeys, hbooks⟩
      · simp only [heq, and_true]
        exact h
      · simp only [heq]
        exact ⟨hbooks, hkeys⟩
  | detach height => exact ⟨WalletState.Books.detach hapart h height, l.wallet.keys_detach height⟩

theorem Balanced.run (hapart : WalletState.Apart image) {l : SpendLedger}
    (hfinds : WalletState.Finds C l.wallet.keys image) (h : l.Balanced image)
    {events : List WalletEvent} (halong : l.Along C events) : (l.run C events).Balanced image := by
  induction events generalizing l with
  | nil => exact h
  | cons e events ih =>
      obtain ⟨he, hrest⟩ := halong
      obtain ⟨hnext, hkeys⟩ := h.act hapart hfinds he
      exact ih (by rwa [hkeys]) hnext hrest

/-- An empty wallet, and a chain that spends nothing of it. -/
def start (account : AccountKeys) (subaddresses : SubaddressTable) (startHeight : Nat)
    (genesis : Hash256) (checkpoint : Option (Nat × Hash256)) : SpendLedger :=
  ⟨WalletState.new account subaddresses startHeight genesis checkpoint, []⟩

theorem balanced_start (account : AccountKeys) (subaddresses : SubaddressTable) (startHeight : Nat)
    (genesis : Hash256) (checkpoint : Option (Nat × Hash256)) :
    (start account subaddresses startHeight genesis checkpoint).Balanced image := by
  refine ⟨⟨?_, ?_, ?_, ?_⟩, ⟨?_, ?_, ?_⟩, ?_, ?_⟩
  all_goals simp [start, WalletState.new]

/-! ### What the marks say -/

/-- A transfer is marked spent exactly while a block of the chain or a pending transaction spends it,
    with a height exactly while a block does. -/
def SpentMeansSpent (l : SpendLedger) : Prop :=
  ∀ t ∈ l.wallet.transfers,
    (t.spent = true ↔ ∃ k, t.keyImage = some k ∧
      (OnChain l.spends k ∨ ∃ s ∈ l.wallet.sent, s.state = .pending ∧ k ∈ s.keyImages)) ∧
    (0 < t.spentHeight ↔ ∃ k, t.keyImage = some k ∧ OnChain l.spends k)

/-- Judging the pending transactions gives an output back exactly when one that fails now names it,
    and no block and no transaction still pending spends it. -/
def GivesBack (l : SpendLedger) (pool : List Hash256) (now : Nat) : Prop :=
  ∀ (i : Nat) t t', l.wallet.transfers[i]? = some t →
    (l.wallet.updatePending pool now).2.transfers[i]? = some t' →
    (t.spent = true ∧ t'.spent = false ↔ ∃ k, t.keyImage = some k ∧
      (∃ s ∈ l.wallet.sent, WalletState.failsNow pool now s = true ∧ k ∈ s.keyImages) ∧
      ¬ OnChain l.spends k ∧
      ¬ ∃ s ∈ (l.wallet.updatePending pool now).2.sent, s.state = .pending ∧ k ∈ s.keyImages)

/-- A transaction sent from here whose block is taken back waits for a block again, and holds its
    inputs. -/
def PendingAgain (l : SpendLedger) (height : Nat) : Prop :=
  ∀ s ∈ l.wallet.sent, s.sentTime ≠ 0 → ∀ h, s.state = .confirmed h → height ≤ h →
    ∃ s' ∈ (l.wallet.detach height).sent, s'.txid = s.txid ∧ s'.keyImages = s.keyImages ∧
      s'.state = .pending ∧
      ∀ t ∈ (l.wallet.detach height).transfers, ∀ k ∈ s'.keyImages, t.keyImage = some k → t.spent = true

theorem Balanced.spentMeansSpent {l : SpendLedger} (h : l.Balanced image) : l.SpentMeansSpent := by
  intro t ht
  have hmarked := h.marked t ht
  have hheight : 0 < t.spentHeight ↔ ∃ k, t.keyImage = some k ∧ OnChain l.spends k := by
    rw [hmarked.height, spentAt_pos_iff h.ordered.positive]
  refine ⟨?_, hheight⟩
  rw [hmarked.spent, Bool.or_eq_true, decide_eq_true_eq, hheight, Option.any_eq_true]
  simp only [WalletState.isPendingInput_iff]
  constructor
  · rintro (⟨k, hk, hon⟩ | ⟨k, hk, hpend⟩)
    · exact ⟨k, hk, .inl hon⟩
    · exact ⟨k, hk, .inr hpend⟩
  · rintro ⟨k, hk, hon | hpend⟩
    · exact .inl ⟨k, hk, hon⟩
    · exact .inr ⟨k, hk, hpend⟩

theorem Balanced.givesBack {l : SpendLedger} (h : l.Balanced image) (pool : List Hash256) (now : Nat) :
    l.GivesBack pool now := by
  intro i t t' hget hget'
  have hmem := List.mem_of_getElem? hget
  have hmarked := h.marked t hmem
  have hindexed : (l.wallet.judged pool now).Indexed image :=
    ⟨h.indexed.images, h.indexed.distinct, h.indexed.byImage, h.indexed.byKey⟩
  have hafter := WalletState.Books.updatePending h pool now
  have hmarked' := hafter.marked t' (List.mem_of_getElem? hget')
  -- The judged wallet names the same output here.
  have hindexed' : WalletState.Indexed image { l.wallet.judged pool now with
      transfers := (l.wallet.judged pool now).transfers.map
        (Transfer.markIn (WalletState.setSpent false) (l.wallet.failedImages pool now)) } :=
    hindexed.map ((WalletState.keeps_setSpent false).markIn _) rfl rfl rfl
  have hsame : t'.keyImage = t.keyImage := by
    rw [WalletState.updatePending_snd, hindexed.setInputsSpent_eq, WalletState.spendPendingInputs,
      hindexed'.setInputsSpent_eq] at hget'
    simp only [List.map_map, List.getElem?_map] at hget'
    obtain ⟨t₀, ht₀, rfl⟩ := Option.map_eq_some_iff.mp hget'
    have : l.wallet.transfers[i]? = some t₀ := ht₀
    rw [hget, Option.some.injEq] at this
    subst this
    rw [Function.comp_apply, ((WalletState.keeps_setSpent true).markIn _).keyImage,
      ((WalletState.keeps_setSpent false).markIn _).keyImage]
  have hheight : t'.spentHeight = t.spentHeight := by
    rw [hmarked'.height, hsame, hmarked.height]
  have hspent := hmarked.spent
  have hspent' := hmarked'.spent
  rw [hheight, hsame] at hspent'
  have hpos : 0 < t.spentHeight ↔ ∃ k, t.keyImage = some k ∧ OnChain l.spends k := by
    rw [hmarked.height, spentAt_pos_iff h.ordered.positive]
  have hsent : (l.wallet.updatePending pool now).2.sent = l.wallet.sent.map (WalletState.judge pool now) := by
    rw [WalletState.updatePending_snd, hindexed.setInputsSpent_eq, WalletState.spendPendingInputs,
      hindexed'.setInputsSpent_eq]
    rfl
  constructor
  · rintro ⟨hs, hs'⟩
    rw [hs', eq_comm, Bool.or_eq_false_iff, decide_eq_false_iff_not] at hspent'
    obtain ⟨hno, hnone⟩ := hspent'
    rw [hs, eq_comm, Bool.or_eq_true, decide_eq_true_eq] at hspent
    obtain ⟨k, hk, hpend⟩ := (Option.any_eq_true ..).mp (hspent.resolve_left hno)
    rw [hk, Option.any_some] at hnone
    refine ⟨k, hk, ?_, fun hon => hno (hpos.mpr ⟨k, hk, hon⟩), fun hstill => ?_⟩
    · by_contra hnot
      have hfree : k ∉ l.wallet.failedImages pool now := by
        intro hin
        obtain ⟨s, hs, hin⟩ := List.mem_flatMap.mp hin
        obtain ⟨hs, hfails⟩ := List.mem_filter.mp hs
        exact hnot ⟨s, hs, hfails, hin⟩
      have hstill := WalletState.isPendingInput_judged hpend hfree
      rw [WalletState.isPendingInput_iff] at hstill
      have : (l.wallet.updatePending pool now).2.isPendingInput k = true := by
        rw [WalletState.isPendingInput_iff, hsent]
        exact hstill
      rw [hnone] at this
      cases this
    · rw [(WalletState.isPendingInput_iff _ k).mpr hstill] at hnone
      cases hnone
  · rintro ⟨k, hk, ⟨s, hs, hfails, hin⟩, hoff, hnone⟩
    have hno : ¬ 0 < t.spentHeight := by
      rw [hpos]
      rintro ⟨k', hk', hon⟩
      rw [hk, Option.some.injEq] at hk'
      exact hoff (hk' ▸ hon)
    have hpend : l.wallet.isPendingInput k = true := by
      rw [WalletState.isPendingInput_iff]
      simp only [WalletState.failsNow, Bool.and_eq_true, beq_iff_eq] at hfails
      exact ⟨s, hs, hfails.1, hin⟩
    have hgone : (l.wallet.updatePending pool now).2.isPendingInput k = false := by
      rw [Bool.eq_false_iff, ne_eq, WalletState.isPendingInput_iff]
      exact hnone
    rw [hspent, hspent', hk, Option.any_some, Option.any_some, hpend, hgone, decide_eq_false hno]
    exact ⟨rfl, rfl⟩

theorem Balanced.pendingAgain (hapart : WalletState.Apart image) {l : SpendLedger} (h : l.Balanced image)
    (height : Nat) : l.PendingAgain height := by
  intro s hs htime h₀ hstate hle
  have hafter := WalletState.Books.detach hapart h height
  have hdetach : WalletState.detachRecord height s =
      some { s with state := .pending, timestamp := s.sentTime } := by
    unfold WalletState.detachRecord
    rw [hstate]
    simp only
    rw [if_pos hle, if_neg htime]
  have hindexed := hafter.indexed
  have hmem : { s with state := .pending, timestamp := s.sentTime } ∈
      (l.wallet.detach height).sent := by
    unfold WalletState.detach WalletState.detachSent
    simp only
    have hsent (v : WalletState) : v.spendPendingInputs.sent = v.sent := by
      have hone (spent : Bool) (k : KeyImage) (v : WalletState) :
          (WalletState.setInputSpent spent v k).sent = v.sent := by
        unfold WalletState.setInputSpent
        split <;> rfl
      unfold WalletState.spendPendingInputs WalletState.setInputsSpent
      induction v.pendingInputs generalizing v with
      | nil => rfl
      | cons k ks ih => rw [List.foldl_cons, ih, hone]
    rw [hsent]
    exact List.mem_filterMap.mpr ⟨s, hs, hdetach⟩
  refine ⟨_, hmem, rfl, rfl, rfl, ?_⟩
  intro t ht k hk hkey
  rw [(hafter.marked t ht).spent, Bool.or_eq_true, hkey, Option.any_some, WalletState.isPendingInput_iff]
  exact .inr ⟨_, hmem, rfl, hk⟩

end SpendLedger

end Wownero

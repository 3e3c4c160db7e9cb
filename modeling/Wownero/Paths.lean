import Wownero.Replay
/-!
# Many ways to one chain

A wallet asks one node after another, and their chains may have changed in between.  Every block
it adds is scanned and every block given up is taken back, so that what it holds follows from the
hashes it has, whichever way it came to have them.  The exception is an output replaced by a larger
one with its key: when the larger one's block is taken back, the one it replaced is gone with it.
-/

namespace Wownero

variable {C : Crypto} {world : Hash256 → SeenBlock} {genesis : Hash256}

/-! ### Chains of one world -/

/-- A chain from genesis whose blocks are what their ids say, and which has no transaction twice. -/
structure HonestChain (C : Crypto) (world : Hash256 → SeenBlock) (genesis : Hash256)
    (chain : List BlockBundle) (ids : List Hash256) : Prop where
  chained : Chained C chain ids
  seen : ∀ (h : Nat) bundle block id, chain[h]? = some bundle → ids[h]? = some id →
    Readable C bundle block id → bundle.seen C block = world id
  root : ids.head? = some genesis
  once : (ids.flatMap fun id => (world id).spendingIds).Nodup

/-- A source whose every reply is a part of this chain. -/
structure Honest (C : Crypto) (world : Hash256 → SeenBlock) (genesis : Hash256) (source : BlockSource)
    (chain : List BlockBundle) (ids : List Hash256) : Prop where
  honest : HonestChain C world genesis chain ids
  blocks : ∀ history start most batch, source.getBlocks history start most = .ok batch →
    ∃ n, batch.blocks = (chain.drop batch.startHeight).take n

theorem HonestChain.parent {chain : List BlockBundle} {ids : List Hash256}
    (h : HonestChain C world genesis chain ids) {i : Nat} {id : Hash256} (hid : ids[i + 1]? = some id) :
    ids[i]? = some (world id).parent := by
  have hlt := (List.getElem?_eq_some_iff.mp hid).1
  have hlen := h.chained.length_eq
  have hbundle : chain[i + 1]? = some chain[i + 1] := List.getElem?_eq_getElem (by omega)
  obtain ⟨block, id', hid', hread, hparent⟩ := h.chained.readable (i + 1) _ hbundle
  obtain rfl : id = id' := Option.some.inj (hid.symm.trans hid')
  rw [← h.seen (i + 1) _ block id hbundle hid hread]
  exact hparent i rfl

/-- Two chains with a block in common have everything below it in common. -/
theorem HonestChain.same_below {chain chain' : List BlockBundle} {ids ids' : List Hash256}
    (h : HonestChain C world genesis chain ids) (h' : HonestChain C world genesis chain' ids') {i : Nat}
    (hsame : ids[i]? = ids'[i]?) (hsome : ids[i]?.isSome) {j : Nat} (hj : j ≤ i) : ids[j]? = ids'[j]? := by
  induction i with
  | zero => rwa [Nat.le_zero.mp hj]
  | succ i ih =>
      rcases Nat.lt_or_ge j (i + 1) with hlt | hge
      · obtain ⟨id, hid⟩ := Option.isSome_iff_exists.mp hsome
        have hleft := h.parent hid
        have hright := h'.parent (hsame ▸ hid)
        exact ih (hleft.trans hright.symm) (by rw [hleft]; rfl) (by omega)
      · rwa [show j = i + 1 by omega]

namespace WalletState

/-- The first height a wallet scans.  Genesis is held from the start and never scanned. -/
def firstScanned (w : WalletState) : Nat := max w.refreshFromHeight 1

/-- The hashes of the blocks a wallet has scanned. -/
def scanned (w : WalletState) : List Hash256 := w.hashes.drop (w.firstScanned - w.startHeight)

/-- The wallet holds what a replay of its hashes finds, and they are of a chain. -/
structure Mirrors (C : Crypto) (world : Hash256 → SeenBlock) (w : WalletState) : Prop where
  start : w.startHeight ≤ w.refreshFromHeight
  root : w.refreshFromHeight = 0 → w.hashes.head? = some w.genesis
  money : w.purse = replay C world w.blank w.firstScanned w.scanned
  follows : w.scanned = [] ∨ ∃ chain ids, HonestChain C world w.genesis chain ids ∧
    w.scanned = (ids.drop w.firstScanned).take w.scanned.length

/-- No block the wallet scanned at `h` or above replaced an output of a block below. -/
def Spares (C : Crypto) (world : Hash256 → SeenBlock) (w : WalletState) (h : Nat) : Prop :=
  SparesBlocks C world h w.blank w.firstScanned w.scanned

/-- What every call leaves alone. -/
structure SameKeys (w w' : WalletState) : Prop where
  blank : w'.blank = w.blank
  refreshFromHeight : w'.refreshFromHeight = w.refreshFromHeight
  genesis : w'.genesis = w.genesis

theorem SameKeys.trans {w w' w'' : WalletState} (h : SameKeys w w') (h' : SameKeys w' w'') :
    SameKeys w w'' :=
  ⟨h'.blank.trans h.blank, h'.refreshFromHeight.trans h.refreshFromHeight, h'.genesis.trans h.genesis⟩

variable {image : PublicKey → Option KeyImage}

theorem tidy_blank (w : WalletState) (image : PublicKey → Option KeyImage) : w.blank.Tidy image := by
  refine ⟨?_, ?_, rfl, rfl, ?_⟩
  all_goals simp [WalletState.blank]

theorem within_blank (w : WalletState) (lo h : Nat) : w.blank.Within lo h [] := by
  refine ⟨?_, ?_⟩
  all_goals simp [WalletState.blank]

/-- The ids of the transactions a wallet has scanned are all different. -/
theorem Mirrors.once {w : WalletState} (hm : w.Mirrors C world) :
    (w.scanned.flatMap fun id => (world id).spendingIds).Nodup := by
  rcases hm.follows with hnil | ⟨chain, ids, hchain, heq⟩
  · rw [hnil]
    exact List.nodup_nil
  · rw [heq]
    have hsub := (List.take_sublist w.scanned.length (ids.drop w.firstScanned)).trans
      (List.drop_sublist _ _)
    exact hchain.once.sublist (hsub.flatMap _)

/-! ### Taking blocks back -/

theorem scanned_take (w : WalletState) {h : Nat} (hstart : w.startHeight ≤ w.refreshFromHeight) :
    (w.hashes.take (h - w.startHeight)).drop (w.firstScanned - w.startHeight) =
      w.scanned.take (h - w.firstScanned) := by
  have hle : w.startHeight ≤ w.firstScanned := hstart.trans (Nat.le_max_left _ _)
  rw [List.drop_take, scanned]
  congr 1
  omega

/-- Taking blocks back leaves what a replay of the rest finds. -/
theorem Mirrors.detach {w : WalletState} (hfinds : Finds C w.keys image) (hm : w.Mirrors C world)
    {h : Nat} (hspares : w.firstScanned < h → w.Spares C world h) (hroot : w.refreshFromHeight = 0 → 0 < h) :
    (w.detach h).Mirrors C world ∧ SameKeys w (w.detach h) := by
  obtain ⟨v, hv⟩ : ∃ v, v = replay C world w.blank w.firstScanned (w.scanned.take (h - w.firstScanned)) :=
    ⟨_, rfl⟩
  have hpos : 0 < w.firstScanned := Nat.lt_of_lt_of_le Nat.one_pos (Nat.le_max_right _ _)
  obtain ⟨htidy, hwithin, hkeys⟩ := Tidy.replay world (w := w.blank) hfinds
    (w.tidy_blank image) (w.within_blank w.firstScanned _) (Nat.le_refl _) hpos
    (w.scanned.take (h - w.firstScanned))
  rw [← hv] at htidy hwithin hkeys
  -- The blocks that stay, and those that go.
  have hmoney : w.purse = replay C world v (w.firstScanned + (w.scanned.take (h - w.firstScanned)).length)
      (w.scanned.drop (h - w.firstScanned)) := by
    rw [hv, ← replay_append, List.take_append_drop]
    exact hm.money
  have hrestores : Restores h v w.purse := by
    by_cases hlow : h ≤ w.firstScanned
    · -- Nothing stays.
      have hnone : v = w.blank := by
        rw [hv, show h - w.firstScanned = 0 by omega]
        rfl
      obtain ⟨hall, hrange, -⟩ := Tidy.replay world (w := w.blank) hfinds
        (w.tidy_blank image) (w.within_blank w.firstScanned _) (Nat.le_refl _) hpos w.scanned
      rw [← hm.money] at hall hrange
      rw [hnone]
      exact hrange.restores_blank hlow hall.seen
    · have hself : Restores h v v := by
        refine (hwithin.mono ?_).restores
        rw [List.length_take]
        omega
      rw [hmoney]
      by_cases hshort : w.scanned.length ≤ h - w.firstScanned
      · rw [List.drop_eq_nil_of_le hshort]
        exact hself
      · refine hself.replay (by rwa [hkeys]) htidy hwithin (by omega) ?_ (by omega) ?_ ?_
        · rw [List.length_take]
          omega
        · rw [List.nil_append, ← List.flatMap_append, List.take_append_drop]
          exact hm.once
        · rw [hv]
          apply sparesBlocks_append
          rw [List.take_append_drop]
          exact hspares (by omega)
  have hmade := detach_eq (w := w)
    ⟨hrestores.transfers, hrestores.sent, hrestores.account, hrestores.subaddresses⟩ htidy
  have hpurse := purse_detach (w := w)
    ⟨hrestores.transfers, hrestores.sent, hrestores.account, hrestores.subaddresses⟩ htidy
  have hblank : (w.detach h).blank = w.blank := by rw [hmade]; rfl
  have hfirst : (w.detach h).firstScanned = w.firstScanned := by rw [hmade]; rfl
  have hscanned : (w.detach h).scanned = w.scanned.take (h - w.firstScanned) := by
    rw [← w.scanned_take hm.start, hmade]
    rfl
  have hgenesis : (w.detach h).genesis = w.genesis := by rw [hmade]
  refine ⟨⟨?_, ?_, ?_, ?_⟩, ⟨hblank, by rw [hmade], hgenesis⟩⟩
  · rw [hmade]
    exact hm.start
  · intro hzero
    rw [hmade] at hzero ⊢
    have hheld := hm.root hzero
    have hlow := hm.start
    simp only at hzero ⊢
    rw [List.head?_take, if_neg (by have := hroot hzero; omega)]
    exact hheld
  · rw [hblank, hfirst, hscanned, ← hv, hpurse, hv]
    exact purse_replay world rfl _ _
  · rw [hgenesis, hfirst, hscanned]
    rcases hm.follows with hnil | ⟨chain, ids, hchain, heq⟩
    · rw [hnil, List.take_nil]
      exact .inl rfl
    · refine .inr ⟨chain, ids, hchain, ?_⟩
      rw [List.length_take]
      conv_lhs => rw [heq]
      rw [List.take_take]

/-! ### Adding blocks -/

/-- A block of an honest chain on the tip: the hashes scanned are of that chain. -/
theorem Mirrors.follows_push {w : WalletState} (hm : w.Mirrors C world) {chain : List BlockBundle}
    {ids : List Hash256} (hchain : HonestChain C world w.genesis chain ids) {id : Hash256}
    (hid : ids[w.scanHeight]? = some id) (hlast : ∀ previous ∈ w.hashes.getLast?, (world id).parent = previous)
    (hlen : w.firstScanned + w.scanned.length = w.scanHeight) :
    w.scanned ++ [id] = (ids.drop w.firstScanned).take (w.scanned.length + 1) := by
  have hstart : w.startHeight ≤ w.firstScanned := hm.start.trans (Nat.le_max_left _ _)
  have hheld : w.scanned = (ids.drop w.firstScanned).take w.scanned.length := by
    rcases hm.follows with hnil | ⟨chain', ids', hchain', heq⟩
    · rw [hnil]
      rfl
    by_cases hnone : w.scanned.length = 0
    · rw [List.length_eq_zero_iff.mp hnone]
      rfl
    -- The last block the wallet holds is the one below on this chain too.
    have hlen' : w.scanned.length = w.hashes.length - (w.firstScanned - w.startHeight) := by
      rw [scanned, List.length_drop]
    have htop : w.hashes.getLast? = ids'[w.scanHeight - 1]? := by
      have hget : w.scanned[w.scanned.length - 1]? = ids'[w.scanHeight - 1]? := by
        rw [heq, List.length_take, List.length_drop]
        rw [heq, List.length_take, List.length_drop] at hnone hlen
        rw [List.getElem?_take_of_lt (by omega), List.getElem?_drop]
        congr 1
        omega
      rw [← hget, scanned, List.getElem?_drop, List.getLast?_eq_getElem?]
      congr 1
      rw [scanned, List.length_drop] at hnone
      rw [List.length_drop]
      omega
    have hsome : ids'[w.scanHeight - 1]?.isSome := by
      rw [← htop]
      rw [List.getLast?_isSome]
      intro h
      rw [scanned, h] at hnone
      exact hnone (by simp)
    obtain ⟨previous, hprevious⟩ := Option.isSome_iff_exists.mp hsome
    have hbelow : ids[w.scanHeight - 1]? = ids'[w.scanHeight - 1]? := by
      rw [hprevious, ← hlast previous (htop.trans hprevious)]
      apply hchain.parent
      rw [show w.scanHeight - 1 + 1 = w.scanHeight by omega]
      exact hid
    apply List.ext_getElem?
    intro j
    by_cases hj : j < w.scanned.length
    · rw [List.getElem?_take_of_lt hj, List.getElem?_drop]
      conv_lhs => rw [heq]
      rw [List.getElem?_take_of_lt hj, List.getElem?_drop]
      exact (hchain.same_below hchain' hbelow (by rw [hbelow]; exact hsome) (by omega)).symm
    · rw [List.getElem?_eq_none (by omega), List.getElem?_eq_none]
      rw [List.length_take]
      omega
  rw [List.take_add_one, ← hheld, List.getElem?_drop, hlen, hid]
  rfl

/-- A block of an honest chain on the tip is refused, or added to what the wallet mirrors. -/
theorem Mirrors.processBlock {w : WalletState} (hm : w.Mirrors C world) {chain : List BlockBundle}
    {ids : List Hash256} (hchain : HonestChain C world w.genesis chain ids) {bundle : BlockBundle}
    {block : Block} {id : Hash256} (hget : chain[w.scanHeight]? = some bundle)
    (hid : ids[w.scanHeight]? = some id) (hread : Readable C bundle block id) (summary : RefreshSummary) :
    (∃ e, w.processBlock C w.scanHeight block id bundle summary = (.error e, w)) ∨
    ∃ summary' w', w.processBlock C w.scanHeight block id bundle summary = (.ok summary', w') ∧
      w'.chainPart = { w.chainPart with hashes := w.hashes ++ [id] } ∧
      w'.Mirrors C world ∧ SameKeys w w' := by
  have hseen := hchain.seen _ bundle block id hget hid hread
  rcases processBlock_cases hread summary with hrefused | ⟨hlast, summary', w', hok, hframe, hpurse⟩
  · exact .inl hrefused
  refine .inr ⟨summary', w', hok, hframe, ?_⟩
  have hhashes : w'.hashes = w.hashes ++ [id] := (congrArg (fun v : WalletState => v.hashes) hframe :)
  have hstart : w'.startHeight = w.startHeight := (congrArg (fun v : WalletState => v.startHeight) hframe :)
  have hrefresh : w'.refreshFromHeight = w.refreshFromHeight :=
    (congrArg (fun v : WalletState => v.refreshFromHeight) hframe :)
  have hgenesis : w'.genesis = w.genesis := (congrArg (fun v : WalletState => v.genesis) hframe :)
  have hfirst : w'.firstScanned = w.firstScanned := by rw [firstScanned, hrefresh]; rfl
  have hblank : w'.blank = w.blank := (congrArg (fun v : WalletState => v.blank) hframe :)
  have hlow := hm.start
  have hheight : w.scanHeight = w.startHeight + w.hashes.length := rfl
  have hmax : w.firstScanned = max w.refreshFromHeight 1 := rfl
  have hgrown : w'.scanned = (w.hashes ++ [id]).drop (w.firstScanned - w.startHeight) := by
    rw [scanned, hfirst, hstart, hhashes]
  have hroot (hzero : w'.refreshFromHeight = 0) : w'.hashes.head? = some w'.genesis := by
    rw [hhashes, hgenesis, List.head?_append, hm.root (hrefresh ▸ hzero)]
    rfl
  suffices h : w'.purse = replay C world w'.blank w'.firstScanned w'.scanned ∧
      (w'.scanned = [] ∨ ∃ chain ids, HonestChain C world w'.genesis chain ids ∧
        w'.scanned = (ids.drop w'.firstScanned).take w'.scanned.length) from
    ⟨⟨by rw [hstart, hrefresh]; exact hlow, hroot, h.1, h.2⟩, ⟨hblank, hrefresh, hgenesis⟩⟩
  by_cases hskip : w.scanHeight < w.refreshFromHeight
  · -- Below where scanning starts only the hash is kept.
    rw [if_pos hskip] at hpurse
    have hnone : w'.scanned = [] := by
      rw [hgrown, List.drop_eq_nil_iff, List.length_append, List.length_singleton]
      omega
    have hbefore : w.scanned = [] := by
      rw [scanned, List.drop_eq_nil_iff]
      omega
    refine ⟨?_, .inl hnone⟩
    rw [hnone, hpurse, hm.money, hbefore, hblank]
    rfl
  · rw [if_neg hskip, hseen] at hpurse
    have habove : w.firstScanned ≤ w.scanHeight := by
      by_cases hzero : w.refreshFromHeight = 0
      · have hne : w.hashes ≠ [] := by
          intro hnil
          have := hm.root hzero
          rw [hnil] at this
          cases this
        have := List.length_pos_iff.mpr hne
        omega
      · omega
    have hmore : w'.scanned = w.scanned ++ [id] := by
      rw [hgrown, List.drop_append_of_le_length (by omega)]
      rfl
    have hlen : w.firstScanned + w.scanned.length = w.scanHeight := by
      rw [scanned, List.length_drop]
      omega
    have hparent (previous : Hash256) (h : previous ∈ w.hashes.getLast?) : (world id).parent = previous := by
      rw [← hseen]
      exact hlast previous h
    refine ⟨?_, .inr ⟨chain, ids, hgenesis ▸ hchain, ?_⟩⟩
    · rw [hmore, hfirst, hblank, replay_append, hlen, ← hm.money, hpurse]
      rfl
    · rw [hmore, hfirst, hm.follows_push hchain hid hparent hlen, List.length_take, List.length_drop]
      have := (List.getElem?_eq_some_iff.mp hid).1
      congr 1
      omega

/-! ### One reply -/

/-- What a call leaves as it was, besides what the wallet mirrors. -/
structure Goes (C : Crypto) (world : Hash256 → SeenBlock) (w w' : WalletState) : Prop where
  mirrors : w'.Mirrors C world
  same : SameKeys w w'
  fill : w'.fill = w.fill

theorem Goes.trans {w w' w'' : WalletState} (h : Goes C world w w') (h' : Goes C world w' w'') :
    Goes C world w w'' :=
  ⟨h'.mirrors, h.same.trans h'.same, h'.fill.trans h.fill⟩

theorem Mirrors.goes {w : WalletState} (hm : w.Mirrors C world) : Goes C world w w :=
  ⟨hm, ⟨rfl, rfl, rfl⟩, rfl⟩

theorem parseBundle_honest {chain : List BlockBundle} {ids : List Hash256}
    (h : HonestChain C world genesis chain ids) {height : Nat} {bundle : BlockBundle}
    (hget : chain[height]? = some bundle) :
    ∃ block id, ids[height]? = some id ∧ Readable C bundle block id ∧
      parseBundle C height bundle = .ok (block, id) := by
  obtain ⟨block, id, hid, hread, -⟩ := h.chained.readable height bundle hget
  refine ⟨block, id, hid, hread, ?_⟩
  simp only [parseBundle, hread.parsed, hread.named]

/-- The blocks of a reply from the tip on. -/
theorem Mirrors.processBlocks_tip {chain : List BlockBundle} {ids : List Hash256} (n : Nat)
    {w : WalletState} (hm : w.Mirrors C world) (hchain : HonestChain C world w.genesis chain ids)
    (summary : RefreshSummary) :
    Goes C world w (processBlocks C w.scanHeight ((chain.drop w.scanHeight).take n) w summary).2 := by
  induction n generalizing w summary with
  | zero =>
      rw [List.take_zero, processBlocks]
      exact hm.goes
  | succ n ih =>
      by_cases hlt : w.scanHeight < chain.length
      · rw [List.drop_eq_getElem_cons hlt, List.take_succ_cons]
        have hget : chain[w.scanHeight]? = some chain[w.scanHeight] := List.getElem?_eq_getElem hlt
        obtain ⟨block, id, hid, hread, hparsed⟩ := parseBundle_honest hchain hget
        have hstart : w.startHeight ≤ w.scanHeight := Nat.le_add_right _ _
        rw [processBlocks]
        rw [if_neg (by omega), hparsed]
        simp only
        rw [if_neg (Nat.lt_irrefl _)]
        rcases hm.processBlock hchain hget hid hread summary with
          ⟨e, heq⟩ | ⟨summary', w', heq, hframe, hm', hsame⟩
        · rw [heq]
          exact hm.goes
        · rw [heq]
          simp only
          have hnext : w'.scanHeight = w.scanHeight + 1 := by
            have hhashes : w'.hashes = w.hashes ++ [id] :=
              (congrArg (fun v : WalletState => v.hashes) hframe :)
            have hbase : w'.startHeight = w.startHeight :=
              (congrArg (fun v : WalletState => v.startHeight) hframe :)
            rw [scanHeight, hhashes, hbase, List.length_append]
            rfl
          have hstep : Goes C world w w' :=
            ⟨hm', hsame, (congrArg (fun v : WalletState => v.fill) hframe :)⟩
          have hrest := ih hm' (hsame.genesis ▸ hchain)
            { summary' with blocksScanned := summary'.blocksScanned + 1 }
          rw [hnext] at hrest
          exact hstep.trans hrest
      · rw [List.drop_eq_nil_of_le (by omega), List.take_nil, processBlocks]
        exact hm.goes

/-- The first height at which the blocks held from `start` on are others than those of a reply. -/
def splitsFrom (start : Nat) (held : List Hash256) : Nat → List Hash256 → Option Nat
  | _, [] => none
  | height, id :: ids =>
      if start ≤ height ∧ height < start + held.length ∧ held[height - start]? ≠ some id then some height
      else splitsFrom start held (height + 1) ids

/-- The blocks of a reply of an honest source that starts where the wallet has blocks, or below. -/
theorem Mirrors.processBlocks {chain : List BlockBundle} {ids : List Hash256} (n height : Nat)
    {w : WalletState} (hfinds : Finds C w.keys image) (hm : w.Mirrors C world)
    (hchain : HonestChain C world w.genesis chain ids) (hheight : height ≤ w.scanHeight)
    (hspares : ∀ h ∈ splitsFrom w.startHeight w.hashes height ((ids.drop height).take n), w.Spares C world h)
    (summary : RefreshSummary) :
    Goes C world w (processBlocks C height ((chain.drop height).take n) w summary).2 := by
  induction n generalizing height summary with
  | zero =>
      rw [List.take_zero, WalletState.processBlocks]
      exact hm.goes
  | succ n ih =>
      by_cases hlt : height < chain.length
      · have hget : chain[height]? = some chain[height] := List.getElem?_eq_getElem hlt
        obtain ⟨block, id, hid, hread, hparsed⟩ := parseBundle_honest hchain hget
        have hids : (ids.drop height).take (n + 1) = id :: (ids.drop (height + 1)).take n := by
          have hltids := (List.getElem?_eq_some_iff.mp hid).1
          rw [List.drop_eq_getElem_cons hltids, List.take_succ_cons]
          rw [List.getElem?_eq_getElem hltids, Option.some.injEq] at hid
          rw [hid]
        rw [hids, splitsFrom] at hspares
        rcases Nat.lt_or_ge height w.scanHeight with hheld | htip
        · rw [List.drop_eq_getElem_cons hlt, List.take_succ_cons, WalletState.processBlocks]
          by_cases hskip : height < w.startHeight
          · rw [if_pos hskip]
            rw [if_neg (by omega)] at hspares
            exact ih (height + 1) (by omega) hspares summary
          rw [if_neg hskip, hparsed]
          simp only
          rw [if_pos hheld]
          by_cases hsame : w.hashes[height - w.startHeight]? = some id
          · rw [if_pos hsame]
            rw [if_neg (by simp [hsame])] at hspares
            exact ih (height + 1) (by omega) hspares summary
          rw [if_neg hsame]
          rw [if_pos ⟨by omega, hheld, hsame⟩] at hspares
          cases w.checkReorgDepth (w.scanHeight - height) with
          | error e => exact hm.goes
          | ok _ =>
              have hroot (hzero : w.refreshFromHeight = 0) : 0 < height := by
                rcases Nat.eq_zero_or_pos height with rfl | hpos
                · refine absurd ?_ hsame
                  rw [Nat.zero_sub, ← List.head?_eq_getElem?, hm.root hzero, ← hid,
                    ← List.head?_eq_getElem?, hchain.root]
                · exact hpos
              obtain ⟨hm₁, hkeys₁⟩ := hm.detach hfinds (fun _ => hspares height rfl) hroot
              have hchainPart := w.chainPart_detach height
              have hfill : (w.detach height).fill = w.fill :=
                (congrArg (fun v : WalletState => v.fill) hchainPart :)
              have hhashes : (w.detach height).hashes = w.hashes.take (height - w.startHeight) :=
                (congrArg (fun v : WalletState => v.hashes) hchainPart :)
              have hbase : (w.detach height).startHeight = w.startHeight :=
                (congrArg (fun v : WalletState => v.startHeight) hchainPart :)
              have hnow : (w.detach height).scanHeight = height := by
                rw [scanHeight, hhashes, hbase, List.length_take]
                rw [scanHeight] at hheld
                omega
              -- What is left of the wallet ends where the block goes.
              have htip := hm₁.processBlocks_tip (n + 1) (hkeys₁.genesis ▸ hchain)
                { summary with reorgTo := some height }
              rw [hnow, List.drop_eq_getElem_cons hlt, List.take_succ_cons, WalletState.processBlocks,
                if_neg (by omega), hparsed] at htip
              simp only at htip
              rw [if_neg (by omega)] at htip
              exact Goes.trans ⟨hm₁, hkeys₁, hfill⟩ htip
        · obtain rfl : height = w.scanHeight := by omega
          exact hm.processBlocks_tip (n + 1) hchain summary
      · rw [List.drop_eq_nil_of_le (by omega), List.take_nil, WalletState.processBlocks]
        exact hm.goes

/-- What the wallet makes of a reply of an honest source. -/
theorem Mirrors.processBatch {chain : List BlockBundle} {ids : List Hash256} {w : WalletState}
    (hfinds : Finds C w.keys image) (hm : w.Mirrors C world)
    (hchain : HonestChain C world w.genesis chain ids) {batch : BlockSource.Batch} {n : Nat}
    (hblocks : batch.blocks = (chain.drop batch.startHeight).take n)
    (hspares : ∀ h ∈ splitsFrom w.startHeight w.hashes batch.startHeight
      ((ids.drop batch.startHeight).take batch.blocks.length), w.Spares C world h) (granularity : Nat) :
    Goes C world w (w.processBatch C granularity batch).2 := by
  have hlen := hchain.chained.length_eq
  have hall : batch.blocks = (chain.drop batch.startHeight).take batch.blocks.length := by
    conv_lhs => rw [hblocks]
    rw [List.take_eq_take_iff, hblocks, List.length_take]
    omega
  unfold WalletState.processBatch
  simp only
  split
  · exact hm.goes
  split
  · exact hm.goes
  rename_i htip
  split
  · rename_i hbelow
    cases w.checkReorgDepth (w.scanHeight - w.startHeight) with
    | error e => exact hm.goes
    | ok _ =>
        -- Nothing of the wallet is below where it starts.
        have hlow := hm.start
        obtain ⟨hm₁, hkeys₁⟩ := hm.detach hfinds (h := w.startHeight)
          (fun hlt => absurd hlt (by have := Nat.le_max_left w.refreshFromHeight 1; rw [firstScanned]; omega))
          (fun hzero => by omega)
        exact ⟨hm₁, hkeys₁, (congrArg (fun v : WalletState => v.fill) (w.chainPart_detach w.startHeight) :)⟩
  · have hgoes := hm.processBlocks batch.blocks.length batch.startHeight hfinds hchain (by omega) hspares
      { currentHeight := batch.currentHeight }
    rw [← hall] at hgoes
    generalize WalletState.processBlocks C batch.startHeight batch.blocks w
      { currentHeight := batch.currentHeight } = r at hgoes
    obtain ⟨result, w'⟩ := r
    cases result with
    | error e => exact hgoes
    | ok summary =>
        simp only at hgoes ⊢
        split <;> exact hgoes

/-! ### One call -/

theorem getBlocks_of_request {source : BlockSource} {history : List Hash256} {start fuel size : Nat}
    {batch : BlockSource.Batch} (h : (requestBlocks source history start fuel size).1 = .ok batch) :
    ∃ most, source.getBlocks history start most = .ok batch := by
  induction fuel generalizing size with
  | zero => cases h
  | succ fuel ih =>
      rw [requestBlocks] at h
      split at h
      · rename_i batch' hok
        cases h
        exact ⟨size, hok⟩
      · split at h
        · exact ih h
        · cases h

/-- The reply a wallet gets to its request for blocks. -/
def reply (w : WalletState) (source : BlockSource) : Except RefreshError BlockSource.Batch :=
  (requestBlocks source (w.historyAt w.granularity) (if w.hashes.isEmpty then w.startHeight else 0)
    (w.batchSize + 1) w.batchSize).1

theorem Mirrors.refreshBlocks {source : BlockSource} {chain : List BlockBundle} {ids : List Hash256}
    {w : WalletState} (hfinds : Finds C w.keys image) (hm : w.Mirrors C world)
    (hsource : Honest C world w.genesis source chain ids)
    (hspares : ∀ batch, w.reply source = .ok batch → ∀ h ∈ splitsFrom w.startHeight w.hashes batch.startHeight
      ((ids.drop batch.startHeight).take batch.blocks.length), w.Spares C world h) :
    Goes C world w (w.refreshBlocks C source).2 := by
  have hchanged (size : Nat) (first ever : Bool) : Goes C world w
      { w with batchSize := size, firstRefreshDone := first, everRefreshed := ever } :=
    ⟨⟨hm.start, hm.root, hm.money, hm.follows⟩, ⟨rfl, rfl, rfl⟩, rfl⟩
  unfold WalletState.refreshBlocks
  simp only
  unfold reply at hspares
  rw [show (if (w.firstRefreshDone || w.trustedDaemon) = true then 1 else firstRefreshGranularity) =
    w.granularity from rfl]
  generalize hrequest : requestBlocks source (w.historyAt w.granularity)
    (if w.hashes.isEmpty then w.startHeight else 0) (w.batchSize + 1) w.batchSize = r at hspares
  obtain ⟨result, size⟩ := r
  cases result with
  | error e => exact hchanged size w.firstRefreshDone w.everRefreshed
  | ok batch =>
      obtain ⟨most, hreply⟩ := getBlocks_of_request (congrArg Prod.fst hrequest)
      obtain ⟨n, hblocks⟩ := hsource.blocks _ _ _ _ hreply
      have hnext := hchanged (min (size * 2) maxBlocksPerCall) true true
      refine hnext.trans ?_
      exact Mirrors.processBatch (w := { w with
        batchSize := min (size * 2) maxBlocksPerCall
        firstRefreshDone := true
        everRefreshed := true }) hfinds hnext.mirrors hsource.honest hblocks (hspares batch rfl) _

/-- Hashes gathered so far reach at most the height aimed at. -/
def Filled (w : WalletState) : Prop :=
  w.fill = [] ∨ ∃ target, w.fillTarget = some target ∧ w.historyBase + w.fill.length ≤ target

theorem historyBase_le (w : WalletState) : w.historyBase ≤ w.refreshFromHeight := by
  unfold historyBase
  split
  · split <;> omega
  · omega

/-- Where hashes are gathered to: where the wallet scans from, or what it holds begins. -/
theorem fillTarget_cases {w : WalletState} {target : Nat} (h : w.fillTarget = some target)
    (hstart : w.startHeight ≤ w.refreshFromHeight) :
    w.historyBase < target ∧ (w.hashes = [] ∧ target = w.refreshFromHeight ∨
      w.hashes ≠ [] ∧ target = w.startHeight) := by
  unfold fillTarget at h
  simp only at h
  by_cases hnil : w.hashes = []
  · rw [hnil, List.isEmpty_nil, if_pos rfl] at h
    split at h
    · rw [Option.some.injEq] at h
      exact ⟨by omega, .inl ⟨hnil, by omega⟩⟩
    · cases h
  · have hne : w.hashes.isEmpty = false := by simpa using hnil
    rw [hne, if_neg Bool.false_ne_true] at h
    split at h
    · rw [Option.some.injEq] at h
      exact ⟨by omega, .inr ⟨hnil, h.symm⟩⟩
    · cases h

theorem length_gatherHashes {base target : Nat} (height : Nat) (hashes fill : List Hash256)
    {gathered : List Hash256} {atTarget : Option Hash256}
    (hlow : base ≤ height) (hhigh : height ≤ base + fill.length) (hle : base + fill.length ≤ target)
    (h : gatherHashes base target height hashes fill = .ok (gathered, atTarget)) :
    base + gathered.length ≤ target ∧ (atTarget.isSome → base + gathered.length = target) := by
  induction hashes generalizing height fill with
  | nil =>
      rw [gatherHashes] at h
      cases h
      exact ⟨hle, fun hsome => by cases hsome⟩
  | cons hash hashes ih =>
      rw [gatherHashes] at h
      split at h
      · cases h
        exact ⟨hle, fun _ => by omega⟩
      simp only at h
      split at h
      · rename_i held hget
        have hlt := (List.getElem?_eq_some_iff.mp hget).1
        split at h
        · exact ih (height + 1) fill (by omega) (by omega) hle h
        split at h
        · cases h
        · refine ih (height + 1) _ (by omega) ?_ ?_ h
          all_goals
            rw [List.length_append, List.length_take, List.length_singleton]
            omega
      · rename_i hnone
        have hge := List.getElem?_eq_none_iff.mp hnone
        refine ih (height + 1) _ (by omega) ?_ ?_ h
        all_goals
          rw [List.length_append, List.length_singleton]
          omega

/-- Hashes put under those the wallet holds are all of blocks it does not scan. -/
theorem Mirrors.join {w : WalletState} (hm : w.Mirrors C world) (hpos : 0 < w.refreshFromHeight)
    (under : List Hash256)
    (hunder : w.hashes = [] ∧ w.historyBase + under.length ≤ w.refreshFromHeight ∨
      w.historyBase + under.length = w.startHeight) :
    Goes C world w { w with hashes := under ++ w.hashes, startHeight := w.historyBase } := by
  have hstart := hm.start
  have hmax : w.firstScanned = max w.refreshFromHeight 1 := rfl
  have hscanned : (under ++ w.hashes).drop (w.firstScanned - w.historyBase) = w.scanned := by
    rcases hunder with ⟨hnil, hle⟩ | heq
    · rw [scanned, hnil, List.append_nil, List.drop_nil, List.drop_eq_nil_iff]
      omega
    · rw [List.drop_append, List.drop_eq_nil_of_le (by omega), List.nil_append, scanned]
      congr 1
      omega
  refine ⟨⟨w.historyBase_le, fun hzero => absurd hzero (by simpa using hpos.ne'), ?_, ?_⟩, ⟨rfl, rfl, rfl⟩, rfl⟩
  · show w.purse = replay C world w.blank w.firstScanned
      ((under ++ w.hashes).drop (w.firstScanned - w.historyBase))
    rw [hscanned]
    exact hm.money
  · show (under ++ w.hashes).drop (w.firstScanned - w.historyBase) = [] ∨ ∃ chain ids,
      HonestChain C world w.genesis chain ids ∧
        (under ++ w.hashes).drop (w.firstScanned - w.historyBase) = (ids.drop w.firstScanned).take
          ((under ++ w.hashes).drop (w.firstScanned - w.historyBase)).length
    rw [hscanned]
    exact hm.follows

/-- The end of filling in: the wallet scans on above what was put under it, or starts over. -/
theorem Mirrors.joinFill {w : WalletState} (hfinds : Finds C w.keys image) (hm : w.Mirrors C world)
    {target : Nat} (htarget : w.fillTarget = some target) {gathered : List Hash256}
    {atTarget : Option Hash256} (hle : w.historyBase + gathered.length ≤ target)
    (hat : atTarget.isSome → w.historyBase + gathered.length = target) (summary : RefreshSummary) :
    Goes C world w (w.joinFill gathered (atTarget.isSome || decide (w.historyBase + gathered.length ≥ target))
      atTarget summary).2 := by
  obtain ⟨hlt, haim⟩ := fillTarget_cases htarget hm.start
  have hstart := hm.start
  have hpos : 0 < w.refreshFromHeight := by
    rcases haim with ⟨-, rfl⟩ | ⟨-, rfl⟩
    · omega
    · omega
  unfold WalletState.joinFill
  simp only
  split
  · rename_i hnil
    have hr : target = w.refreshFromHeight := by
      rcases haim with ⟨-, hr⟩ | ⟨hne, -⟩
      · exact hr
      · exact absurd hnil hne
    exact hm.join hpos _ (.inl ⟨hnil, by omega⟩)
  · rename_i first rest hheld
    have hs : target = w.startHeight := by
      rcases haim with ⟨hnil, -⟩ | ⟨-, hs⟩
      · rw [hheld] at hnil
        cases hnil
      · exact hs
    split
    · exact hm.goes
    rename_i hreached
    have hlen : w.historyBase + gathered.length = w.startHeight := by
      rw [Bool.not_eq_true', Bool.not_eq_false, Bool.or_eq_true, decide_eq_true_eq] at hreached
      rcases hreached with hsome | hge
      · rw [hat hsome, hs]
      · omega
    split
    · cases w.checkReorgDepth (w.scanHeight - w.startHeight) with
      | error e => exact hm.goes
      | ok _ =>
          obtain ⟨hm₁, hkeys₁⟩ := hm.detach hfinds (h := w.startHeight)
            (fun h => absurd h (by have := Nat.le_max_left w.refreshFromHeight 1; rw [firstScanned]; omega))
            (fun hzero => by omega)
          have hpart := w.chainPart_detach w.startHeight
          have hfill : (w.detach w.startHeight).fill = w.fill :=
            (congrArg (fun v : WalletState => v.fill) hpart :)
          have hbase : (w.detach w.startHeight).historyBase = w.historyBase :=
            (congrArg (fun v : WalletState => v.historyBase) hpart :)
          have hsame : (w.detach w.startHeight).startHeight = w.startHeight :=
            (congrArg (fun v : WalletState => v.startHeight) hpart :)
          have hjoined := hm₁.join (by rw [hkeys₁.refreshFromHeight]; exact hpos) gathered
            (.inr (by rw [hbase, hsame]; exact hlen))
          rw [hbase] at hjoined
          exact Goes.trans ⟨hm₁, hkeys₁, hfill⟩ hjoined
    · exact hm.join hpos _ (.inr hlen)

/-- A call that fills in hashes leaves what the wallet mirrors. -/
theorem Mirrors.fillBelow (source : BlockSource) {w : WalletState} (hfinds : Finds C w.keys image)
    (hm : w.Mirrors C world) (hfilled : w.Filled) {target : Nat} (htarget : w.fillTarget = some target) :
    (w.fillBelow source target).2.Mirrors C world ∧ SameKeys w (w.fillBelow source target).2 ∧
      (w.fillBelow source target).2.Filled ∧
      ((w.fillBelow source target).1 = .ok none → (w.fillBelow source target).2 = { w with fill := [] }) := by
  obtain ⟨hlt, -⟩ := fillTarget_cases htarget hm.start
  have hchanged (fill : List Hash256) : ({ w with fill := fill } : WalletState).Mirrors C world ∧
      SameKeys w { w with fill := fill } :=
    ⟨⟨hm.start, hm.root, hm.money, hm.follows⟩, ⟨rfl, rfl, rfl⟩⟩
  have hgathering : w.historyBase + w.gathering.length ≤ target := by
    unfold gathering
    split
    · rw [List.length_singleton]
      omega
    · rename_i hne
      rcases hfilled with hnil | ⟨target', htarget', hle⟩
      · rw [hnil] at hne
        exact absurd rfl hne
      · rw [htarget, Option.some.injEq] at htarget'
        rwa [htarget']
  unfold WalletState.fillBelow
  simp only
  rw [show (if w.fill.isEmpty = true then [w.fillStart] else w.fill) = w.gathering from rfl]
  split
  · exact ⟨(hchanged _).1, (hchanged _).2, .inr ⟨target, htarget, hgathering⟩, fun h => by cases h⟩
  · exact ⟨(hchanged _).1, (hchanged _).2, .inl rfl, fun _ => rfl⟩
  · rename_i listed _
    split
    · exact ⟨(hchanged _).1, (hchanged _).2, .inl rfl, fun h => by cases h⟩
    rename_i hrange
    split
    · exact ⟨(hchanged _).1, (hchanged _).2, .inl rfl, fun h => by cases h⟩
    · rename_i gathered atTarget hgather
      obtain ⟨hle, hat⟩ := length_gatherHashes listed.startHeight listed.hashes w.gathering (by omega)
        (by omega) hgathering hgather
      split
      · exact ⟨(hchanged _).1, (hchanged _).2, .inr ⟨target, htarget, hle⟩, fun h => by cases h⟩
      · have hjoin : Goes C world { w with fill := [] } (WalletState.joinFill { w with fill := [] } gathered
            (atTarget.isSome || decide (w.historyBase + gathered.length ≥ target)) atTarget
            { currentHeight := listed.currentHeight }).2 :=
          Mirrors.joinFill (w := { w with fill := [] }) hfinds (hchanged []).1 htarget hle hat _
        generalize WalletState.joinFill { w with fill := [] } gathered
          (atTarget.isSome || decide (w.historyBase + gathered.length ≥ target)) atTarget
          { currentHeight := listed.currentHeight } = r at hjoin
        obtain ⟨result, w'⟩ := r
        have hsame : SameKeys w w' := (hchanged []).2.trans hjoin.same
        cases result with
        | error e => exact ⟨hjoin.mirrors, hsame, .inl hjoin.fill, fun h => by cases h⟩
        | ok summary => exact ⟨hjoin.mirrors, hsame, .inl hjoin.fill, fun h => by cases h⟩

/-- No call for blocks goes out while hashes are being filled in. -/
def Asking (w : WalletState) (source : BlockSource) : Prop :=
  ∀ target, w.fillTarget = some target → (w.fillBelow source target).1 = .ok none

/-- Where the reply of a source on this chain parts from what the wallet holds, no block the wallet
    gives up has replaced an output of a block it keeps. -/
def Undoable (C : Crypto) (world : Hash256 → SeenBlock) (w : WalletState) (source : BlockSource)
    (ids : List Hash256) : Prop :=
  w.Asking source → ∀ batch, w.reply source = .ok batch →
    ∀ h ∈ splitsFrom w.startHeight w.hashes batch.startHeight
      ((ids.drop batch.startHeight).take batch.blocks.length), w.Spares C world h

/-- One call to an honest source. -/
theorem Mirrors.refreshOnce {source : BlockSource} {chain : List BlockBundle} {ids : List Hash256}
    {w : WalletState} (hfinds : Finds C w.keys image) (hm : w.Mirrors C world) (hfilled : w.Filled)
    (hsource : Honest C world w.genesis source chain ids) (hundo : w.Undoable C world source ids) :
    (w.refreshOnce C source).2.Mirrors C world ∧ SameKeys w (w.refreshOnce C source).2 ∧
      (w.refreshOnce C source).2.Filled := by
  unfold WalletState.refreshOnce
  cases htarget : w.fillTarget with
  | none =>
      have hnone : w.fill = [] := by
        rcases hfilled with hnil | ⟨target, htarget', -⟩
        · exact hnil
        · rw [htarget] at htarget'
          cases htarget'
      have hgoes := hm.refreshBlocks hfinds hsource
        (hundo fun target h => by rw [htarget] at h; cases h)
      exact ⟨hgoes.mirrors, hgoes.same, .inl (hgoes.fill.trans hnone)⟩
  | some target =>
      simp only
      obtain ⟨hm₁, hkeys₁, hfilled₁, hempty⟩ := hm.fillBelow source hfinds hfilled htarget
      rcases hresult : w.fillBelow source target with ⟨result, w'⟩
      rw [hresult] at hm₁ hkeys₁ hfilled₁ hempty
      cases result with
      | error e => exact ⟨hm₁, hkeys₁, hfilled₁⟩
      | ok filled =>
          cases filled with
          | some summary => exact ⟨hm₁, hkeys₁, hfilled₁⟩
          | none =>
              obtain rfl : w' = { w with fill := [] } := hempty rfl
              have hasking : w.Asking source := by
                intro target' htarget'
                rw [htarget, Option.some.injEq] at htarget'
                rw [← htarget', hresult]
              have hgoes := Mirrors.refreshBlocks (w := { w with fill := [] }) hfinds hm₁ hsource
                (hundo hasking)
              exact ⟨hgoes.mirrors, hkeys₁.trans hgoes.same, .inl hgoes.fill⟩

/-! ### Call after call -/

/-- One call to each of these sources. -/
def refreshes (C : Crypto) : List BlockSource → WalletState → WalletState
  | [], w => w
  | source :: sources, w => refreshes C sources (w.refreshOnce C source).2

/-- Every source is honest about some chain, and no reorganisation takes back the replacement of an
    output it keeps. -/
def AlongHonest (C : Crypto) (world : Hash256 → SeenBlock) : List BlockSource → WalletState → Prop
  | [], _ => True
  | source :: sources, w =>
      (∃ chain ids, Honest C world w.genesis source chain ids ∧ w.Undoable C world source ids) ∧
        AlongHonest C world sources (w.refreshOnce C source).2

theorem Mirrors.refreshes {sources : List BlockSource} {w : WalletState} (hfinds : Finds C w.keys image)
    (hm : w.Mirrors C world) (hfilled : w.Filled) (halong : AlongHonest C world sources w) :
    (w.refreshes C sources).Mirrors C world ∧ SameKeys w (w.refreshes C sources) := by
  induction sources generalizing w with
  | nil => exact ⟨hm, ⟨rfl, rfl, rfl⟩⟩
  | cons source sources ih =>
      obtain ⟨⟨chain, ids, hsource, hundo⟩, hrest⟩ := halong
      obtain ⟨hm', hkeys, hfilled'⟩ := hm.refreshOnce hfinds hfilled hsource hundo
      have hsame : (w.refreshOnce C source).2.keys = w.keys :=
        (congrArg (fun v : WalletState => v.keys) hkeys.blank :)
      obtain ⟨hm'', hkeys'⟩ := ih (by rwa [hsame]) hm' hfilled' hrest
      exact ⟨hm'', hkeys.trans hkeys'⟩

/-! ### A wallet that scans a chain once -/

section

variable {account : AccountKeys} {subaddresses : SubaddressTable} {startHeight : Nat}
  {checkpoint : Option (Nat × Hash256)}

/-- A new wallet that scanned this chain from its start height on, once. -/
def scannedOnce (C : Crypto) (account : AccountKeys) (subaddresses : SubaddressTable) (startHeight : Nat)
    (genesis : Hash256) (checkpoint : Option (Nat × Hash256)) (chain : List BlockBundle) : WalletState :=
  (processBlocks C startHeight (chain.drop startHeight)
    (.new account subaddresses startHeight genesis checkpoint) {}).2

theorem scanned_new : (WalletState.new account subaddresses startHeight genesis checkpoint).scanned = [] := by
  show (if startHeight = 0 then [genesis] else []).drop (max startHeight 1 - startHeight) = []
  by_cases hzero : startHeight = 0
  · subst hzero
    rfl
  · rw [if_neg hzero, List.drop_nil]

theorem mirrors_new :
    (WalletState.new account subaddresses startHeight genesis checkpoint).Mirrors C world := by
  refine ⟨Nat.le_refl _, ?_, ?_, .inl scanned_new⟩
  · intro hzero
    replace hzero : startHeight = 0 := hzero
    show (if startHeight = 0 then [genesis] else []).head? = some genesis
    rw [if_pos hzero]
    rfl
  · rw [scanned_new]
    rfl

/-- It has the hashes of the chain. -/
theorem hashes_scannedOnce {chain : List BlockBundle} {ids : List Hash256}
    (hchain : HonestChain C world genesis chain ids) :
    (scannedOnce C account subaddresses startHeight genesis checkpoint chain).hashes = ids.drop startHeight ∧
      (scannedOnce C account subaddresses startHeight genesis checkpoint chain).startHeight =
        startHeight := by
  have hlen := hchain.chained.length_eq
  unfold scannedOnce
  by_cases hshort : chain.length < startHeight
  · rw [List.drop_eq_nil_of_le (by omega), processBlocks, List.drop_eq_nil_of_le (by omega)]
    refine ⟨?_, rfl⟩
    show (if startHeight = 0 then [genesis] else []) = []
    rw [if_neg (by omega)]
  · -- The wallet splits from the chain where it ends.
    obtain ⟨f, hf, hsplit⟩ : ∃ f, f = (WalletState.new account subaddresses startHeight genesis
        checkpoint).scanHeight ∧ (WalletState.new account subaddresses startHeight genesis
        checkpoint).SplitsAt ids f := by
      refine ⟨_, rfl, splitsAt_of_hashes (Nat.le_add_right _ _) ?_ ?_⟩
      · show startHeight + (if startHeight = 0 then [genesis] else []).length ≤ max ids.length startHeight
        have hne : ids ≠ [] := by
          intro hnil
          have := hchain.root
          rw [hnil] at this
          cases this
        have := List.length_pos_iff.mpr hne
        split
        · rw [List.length_singleton]
          omega
        · exact Nat.le_max_right _ _
      · show (if startHeight = 0 then [genesis] else []) = (ids.drop startHeight).take
          (startHeight + (if startHeight = 0 then [genesis] else []).length - startHeight)
        by_cases hzero : startHeight = 0
        · subst hzero
          have hroot := hchain.root
          cases ids with
          | nil => cases hroot
          | cons id ids =>
              rw [List.head?_cons, Option.some.injEq] at hroot
              rw [hroot]
              rfl
        · rw [if_neg hzero]
          simp
    obtain ⟨summary, w, hok, hkept, hnew⟩ := processBlocks_served hchain.chained startHeight
      (chain.length - startHeight) hsplit rfl (Nat.le_refl _) hsplit.low (by omega) {}
    rw [List.take_of_length_le (by rw [List.length_drop])] at hok
    rw [hok]
    by_cases hend : startHeight + (chain.length - startHeight) ≤ f
    · obtain ⟨-, rfl⟩ := hkept hend
      refine ⟨?_, rfl⟩
      have htake := hsplit.take_eq
      rw [List.take_of_length_le, List.take_of_length_le] at htake
      · exact htake
      · show (ids.drop startHeight).length ≤ f - startHeight
        rw [List.length_drop]
        omega
      · rw [hf]
        exact Nat.le_sub_of_add_le (by rw [Nat.add_comm]; exact Nat.le_refl _)
    · obtain ⟨hframe, -⟩ := hnew (by omega)
      refine ⟨?_, (congrArg (fun v : WalletState => v.startHeight) hframe :)⟩
      have hhashes : w.hashes = (ids.drop startHeight).take
          (startHeight + (chain.length - startHeight) - startHeight) :=
        (congrArg (fun v : WalletState => v.hashes) hframe :)
      rw [hhashes, List.take_of_length_le]
      rw [List.length_drop]
      omega

theorem mirrors_scannedOnce (hfinds : Finds C (WalletState.new account subaddresses startHeight genesis
      checkpoint).keys image) {chain : List BlockBundle} {ids : List Hash256}
    (hchain : HonestChain C world genesis chain ids) :
    Goes C world (WalletState.new account subaddresses startHeight genesis checkpoint)
      (scannedOnce C account subaddresses startHeight genesis checkpoint chain) := by
  have hgoes := Mirrors.processBlocks (chain.length - startHeight) startHeight hfinds
    (mirrors_new : (WalletState.new account subaddresses startHeight genesis checkpoint).Mirrors C world)
    hchain (Nat.le_add_right _ _) ?_ {}
  · rwa [List.take_of_length_le (by rw [List.length_drop])] at hgoes
  · intro h _
    unfold Spares
    rw [scanned_new]
    trivial

/-- Whatever a wallet was told on the way, once it has the hashes of a chain it holds what a new
    wallet finds there in one scan. -/
theorem refreshes_path_independent (hC : C.Curve)
    (hkeys : (WalletState.new account subaddresses startHeight genesis checkpoint).keys.Owned C)
    {sources : List BlockSource}
    (halong : AlongHonest C world sources (.new account subaddresses startHeight genesis checkpoint))
    {chain : List BlockBundle} {ids : List Hash256} (hchain : HonestChain C world genesis chain ids)
    {w : WalletState}
    (hw : w = refreshes C sources (.new account subaddresses startHeight genesis checkpoint))
    (hcaught : w.hashes = ids.drop w.startHeight) {fresh : WalletState}
    (hfresh : fresh = scannedOnce C account subaddresses startHeight genesis checkpoint chain) :
    w.transfers = fresh.transfers ∧ w.balance = fresh.balance ∧ w.sent = fresh.sent := by
  have hfinds := finds_imageFor hC hkeys
  obtain ⟨hm, hsame⟩ := Mirrors.refreshes hfinds mirrors_new (.inl rfl) halong
  rw [← hw] at hm hsame
  have hfreshGoes := mirrors_scannedOnce hfinds hchain
  have hscanned : fresh.hashes = ids.drop startHeight ∧ fresh.startHeight = startHeight := by
    rw [hfresh]
    exact hashes_scannedOnce hchain
  obtain ⟨hhashes, hstart⟩ := hscanned
  rw [← hfresh] at hfreshGoes
  have hpurse {v : WalletState} (hm : v.Mirrors C world)
      (hv : SameKeys (.new account subaddresses startHeight genesis checkpoint) v)
      (hhashes : v.hashes = ids.drop v.startHeight) :
      v.purse = replay C world (WalletState.new account subaddresses startHeight genesis checkpoint).blank
        (max startHeight 1) (ids.drop (max startHeight 1)) := by
    have hfirst : v.firstScanned = max startHeight 1 := by
      rw [firstScanned, hv.refreshFromHeight]
      rfl
    have hle : v.startHeight ≤ max startHeight 1 := by
      rw [← hfirst]
      exact hm.start.trans (Nat.le_max_left _ _)
    rw [hm.money, hv.blank, scanned, hhashes, List.drop_drop, hfirst]
    congr 2
    omega
  have hone : w.purse = fresh.purse := by
    rw [hpurse hm hsame hcaught, hpurse hfreshGoes.mirrors hfreshGoes.same (by rw [hhashes, hstart])]
  refine ⟨?_, ?_, ?_⟩
  · exact (congrArg (fun v : WalletState => v.transfers) hone :)
  · exact (congrArg (fun v : WalletState => v.balance) hone :)
  · exact (congrArg (fun v : WalletState => v.sent) hone :)

end

end WalletState

/-! ### A replacement taken back -/

namespace Sample

/-- The curve of the samples, with a hash of few values. -/
def counted : Crypto := { grid with cnFastHash := tally }

theorem counted_curve : counted.Curve :=
  ⟨⟨grid_encodes.ell_pos, grid_encodes.ell_le, grid_encodes.encode_injective, grid_encodes.base_ne_zero⟩,
    grid_curve.decode_encode, grid_curve.order⟩

/-- The key of the first output to the sample wallet of a transaction under the base point. -/
def paidKey : PublicKey := (counted.derivePublicKey walletDerivation 0 10).getD 0

/-- A coinbase that pays the wallet. -/
def mint (height amount : Nat) : Transaction :=
  let p : TransactionPrefix :=
    ⟨2, 0, [.gen height], [⟨amount, .toKey paidKey⟩], serializeTxExtra [.pubkey 5] true⟩
  { txPrefix := p, prefixSize := p.write.length, unprunableSize := p.write.length + 1 }

def blockOn (height : Nat) (parent : Hash256) (tx : Transaction) : Block :=
  { header := ⟨11, 11, 300 * height, parent, 0, Signature.zero, 0⟩, minerTx := tx }

/-- Genesis, a block that pays the wallet three, and two above it: one that pays the same key four,
    and one that pays nobody. -/
def tree : List (Hash256 × Block) :=
  [(15188, blockOn 0 nullHash (coinbase 0 0 [])), (4401, blockOn 1 15188 (mint 1 3)),
    (47439, blockOn 2 4401 (mint 2 4)), (46494, blockOn 2 4401 (coinbase 2 0 []))]

def blocksAt (ids : List Hash256) : List Block := ids.filterMap fun id => tree.lookup id

def forest (id : Hash256) : SeenBlock :=
  match tree.lookup id with
  | some b => BlockBundle.seen counted ⟨b.toBlob, [], [], false⟩ b
  | none => ⟨0, 0, []⟩

def burningIds : List Hash256 := [15188, 4401, 47439]

def idleIds : List Hash256 := [15188, 4401, 46494]

/-- A node on such a chain. -/
def treeNode (ids : List Hash256) : BlockSource := nodeOn (blocksAt ids) ids

def newWallet : WalletState := .new account ⟨[(10, .main)], [1]⟩ 0 15188 none

theorem honest_treeNode {ids : List Hash256}
    (hblocks : (ids.map fun id => tree.lookup id) = (blocksAt ids).map some)
    (hnamed : (blocksAt ids).map (·.blockId tally) = ids.map some)
    (hparse : (blocksAt ids).map (fun b => Block.fromBlob b.toBlob) = (blocksAt ids).map .ok)
    (hempty : ∀ b ∈ blocksAt ids, b.txHashes = [])
    (hlinks : (blocksAt ids).tail.map (·.header.prevId) = ids.dropLast) (hnodup : ids.Nodup)
    (hroot : ids.head? = some 15188) (honce : (ids.flatMap fun id => (forest id).spendingIds) = []) :
    Honest counted forest 15188 (treeNode ids) (bundlesOf (blocksAt ids)) ids := by
  have hserves : Serves counted (treeNode ids) (bundlesOf (blocksAt ids)) ids none :=
    nodeOn_serves hnamed hparse hempty hlinks hnodup
  refine ⟨⟨hserves.chained, ?_, hroot, by rw [honce]; exact List.nodup_nil⟩, ?_⟩
  · intro h bundle block id hget hid hread
    rw [bundlesOf, List.getElem?_map, Option.map_eq_some_iff] at hget
    obtain ⟨b, hb, rfl⟩ := hget
    have hlook : tree.lookup id = some b := by
      have := congrArg (·[h]?) hblocks
      simp only [List.getElem?_map, hid, hb, Option.map_some, Option.some.injEq] at this
      exact this
    have hsame : block = b := by
      have := congrArg (·[h]?) hparse
      simp only [List.getElem?_map, hb, Option.map_some, Option.some.injEq] at this
      exact Except.ok.inj (hread.parsed.symm.trans this)
    rw [forest, hlook, hsame]
  · intro history start most batch hreply
    rw [hserves.blocks] at hreply
    cases hreply
    exact ⟨most, rfl⟩

/-- The two chains of the tree are what a node on them says they are. -/
theorem treeNode_chains : ∀ ids ∈ [burningIds, idleIds],
    (ids.map fun id => tree.lookup id) = (blocksAt ids).map some ∧
      (blocksAt ids).map (·.blockId tally) = ids.map some ∧
      (blocksAt ids).map (fun b => Block.fromBlob b.toBlob) = (blocksAt ids).map .ok ∧
      (∀ b ∈ blocksAt ids, b.txHashes = []) ∧
      (blocksAt ids).tail.map (·.header.prevId) = ids.dropLast ∧ ids.Nodup ∧
      ids.head? = some 15188 ∧ (ids.flatMap fun id => (forest id).spendingIds) = [] := by
  decide +kernel

/-- What the wallet has after one refresh, and after a second one on the other chain. -/
theorem newWallet_refreshed :
    ((newWallet.refreshOnce counted (treeNode idleIds)).2.genesis = 15188 ∧
      (newWallet.refreshOnce counted (treeNode idleIds)).2.scanned = [4401, 46494] ∧
      (newWallet.refreshOnce counted (treeNode idleIds)).2.firstScanned = 1 ∧
      (newWallet.refreshOnce counted (treeNode idleIds)).2.blank = newWallet.blank) ∧
    (newWallet.blank.replacedIn counted 1 (forest 4401).timestamp
      ((forest 4401).txs.headD ⟨coinbase 0 0 [], 0, []⟩) = [] ∧
      (newWallet.blank.scanSeen counted 1 (forest 4401)).replacedIn counted 2
        (forest 46494).timestamp ((forest 46494).txs.headD ⟨coinbase 0 0 [], 0, []⟩) = []) ∧
    (newWallet.refreshes counted [treeNode burningIds, treeNode idleIds]).hashes = idleIds ∧
    (newWallet.refreshes counted [treeNode burningIds, treeNode idleIds]).balance = 0 ∧
    (WalletState.scannedOnce counted account ⟨[(10, .main)], [1]⟩ 0 15188 none
      (bundlesOf (blocksAt idleIds))).balance = 3 := by
  decide +kernel

theorem honest_burning :
    Honest counted forest 15188 (treeNode burningIds) (bundlesOf (blocksAt burningIds))
      burningIds := by
  obtain ⟨hblocks, hnamed, hparse, hempty, hlinks, hnodup, hroot, honce⟩ :=
    treeNode_chains burningIds (by simp)
  exact honest_treeNode hblocks hnamed hparse hempty hlinks hnodup hroot honce

theorem honest_idle :
    Honest counted forest 15188 (treeNode idleIds) (bundlesOf (blocksAt idleIds)) idleIds := by
  obtain ⟨hblocks, hnamed, hparse, hempty, hlinks, hnodup, hroot, honce⟩ :=
    treeNode_chains idleIds (by simp)
  exact honest_treeNode hblocks hnamed hparse hempty hlinks hnodup hroot honce

/-- The larger output replaces the smaller, and goes when its block does: the wallet holds nothing on
    a chain that pays it three. -/
theorem replaced_output_lost :
    Honest counted forest 15188 (treeNode burningIds) (bundlesOf (blocksAt burningIds)) burningIds ∧
    Honest counted forest 15188 (treeNode idleIds) (bundlesOf (blocksAt idleIds)) idleIds ∧
    (newWallet.refreshes counted [treeNode burningIds, treeNode idleIds]).hashes = idleIds ∧
    (newWallet.refreshes counted [treeNode burningIds, treeNode idleIds]).balance = 0 ∧
    (WalletState.scannedOnce counted account ⟨[(10, .main)], [1]⟩ 0 15188 none
      (bundlesOf (blocksAt idleIds))).balance = 3 :=
  ⟨honest_burning, honest_idle, newWallet_refreshed.2.2⟩

/-- The other way round the block taken back replaced nothing. -/
theorem newWallet_alongHonest :
    WalletState.AlongHonest counted forest [treeNode idleIds, treeNode burningIds] newWallet := by
  obtain ⟨⟨hgenesis, hscanned, hfirst, hblank⟩, ⟨hpaid, hidle⟩, -⟩ := newWallet_refreshed
  refine ⟨⟨_, _, honest_idle, ?_⟩, ⟨bundlesOf (blocksAt burningIds), burningIds, ?_, ?_⟩, trivial⟩
  · rintro - batch - h -
    unfold WalletState.Spares newWallet
    rw [WalletState.scanned_new]
    trivial
  · rw [hgenesis]
    exact honest_burning
  · rintro - batch - h -
    unfold WalletState.Spares
    rw [hscanned, hfirst, hblank]
    refine ⟨fun _ => ⟨?_, trivial⟩, fun _ => ⟨?_, trivial⟩, trivial⟩
    · exact fun a ha => absurd (hpaid ▸ ha) List.not_mem_nil
    · exact fun a ha => absurd (hidle ▸ ha) List.not_mem_nil

theorem newWallet_owned : newWallet.keys.Owned counted where
  spend b hb := by
    have hkey : newWallet.keys.spendSecretKey = some (Crypto.scalarBytes 2) := by decide
    rw [hkey, Option.some.injEq] at hb
    exact ⟨2, by rw [← hb]; decide, by decide⟩
  table := by
    intro row hrow
    obtain rfl : row = (10, .main) := List.mem_singleton.mp hrow
    exact ⟨⟨10, 5⟩, by decide, rfl⟩

theorem newWallet_path_independent :
    WalletState.AlongHonest counted forest [treeNode idleIds, treeNode burningIds] newWallet ∧
    (newWallet.refreshes counted [treeNode idleIds, treeNode burningIds]).transfers =
      (WalletState.scannedOnce counted account ⟨[(10, .main)], [1]⟩ 0 15188 none
        (bundlesOf (blocksAt burningIds))).transfers :=
  ⟨newWallet_alongHonest,
    (WalletState.refreshes_path_independent counted_curve newWallet_owned newWallet_alongHonest
      honest_burning.honest rfl (by decide +kernel) rfl).1⟩

end Sample

end Wownero

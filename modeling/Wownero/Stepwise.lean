import Wownero.Rollback
/-!
# One step at a time

Whatever a chain does, it does by adding blocks, popping them, reloading the caches and keeping
books beside the main chain.  A property of chains that these four keep is kept by every
operation.  It comes in two parts: one that holds whenever the caches are in step, and a weaker
one that survives between a pop and the reloading that follows it.  A failure of the store may
leave only the weaker part.

The blocks that are added are those handed in, those waiting as alternatives and those just
popped; a property of all blocks handed in, if pops keep it, is one of all blocks added.
-/

namespace Wownero

open Outcome

section

variable {σ : Type} {P : Params σ} {good : Handed → Prop} {M I : Chain σ → Prop}

/-- The property of a block that is known by its bytes. -/
def GoodBytes (good : Handed → Prop) (blob : Blob) (txs : List (Transaction × Blob)) : Prop :=
  ∀ blk, Block.fromBlob blob = .ok blk → good ⟨blk, blob, txs⟩

/-- What steps keep: `I` with the caches in step, `M` between pops. -/
structure Stepwise (P : Params σ) (good : Handed → Prop) (M I : Chain σ → Prop) : Prop where
  weaken : ∀ c, I c → M c
  frame : ∀ c c', c'.db.main = c.db.main → c'.state = c.state → I c → I c'
  frameM : ∀ c c', c'.db.main = c.db.main → M c → M c'
  add : ∀ c b now result c', I c → good b →
    Chain.addBlock P c b.blk b.blob b.txs now = (result, c') → I c'
  pop : ∀ c block txs c', M c → Chain.popBlock P c = .ok ((block, txs), c') →
    M c' ∧ good ⟨block, block.toBlob, txs.map withBlob⟩ ∧
      GoodBytes good block.toBlob (txs.map withBlob)
  reload : ∀ c c', M c → Chain.reloadState P c = (.ok (), c') → I c'
  unlisted : ∀ blk blob txs, good ⟨blk, blob, txs⟩ → blk.txHashes = [] → good ⟨blk, blob, []⟩

/-- The alternative blocks are good, with the transactions that wait for them, or without any if
    they list none. -/
structure Waiting (good : Handed → Prop) (c : Chain σ) : Prop where
  bodies : ∀ id data blob txs, c.db.altBlocks.get id = some (data, blob) →
    c.altTxs.get id = some txs → GoodBytes good blob txs
  empty : ∀ id data blob blk, c.db.altBlocks.get id = some (data, blob) →
    Block.fromBlob blob = .ok blk → blk.txHashes = [] → good ⟨blk, blob, []⟩

theorem Waiting.of_eq {c c' : Chain σ} (h : Waiting good c)
    (hblocks : c'.db.altBlocks = c.db.altBlocks) (htxs : c'.altTxs = c.altTxs) :
    Waiting good c' := by
  constructor
  · intro id data blob txs hget htxs'
    exact h.bodies id data blob txs (hblocks ▸ hget) (htxs ▸ htxs')
  · intro id data blob blk hget
    exact h.empty id data blob blk (hblocks ▸ hget)

theorem Waiting.put (hk : Stepwise P good M I) {c : Chain σ} (h : Waiting good c) {id : Hash256}
    {data : AltBlockData} {blob : Blob} {txs : List (Transaction × Blob)}
    (hgood : GoodBytes good blob txs) :
    Waiting good
      { c with db := c.db.addAltBlock id data blob, altTxs := c.altTxs.put id txs } := by
  constructor
  · intro id' data' blob' txs' hget htxs'
    simp only [Store.addAltBlock, Table.get_put] at hget htxs'
    split_ifs at hget htxs' with hid
    · cases hget
      cases htxs'
      exact hgood
    · exact h.bodies id' data' blob' txs' hget htxs'
  · intro id' data' blob' blk hget hparse hempty
    simp only [Store.addAltBlock, Table.get_put] at hget
    split_ifs at hget with hid
    · cases hget
      exact hk.unlisted _ _ _ (hgood blk hparse) hempty
    · exact h.empty id' data' blob' blk hget hparse hempty

theorem Waiting.removeAlts {c : Chain σ} (h : Waiting good c) (links : List AltLink) :
    Waiting good (c.removeAlts links) := by
  constructor
  · intro id data blob txs hget htxs
    obtain ⟨h₁, h₂⟩ := removeAlts_get links c id
    rw [h₁] at hget
    rw [h₂] at htxs
    split_ifs at hget htxs
    exact h.bodies id data blob txs hget htxs
  · intro id data blob blk hget
    rw [(removeAlts_get links c id).1] at hget
    split_ifs at hget
    exact h.empty id data blob blk hget

/-! ### Pops -/

/-- What a switch keeps of a block it popped. -/
def GoodPopped (good : Handed → Prop) (p : Popped) : Prop :=
  good ⟨p.block, p.block.toBlob, p.txs⟩ ∧ GoodBytes good p.block.toBlob p.txs

theorem Waiting.keepPopped (hk : Stepwise P good M I) {c : Chain σ} (h : Waiting good c)
    {popped : List Popped} (hpopped : ∀ p ∈ popped, GoodPopped good p) :
    Waiting good (c.keepPopped popped) := by
  unfold Chain.keepPopped
  induction popped generalizing c with
  | nil => exact h
  | cons p popped ih =>
      obtain ⟨hp, hrest⟩ := List.forall_mem_cons.mp hpopped
      exact ih (h.put hk hp.2) hrest

/-- How a loop of pops ends: in `M`, with a failure of the store if with any. -/
structure PopsEnd (M : Chain σ → Prop) (good : Handed → Prop) {α : Type}
    (out : Except Rejection α × Chain σ) : Prop where
  mid : M out.2
  waiting : Waiting good out.2
  failure : ∀ r, out.1 = .error r → r.error.isStorage = true

theorem popBlock_waiting {c c' : Chain σ} {popped : Block × List Transaction}
    (h : Waiting good c) (hpop : Chain.popBlock P c = .ok (popped, c')) : Waiting good c' := by
  obtain ⟨_, _, halt, htxs, _⟩ := popBlock_ok hpop
  exact h.of_eq halt htxs

theorem popMany_stepwise (hk : Stepwise P good M I) (n : Nat) {c : Chain σ} (hm : M c)
    (hw : Waiting good c) : PopsEnd M good (Chain.popMany P n c) := by
  induction n generalizing c with
  | zero => exact ⟨hm, hw, nofun⟩
  | succ n ih =>
      unfold Chain.popMany
      cases hpop : Chain.popBlock P c with
      | error r =>
          refine ⟨hm, hw, ?_⟩
          intro r' hr'
          cases hr'
          exact popBlock_error hpop
      | ok out =>
          obtain ⟨⟨block, txs⟩, c₁⟩ := out
          have hm₁ := (hk.pop c block txs c₁ hm hpop).1
          refine ih (hk.frameM c₁ _ rfl hm₁) ?_
          exact (popBlock_waiting hw hpop).of_eq rfl rfl

theorem popTo_stepwise (hk : Stepwise P good M I) (split fuel : Nat) {c : Chain σ} (hm : M c)
    (hw : Waiting good c) {acc : List Popped} (hacc : ∀ p ∈ acc, GoodPopped good p) :
    PopsEnd M good (Chain.popTo P split fuel c acc) ∧
      ∀ popped, (Chain.popTo P split fuel c acc).1 = .ok popped →
        ∀ p ∈ popped, GoodPopped good p := by
  induction fuel generalizing c acc with
  | zero =>
      refine ⟨⟨hm, hw, fun _ h => by cases h⟩, ?_⟩
      intro popped hout
      cases hout
      exact hacc
  | succ fuel ih =>
      unfold Chain.popTo
      split_ifs
      · cases hinfo : c.db.main.getBlockInfo (c.height - 1) with
        | error e =>
            refine ⟨⟨hm, hw, ?_⟩, fun _ h => by cases h⟩
            intro r hr
            cases hr
            rfl
        | ok info =>
            simp only
            cases hpop : Chain.popBlock P c with
            | error r =>
                refine ⟨⟨hm, hw, ?_⟩, fun _ h => by cases h⟩
                intro r' hr'
                cases hr'
                exact popBlock_error hpop
            | ok out =>
                obtain ⟨⟨block, txs⟩, c₁⟩ := out
                obtain ⟨hm₁, hgood⟩ := hk.pop c block txs c₁ hm hpop
                refine ih hm₁ (popBlock_waiting hw hpop) ?_
                exact List.forall_mem_cons.mpr ⟨hgood, hacc⟩
      · refine ⟨⟨hm, hw, fun _ h => by cases h⟩, ?_⟩
        intro popped hout
        cases hout
        exact hacc

theorem dropBlocks_stepwise (hk : Stepwise P good M I) (n : Nat) {c : Chain σ} (hm : M c)
    (hw : Waiting good c) : PopsEnd M good (Chain.dropBlocks P n c) := by
  induction n generalizing c with
  | zero => exact ⟨hm, hw, nofun⟩
  | succ n ih =>
      unfold Chain.dropBlocks
      cases hpop : Chain.popBlock P c with
      | error r =>
          refine ⟨hm, hw, ?_⟩
          intro r' hr'
          cases hr'
          exact popBlock_error hpop
      | ok out =>
          obtain ⟨⟨block, txs⟩, c₁⟩ := out
          exact ih (hk.pop c block txs c₁ hm hpop).1 (popBlock_waiting hw hpop)

/-! ### Blocks -/

theorem addBlock_stepwise (hk : Stepwise P good M I) {c : Chain σ} (hi : I c)
    (hw : Waiting good c) {b : Handed} (hb : good b) (now : Nat) :
    I (Chain.addBlock P c b.blk b.blob b.txs now).2 ∧
      Waiting good (Chain.addBlock P c b.blk b.blob b.txs now).2 := by
  cases hout : Chain.addBlock P c b.blk b.blob b.txs now with
  | mk result c' =>
      refine ⟨hk.add c b now result c' hi hb hout, ?_⟩
      cases result with
      | ok added =>
          obtain ⟨_, fees, reward, v, haccepted⟩ := addBlock_ok hout
          exact hw.of_eq haccepted.altBlocks haccepted.altTxs
      | error r =>
          obtain ⟨v, rfl⟩ := addBlock_error hout
          exact hw.of_eq rfl rfl

theorem applyAlt_stepwise (hk : Stepwise P good M I) (now : Nat)
    {blocks : List (AltLink × List (Transaction × Blob))}
    (hblocks : ∀ p ∈ blocks, good ⟨p.1.block, p.1.blob, p.2⟩) (i : Nat) {c : Chain σ} (hi : I c)
    (hw : Waiting good c) :
    I (Chain.applyAlt P now i blocks c).2 ∧ Waiting good (Chain.applyAlt P now i blocks c).2 := by
  induction blocks generalizing i c with
  | nil => exact ⟨hi, hw⟩
  | cons p blocks ih =>
      obtain ⟨link, txs⟩ := p
      obtain ⟨hb, hrest⟩ := List.forall_mem_cons.mp hblocks
      obtain ⟨hi₁, hw₁⟩ := addBlock_stepwise hk hi hw hb now
      unfold Chain.applyAlt
      cases hout : Chain.addBlock P c link.block link.blob txs now with
      | mk result c₁ =>
          simp only [hout] at hi₁ hw₁
          cases result with
          | ok added => exact ih hrest (i + 1) hi₁ hw₁
          | error r => exact ⟨hi₁, hw₁⟩

theorem putBack_stepwise (hk : Stepwise P good M I) (now : Nat) {popped : List Popped}
    (hpopped : ∀ p ∈ popped, GoodPopped good p) {c : Chain σ} (hi : I c) (hw : Waiting good c) :
    I (Chain.putBack P now popped c).2 ∧ Waiting good (Chain.putBack P now popped c).2 := by
  induction popped generalizing c with
  | nil => exact ⟨hi, hw⟩
  | cons p popped ih =>
      obtain ⟨hp, hrest⟩ := List.forall_mem_cons.mp hpopped
      obtain ⟨hi₁, hw₁⟩ := addBlock_stepwise hk hi hw hp.1 now
      unfold Chain.putBack
      cases hout : Chain.addBlock P c p.block p.block.toBlob p.txs now with
      | mk result c₁ =>
          simp only [hout] at hi₁ hw₁
          cases result with
          | ok added => exact ih hrest hi₁ hw₁
          | error r => exact ⟨hi₁, hw₁⟩

/-! ### Whole operations -/

/-- How an operation ends: in `I`, or with a failure of the store and in `M`. -/
structure StepsEnd (M I : Chain σ → Prop) (good : Handed → Prop) {α : Type}
    (out : Except Rejection α × Chain σ) : Prop where
  ends : I out.2 ∨ (M out.2 ∧ ∃ r, out.1 = .error r ∧ r.error.isStorage = true)
  waiting : Waiting good out.2

theorem StepsEnd.of_in {α : Type} {result : Except Rejection α} {c : Chain σ} (hi : I c)
    (hw : Waiting good c) : StepsEnd M I good (result, c) := ⟨Or.inl hi, hw⟩

theorem PopsEnd.stepsEnd {α β : Type} {out : Except Rejection α × Chain σ} {r : Rejection}
    (h : PopsEnd M good out) (hr : out.1 = .error r) :
    StepsEnd M I good ((.error r, out.2) : Except Rejection β × Chain σ) :=
  ⟨Or.inr ⟨h.mid, r, rfl, h.failure r hr⟩, h.waiting⟩

/-- Reloading after pops leads back to `I`, or fails for the store. -/
theorem reloadState_stepwise (hk : Stepwise P good M I) {c : Chain σ} (hm : M c)
    (hw : Waiting good c) :
    (∃ c', Chain.reloadState P c = (.ok (), c') ∧ I c' ∧ Waiting good c') ∨
      ∃ r, Chain.reloadState P c = (.error r, c) ∧ r.error.isStorage = true := by
  cases hload : loadState P c.db.main with
  | error e => exact Or.inr ⟨_, by rw [Chain.reloadState, hload], rfl⟩
  | ok state =>
      have hreload : Chain.reloadState P c = (.ok (), { c with state := state }) := by
        rw [Chain.reloadState, hload]
      exact Or.inl ⟨_, hreload, hk.reload c _ hm hreload, hw.of_eq rfl rfl⟩

theorem popBlocks_stepwise (hk : Stepwise P good M I) {c : Chain σ} (hi : I c)
    (hw : Waiting good c) (n : Nat) : StepsEnd M I good (Chain.popBlocks P c n) := by
  unfold Chain.popBlocks
  have hpops := popMany_stepwise hk (min n (c.height - 1)) (hk.weaken c hi) hw
  dsimp only
  cases hmany : Chain.popMany P (min n (c.height - 1)) c with
  | mk result c₁ =>
      rw [hmany] at hpops
      cases result with
      | error r => exact hpops.stepsEnd rfl
      | ok u =>
          rcases reloadState_stepwise hk hpops.mid hpops.waiting with
            ⟨c₂, hreload, hi₂, hw₂⟩ | ⟨r, hreload, hr⟩
          · simp only [hreload]
            exact .of_in hi₂ hw₂
          · simp only [hreload]
            exact ⟨Or.inr ⟨hpops.mid, r, rfl, hr⟩, hpops.waiting⟩

theorem restore_stepwise (hk : Stepwise P good M I) (now applied : Nat) (chain : List AltLink)
    {popped : List Popped} (hpopped : ∀ p ∈ popped, GoodPopped good p) (rejected : Rejection)
    {c : Chain σ} (hm : M c) (hw : Waiting good c) :
    StepsEnd M I good (Chain.restore P now applied chain popped rejected c) := by
  unfold Chain.restore
  have hpops := dropBlocks_stepwise hk applied hm hw
  cases hdrop : Chain.dropBlocks P applied c with
  | mk result c₁ =>
      rw [hdrop] at hpops
      cases result with
      | error r => exact hpops.stepsEnd rfl
      | ok u =>
          rcases reloadState_stepwise hk hpops.mid hpops.waiting with
            ⟨c₂, hreload, hi₂, hw₂⟩ | ⟨r, hreload, hr⟩
          · simp only [hreload]
            obtain ⟨hi₃, hw₃⟩ := putBack_stepwise hk now hpopped hi₂ hw₂
            cases hput : Chain.putBack P now popped c₂ with
            | mk back c₃ =>
                rw [hput] at hi₃ hw₃
                cases back with
                | error r => exact .of_in hi₃ hw₃
                | ok u =>
                    obtain ⟨hmain, hstate⟩ := removeAlts_frame (chain.drop applied) c₃
                    exact .of_in (hk.frame c₃ _ hmain hstate hi₃) (hw₃.removeAlts _)
          · simp only [hreload]
            exact ⟨Or.inr ⟨hpops.mid, r, rfl, hr⟩, hpops.waiting⟩

/-- The bodies gathered for the links of a walk are good. -/
theorem gatherBodies_waiting {c : Chain σ} (hw : Waiting good c) {links : List AltLink}
    {bodies : List (List (Transaction × Blob))} (h : gatherBodies c.altTxs links = .ok bodies)
    (hlinks : ∀ l ∈ links, c.db.altBlocks.get l.id = some (l.data, l.blob) ∧
      Block.fromBlob l.blob = .ok l.block) :
    ∀ p ∈ links.zip bodies, good ⟨p.1.block, p.1.blob, p.2⟩ := by
  induction links generalizing bodies with
  | nil =>
      intro p hp
      cases hp
  | cons l links ih =>
      obtain ⟨⟨hget, hparse⟩, hlinks⟩ := List.forall_mem_cons.mp hlinks
      unfold gatherBodies at h
      split at h
      · rename_i hashes txs hfound
        simp only [bind_eq_ok, pure_eq_ok] at h
        obtain ⟨others, hothers, rfl⟩ := h
        refine List.forall_mem_cons.mpr ⟨?_, ih hothers hlinks⟩
        exact hw.bodies l.id l.data l.blob txs hget hfound l.block hparse
      · rename_i hfound hhashes
        simp only [bind_eq_ok, pure_eq_ok] at h
        obtain ⟨others, hothers, rfl⟩ := h
        refine List.forall_mem_cons.mpr ⟨?_, ih hothers hlinks⟩
        exact hw.empty l.id l.data l.blob l.block hget hparse hhashes
      · cases h

theorem switchToAlternative_stepwise (hk : Stepwise P good M I) {c : Chain σ} (hi : I c)
    (hw : Waiting good c) {chain : List AltLink}
    (hchain : ∀ l ∈ chain, c.db.altBlocks.get l.id = some (l.data, l.blob) ∧
      Block.fromBlob l.blob = .ok l.block) (split now : Nat) :
    StepsEnd M I good (Chain.switchToAlternative P c chain split now) := by
  unfold Chain.switchToAlternative
  cases hgather : gatherBodies c.altTxs chain with
  | error e => exact .of_in hi hw
  | ok bodies =>
      have hbodies := gatherBodies_waiting hw hgather hchain
      obtain ⟨hpops, hpopped⟩ := popTo_stepwise hk split c.height (hk.weaken c hi) hw
        (List.forall_mem_nil (GoodPopped good))
      dsimp only
      cases hpop : Chain.popTo P split c.height c [] with
      | mk result c₁ =>
          rw [hpop] at hpops hpopped
          cases result with
          | error r => exact hpops.stepsEnd rfl
          | ok popped =>
              have hgood := hpopped popped rfl
              rcases reloadState_stepwise hk hpops.mid hpops.waiting with
                ⟨c₂, hreload, hi₂, hw₂⟩ | ⟨r, hreload, hr⟩
              · simp only [hreload]
                obtain ⟨hi₃, hw₃⟩ := applyAlt_stepwise hk now hbodies 0 hi₂ hw₂
                cases hal : Chain.applyAlt P now 0 (chain.zip bodies) c₂ with
                | mk refused c₃ =>
                    rw [hal] at hi₃ hw₃
                    cases refused with
                    | some failure =>
                        obtain ⟨i, rejected⟩ := failure
                        exact restore_stepwise hk now i chain hgood rejected (hk.weaken c₃ hi₃) hw₃
                    | none =>
                        obtain ⟨hmain, hstate⟩ := finishSwitch_frame (P := P) chain popped c₃
                        refine .of_in (hk.frame c₃ _ hmain hstate hi₃) ?_
                        exact ((hw₃.keepPopped hk hgood).removeAlts chain).of_eq rfl rfl
              · simp only [hreload]
                exact ⟨Or.inr ⟨hpops.mid, r, rfl, hr⟩, hpops.waiting⟩

theorem handleBlock_stepwise (hk : Stepwise P good M I) {c : Chain σ} (hi : I c)
    (hw : Waiting good c) {b : Handed} (hb : good b) (hparse : Block.fromBlob b.blob = .ok b.blk)
    (now : Nat) : StepsEnd M I good (Chain.handleBlock P c b.blk b.blob b.txs now) := by
  have hbytes : GoodBytes good b.blob b.txs := by
    intro blk hblk
    rw [hparse] at hblk
    cases hblk
    exact hb
  rcases handleBlock_cases P c b.blk b.blob b.txs now with
    ⟨r, hout⟩ | hout | ⟨id, links, split, difficulty, data, hpassed, hout⟩
  · rw [hout]
    exact .of_in hi hw
  · rw [hout]
    obtain ⟨hi', hw'⟩ := addBlock_stepwise hk hi hw hb now
    exact ⟨Or.inl hi', hw'⟩
  · rw [hout, Chain.storeAlternative]
    dsimp only
    have hi' := hk.frame c { c with
      db := c.db.addAltBlock id data b.blob, altTxs := c.altTxs.put id b.txs } rfl rfl hi
    have hw' : Waiting good { c with
      db := c.db.addAltBlock id data b.blob, altTxs := c.altTxs.put id b.txs } := hw.put hk hbytes
    split_ifs
    · exact .of_in hi' hw'
    · exact switchToAlternative_stepwise hk hi' hw' (hpassed.links_stored hparse) split now

/-- The block an operation carries is good, and what its bytes parse to. -/
def CarriesGood (good : Handed → Prop) (a : Action σ) : Prop :=
  ∀ b, a.carried = some b → good b ∧ Block.fromBlob b.blob = .ok b.blk

/-- **One operation** ends in `I`, unless the store fails. -/
theorem act_stepwise (hk : Stepwise P good M I) {c : Chain σ} (hi : I c) (hw : Waiting good c)
    {a : Action σ} (hgood : CarriesGood good a) :
    (I (c.act P a).2 ∨ M (c.act P a).2 ∧ ¬ NoStorageError (P := P) c a) ∧
      Waiting good (c.act P a).2 := by
  have hends : ∀ {α : Type} {out : Except Rejection α × Chain σ}, StepsEnd M I good out →
      (I out.2 ∨ M out.2 ∧ ¬ ∀ r, refusal out.1 = some r → r.error.isStorage = false) ∧
        Waiting good out.2 := by
    intro α out hout
    refine ⟨hout.ends.imp id ?_, hout.waiting⟩
    rintro ⟨hm, r, hr, hstorage⟩
    refine ⟨hm, fun hno => ?_⟩
    rw [hno r (by rw [hr]; rfl)] at hstorage
    cases hstorage
  cases a with
  | handleBlock blk blob txs now =>
      obtain ⟨hb, hparse⟩ := hgood _ rfl
      exact hends (handleBlock_stepwise hk hi hw hb hparse now)
  | addBlock blk blob txs now =>
      obtain ⟨hb, _⟩ := hgood _ rfl
      obtain ⟨hi', hw'⟩ := addBlock_stepwise hk hi hw hb now
      exact ⟨Or.inl hi', hw'⟩
  | popBlocks n => exact hends (popBlocks_stepwise hk hi hw n)
  | takeOrphanedTxs => exact ⟨Or.inl (hk.frame c _ rfl rfl hi), hw.of_eq rfl rfl⟩
  | reopen v =>
      cases hload : loadState P c.db.main with
      | error e =>
          have hnew : Chain.new P c.db v = .error e := by
            rw [Chain.new, hload]
            rfl
          simp only [Chain.act, hnew]
          exact ⟨Or.inl hi, hw⟩
      | ok state =>
          have hnew : Chain.new P c.db v = .ok ⟨c.db, state, .empty, [], v⟩ := by
            rw [Chain.new, hload]
            rfl
          have hreload : Chain.reloadState P c = (.ok (), { c with state := state }) := by
            rw [Chain.reloadState, hload]
          have hi' := hk.reload c _ (hk.weaken c hi) hreload
          simp only [Chain.act, hnew]
          refine ⟨Or.inl (hk.frame { c with state := state } _ rfl rfl hi'), fun _ _ _ _ _ h => (by cases h), ?_⟩
          intro id data blob blk hget
          exact hw.empty id data blob blk hget
  | others v => exact ⟨Or.inl (hk.frame c _ rfl rfl hi), hw.of_eq rfl rfl⟩

/-- **Whole runs** without a failure of the store end in `I`. -/
theorem run_stepwise (hk : Stepwise P good M I) {c₀ : Chain σ} (hi : I c₀)
    (hw : Waiting good c₀) (actions : List (Action σ))
    (hgood : ∀ a ∈ actions, CarriesGood good a)
    (hok : c₀.Along P (NoStorageError (P := P)) actions) :
    I (c₀.run P actions) ∧ Waiting good (c₀.run P actions) := by
  induction actions using List.reverseRecOn with
  | nil => exact ⟨hi, hw⟩
  | append_singleton before a ih =>
      obtain ⟨hbefore, ha⟩ := along_snoc.mp hok
      obtain ⟨hi', hw'⟩ := ih (fun a ha => hgood a (List.mem_append_left _ ha)) hbefore
      have hstep := act_stepwise hk hi' hw' (hgood a (List.mem_append_right _ List.mem_cons_self))
      rw [run_snoc]
      exact ⟨hstep.1.resolve_right fun hfailed => hfailed.2 ha, hstep.2⟩

/-- What does not need the caches to be in step survives failures of the store, too. -/
theorem run_stepwise_anyway (hk : Stepwise P good I I) {c₀ : Chain σ} (hi : I c₀)
    (hw : Waiting good c₀) (actions : List (Action σ))
    (hgood : ∀ a ∈ actions, CarriesGood good a) :
    I (c₀.run P actions) ∧ Waiting good (c₀.run P actions) := by
  induction actions using List.reverseRecOn with
  | nil => exact ⟨hi, hw⟩
  | append_singleton before a ih =>
      obtain ⟨hi', hw'⟩ := ih (fun a ha => hgood a (List.mem_append_left _ ha))
      have hstep := act_stepwise hk hi' hw' (hgood a (List.mem_append_right _ List.mem_cons_self))
      rw [run_snoc]
      exact ⟨hstep.1.elim id And.left, hstep.2⟩

theorem waiting_new {v : σ} {c₀ : Chain σ} (hopen : Chain.new P Store.empty v = .ok c₀) :
    Waiting good c₀ := by
  cases hopen
  exact ⟨nofun, nofun⟩

end

end Wownero

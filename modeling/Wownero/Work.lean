import Wownero.Lineage
import Wownero.Rollback
import Wownero.Sample
/-!
# A reorganisation never loses work

A switch is decided by the cumulative difficulty an alternative block was recorded with, and
replays its chain with difficulties computed anew.  Both are that of the block's lineage as long
as the version the main chain is at, which the alternative path goes by, demands what the version
of the block's own height would.
-/

namespace Wownero

open Outcome

section

variable {σ : Type} {P : Params σ} {known : Block → Prop}

/-- The caches are in step, and every block stored is traced back to a genesis block. -/
structure Traced (P : Params σ) (known : Block → Prop) (c : Chain σ) : Prop where
  inStep : InStep P c
  main : MainLineage P known c.db.main
  alts : AltLineage P known c

/-- The main chain between a pop and the reloading of the caches. -/
structure MainTraced (P : Params σ) (known : Block → Prop) (c : Chain σ) : Prop where
  numbered : c.db.main.Numbered
  main : MainLineage P known c.db.main

theorem Traced.mainTraced {c : Chain σ} (h : Traced P known c) : MainTraced P known c :=
  ⟨h.inStep.numbered, h.main⟩

theorem MainTraced.reloaded {c : Chain σ} (h : MainTraced P known c)
    (halts : AltLineage P known c) :
    Traced P known { c with state := stateOf P.network c.db.main.records } :=
  ⟨⟨h.numbered, rfl⟩, h.main, halts.of_eq rfl⟩

theorem Traced.of_eq {c c' : Chain σ} (h : Traced P known c) (hmain : c'.db.main = c.db.main)
    (hstate : c'.state = c.state) (halts : AltLineage P known c') : Traced P known c' :=
  ⟨h.inStep.of_eq hmain hstate, hmain ▸ h.main, halts⟩

/-- The ids of the main chain, lowest first. -/
def MainTables.ids (t : MainTables) : List Hash256 := t.records.map (·.hash)

/-- Two traced chains of the same ids have the same cumulative difficulty. -/
theorem Traced.cumulativeDifficulty_eq (hgood : WellKnown P.crypto known) {c c' : Chain σ}
    (h : Traced P known c) (h' : Traced P known c') (hids : c'.db.main.ids = c.db.main.ids) :
    c'.state.cumulativeDifficulty = c.state.cumulativeDifficulty := by
  rw [h.inStep.state, h'.inStep.state]
  have hlast : c'.db.main.records.getLast?.map (·.hash) =
      c.db.main.records.getLast?.map (·.hash) := by
    rw [← List.getLast?_map, ← List.getLast?_map]
    exact congrArg List.getLast? hids
  cases hr : c.db.main.records.getLast? with
  | none =>
      cases hr' : c'.db.main.records.getLast? with
      | none => simp only [stateOf, hr, hr']
      | some tip' =>
          rw [hr, hr'] at hlast
          cases hlast
  | some tip =>
      cases hr' : c'.db.main.records.getLast? with
      | none =>
          rw [hr, hr'] at hlast
          cases hlast
      | some tip' =>
          rw [hr, hr', Option.map_some, Option.map_some, Option.some.injEq] at hlast
          have hstamps := (h'.main.tip hr').unique hgood (hlast ▸ h.main.tip hr)
          have hstamp : tip'.stamp = tip.stamp := by
            have hboth := congrArg List.getLast? hstamps
            rw [List.getLast?_map, List.getLast?_map, hr, hr'] at hboth
            exact Option.some.inj hboth
          rw [stateOf_cumulativeDifficulty hr, stateOf_cumulativeDifficulty hr']
          exact congrArg Stamp.cumulativeDifficulty hstamp

/-! ### Blocks and pops -/

theorem addBlock_traced {c : Chain σ} (h : Traced P known c) {blk : Block} {blob : Blob}
    {txs : List (Transaction × Blob)} {now : Nat} (hb : known blk)
    (hparse : Block.fromBlob blob = .ok blk) {result : Except Rejection Added} {c' : Chain σ}
    (hout : Chain.addBlock P c blk blob txs now = (result, c')) :
    Traced P known c' ∧ c'.db.altBlocks = c.db.altBlocks ∧
      (∀ added, result = .ok added → ∃ info, c'.db.main.records = c.db.main.records ++ [info] ∧
        blk.blockId P.crypto.cnFastHash = some info.hash) ∧
      ∀ r, result = .error r → c'.db.main = c.db.main ∧ c'.state = c.state := by
  cases result with
  | error r =>
      obtain ⟨v, rfl⟩ := addBlock_error hout
      exact ⟨h.of_eq rfl rfl (h.alts.of_eq rfl), rfl, nofun, fun _ _ => ⟨rfl, rfl⟩⟩
  | ok added =>
      obtain ⟨_, fees, reward, v, haccepted⟩ := addBlock_ok hout
      obtain ⟨info, hadded, _⟩ := haccepted.added
      refine ⟨⟨haccepted.inStep h.inStep, haccepted.mainLineage h.inStep h.main hb hparse,
        h.alts.of_eq haccepted.altBlocks⟩, haccepted.altBlocks, ?_, nofun⟩
      intro _ _
      exact ⟨info, hadded.records_eq h.inStep.numbered, hadded.hash⟩

/-- What a pop hands back: the block of the record it removes. -/
theorem popBlock_traced {c c' : Chain σ} {popped : Block × List Transaction}
    (h : Chain.popBlock P c = .ok (popped, c')) (hc : MainTraced P known c) :
    MainTraced P known c' ∧ c'.db.altBlocks = c.db.altBlocks ∧
      ∃ info, c.db.main.records = c'.db.main.records ++ [info] ∧
        c.db.main.getBlockInfo (c.height - 1) = .ok info ∧ known popped.1 ∧
        popped.1.blockId P.crypto.cnFastHash = some info.hash := by
  obtain ⟨hpop, _, halt, _⟩ := popBlock_ok h
  obtain ⟨hmain, hn, hinfo⟩ := popBlock_mainLineage hpop hc.numbered hc.main
  exact ⟨⟨hn, hmain⟩, halt, hinfo⟩

theorem popMany_traced (n : Nat) {c : Chain σ} (hc : MainTraced P known c) :
    (∃ c', Chain.popMany P n c = (.ok (), c') ∧ MainTraced P known c' ∧
      c'.db.altBlocks = c.db.altBlocks) ∨
      ∃ r c', Chain.popMany P n c = (.error r, c') ∧ r.error.isStorage = true := by
  induction n generalizing c with
  | zero => exact Or.inl ⟨c, rfl, hc, rfl⟩
  | succ n ih =>
      unfold Chain.popMany
      cases hpop : Chain.popBlock P c with
      | error r => exact Or.inr ⟨r, c, rfl, popBlock_error hpop⟩
      | ok out =>
          obtain ⟨⟨block, txs⟩, c₁⟩ := out
          obtain ⟨hc₁, halt, _⟩ := popBlock_traced hpop hc
          have hc₂ : MainTraced P known
              { c₁ with orphanedTxs := c₁.orphanedTxs ++ txs.map withBlob } :=
            ⟨hc₁.numbered, hc₁.main⟩
          rcases ih hc₂ with ⟨c', hmany, hc', halt'⟩ | ⟨r, c', hmany, hr⟩
          · exact Or.inl ⟨c', hmany, hc', halt'.trans halt⟩
          · exact Or.inr ⟨r, c', hmany, hr⟩

theorem popTo_traced (split fuel : Nat) {c : Chain σ} (hc : MainTraced P known c)
    (acc : List Popped) :
    (∃ popped c', Chain.popTo P split fuel c acc = (.ok (popped ++ acc), c') ∧
      MainTraced P known c' ∧ c'.db.altBlocks = c.db.altBlocks ∧
      c.db.main.records = c'.db.main.records ++ popped.map (·.info) ∧
      ∀ p ∈ popped, known p.block ∧ p.block.blockId P.crypto.cnFastHash = some p.info.hash) ∨
      ∃ r c', Chain.popTo P split fuel c acc = (.error r, c') ∧ r.error.isStorage = true := by
  induction fuel generalizing c acc with
  | zero => exact Or.inl ⟨[], c, rfl, hc, rfl, by simp, by simp⟩
  | succ fuel ih =>
      unfold Chain.popTo
      split_ifs
      · cases hpop : Chain.popBlock P c with
        | error r =>
            cases hinfo : c.db.main.getBlockInfo (c.height - 1) with
            | error e => exact Or.inr ⟨_, c, rfl, rfl⟩
            | ok info => exact Or.inr ⟨r, c, rfl, popBlock_error hpop⟩
        | ok out =>
            obtain ⟨⟨block, txs⟩, c₁⟩ := out
            obtain ⟨hc₁, halt, info, hrec, hinfo, hb, hid⟩ := popBlock_traced hpop hc
            simp only [hinfo]
            rcases ih hc₁ (⟨info, block, txs.map withBlob⟩ :: acc) with
              ⟨popped, c', hto, hc', halt', hrec', hknown⟩ | ⟨r, c', hto, hr⟩
            · refine Or.inl ⟨popped ++ [⟨info, block, txs.map withBlob⟩], c', ?_, hc',
                halt'.trans halt, ?_, ?_⟩
              · rw [hto]
                simp
              · rw [hrec, hrec', List.map_append, List.append_assoc]
                rfl
              · intro p hp
                rcases List.mem_append.mp hp with hp | hp
                · exact hknown p hp
                · rw [List.mem_singleton.mp hp]
                  exact ⟨hb, hid⟩
            · exact Or.inr ⟨r, c', hto, hr⟩
      · exact Or.inl ⟨[], c, rfl, hc, rfl, by simp, by simp⟩

theorem dropBlocks_traced (n : Nat) {c : Chain σ} (hc : MainTraced P known c) :
    (∃ c' dropped, Chain.dropBlocks P n c = (.ok (), c') ∧ MainTraced P known c' ∧
      c'.db.altBlocks = c.db.altBlocks ∧ c.db.main.records = c'.db.main.records ++ dropped ∧
      dropped.length = n) ∨
      ∃ r c', Chain.dropBlocks P n c = (.error r, c') ∧ r.error.isStorage = true := by
  induction n generalizing c with
  | zero => exact Or.inl ⟨c, [], rfl, hc, rfl, by simp, rfl⟩
  | succ n ih =>
      unfold Chain.dropBlocks
      cases hpop : Chain.popBlock P c with
      | error r => exact Or.inr ⟨r, c, rfl, popBlock_error hpop⟩
      | ok out =>
          obtain ⟨popped, c₁⟩ := out
          obtain ⟨hc₁, halt, info, hrec, _⟩ := popBlock_traced hpop hc
          rcases ih hc₁ with ⟨c', dropped, hdrop, hc', halt', hrec', hlen⟩ | ⟨r, c', hdrop, hr⟩
          · refine Or.inl ⟨c', dropped ++ [info], hdrop, hc', halt'.trans halt, ?_, by simp [hlen]⟩
            rw [hrec, hrec', List.append_assoc]
          · exact Or.inr ⟨r, c', hdrop, hr⟩

/-! ### Applying and putting back -/

theorem applyAlt_traced {now : Nat} {blocks : List (AltLink × List (Transaction × Blob))}
    (hblocks : ∀ p ∈ blocks, known p.1.block ∧ Block.fromBlob p.1.blob = .ok p.1.block)
    {c : Chain σ} (hc : Traced P known c) (i : Nat) {refused : Option (Nat × Rejection)}
    {c' : Chain σ} (hout : Chain.applyAlt P now i blocks c = (refused, c')) :
    Traced P known c' ∧ c'.db.altBlocks = c.db.altBlocks ∧
      ∃ added, c'.db.main.records = c.db.main.records ++ added ∧
        (∀ j r, refused = some (j, r) → j = i + added.length) ∧
        (refused = none →
          added.map (fun a => some a.hash) =
            blocks.map fun p => p.1.block.blockId P.crypto.cnFastHash) := by
  induction blocks generalizing c i with
  | nil =>
      cases hout
      exact ⟨hc, rfl, [], by simp, fun _ _ h => (by cases h), fun _ => rfl⟩
  | cons p blocks ih =>
      obtain ⟨link, txs⟩ := p
      obtain ⟨hb, hparse⟩ := hblocks (link, txs) List.mem_cons_self
      unfold Chain.applyAlt at hout
      cases hadd : Chain.addBlock P c link.block link.blob txs now with
      | mk result c₁ =>
          obtain ⟨hc₁, halt, hgrew, hkeep⟩ := addBlock_traced hc hb hparse hadd
          rw [hadd] at hout
          cases result with
          | error r =>
              cases hout
              refine ⟨hc₁, halt, [], by simp [(hkeep r rfl).1], ?_, fun h => by cases h⟩
              intro j r' hj
              cases hj
              rfl
          | ok added =>
              obtain ⟨info, hrec, hid⟩ := hgrew added rfl
              obtain ⟨hc', halt', others, hrec', hcount, hall⟩ :=
                ih (fun p hp => hblocks p (List.mem_cons_of_mem _ hp)) hc₁ (i + 1) hout
              refine ⟨hc', halt'.trans halt, info :: others, ?_, ?_, ?_⟩
              · rw [hrec', hrec, List.append_assoc]
                rfl
              · intro j r hj
                rw [hcount j r hj, List.length_cons]
                omega
              · intro hnone
                rw [List.map_cons, List.map_cons, hall hnone, hid]

theorem putBack_traced (hgood : WellKnown P.crypto known) {now : Nat} {popped : List Popped}
    (hpopped : ∀ p ∈ popped, known p.block ∧
      p.block.blockId P.crypto.cnFastHash = some p.info.hash)
    {c : Chain σ} (hc : Traced P known c) {result : Except Rejection Unit} {c' : Chain σ}
    (hout : Chain.putBack P now popped c = (result, c')) :
    Traced P known c' ∧ c'.db.altBlocks = c.db.altBlocks ∧
      (∀ u, result = .ok u → ∃ added, c'.db.main.records = c.db.main.records ++ added ∧
        added.map (·.hash) = popped.map (·.info.hash)) ∧
      ∀ r, result = .error r → ∃ height step e, r.error = .notRestored height step e := by
  induction popped generalizing c with
  | nil =>
      cases hout
      exact ⟨hc, rfl, fun _ _ => ⟨[], by simp, rfl⟩, fun _ h => by cases h⟩
  | cons p ps ih =>
      obtain ⟨hb, hpid⟩ := hpopped p List.mem_cons_self
      unfold Chain.putBack at hout
      cases hadd : Chain.addBlock P c p.block p.block.toBlob p.txs now with
      | mk res c₁ =>
          obtain ⟨hc₁, halt, hgrew, _⟩ := addBlock_traced hc hb (hgood.writes _ hb) hadd
          rw [hadd] at hout
          cases res with
          | error r =>
              cases hout
              refine ⟨hc₁, halt, fun _ h => (by cases h), ?_⟩
              intro r' hr'
              cases hr'
              exact ⟨_, _, _, rfl⟩
          | ok added =>
              obtain ⟨info, hrec, hid⟩ := hgrew added rfl
              obtain ⟨hc', halt', hok, herr⟩ :=
                ih (fun q hq => hpopped q (List.mem_cons_of_mem _ hq)) hc₁ hout
              refine ⟨hc', halt'.trans halt, ?_, herr⟩
              intro u hu
              obtain ⟨others, hrec', hids⟩ := hok u hu
              refine ⟨info :: others, by rw [hrec', hrec, List.append_assoc]; rfl, ?_⟩
              rw [hpid, Option.some.injEq] at hid
              rw [List.map_cons, List.map_cons, hids, hid]

/-! ### The switch -/

/-- The source reports a chain it could not put back as a failure of the store, too. -/
def BlockError.isReportedAsStorage : BlockError → Bool
  | .storage _ => true
  | .notRestored .. => true
  | _ => false

/-- How a switch ends that meets no failure of the store: every block is still traced, the main
    chain is the old one if a block was refused, and the new tip if none was. -/
structure SwitchTraced (P : Params σ) (known : Block → Prop) (c : Chain σ) (last : Block)
    (result : Except Rejection Added) (c' : Chain σ) : Prop where
  traced : Traced P known c'
  refused : ∀ r, result = .error r → r.error.isReportedAsStorage = false →
    c'.db.main.ids = c.db.main.ids
  switched : ∀ added, result = .ok added → ∃ tip, c'.db.main.records.getLast? = some tip ∧
    last.blockId P.crypto.cnFastHash = some tip.hash

theorem restore_traced (hgood : WellKnown P.crypto known) {now : Nat} {chain : List AltLink}
    {popped : List Popped} {rejected : Rejection} {below added : List BlockInfo}
    {c c₂ : Chain σ} (hc₂ : Traced P known c₂)
    (hbelow : c.db.main.records = below ++ popped.map (·.info))
    (habove : c₂.db.main.records = below ++ added)
    (hpopped : ∀ p ∈ popped, known p.block ∧
      p.block.blockId P.crypto.cnFastHash = some p.info.hash) {last : Block}
    {result : Except Rejection Added} {c' : Chain σ}
    (hout : Chain.restore P now added.length chain popped rejected c₂ = (result, c')) :
    SwitchTraced P known c last result c' ∨ ∃ r, result = .error r ∧ r.error.isStorage = true := by
  unfold Chain.restore at hout
  rcases dropBlocks_traced added.length hc₂.mainTraced with
    ⟨c₃, dropped, hdrop, hc₃, halt₃, hrec₃, hlen₃⟩ | ⟨r, c₃, hdrop, hr⟩
  · have hsame : c₃.db.main.records = below :=
      (List.append_inj' (hrec₃.symm.trans habove) hlen₃).1
    simp only [hdrop, reloadState_eq hc₃.numbered] at hout
    have htraced₃ := hc₃.reloaded (hc₂.alts.of_eq halt₃)
    cases hput : Chain.putBack P now popped
        { c₃ with state := stateOf P.network c₃.db.main.records } with
    | mk res c₄ =>
        obtain ⟨hc₄, halt₄, hok, herr⟩ := putBack_traced hgood hpopped htraced₃ hput
        simp only [hput] at hout
        cases res with
        | error r =>
            cases hout
            refine Or.inl ⟨hc₄, ?_, nofun⟩
            intro r' hr' hreported
            cases hr'
            obtain ⟨height, step, e, he⟩ := herr r rfl
            rw [he] at hreported
            cases hreported
        | ok u =>
            cases hout
            obtain ⟨back, hrec₄, hids⟩ := hok u rfl
            obtain ⟨hm, hs⟩ := removeAlts_frame (chain.drop added.length) c₄
            refine Or.inl ⟨hc₄.of_eq hm hs (hc₄.alts.removeAlts _), ?_, nofun⟩
            intro r hr _
            have hbase : c₄.db.main.records = below ++ back := by
              rw [hrec₄]
              exact congrArg (· ++ back) hsame
            rw [MainTables.ids, MainTables.ids, hm, hbase, hbelow, List.map_append, hids,
              List.map_append, List.map_map]
            rfl
  · simp only [hdrop] at hout
    cases hout
    exact Or.inr ⟨r, rfl, hr⟩

theorem switchToAlternative_traced (hgood : WellKnown P.crypto known) {now split : Nat}
    {c : Chain σ} (hc : Traced P known c) {links : List AltLink} {last : AltLink}
    (hlinks : ∀ l ∈ links ++ [last], known l.block ∧ Block.fromBlob l.blob = .ok l.block)
    {result : Except Rejection Added} {c' : Chain σ}
    (hout : Chain.switchToAlternative P c (links ++ [last]) split now = (result, c')) :
    SwitchTraced P known c last.block result c' ∨
      ∃ r, result = .error r ∧ r.error.isStorage = true := by
  unfold Chain.switchToAlternative at hout
  cases hgather : gatherBodies c.altTxs (links ++ [last]) with
  | error r =>
      rw [hgather] at hout
      cases hout
      exact Or.inl ⟨hc, fun _ _ _ => rfl, nofun⟩
  | ok bodies =>
      have hbodies := gatherBodies_length hgather
      rcases popTo_traced split c.height hc.mainTraced [] with
        ⟨popped, c₁, hpop, hc₁, halt₁, hrec₁, hpopped⟩ | ⟨r, c₁, hpop, hr⟩
      · rw [List.append_nil] at hpop
        simp only [hgather, hpop, reloadState_eq hc₁.numbered] at hout
        have htraced₁ := hc₁.reloaded (hc.alts.of_eq halt₁)
        have hzip : ∀ p ∈ (links ++ [last]).zip bodies, known p.1.block ∧
            Block.fromBlob p.1.blob = .ok p.1.block :=
          fun p hp => hlinks p.1 (List.of_mem_zip hp).1
        cases happly : Chain.applyAlt P now 0 ((links ++ [last]).zip bodies)
            { c₁ with state := stateOf P.network c₁.db.main.records } with
        | mk refused c₂ =>
            obtain ⟨hc₂, halt₂, added, hrec₂, hcount, hall⟩ :=
              applyAlt_traced hzip htraced₁ 0 happly
            rw [happly] at hout
            cases refused with
            | some failure =>
                obtain ⟨i, r⟩ := failure
                have hi : i = added.length := by simpa using hcount i r rfl
                rw [hi] at hout
                exact restore_traced hgood hc₂ hrec₁ hrec₂ hpopped hout
            | none =>
                cases hout
                obtain ⟨hm, hs⟩ := finishSwitch_frame (P := P) (links ++ [last]) popped c₂
                have halts₂ : AltLineage P known (c₂.keepPopped popped) := by
                  refine (hc.alts.of_eq (halt₂.trans halt₁)).keepPopped popped fun p hp => ?_
                  exact hc.main.recordedAs hgood hrec₁ hp (hpopped p hp).1 (hpopped p hp).2
                refine Or.inl ⟨hc₂.of_eq hm hs ((halts₂.removeAlts _).of_eq rfl), nofun, ?_⟩
                intro _ _
                have hids := hall rfl
                -- The last block applied is the tip.
                have hfst : ((links ++ [last]).zip bodies).map Prod.fst = links ++ [last] :=
                  List.map_fst_zip hbodies.ge
                have hblockIds : (((links ++ [last]).zip bodies).map fun p =>
                      p.1.block.blockId P.crypto.cnFastHash) =
                    (links ++ [last]).map fun l => l.block.blockId P.crypto.cnFastHash := by
                  conv_rhs => rw [← hfst]
                  rw [List.map_map]
                  rfl
                have hlast : (added.map fun a => some a.hash).getLast? =
                    some (last.block.blockId P.crypto.cnFastHash) := by
                  rw [hids, hblockIds, List.map_append, List.map_singleton,
                    List.getLast?_concat]
                rw [List.getLast?_map] at hlast
                cases ha : added.getLast? with
                | none =>
                    rw [ha] at hlast
                    cases hlast
                | some tip =>
                    rw [ha, Option.map_some, Option.some.injEq] at hlast
                    refine ⟨tip, ?_, hlast.symm⟩
                    have hne : added ≠ [] := by
                      rintro rfl
                      cases ha
                    rw [hm, hrec₂, List.getLast?_append_of_ne_nil _ hne, ha]
      · simp only [hgather, hpop] at hout
        cases hout
        exact Or.inr ⟨r, rfl, hr⟩

/-! ### Blocks handed in -/

/-- The version the main chain is at demands of an alternative block what the block's own height
    would. -/
def AltDemand (P : Params σ) (c : Chain σ) (blk : Block) : Prop :=
  ∀ links split, altChainTo c.db blk.header.prevId = .ok (some (links, split)) →
    SameDemand P c.height (split + links.length + 1)

instance (P : Params σ) (c : Chain σ) (blk : Block) : Decidable (AltDemand P c blk) :=
  match h : altChainTo c.db blk.header.prevId with
  | .ok (some (links, split)) =>
      decidable_of_iff (SameDemand P c.height (split + links.length + 1)) (by
        unfold AltDemand
        simp only [h, Except.ok.injEq, Option.some.injEq, Prod.mk.injEq]
        constructor
        · rintro hsame _ _ ⟨rfl, rfl⟩
          exact hsame
        · intro hall
          exact hall links split ⟨rfl, rfl⟩)
  | .ok none => .isTrue (by intro links split hchain; rw [h] at hchain; cases hchain)
  | .error _ => .isTrue (by intro links split hchain; rw [h] at hchain; cases hchain)

/-- How the work moves when a block is handed in. -/
structure WorkKept (P : Params σ) (c : Chain σ) (result : Except Rejection Added) (c' : Chain σ) :
    Prop where
  /-- A reorganisation gains work. -/
  reorg : ∀ height popped, result = .ok (.reorg height popped) →
    c.state.cumulativeDifficulty < c'.state.cumulativeDifficulty
  /-- Nothing loses work, unless the sum leaves its type or the store fails. -/
  kept : c.state.cumulativeDifficulty + nextBlockDifficulty P c.state c.height ≤ u128Max →
    (∀ r, result = .error r → r.error.isReportedAsStorage = false) →
    c.state.cumulativeDifficulty ≤ c'.state.cumulativeDifficulty

theorem isReportedAsStorage_of_isStorage {e : BlockError} (h : e.isStorage = true) :
    e.isReportedAsStorage = true := by
  cases e <;> first | rfl | cases h

/-- **A block handed in** leaves every block traced, and keeps the work. -/
theorem handleBlock_traced (hgood : WellKnown P.crypto known) {c : Chain σ}
    (hc : Traced P known c) {blk : Block} {blob : Blob} {txs : List (Transaction × Blob)}
    {now : Nat} (hb : known blk) (hparse : Block.fromBlob blob = .ok blk)
    (hdemand : AltDemand P c blk) {result : Except Rejection Added} {c' : Chain σ}
    (hout : Chain.handleBlock P c blk blob txs now = (result, c')) :
    WorkKept P c result c' ∧
      (Traced P known c' ∨ ∃ r, result = .error r ∧ r.error.isStorage = true) := by
  rcases handleBlock_cases P c blk blob txs now with
    ⟨r, hcase⟩ | hcase | ⟨id, links, split, difficulty, data, hpassed, hcase⟩
  · rw [hcase] at hout
    cases hout
    exact ⟨⟨fun _ _ h => (by cases h), fun _ _ => Nat.le_refl _⟩, Or.inl hc⟩
  · rw [hcase] at hout
    obtain ⟨hc', _, _, hkeep⟩ := addBlock_traced hc hb hparse hout
    refine ⟨⟨?_, ?_⟩, Or.inl hc'⟩
    · intro height popped hr
      rw [hr] at hout
      cases (addBlock_ok hout).1
    · intro hfits _
      cases result with
      | error r => rw [(hkeep r rfl).2]
      | ok added =>
          obtain ⟨_, fees, reward, v, haccepted⟩ := addBlock_ok hout
          have hcum : c'.state.cumulativeDifficulty =
              wrap128 (c.state.cumulativeDifficulty + nextBlockDifficulty P c.state c.height) := by
            rw [haccepted.state]
            rfl
          rw [hcum, wrap128_of_le hfits]
          omega
  · -- The block is stored beside the main chain.
    rw [hcase, Chain.storeAlternative] at hout
    have hrec := hpassed.recordedAs hgood hc.inStep.numbered hc.main hc.alts hb hparse
      (hdemand links split hpassed.chain)
    have hc₁ : Traced P known
        { c with db := c.db.addAltBlock id data blob, altTxs := c.altTxs.put id txs } :=
      hc.of_eq rfl rfl (hc.alts.put hrec rfl)
    dsimp only at hout
    split_ifs at hout with hlighter
    · cases hout
      exact ⟨⟨fun _ _ h => (by cases h), fun _ _ => Nat.le_refl _⟩, Or.inl hc₁⟩
    · have hlinks : ∀ l ∈ links ++ [⟨id, blk, blob, data⟩],
          known l.block ∧ Block.fromBlob l.blob = .ok l.block := by
        intro l hl
        obtain ⟨hget, hp⟩ := hpassed.links_stored hparse l hl
        obtain ⟨blk', hp', hb', _⟩ := (hc₁.alts l.id l.data l.blob hget).block
        rw [hp] at hp'
        cases hp'
        exact ⟨hb', hp⟩
      rcases switchToAlternative_traced hgood hc₁ hlinks hout with hswitch | ⟨r, hr, hstorage⟩
      · refine ⟨?_, Or.inl hswitch.traced⟩
        -- The tip of a switch that went through has the lineage it was recorded with.
        have hgain : ∀ added, result = .ok added →
            c'.state.cumulativeDifficulty = data.cumulativeDifficulty := by
          intro added hadded
          obtain ⟨tip, htip, htipId⟩ := hswitch.switched added hadded
          rw [hpassed.blockId, Option.some.injEq] at htipId
          obtain ⟨stamps, stamp, hlineage, _, hlast, hstamp⟩ := hrec.lineage
          rw [hlineage.unique hgood (htipId ▸ hswitch.traced.main.tip htip), List.getLast?_map,
            htip] at hlast
          cases hlast
          rw [hswitch.traced.inStep.state, stateOf_cumulativeDifficulty htip]
          exact hstamp
        refine ⟨?_, ?_⟩
        · intro height popped hr
          rw [hgain _ hr]
          exact Nat.lt_of_not_le hlighter
        · intro _ hreported
          cases result with
          | ok added =>
              rw [hgain added rfl]
              exact Nat.le_of_lt (Nat.lt_of_not_le hlighter)
          | error r =>
              have hids := hswitch.refused r rfl (hreported r rfl)
              exact (hc₁.cumulativeDifficulty_eq hgood hswitch.traced hids).ge
      · refine ⟨⟨?_, ?_⟩, Or.inr ⟨r, hr, hstorage⟩⟩
        · intro height popped hreorg
          rw [hr] at hreorg
          cases hreorg
        · intro _ hreported
          have hno := hreported r hr
          rw [isReportedAsStorage_of_isStorage hstorage] at hno
          cases hno

/-! ### Runs -/

/-- What is asked of an operation: blocks that are what their bytes parse to, alternative ones
    met by a version that demands what theirs would, and no failure of the store. -/
structure OperationMet (P : Params σ) (c : Chain σ) (a : Action σ) : Prop where
  parses : ∀ b, handedIn [a] b → Block.fromBlob b.blob = .ok b.blk
  demand : ∀ blk blob txs now, a = .handleBlock blk blob txs now → AltDemand P c blk
  noStorageError : NoStorageError (P := P) c a

theorem handedIn_single {a : Action σ} {b : Handed} : handedIn [a] b ↔ a.carried = some b := by
  rw [handedIn_iff, List.filterMap_cons, List.filterMap_nil]
  cases a.carried with
  | none => simp
  | some b' => simp [eq_comm]

instance (c : Chain σ) (a : Action σ) : Decidable (OperationMet P c a) :=
  match a with
  | .handleBlock blk blob txs now =>
      decidable_of_iff (Block.fromBlob blob = .ok blk ∧ AltDemand P c blk ∧
          NoStorageError (P := P) c (.handleBlock blk blob txs now)) (by
        constructor
        · rintro ⟨hparse, hdemand, hno⟩
          refine ⟨?_, ?_, hno⟩
          · intro b hb
            cases handedIn_single.mp hb
            exact hparse
          · intro blk' blob' txs' now' heq
            cases heq
            exact hdemand
        · intro h
          exact ⟨h.parses ⟨blk, blob, txs⟩ (handedIn_single.mpr rfl),
            h.demand blk blob txs now rfl, h.noStorageError⟩)
  | .addBlock blk blob txs now =>
      decidable_of_iff (Block.fromBlob blob = .ok blk ∧
          NoStorageError (P := P) c (.addBlock blk blob txs now)) (by
        constructor
        · rintro ⟨hparse, hno⟩
          refine ⟨?_, nofun, hno⟩
          intro b hb
          cases handedIn_single.mp hb
          exact hparse
        · intro h
          exact ⟨h.parses ⟨blk, blob, txs⟩ (handedIn_single.mpr rfl), h.noStorageError⟩)
  | .popBlocks n => decidable_of_iff (NoStorageError (P := P) c (.popBlocks n))
      ⟨fun hno => ⟨fun _ hb => (nomatch handedIn_single.mp hb), nofun, hno⟩,
        fun h => h.noStorageError⟩
  | .takeOrphanedTxs => decidable_of_iff (NoStorageError (P := P) c .takeOrphanedTxs)
      ⟨fun hno => ⟨fun _ hb => (nomatch handedIn_single.mp hb), nofun, hno⟩,
        fun h => h.noStorageError⟩
  | .reopen v => decidable_of_iff (NoStorageError (P := P) c (.reopen v))
      ⟨fun hno => ⟨fun _ hb => (nomatch handedIn_single.mp hb), nofun, hno⟩,
        fun h => h.noStorageError⟩
  | .others v => decidable_of_iff (NoStorageError (P := P) c (.others v))
      ⟨fun hno => ⟨fun _ hb => (nomatch handedIn_single.mp hb), nofun, hno⟩,
        fun h => h.noStorageError⟩

/-- The blocks of a run. -/
def knownIn (actions : List (Action σ)) (blk : Block) : Prop :=
  ∃ b, handedIn actions b ∧ b.blk = blk

theorem knownIn_iff {actions : List (Action σ)} {blk : Block} :
    knownIn actions blk ↔ blk ∈ (actions.filterMap Action.carried).map Handed.blk := by
  simp only [knownIn, handedIn_iff, List.mem_map]

/-- Whether the blocks of a run have ids of their own can be computed. -/
instance (C : Crypto) (actions : List (Action σ)) : Decidable (WellKnown C (knownIn actions)) :=
  decidable_of_iff
    (∀ blk ∈ (actions.filterMap Action.carried).map Handed.blk,
      Block.fromBlob blk.toBlob = .ok blk ∧
        ∀ blk' ∈ (actions.filterMap Action.carried).map Handed.blk,
          blk.blockId C.cnFastHash = blk'.blockId C.cnFastHash →
            (blk.blockId C.cnFastHash).isSome → blk = blk') (by
    simp only [← knownIn_iff]
    constructor
    · intro h
      refine ⟨?_, fun blk hblk => (h blk hblk).1⟩
      intro blk blk' id hblk hblk' hid hid'
      exact (h blk hblk).2 blk' hblk' (hid.trans hid'.symm) (by rw [hid]; rfl)
    · intro h blk hblk
      refine ⟨h.writes blk hblk, ?_⟩
      intro blk' hblk' hsame hsome
      obtain ⟨id, hid⟩ := Option.isSome_iff_exists.mp hsome
      exact h.ids blk blk' id hblk hblk' hid (hsame ▸ hid))

theorem act_traced (hgood : WellKnown P.crypto known) {c : Chain σ} (hc : Traced P known c)
    {a : Action σ} (hknown : ∀ b, handedIn [a] b → known b.blk) (hmet : OperationMet P c a) :
    Traced P known (c.act P a).2 := by
  cases a with
  | handleBlock blk blob txs now =>
      have hb : handedIn (σ := σ) [.handleBlock blk blob txs now] ⟨blk, blob, txs⟩ :=
        ⟨now, Or.inl List.mem_cons_self⟩
      cases hout : Chain.handleBlock P c blk blob txs now with
      | mk result c' =>
          have hact : c.act P (.handleBlock blk blob txs now) = (refusal result, c') := by
            rw [Chain.act, hout]
          obtain ⟨_, htraced | ⟨r, hr, hstorage⟩⟩ := handleBlock_traced hgood hc (hknown _ hb)
            (hmet.parses _ hb) (hmet.demand blk blob txs now rfl) hout
          · rw [hact]
            exact htraced
          · have hno := hmet.noStorageError r (by rw [hact, hr]; rfl)
            rw [hno] at hstorage
            cases hstorage
  | addBlock blk blob txs now =>
      have hb : handedIn (σ := σ) [.addBlock blk blob txs now] ⟨blk, blob, txs⟩ :=
        ⟨now, Or.inr List.mem_cons_self⟩
      exact (addBlock_traced hc (hknown _ hb) (hmet.parses _ hb) rfl).1
  | popBlocks n =>
      rcases popMany_traced (min n (c.height - 1)) hc.mainTraced with
        ⟨c₁, hmany, hc₁, halt⟩ | ⟨r, c₁, hmany, hr⟩
      · have hpop : Chain.popBlocks P c n = (.ok (min n (c.height - 1)),
            { c₁ with state := stateOf P.network c₁.db.main.records }) := by
          simp only [Chain.popBlocks, hmany, reloadState_eq hc₁.numbered]
        simp only [Chain.act, hpop]
        exact hc₁.reloaded (hc.alts.of_eq halt)
      · have hpop : Chain.popBlocks P c n = (.error r, c₁) := by
          simp only [Chain.popBlocks, hmany]
        have hno := hmet.noStorageError r (by simp only [Chain.act, hpop, refusal])
        rw [hno] at hr
        cases hr
  | takeOrphanedTxs => exact hc.of_eq rfl rfl (hc.alts.of_eq rfl)
  | reopen v =>
      rw [Chain.act]
      cases hnew : Chain.new P c.db v with
      | error e => exact hc
      | ok c' =>
          rw [Chain.new, loadState_eq P hc.inStep.numbered] at hnew
          cases hnew
          exact ⟨⟨hc.inStep.numbered, rfl⟩, hc.main, hc.alts.of_eq rfl⟩
  | others v => exact hc.of_eq rfl rfl (hc.alts.of_eq rfl)

theorem knownIn_append_left {actions : List (Action σ)} (more : List (Action σ)) {blk : Block}
    (h : knownIn actions blk) : knownIn (actions ++ more) blk := by
  obtain ⟨b, ⟨now, hb⟩, rfl⟩ := h
  exact ⟨b, ⟨now, hb.imp (List.mem_append_left _) (List.mem_append_left _)⟩, rfl⟩

theorem knownIn_append_right {actions : List (Action σ)} (more : List (Action σ)) {blk : Block}
    (h : knownIn actions blk) : knownIn (more ++ actions) blk := by
  obtain ⟨b, ⟨now, hb⟩, rfl⟩ := h
  exact ⟨b, ⟨now, hb.imp (List.mem_append_right _) (List.mem_append_right _)⟩, rfl⟩

/-- Runs from an empty store lead to traced chains. -/
theorem run_traced (hgood : WellKnown P.crypto known) {v : σ} {c₀ : Chain σ}
    (hopen : Chain.new P Store.empty v = .ok c₀) (actions : List (Action σ))
    (hknown : ∀ blk, knownIn actions blk → known blk)
    (hmet : c₀.Along P (OperationMet P) actions) : Traced P known (c₀.run P actions) := by
  have hempty : Chain.new P Store.empty v =
      .ok ⟨Store.empty, stateOf P.network [], .empty, [], v⟩ := by
    rw [Chain.new, loadState_eq P (t := Store.empty.main) MainTables.numbered_empty]
    rfl
  rw [hempty] at hopen
  cases hopen
  refine run_invariant
    (I := fun before c => (∀ blk, knownIn before blk → known blk) → Traced P known c) ?_ ?_
    actions hmet hknown
  · intro _
    refine ⟨⟨MainTables.numbered_empty, rfl⟩, mainLineage_empty, ?_⟩
    intro id data blob hget
    cases hget
  · intro before a c hI hcond hknown
    refine act_traced hgood (hI fun blk hblk => hknown blk (knownIn_append_left _ hblk)) ?_ hcond
    intro b hb
    exact hknown b.blk (knownIn_append_right _ ⟨b, hb, rfl⟩)

/-- **A reorganisation never loses work.**  In a run from an empty store, where no two blocks
    share an id and every alternative block is met by a main chain whose version demands what the
    block's own would, a reorganisation ends on strictly more work, and no block handed in lowers
    the cumulative difficulty as long as it fits its type and the store does not fail. -/
theorem reorganisation_gains_work (P : Params σ) {v : σ} {c₀ : Chain σ}
    (hopen : Chain.new P Store.empty v = .ok c₀) (actions : List (Action σ)) (blk : Block)
    (blob : Blob) (txs : List (Transaction × Blob)) (now : Nat)
    (hgood : WellKnown P.crypto (knownIn (actions ++ [.handleBlock blk blob txs now])))
    (hmet : c₀.Along P (OperationMet P) actions) (hparse : Block.fromBlob blob = .ok blk)
    (hdemand : AltDemand P (c₀.run P actions) blk) :
    WorkKept P (c₀.run P actions) ((c₀.run P actions).handleBlock P blk blob txs now).1
      ((c₀.run P actions).handleBlock P blk blob txs now).2 := by
  have htraced := run_traced hgood hopen actions (fun _ h => knownIn_append_left _ h) hmet
  have hb : knownIn (actions ++ [.handleBlock blk blob txs now]) blk :=
    ⟨⟨blk, blob, txs⟩, ⟨now, Or.inl (by simp)⟩, rfl⟩
  exact (handleBlock_traced hgood htraced hb hparse hdemand rfl).1

end

section

open Sample

/-- The switch to the rival's chain gains its second block. -/
theorem reorganisation_gains_work_fork :
    (((opened ()).run bare (fork first.toBlob)).handleBlock bare second second.toBlob [] clock).1 =
        .ok (.reorg 2 1) ∧
      ((opened ()).run bare (fork first.toBlob)).state.cumulativeDifficulty <
        (((opened ()).run bare (fork first.toBlob)).handleBlock bare second second.toBlob []
          clock).2.state.cumulativeDifficulty := by
  have hreorg : (((opened ()).run bare (fork first.toBlob)).handleBlock bare second second.toBlob []
      clock).1 = .ok (.reorg 2 1) := by
    decide +kernel
  refine ⟨hreorg, ?_⟩
  refine (reorganisation_gains_work bare (new_empty bare ()) (fork first.toBlob) second
    second.toBlob [] clock ?_ ?_ ?_ ?_).reorg 2 1 hreorg
  all_goals decide +kernel

/-- A chain whose work is just below the end of `u128`, and the block that takes it past it. -/
def Sample.laden : List (Action Unit) :=
  [.handleBlock genesis genesis.toBlob [] clock, .handleBlock first first.toBlob [] clock]

def Sample.last : Block := nextBlock heavy ((opened ()).run heavy laden) 0 []

/-- The sum of the work wraps, and an accepted block leaves less of it than there was. -/
theorem wrapped_work_lost :
    (((opened ()).run heavy laden).handleBlock heavy last last.toBlob [] clock).1 =
        .ok (.mainChain 2) ∧
      (((opened ()).run heavy laden).handleBlock heavy last last.toBlob []
        clock).2.state.cumulativeDifficulty <
        ((opened ()).run heavy laden).state.cumulativeDifficulty := by
  decide +kernel

end

end Wownero

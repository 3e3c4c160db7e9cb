import Mathlib.Data.List.Perm.Basic
import Wownero.Ends
import Wownero.Planning
/-!
# What the planners pick from

What each step of choosing an output takes out of a list and what it leaves: the positions of the
least related, the smallest of them, the one popped, the pair that is preferred, and the groups with
the one in front.  Every index is one of the transfer list, so none of the steps stops the program.
-/

namespace Wownero.Planning

open Outcome

variable {transfers : List Transfer} {options : SpendOptions} {indices : List UInt32}

/-! ### Indexing -/

theorem yields_elemAt {α : Type} {v : List α} {i : Nat} (h : i < v.length) :
    Yields (fun a => v[i]? = some a) (elemAt v i) := by
  simp [yields_iff, elemAt, h]

theorem elemAt_of_getElem? {α : Type} {v : List α} {i : Nat} {a : α} (h : v[i]? = some a) :
    elemAt v i = .ok a := by
  simp [elemAt, h]

theorem less_of_le {a b : Nat} (h : b ≤ a) : less a b = .ok (a - b) := if_pos h

/-- Indices of transfers. -/
def Within (transfers : List Transfer) (l : List Nat) : Prop := ∀ i ∈ l, i < transfers.length

theorem Within.subset {l l' : List Nat} (h : Within transfers l) (hsub : l' ⊆ l) : Within transfers l' :=
  fun i hi => h i (hsub hi)

/-! ### The least related -/

theorem outputRelatedness_le (a b : Transfer) : outputRelatedness a b ≤ 10 := by
  unfold outputRelatedness
  split
  · simp
  · split
    · simp
    · simp
    · split <;> simp

theorem yields_relatednessTo {t : Transfer} {selected : List Nat} (hsel : Within transfers selected)
    {r : Nat} (hr : r ≤ 10) : Yields (· ≤ 10) (relatednessTo transfers t r selected) := by
  induction selected generalizing r with
  | nil => exact hr
  | cons s selected ih =>
      have hrest : Within transfers selected := hsel.subset (List.subset_cons_self s selected)
      rw [relatednessTo]
      apply (yields_elemAt (hsel s List.mem_cons_self)).bind
      intro u _
      have hu := outputRelatedness_le t u
      simp only
      split
      · split
        · exact hu
        · exact ih hrest hu
      · exact ih hrest hr

/-- The candidates are positions, and there are some once the first output has been looked at. -/
theorem yields_leastRelated {selected unused : List Nat} (hsel : Within transfers selected)
    (hunused : Within transfers unused) {n best : Nat} {candidates : List Nat}
    (hpositions : ∀ c ∈ candidates, c < n)
    (hsome : candidates ≠ [] ∨ unused ≠ [] ∧ best = 10) :
    Yields (fun found => found ≠ [] ∧ ∀ c ∈ found, c < n + unused.length)
      (leastRelated transfers selected n unused best candidates) := by
  induction unused generalizing n best candidates with
  | nil =>
      rcases hsome with hne | ⟨hne, -⟩
      · exact ⟨hne, hpositions⟩
      · exact absurd rfl hne
  | cons i unused ih =>
      have hrest : Within transfers unused := hunused.subset (List.subset_cons_self i unused)
      have hlen : n + 1 + unused.length = n + (i :: unused).length := by simp; omega
      have hlater : ∀ c ∈ candidates, c < n + 1 := fun c hc => Nat.lt_succ_of_lt (hpositions c hc)
      rw [leastRelated]
      apply (yields_elemAt (hunused i List.mem_cons_self)).bind
      intro t _
      apply (yields_relatednessTo hsel (Nat.zero_le 10)).bind
      intro relatedness hle
      rw [← hlen]
      split
      · apply ih hrest
        · intro c hc
          simp at hc
          omega
        · simp
      · split
        · apply ih hrest
          · intro c hc
            rcases List.mem_append.mp hc with hc | hc
            · exact hlater c hc
            · simp at hc
              omega
          · simp
        · rename_i hnot hne
          apply ih hrest hlater
          -- The best so far is not the most there can be, so there is a candidate already.
          rcases hsome with hcand | ⟨-, rfl⟩
          · exact .inl hcand
          · omega

theorem yields_amountAt {unused : List Nat} (hunused : Within transfers unused) {c : Nat}
    (hc : c < unused.length) : Yields (fun _ => True) (amountAt transfers unused c) := by
  unfold amountAt
  apply (yields_elemAt hc).bind
  intro i hi
  have hmem : i ∈ unused := List.mem_of_getElem? hi
  apply (yields_elemAt (hunused i hmem)).bind
  intro t _
  exact trivial

theorem yields_smallestFrom {unused candidates rest : List Nat} (hunused : Within transfers unused)
    (hpositions : ∀ c ∈ candidates, c < unused.length) (hrest : rest ⊆ candidates) {n best : Nat}
    (hlen : n + rest.length = candidates.length) (hbest : best < candidates.length) :
    Yields (· < candidates.length) (smallestFrom transfers unused candidates n rest best) := by
  induction rest generalizing n best with
  | nil => exact hbest
  | cons c rest ih =>
      simp only [List.cons_subset] at hrest
      simp only [List.length_cons] at hlen
      rw [smallestFrom]
      apply (yields_amountAt hunused (hpositions c hrest.1)).bind
      intro amount _
      apply (yields_elemAt hbest).bind
      intro b hb
      apply (yields_amountAt hunused (hpositions b (List.mem_of_getElem? hb))).bind
      intro held _
      apply ih hrest.2 (by omega)
      split <;> omega

/-! ### Taking one out -/

/-- Where a value stands and the last one takes its place, the others are left. -/
theorem set_last_perm {v : List Nat} {i a d : Nat} (h : v[i]? = some a) :
    v.Perm (a :: (v.set i (v.getLastD d)).dropLast) := by
  obtain ⟨hi, hat⟩ := List.getElem?_eq_some_iff.mp h
  rcases List.eq_nil_or_concat v with rfl | ⟨front, last, rfl⟩
  · simp at hi
  simp only [List.concat_eq_append] at hi hat ⊢
  subst hat
  have hlast : (front ++ [last]).getLastD d = last := by simp
  rw [hlast]
  by_cases hend : i < front.length
  · rw [List.set_append_left _ _ hend, List.dropLast_concat, List.getElem_append_left hend]
    have hperm : (front.set i last).Perm (last :: front.eraseIdx i) := List.set_perm_cons_eraseIdx hend last
    have hback : front.Perm (front[i] :: front.eraseIdx i) := (List.getElem_cons_eraseIdx_perm hend).symm
    calc (front ++ [last]).Perm (last :: front) := List.perm_append_singleton last front
      _ |>.Perm (last :: front[i] :: front.eraseIdx i) := hback.cons last
      _ |>.Perm (front[i] :: last :: front.eraseIdx i) := List.Perm.swap ..
      _ |>.Perm (front[i] :: front.set i last) := hperm.symm.cons _
  · have heq : i = front.length := by
      simp at hi
      omega
    subst heq
    simp [List.perm_append_singleton]

theorem yields_swapRemove {v : List Nat} {i : Nat} (h : i < v.length) :
    Yields (fun out => v.Perm (out.1 :: out.2)) (swapRemove v i) := by
  unfold swapRemove
  apply (yields_elemAt h).bind
  intro removed hremoved
  exact set_last_perm hremoved

/-- **`pop_best_value`** takes one output out of those there are. -/
theorem yields_popBestValue {unused selected : List Nat} (hunused : Within transfers unused)
    (hsel : Within transfers selected) (hne : unused ≠ []) (smallest : Bool) (rng : RandomSource) :
    Yields (fun out => unused.Perm (out.1.1 :: out.1.2))
      (popBestValue transfers unused selected smallest rng) := by
  unfold popBestValue
  have hnone : ∀ c ∈ ([] : List Nat), c < 0 := by simp
  apply (yields_leastRelated hsel hunused hnone (.inr ⟨hne, rfl⟩)).bind
  rintro candidates ⟨hcand, hpositions⟩
  simp only [Nat.zero_add] at hpositions
  have hpos : 0 < candidates.length := List.length_pos_iff.mpr hcand
  split
  · apply (yields_smallestFrom hunused hpositions (List.Subset.refl _) (by simp) hpos).bind
    intro pick hpick
    apply (yields_elemAt hpick).bind
    intro c hc
    apply (yields_swapRemove (hpositions c (List.mem_of_getElem? hc))).bind
    intro out hout
    exact hout
  · have hbelow : (rng.below candidates.length).1 < candidates.length := by
      simp only [RandomSource.below, if_neg (Nat.ne_of_gt hpos)]
      exact Nat.mod_lt _ hpos
    apply (yields_elemAt hbelow).bind
    intro c hc
    apply (yields_swapRemove (hpositions c (List.mem_of_getElem? hc))).bind
    intro out hout
    exact hout

/-- **`pop_if_present`** takes an output out, if it is there. -/
theorem popIfPresent_cases (unused : List Nat) (index : Nat) :
    (index ∉ unused ∧ popIfPresent unused index = unused) ∨
      unused.Perm (index :: popIfPresent unused index) := by
  unfold popIfPresent
  cases hfind : unused.findIdx? (· == index) with
  | none =>
      left
      simp only [and_true]
      intro hmem
      rw [List.findIdx?_eq_none_iff] at hfind
      simpa using hfind index hmem
  | some i =>
      right
      obtain ⟨hi, hat, -⟩ := List.findIdx?_eq_some_iff_getElem.mp hfind
      apply set_last_perm
      rw [List.getElem?_eq_getElem hi, Option.some.injEq]
      simpa using hat

/-! ### The preferred picks -/

/-- A pair that covers what is needed, both outputs of one subaddress. -/
structure PreferredPair (transfers : List Transfer) (options : SpendOptions) (indices : List UInt32)
    (needed i j : Nat) (t t₂ : Transfer) : Prop where
  first : transfers[i]? = some t
  second : transfers[j]? = some t₂
  distinct : i ≠ j
  eligible : eligible options indices t = true
  inRange : outsideRange options t = false
  pairs : pairs options needed t t₂ = true

theorem pairs_iff {needed : Nat} {t t₂ : Transfer} : pairs options needed t t₂ = true ↔
    outsideRange options t₂ = false ∧ spendableNow options t₂ = true ∧
      needed ≤ saturatingAdd t.amount t₂.amount ∧ t₂.subaddress = t.subaddress := by
  simp [pairs, and_assoc]

theorem eligible_iff {t : Transfer} : eligible options indices t = true ↔
    spendableNow options t = true ∧ t.subaddress.major = options.account ∧
      t.subaddress.minor ∈ indices := by
  simp [eligible, and_assoc]

theorem PreferredPair.eligible_second {needed i j : Nat} {t t₂ : Transfer}
    (h : PreferredPair transfers options indices needed i j t t₂) :
    Planning.eligible options indices t₂ = true := by
  obtain ⟨-, hspendable, -, hsame⟩ := pairs_iff.mp h.pairs
  obtain ⟨-, hmajor, hminor⟩ := eligible_iff.mp h.eligible
  rw [eligible_iff, hsame]
  exact ⟨hspendable, hmajor, hminor⟩

/-- The inner loop finds a pair with `t`, or leaves what was found. -/
theorem pairWith_cases (needed : Nat) {i : Nat} {t : Transfer} (ht : transfers[i]? = some t)
    (heligible : eligible options indices t = true) (hrange : outsideRange options t = false)
    {rest : List (Transfer × Nat)} (hrest : ∀ p ∈ rest, transfers[p.2]? = some p.1 ∧ i ≠ p.2)
    (found : List Nat × Nat) :
    (pairWith options needed i t rest found).1.1 = found.1 ∨
      ∃ j t₂, (pairWith options needed i t rest found).1.1 = [i, j] ∧
        PreferredPair transfers options indices needed i j t t₂ := by
  induction rest generalizing found with
  | nil => exact .inl rfl
  | cons p rest ih =>
      obtain ⟨t₂, j⟩ := p
      obtain ⟨hp, htail⟩ := List.forall_mem_cons.mp hrest
      rw [pairWith]
      split
      · rename_i hpair
        simp only [Bool.and_eq_true, decide_eq_true_eq] at hpair
        have hpreferred : PreferredPair transfers options indices needed i j t t₂ :=
          ⟨ht, hp.1, hp.2, heligible, hrange, hpair.1⟩
        split
        · exact .inr ⟨j, t₂, rfl, hpreferred⟩
        · rcases ih htail ([i, j], outputRelatedness t t₂) with heq | hfound
          · exact .inr ⟨j, t₂, heq, hpreferred⟩
          · exact .inr hfound
      · exact ih htail found

/-- The outer loop finds nothing but such pairs. -/
theorem leastRelatedPair_cases (options : SpendOptions) (indices : List UInt32) (needed : Nat)
    {rest : List (Transfer × Nat)}
    (hrest : ∀ p ∈ rest, transfers[p.2]? = some p.1) (hnodup : (rest.map (·.2)).Nodup)
    (found : List Nat × Nat) :
    leastRelatedPair options indices needed rest found = found.1 ∨
      ∃ i j t t₂, leastRelatedPair options indices needed rest found = [i, j] ∧
        PreferredPair transfers options indices needed i j t t₂ := by
  induction rest generalizing found with
  | nil => exact .inl rfl
  | cons p rest ih =>
      obtain ⟨t, i⟩ := p
      obtain ⟨ht, htail⟩ := List.forall_mem_cons.mp hrest
      rw [List.map_cons, List.nodup_cons] at hnodup
      rw [leastRelatedPair]
      split
      · exact ih htail hnodup.2 found
      · rename_i hout
        simp only [Bool.or_eq_true, Bool.not_eq_true', not_or, Bool.not_eq_false,
          Bool.not_eq_true] at hout
        have hlater : ∀ p ∈ rest, transfers[p.2]? = some p.1 ∧ i ≠ p.2 := by
          intro p hp
          refine ⟨htail p hp, ?_⟩
          intro heq
          exact hnodup.1 (List.mem_map.mpr ⟨p, hp, heq.symm⟩)
        rcases pairWith_cases needed ht hout.1 hout.2 hlater found with hsame | hpair
        · simp only
          split
          · exact .inl hsame
          · rcases ih htail hnodup.2 (pairWith options needed i t rest found).1 with heq | hfound
            · exact .inl (heq.trans hsame)
            · exact .inr hfound
        · obtain ⟨j, t₂, heq, hpreferred⟩ := hpair
          simp only
          split
          · exact .inr ⟨i, j, t, t₂, heq, hpreferred⟩
          · rcases ih htail hnodup.2 (pairWith options needed i t rest found).1 with hkept | hfound
            · exact .inr ⟨i, j, t, t₂, hkept.trans heq, hpreferred⟩
            · exact .inr hfound

theorem mem_zipIdx_getElem? {p : Transfer × Nat} (h : p ∈ transfers.zipIdx) :
    transfers[p.2]? = some p.1 := by
  obtain ⟨t, i⟩ := p
  exact List.mk_mem_zipIdx_iff_getElem?.mp h

theorem nodup_zipIdx (transfers : List Transfer) : (transfers.zipIdx.map (·.2)).Nodup := by
  rw [List.zipIdx_map_snd]
  exact List.nodup_range'

/-- An output that covers what is needed by itself. -/
structure PreferredSingle (transfers : List Transfer) (options : SpendOptions) (indices : List UInt32)
    (needed i : Nat) (t : Transfer) : Prop where
  first : transfers[i]? = some t
  eligible : eligible options indices t = true
  inRange : outsideRange options t = false
  covers : needed ≤ t.amount

/-- **`pick_preferred_inputs`**: one output that covers what is needed, or a pair that does, or
    nothing. -/
theorem pickPreferredInputs_cases (transfers : List Transfer) (needed : Nat) (options : SpendOptions)
    (indices : List UInt32) :
    pickPreferredInputs transfers needed options indices = [] ∨
      (∃ i t, pickPreferredInputs transfers needed options indices = [i] ∧
        PreferredSingle transfers options indices needed i t) ∨
      ∃ i j t t₂, pickPreferredInputs transfers needed options indices = [i, j] ∧
        PreferredPair transfers options indices needed i j t t₂ := by
  unfold pickPreferredInputs
  split
  · rename_i i hfind
    obtain ⟨hi, hat, -⟩ := List.findIdx?_eq_some_iff_getElem.mp hfind
    simp only [Bool.and_eq_true, decide_eq_true_eq, Bool.not_eq_true'] at hat
    exact .inr (.inl ⟨i, transfers[i], rfl, List.getElem?_eq_getElem hi, hat.1.1, hat.2, hat.1.2⟩)
  · rcases leastRelatedPair_cases options indices needed
      (fun p hp => mem_zipIdx_getElem? hp) (nodup_zipIdx transfers) ([], 10) with hnone | hpair
    · exact .inl hnone
    · exact .inr (.inr hpair)

/-! ### Groups -/

/-- Outputs grouped by subaddress. -/
structure Grouped (transfers : List Transfer) (options : SpendOptions) (indices : List UInt32)
    (groups : List (UInt32 × List Nat)) : Prop where
  minors : (groups.map (·.1)).Nodup
  filed : ∀ g ∈ groups, ∀ i ∈ g.2, ∃ t, transfers[i]? = some t ∧
    groupable options indices t = true ∧ t.subaddress.minor = g.1
  nodup : (groups.flatMap (·.2)).Nodup
  nonempty : ∀ g ∈ groups, g.2 ≠ []

theorem addToGroup_perm (minor : UInt32) (i : Nat) (groups : List (UInt32 × List Nat)) :
    ((addToGroup minor i groups).flatMap (·.2)).Perm (i :: groups.flatMap (·.2)) := by
  induction groups with
  | nil => exact List.Perm.refl _
  | cons g groups ih =>
      rw [addToGroup]
      split
      · simp only [List.flatMap_cons, List.append_assoc]
        exact List.perm_middle
      · simp only [List.flatMap_cons]
        exact (ih.append_left g.2).trans List.perm_middle

theorem addToGroup_minors (minor : UInt32) (i : Nat) (groups : List (UInt32 × List Nat)) :
    (addToGroup minor i groups).map (·.1) =
      groups.map (·.1) ++ if minor ∈ groups.map (·.1) then [] else [minor] := by
  induction groups with
  | nil => rfl
  | cons g groups ih =>
      rw [addToGroup]
      by_cases hg : g.1 = minor
      · simp [hg]
      · rw [if_neg hg, List.map_cons, ih]
        have hmem : minor ∈ (g :: groups).map (·.1) ↔ minor ∈ groups.map (·.1) := by
          rw [List.map_cons, List.mem_cons]
          exact or_iff_right fun h => hg h.symm
        simp only [hmem]
        rfl

theorem mem_addToGroup {minor : UInt32} {i : Nat} {groups : List (UInt32 × List Nat)}
    {g : UInt32 × List Nat} (h : g ∈ addToGroup minor i groups) :
    g.2 ≠ [] ∧ (∀ j ∈ g.2, j = i ∧ g.1 = minor ∨ ∃ g' ∈ groups, g'.1 = g.1 ∧ j ∈ g'.2) ∨
      g ∈ groups := by
  induction groups with
  | nil =>
      rw [addToGroup, List.mem_singleton] at h
      subst h
      exact .inl ⟨by simp, fun j hj => .inl ⟨by simpa using hj, rfl⟩⟩
  | cons g' groups ih =>
      rw [addToGroup] at h
      split at h
      · rename_i hminor
        rcases List.mem_cons.mp h with rfl | h
        · refine .inl ⟨by simp, fun j hj => ?_⟩
          rcases List.mem_append.mp hj with hj | hj
          · exact .inr ⟨g', List.mem_cons_self, rfl, hj⟩
          · exact .inl ⟨by simpa using hj, hminor⟩
        · exact .inr (List.mem_cons_of_mem g' h)
      · rcases List.mem_cons.mp h with rfl | h
        · exact .inr List.mem_cons_self
        · rcases ih h with ⟨hne, hfrom⟩ | hin
          · refine .inl ⟨hne, fun j hj => ?_⟩
            rcases hfrom j hj with hnew | ⟨g'', hin, hrest⟩
            · exact .inl hnew
            · exact .inr ⟨g'', List.mem_cons_of_mem g' hin, hrest⟩
          · exact .inr (List.mem_cons_of_mem g' hin)

theorem Grouped.add {groups : List (UInt32 × List Nat)}
    (h : Grouped transfers options indices groups) {i : Nat} {t : Transfer}
    (ht : transfers[i]? = some t) (hgroupable : groupable options indices t = true)
    (hnew : i ∉ groups.flatMap (·.2)) :
    Grouped transfers options indices (addToGroup t.subaddress.minor i groups) := by
  refine ⟨?_, ?_, ?_, ?_⟩
  · rw [addToGroup_minors]
    split
    · simpa using h.minors
    · rename_i hnot
      apply h.minors.append (List.nodup_singleton _)
      simpa using hnot
  · intro g hg j hj
    rcases mem_addToGroup hg with ⟨-, hfrom⟩ | hin
    · rcases hfrom j hj with ⟨rfl, hminor⟩ | ⟨g', hg', hsame, hj'⟩
      · exact ⟨t, ht, hgroupable, hminor.symm⟩
      · rw [← hsame]
        exact h.filed g' hg' j hj'
    · exact h.filed g hin j hj
  · rw [(addToGroup_perm _ _ _).nodup_iff]
    exact List.nodup_cons.mpr ⟨hnew, h.nodup⟩
  · intro g hg
    rcases mem_addToGroup hg with ⟨hne, -⟩ | hin
    · exact hne
    · exact h.nonempty g hin

theorem grouped_nil (transfers : List Transfer) (options : SpendOptions) (indices : List UInt32) :
    Grouped transfers options indices [] :=
  ⟨List.nodup_nil, by simp, List.nodup_nil, by simp⟩

/-- The outputs seen so far that may stand in a group are the ones that do. -/
theorem grouped_foldl {seen : List (Transfer × Nat)} (hseen : ∀ p ∈ seen, transfers[p.2]? = some p.1)
    (hnodup : (seen.map (·.2)).Nodup) {groups : List (UInt32 × List Nat)}
    (h : Grouped transfers options indices groups)
    (hfresh : ∀ p ∈ seen, p.2 ∉ groups.flatMap (·.2)) :
    Grouped transfers options indices (seen.foldl (fun groups p =>
        if groupable options indices p.1 then addToGroup p.1.subaddress.minor p.2 groups else groups)
        groups) ∧
      ∀ i, i ∈ (seen.foldl (fun groups p =>
          if groupable options indices p.1 then addToGroup p.1.subaddress.minor p.2 groups else groups)
          groups).flatMap (·.2) ↔
        i ∈ groups.flatMap (·.2) ∨ ∃ t, (t, i) ∈ seen ∧ groupable options indices t = true := by
  induction seen generalizing groups with
  | nil => exact ⟨h, by simp⟩
  | cons p seen ih =>
      obtain ⟨t, i⟩ := p
      obtain ⟨ht, htail⟩ := List.forall_mem_cons.mp hseen
      obtain ⟨hi, hlater⟩ := List.forall_mem_cons.mp hfresh
      rw [List.map_cons, List.nodup_cons] at hnodup
      rw [List.foldl_cons]
      by_cases hgroupable : groupable options indices t = true
      · rw [if_pos hgroupable]
        have hmem (j : Nat) : j ∈ (addToGroup t.subaddress.minor i groups).flatMap (·.2) ↔
            j = i ∨ j ∈ groups.flatMap (·.2) := by
          rw [(addToGroup_perm _ _ _).mem_iff, List.mem_cons]
        have hfresh' : ∀ p ∈ seen, p.2 ∉ (addToGroup t.subaddress.minor i groups).flatMap (·.2) := by
          intro p hp hin
          rcases (hmem p.2).mp hin with heq | hin
          · exact hnodup.1 (List.mem_map.mpr ⟨p, hp, heq⟩)
          · exact hlater p hp hin
        obtain ⟨hgrouped, hiff⟩ := ih htail hnodup.2 (h.add ht hgroupable hi) hfresh'
        refine ⟨hgrouped, fun j => ?_⟩
        rw [hiff, hmem]
        constructor
        · rintro ((rfl | hin) | ⟨t', hin, hg⟩)
          · exact .inr ⟨t, List.mem_cons_self, hgroupable⟩
          · exact .inl hin
          · exact .inr ⟨t', List.mem_cons_of_mem _ hin, hg⟩
        · rintro (hin | ⟨t', hin, hg⟩)
          · exact .inl (.inr hin)
          · rcases List.mem_cons.mp hin with heq | hin
            · cases heq
              exact .inl (.inl rfl)
            · exact .inr ⟨t', hin, hg⟩
      · rw [if_neg hgroupable]
        obtain ⟨hgrouped, hiff⟩ := ih htail hnodup.2 h hlater
        refine ⟨hgrouped, fun j => ?_⟩
        rw [hiff]
        constructor
        · rintro (hin | ⟨t', hin, hg⟩)
          · exact .inl hin
          · exact .inr ⟨t', List.mem_cons_of_mem _ hin, hg⟩
        · rintro (hin | ⟨t', hin, hg⟩)
          · exact .inl hin
          · rcases List.mem_cons.mp hin with heq | hin
            · cases heq
              exact absurd hg hgroupable
            · exact .inr ⟨t', hin, hg⟩

/-- **The groups** hold every output that may stand in one, each once and under its subaddress. -/
theorem grouped_collectGroups (transfers : List Transfer) (options : SpendOptions)
    (indices : List UInt32) :
    Grouped transfers options indices (collectGroups transfers options indices) ∧
      ∀ i, i ∈ (collectGroups transfers options indices).flatMap (·.2) ↔
        ∃ t, transfers[i]? = some t ∧ groupable options indices t = true := by
  obtain ⟨hgrouped, hiff⟩ := grouped_foldl (fun p hp => mem_zipIdx_getElem? hp)
    (nodup_zipIdx transfers) (grouped_nil transfers options indices) (by simp)
  refine ⟨hgrouped, fun i => ?_⟩
  rw [collectGroups, hiff]
  simp [List.mk_mem_zipIdx_iff_getElem?]

theorem Grouped.perm {groups groups' : List (UInt32 × List Nat)}
    (h : Grouped transfers options indices groups) (hperm : groups'.Perm groups) :
    Grouped transfers options indices groups' :=
  ⟨(hperm.map _).nodup_iff.mpr h.minors, fun g hg => h.filed g (hperm.mem_iff.mp hg),
    (hperm.flatMap_right _).nodup_iff.mpr h.nodup, fun g hg => h.nonempty g (hperm.mem_iff.mp hg)⟩

theorem sortGroups_perm (unlocked : Table UInt32 Nat) (groups : List (UInt32 × List Nat)) :
    (sortGroups unlocked groups).Perm groups := List.perm_insertionSort _ _

theorem bringToFront_perm (minor : UInt32) (groups : List (UInt32 × List Nat)) :
    (bringToFront minor groups).Perm groups := by
  cases groups with
  | nil => exact List.Perm.refl _
  | cons g groups =>
      rw [bringToFront]
      split
      · rename_i n hfind
        obtain ⟨hn, -, -⟩ := List.findIdx?_eq_some_iff_getElem.mp hfind
        have hfound : groups.getD n g = groups[n] := by simp [hn]
        rw [hfound]
        have hset : (groups.set n g).Perm (g :: groups.eraseIdx n) := List.set_perm_cons_eraseIdx hn g
        have hback : (groups[n] :: groups.eraseIdx n).Perm groups := List.getElem_cons_eraseIdx_perm hn
        exact (hset.cons _).trans ((List.Perm.swap ..).trans (hback.cons g))
      · exact List.Perm.refl _

/-- The group of the subaddress stands in front, if there is one. -/
theorem bringToFront_front {minor : UInt32} {groups : List (UInt32 × List Nat)}
    (h : (groups.map (·.1)).Nodup) :
    ∀ g ∈ (bringToFront minor groups).tail, g.1 ≠ minor := by
  cases groups with
  | nil => simp [bringToFront]
  | cons g groups =>
      rw [List.map_cons, List.nodup_cons] at h
      rw [bringToFront]
      split
      · rename_i n hfind
        obtain ⟨hn, hat, -⟩ := List.findIdx?_eq_some_iff_getElem.mp hfind
        simp only [beq_iff_eq] at hat
        rw [List.tail_cons]
        intro g' hg' heq
        have hperm : (groups.set n g).Perm (g :: groups.eraseIdx n) := List.set_perm_cons_eraseIdx hn g
        have hback : (groups[n] :: groups.eraseIdx n).Perm groups := List.getElem_cons_eraseIdx_perm hn
        rcases List.mem_cons.mp (hperm.mem_iff.mp hg') with rfl | hin
        · apply h.1
          rw [heq, ← hat]
          exact List.mem_map_of_mem (List.getElem_mem hn)
        · have hnodup := ((hback.map (·.1)).nodup_iff).mpr h.2
          rw [List.map_cons, List.nodup_cons, hat, ← heq] at hnodup
          exact hnodup.1 (List.mem_map_of_mem hin)
      · rename_i hnone
        rw [List.findIdx?_eq_none_iff] at hnone
        intro g' hg'
        simpa using hnone g' hg'

end Wownero.Planning

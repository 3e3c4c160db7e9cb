import Mathlib.Data.List.Sort
import Wownero.RankedTable
/-!
# The stems of an epoch

The connections stem transactions go out on, and which of them each source's transactions take.
Slots lose their connection and get another one without a word to the sources mapped to them: a
source finds out when it next sends.
-/

namespace Wownero

instance : Ranked (Option Nat) :=
  ⟨fun source => source.elim 0 Nat.succ, fun a b h => by
    cases a <;> cases b <;> simp_all⟩

/-- Random draws: the `k`-th of an operation, below a bound. -/
structure Draws where
  below : Nat → Nat → Nat
  inRange : ∀ k n, 0 < n → below k n < n

/-- Ids of connections, each once. -/
structure Connections where
  ids : List Nat
  nodup : ids.Nodup

/-- `StemMap`: the connection in each stem slot, the slot of each source, and how many sources each
    slot has.  The source of what this node originates is `none`. -/
structure StemMap where
  out : List (Option Nat)
  sources : Table (Option Nat) Nat
  usage : List Nat

namespace StemMap

/-! ### The operations -/

/-- The shuffle of `new`: of `stems` of the connections, or of all of them. -/
def shuffle (connections : List Nat) (stems : Nat) (rand : Draws) : List Nat :=
  if stems < connections.length then
    ((List.range stems).foldl
      (fun cs i => cs.swap i (i + rand.below i (cs.length - i))) connections).take stems
  else
    (List.range' 1 (connections.length - 1)).reverse.foldl
      (fun cs i => cs.swap i (rand.below i (i + 1))) connections

/-- `StemMap::new`. -/
def new (connections : Connections) (stems : Nat) (rand : Draws) : StemMap where
  out := (shuffle connections.ids stems rand).map some
  sources := .empty
  usage := List.replicate stems 0

/-- The first loop of `update`: slots whose connection is gone are emptied.  The candidates ascend,
    so the search finds a connection exactly when it is among them. -/
def emptyGone : List (Option Nat) → List Nat → List (Option Nat) × List Nat × Bool
  | [], current => ([], current, false)
  | slot :: slots, current =>
      match slot.filter current.contains with
      | some id =>
          let rest := emptyGone slots (current.erase id)
          (some id :: rest.1, rest.2)
      | none =>
          let rest := emptyGone slots current
          (none :: rest.1, rest.2.1, true)

/-- A connection put in a slot, or in a new one after the last. -/
def putSlot (out : List (Option Nat)) (i : Nat) (id : Option Nat) : List (Option Nat) :=
  if out.length ≤ i then out ++ [id] else out.set i id

/-- The second loop: empty slots take a candidate each, and slots never filled are added. -/
def fillEmpty (rand : Draws) : List Nat → List (Option Nat) → List Nat →
    List (Option Nat) × List Nat
  | [], out, current => (out, current)
  | i :: is, out, current =>
      if current.isEmpty then (out, current)
      else if out.length ≤ i ∨ out[i]? = some none then
        let swapped := current.swap (current.length - 1) (rand.below i current.length)
        fillEmpty rand is (putSlot out i swapped.getLast?) swapped.dropLast
      else fillEmpty rand is out current

/-- `update`, and whether anything changed. -/
def update (m : StemMap) (current : Connections) (rand : Draws) : StemMap × Bool :=
  let kept := emptyGone m.out (current.ids.insertionSort (· ≤ ·))
  if kept.2.2 = false ∧ kept.1.length = m.usage.length then ({ m with out := kept.1 }, false)
  else
    let filled := fillEmpty rand (List.range m.usage.length) kept.1 kept.2.1
    ({ m with out := filled.1 }, kept.2.2 || decide (kept.1.length < filled.1.length))

/-- The loop of `least_used`: the lowest count so far, and the slots that have it.  No count is
    above the `usize::MAX` it starts from, which is `none`.  Nothing is returned where an index is
    out of bounds. -/
def leastUsedFrom (usage : List Nat) : Nat → List (Option Nat) → Option Nat → List Nat →
    Option (List Nat)
  | _, [], _, choices => some choices
  | i, none :: slots, lowest, choices => leastUsedFrom usage (i + 1) slots lowest choices
  | i, some _ :: slots, lowest, choices => do
      let used ← usage[i]?
      if lowest.all (used < ·) then leastUsedFrom usage (i + 1) slots (some used) [i]
      else if lowest = some used then leastUsedFrom usage (i + 1) slots lowest (choices ++ [i])
      else leastUsedFrom usage (i + 1) slots lowest choices

/-- `least_used`: a live slot with the fewest sources, drawn among equals. -/
def leastUsed (m : StemMap) (rand : Draws) : Option (Option Nat) := do
  let choices ← leastUsedFrom m.usage 0 m.out none []
  match choices with
  | [] => return none
  | [slot] => return some slot
  | _ => return some (← choices[rand.below 0 choices.length]?)

/-- A source that has no stem, or has none any more. -/
def assign (m : StemMap) (source : Option Nat) (rand : Draws) : Option (Option Nat × StemMap) := do
  match ← m.leastUsed rand with
  | none => return (none, { m with sources := m.sources.del source })
  | some slot =>
      let used ← m.usage[slot]?
      let stem ← m.out[slot]?
      return (stem, { m with
        sources := m.sources.put source slot
        usage := m.usage.set slot (used + 1) })

/-- `get_stem`.  Nothing is returned where it panics. -/
def getStem (m : StemMap) (source : Option Nat) (rand : Draws) :
    Option (Option Nat × StemMap) := do
  match m.sources.get source with
  | none => m.assign source rand
  | some old =>
      let held ← m.out[old]?
      if held.isSome then return (held, m)
      else
        let used ← m.usage[old]?
        { m with usage := m.usage.set old (used - 1) }.assign source rand

/-! ### Runs -/

/-- What happens to a map. -/
inductive Op where
  | update (current : Connections) (rand : Draws)
  | getStem (source : Option Nat) (rand : Draws)

/-- The map after an operation; none after a panic. -/
def perform (m : StemMap) : Op → Option StemMap
  | .update current rand => some (m.update current rand).1
  | .getStem source rand => (m.getStem source rand).map (·.2)

def run (m : StemMap) (ops : List Op) : Option StemMap := ops.foldlM perform m

/-- A slot that has a connection. -/
def Live (m : StemMap) (slot id : Nat) : Prop := m.out[slot]? = some (some id)

/-- No connection in two slots. -/
def Apart (out : List (Option Nat)) : Prop :=
  ∀ i j id : Nat, out[i]? = some (some id) → out[j]? = some (some id) → i = j

/-- The invariant: no more slots than counts, no connection in two slots, every source in one of
    the slots, and the counts right. -/
structure Sound (m : StemMap) : Prop where
  slots : m.out.length ≤ m.usage.length
  apart : Apart m.out
  mapped : ∀ source slot, m.sources.get source = some slot → slot < m.out.length
  counted : ∀ i < m.usage.length,
    m.usage[i]? = some (m.sources.total fun _ slot => if slot = i then 1 else 0)

/-! ### A new map -/

theorem foldl_swap_perm (f : List Nat → Nat → Nat) (is connections : List Nat) :
    (is.foldl (fun cs i => cs.swap i (f cs i)) connections).Perm connections := by
  induction is generalizing connections with
  | nil => exact List.Perm.refl _
  | cons i is ih => exact (ih _).trans (List.swap_perm _ _ _)

theorem shuffle_nodup (connections : Connections) (stems : Nat) (rand : Draws) :
    (shuffle connections.ids stems rand).Nodup := by
  unfold shuffle
  split_ifs
  · have hperm := foldl_swap_perm (fun cs i => i + rand.below i (cs.length - i)) (List.range stems)
      connections.ids
    exact (hperm.nodup_iff.mpr connections.nodup).sublist (List.take_sublist _ _)
  · exact (foldl_swap_perm (fun _ i => rand.below i (i + 1)) _ _).nodup_iff.mpr connections.nodup

theorem length_shuffle_le (connections : List Nat) (stems : Nat) (rand : Draws) :
    (shuffle connections stems rand).length ≤ stems := by
  unfold shuffle
  split_ifs with hfew
  · exact List.length_take_le _ _
  · rw [(foldl_swap_perm (fun _ i => rand.below i (i + 1)) _ _).length_eq]
    exact Nat.not_lt.mp hfew

theorem new_sound (connections : Connections) (stems : Nat) (rand : Draws) :
    (new connections stems rand).Sound where
  slots := by
    rw [new, List.length_map, List.length_replicate]
    exact length_shuffle_le _ _ _
  apart := by
    intro i j id hi hj
    simp only [new, List.getElem?_map, Option.map_eq_some_iff, Option.some.injEq,
      exists_eq_right] at hi hj
    have hlt := (List.getElem?_eq_some_iff.mp hi).1
    exact (List.getElem?_inj hlt (shuffle_nodup connections stems rand)).mp (hi.trans hj.symm)
  mapped := nofun
  counted := by
    intro i hi
    rw [new, List.length_replicate] at hi
    rw [new, List.getElem?_replicate_of_lt hi, Table.total_empty]

/-! ### Slots emptied and filled -/

/-- The candidates are divided into those that have a slot and those that are left. -/
structure Divided (candidates : List Nat) (out : List (Option Nat)) (left : List Nat) : Prop where
  nodup : left.Nodup
  subset : left ⊆ candidates
  apart : ∀ id ∈ left, ∀ i : Nat, out[i]? ≠ some (some id)
  all : ∀ id ∈ candidates, id ∈ left ∨ ∃ i : Nat, out[i]? = some (some id)

theorem emptyGone_divided {out : List (Option Nat)} {current : List Nat}
    (hnodup : current.Nodup) :
    Divided current (emptyGone out current).1 (emptyGone out current).2.1 := by
  induction out generalizing current with
  | nil => exact ⟨hnodup, List.Subset.refl _, fun _ _ _ => nofun, fun _ h => Or.inl h⟩
  | cons slot slots ih =>
      unfold emptyGone
      cases hkept : slot.filter current.contains with
      | none =>
          obtain ⟨hleft, hsubset, hapart, hall⟩ := ih hnodup
          refine ⟨hleft, hsubset, fun id hid i => ?_, fun id hid => ?_⟩
          · cases i with
            | zero => exact nofun
            | succ i => exact hapart id hid i
          · rcases hall id hid with hin | ⟨i, hi⟩
            · exact Or.inl hin
            · exact Or.inr ⟨i + 1, hi⟩
      | some held =>
          obtain ⟨hslot, hheld⟩ := Option.filter_eq_some_iff.mp hkept
          obtain ⟨hleft, hsubset, hapart, hall⟩ := ih (hnodup.erase held)
          refine ⟨hleft, fun id hid => List.mem_of_mem_erase (hsubset hid), fun id hid i => ?_,
            fun id hid => ?_⟩
          · cases i with
            | zero =>
                rintro ⟨⟩
                exact hnodup.not_mem_erase (hsubset hid)
            | succ i => exact hapart id hid i
          · by_cases heq : id = held
            · exact Or.inr ⟨0, by rw [heq]; rfl⟩
            · rcases hall id ((List.mem_erase_of_ne heq).mpr hid) with hin | ⟨i, hi⟩
              · exact Or.inl hin
              · exact Or.inr ⟨i + 1, hi⟩

theorem length_emptyGone {out : List (Option Nat)} {current : List Nat} :
    (emptyGone out current).1.length = out.length := by
  induction out generalizing current with
  | nil => rfl
  | cons slot slots ih =>
      unfold emptyGone
      cases slot.filter current.contains with
      | none => exact congrArg Nat.succ ih
      | some held => exact congrArg Nat.succ ih

/-- What is in a slot afterwards was there before. -/
theorem emptyGone_of_live {out : List (Option Nat)} {current : List Nat} {i id : Nat}
    (h : (emptyGone out current).1[i]? = some (some id)) : out[i]? = some (some id) := by
  induction out generalizing current i with
  | nil => exact h
  | cons slot slots ih =>
      unfold emptyGone at h
      cases hkept : slot.filter current.contains with
      | none =>
          rw [hkept] at h
          cases i with
          | zero => cases h
          | succ i => exact ih h
      | some held =>
          rw [hkept] at h
          cases i with
          | zero =>
              rw [(Option.filter_eq_some_iff.mp hkept).1]
              exact h
          | succ i => exact ih h

/-- Where nothing was emptied, every slot has a connection. -/
theorem emptyGone_full {out : List (Option Nat)} {current : List Nat}
    (h : (emptyGone out current).2.2 = false) :
    ∀ i < out.length, ∃ id, (emptyGone out current).1[i]? = some (some id) := by
  induction out generalizing current with
  | nil => exact fun i hi => absurd hi (Nat.not_lt_zero i)
  | cons slot slots ih =>
      unfold emptyGone at h ⊢
      cases hkept : slot.filter current.contains with
      | none =>
          rw [hkept] at h
          cases h
      | some held =>
          rw [hkept] at h
          intro i hi
          cases i with
          | zero => exact ⟨held, rfl⟩
          | succ i => exact ih h i (Nat.lt_of_succ_lt_succ hi)

theorem getElem?_putSlot {out : List (Option Nat)} {k : Nat} {id : Option Nat} (hk : k ≤ out.length)
    (j : Nat) : (putSlot out k id)[j]? = if j = k then some id else out[j]? := by
  unfold putSlot
  split_ifs with hgrow heq heq
  · have hlen : j = out.length := by omega
    rw [hlen, List.getElem?_concat_length]
  · rw [List.getElem?_append]
    split_ifs with hlt
    · rfl
    · rw [List.getElem?_eq_none (by simp; omega), List.getElem?_eq_none (by omega)]
  · rw [heq, List.getElem?_set_self (by omega)]
  · exact List.getElem?_set_ne (Ne.symm heq)

theorem length_putSlot {out : List (Option Nat)} {k : Nat} {id : Option Nat} (hk : k ≤ out.length) :
    (putSlot out k id).length = max out.length (k + 1) := by
  unfold putSlot
  split_ifs
  · rw [List.length_append, List.length_singleton]
    omega
  · rw [List.length_set]
    omega

/-- A candidate is drawn and taken off the list. -/
theorem exists_drawn {left : List Nat} (hleft : left ≠ []) (i j : Nat) :
    ∃ id, (left.swap i j).getLast? = some id ∧ left.Perm (id :: (left.swap i j).dropLast) := by
  have hperm := List.swap_perm left i j
  have hne : left.swap i j ≠ [] := fun hnil => hleft (hperm.symm.trans (hnil ▸ .refl _)).eq_nil
  refine ⟨(left.swap i j).getLast hne, List.getLast?_eq_some_getLast hne, hperm.symm.trans ?_⟩
  have hlast := List.perm_append_singleton ((left.swap i j).getLast hne) (left.swap i j).dropLast
  rwa [List.dropLast_append_getLast hne] at hlast

/-- Slots and candidates while empty slots are filled, up to `n` of them. -/
structure Filling (n : Nat) (candidates : List Nat) (out : List (Option Nat)) (left : List Nat) :
    Prop extends Divided candidates out left where
  slots : out.length ≤ n
  distinct : Apart out

/-- A drawn candidate is put in a slot that is empty or new. -/
theorem Filling.putSlot {n k id : Nat} {candidates left left' : List Nat}
    {out : List (Option Nat)} (h : Filling n candidates out left) (hk : k ≤ out.length)
    (hkn : k < n) (hempty : ∀ held, out[k]? ≠ some (some held)) (hdrawn : left.Perm (id :: left')) :
    Filling n candidates (putSlot out k (some id)) left' := by
  have hget := @getElem?_putSlot out k (some id) hk
  have hnodup := List.nodup_cons.mp (hdrawn.nodup_iff.mp h.nodup)
  have hid : id ∈ left := hdrawn.mem_iff.mpr List.mem_cons_self
  have hleft : ∀ id' ∈ left', id' ∈ left := fun id' hin =>
    hdrawn.mem_iff.mpr (List.mem_cons_of_mem _ hin)
  refine ⟨⟨hnodup.2, fun id' hin => h.subset (hleft id' hin), ?_, ?_⟩, ?_, ?_⟩
  · intro id' hin j
    rw [hget]
    split_ifs
    · rintro ⟨⟩
      exact hnodup.1 hin
    · exact h.apart id' (hleft id' hin) j
  · intro id' hin
    rcases h.all id' hin with hin' | ⟨j, hj⟩
    · rcases List.mem_cons.mp (hdrawn.mem_iff.mp hin') with rfl | hin'
      · exact Or.inr ⟨k, by rw [hget, if_pos rfl]⟩
      · exact Or.inl hin'
    · refine Or.inr ⟨j, ?_⟩
      rw [hget, if_neg]
      · exact hj
      · rintro rfl
        exact hempty id' hj
  · rw [length_putSlot hk]
    exact Nat.max_le.mpr ⟨h.slots, hkn⟩
  · intro i j id' hi hj
    rw [hget] at hi hj
    split_ifs at hi hj with hik hjk hjk
    · exact hik.trans hjk.symm
    · cases hi
      exact absurd hj (h.apart id hid j)
    · cases hj
      exact absurd hi (h.apart id hid i)
    · exact h.distinct i j id' hi hj

/-- **The slots fill up** from the first to the last, or the candidates run out. -/
theorem Filling.fillEmpty {n k c : Nat} {candidates left : List Nat} {out : List (Option Nat)}
    {rand : Draws} (h : Filling n candidates out left) (hn : k + c = n)
    (hfull : ∀ j < k, ∃ id, out[j]? = some (some id)) :
    Filling n candidates (fillEmpty rand (List.range' k c) out left).1
        (fillEmpty rand (List.range' k c) out left).2 ∧
      out.length ≤ (fillEmpty rand (List.range' k c) out left).1.length ∧
      ((fillEmpty rand (List.range' k c) out left).2 = [] ∨
        ∀ j < n, ∃ id, (fillEmpty rand (List.range' k c) out left).1[j]? = some (some id)) := by
  induction c generalizing k out left with
  | zero =>
      rw [Nat.add_zero] at hn
      subst hn
      exact ⟨h, Nat.le_refl _, Or.inr hfull⟩
  | succ c ih =>
      have hk : k ≤ out.length := by
        by_contra hlt
        rw [Nat.not_le] at hlt
        obtain ⟨id, hid⟩ := hfull out.length hlt
        rw [List.getElem?_eq_none (Nat.le_refl _)] at hid
        cases hid
      rw [List.range'_succ]
      unfold StemMap.fillEmpty
      by_cases hnone : left.isEmpty = true
      · rw [if_pos hnone]
        exact ⟨h, Nat.le_refl _, Or.inl (List.isEmpty_iff.mp hnone)⟩
      · rw [if_neg hnone]
        by_cases hempty : out.length ≤ k ∨ out[k]? = some none
        · rw [if_pos hempty]
          obtain ⟨id, hlast, hdrawn⟩ := exists_drawn (fun hnil => hnone (List.isEmpty_iff.mpr hnil))
            (left.length - 1) (rand.below k left.length)
          simp only [hlast]
          have hheld : ∀ held, out[k]? ≠ some (some held) := by
            intro held hheld
            rcases hempty with hlen | hslot
            · rw [List.getElem?_eq_none hlen] at hheld
              cases hheld
            · rw [hslot] at hheld
              cases hheld
          obtain ⟨hfilling, hlen, hdone⟩ := @ih (k + 1) _ _
            (h.putSlot hk (by omega) hheld hdrawn) (by omega) (by
              intro j hj
              rw [getElem?_putSlot hk]
              split_ifs with heq
              · exact ⟨id, rfl⟩
              · exact hfull j (by omega))
          refine ⟨hfilling, Nat.le_trans ?_ hlen, hdone⟩
          rw [length_putSlot hk]
          exact Nat.le_max_left _ _
        · rw [if_neg hempty]
          rw [not_or] at hempty
          have hslot : ∃ id, out[k]? = some (some id) := by
            have hget := List.getElem?_eq_getElem (Nat.not_le.mp hempty.1)
            cases hcase : out[k] with
            | none =>
                rw [hcase] at hget
                exact absurd hget hempty.2
            | some id => exact ⟨id, by rw [hget, hcase]⟩
          exact @ih (k + 1) _ _ h (by omega) (by
            intro j hj
            rcases Nat.lt_succ_iff_lt_or_eq.mp hj with hlt | rfl
            · exact hfull j hlt
            · exact hslot)

/-- A map whose slots are all filled, or have taken every candidate. -/
def Filled (m : StemMap) (current : Connections) : Prop :=
  (∀ slot < m.usage.length, ∃ id, m.Live slot id) ∨ ∀ id ∈ current.ids, ∃ slot, m.Live slot id

/-- What `update` does: the sources and their counts stay, slots are not lost, and they are filled
    as far as the candidates go. -/
theorem update_spec (m : StemMap) (hm : m.Sound) (current : Connections) (rand : Draws) :
    (m.update current rand).1.Sound ∧ (m.update current rand).1.sources = m.sources ∧
      (m.update current rand).1.Filled current := by
  have hsort := List.perm_insertionSort (· ≤ ·) current.ids
  have hdivided := @emptyGone_divided m.out (current.ids.insertionSort (· ≤ ·))
    (hsort.nodup_iff.mpr current.nodup)
  have hlen := @length_emptyGone m.out (current.ids.insertionSort (· ≤ ·))
  have hlive := @emptyGone_of_live m.out (current.ids.insertionSort (· ≤ ·))
  have hfull := @emptyGone_full m.out (current.ids.insertionSort (· ≤ ·))
  unfold update
  generalize emptyGone m.out (current.ids.insertionSort (· ≤ ·)) = kept at *
  have hfilling : Filling m.usage.length (current.ids.insertionSort (· ≤ ·)) kept.1 kept.2.1 :=
    ⟨hdivided, hlen ▸ hm.slots, fun i j id hi hj => hm.apart i j id (hlive hi) (hlive hj)⟩
  simp only
  split_ifs with hdone
  · refine ⟨⟨hfilling.slots, hfilling.distinct, ?_, hm.counted⟩, rfl, Or.inl ?_⟩
    · intro source slot hget
      rw [hlen]
      exact hm.mapped source slot hget
    · intro slot hslot
      refine hfull hdone.1 slot ?_
      rw [← hlen, hdone.2]
      exact hslot
  · rw [List.range_eq_range']
    obtain ⟨hfilled, hgrown, hcase⟩ := @Filling.fillEmpty m.usage.length 0 m.usage.length _ _ _
      rand hfilling (Nat.zero_add _) fun j hj => absurd hj (Nat.not_lt_zero j)
    refine ⟨⟨hfilled.slots, hfilled.distinct, ?_, hm.counted⟩, rfl, ?_⟩
    · intro source slot hget
      exact Nat.lt_of_lt_of_le (hm.mapped source slot hget) (hlen ▸ hgrown)
    · rcases hcase with hnil | hall
      · refine Or.inr fun id hid => ?_
        rcases hfilled.all id (hsort.mem_iff.mpr hid) with hin | hslot
        · rw [hnil] at hin
          cases hin
        · exact hslot
      · exact Or.inl hall

/-! ### A source's stem -/

/-- The loop runs through, and finds a live slot if there is one. -/
theorem leastUsedFrom_spec {usage : List Nat} {i : Nat} {slots : List (Option Nat)}
    {lowest : Option Nat} {choices : List Nat} (hlen : i + slots.length ≤ usage.length)
    (hlowest : lowest = none ∨ choices ≠ []) :
    ∃ found, leastUsedFrom usage i slots lowest choices = some found ∧
      (∀ slot ∈ found, slot ∈ choices ∨
        ∃ j id : Nat, slot = i + j ∧ slots[j]? = some (some id)) ∧
      ((choices ≠ [] ∨ ∃ j id : Nat, slots[j]? = some (some id)) → found ≠ []) := by
  induction slots generalizing i lowest choices with
  | nil =>
      refine ⟨choices, rfl, fun slot h => Or.inl h, ?_⟩
      rintro (h | ⟨j, id, hj⟩)
      · exact h
      · cases hj
  | cons slot slots ih =>
      rw [List.length_cons] at hlen
      have hlen' : i + 1 + slots.length ≤ usage.length := by omega
      -- What the rest finds is one index further on.
      have hshift : ∀ {c : List Nat} {found : List Nat},
          (∀ s ∈ found, s ∈ c ∨ ∃ j id : Nat, s = i + 1 + j ∧ slots[j]? = some (some id)) →
          (∀ s ∈ c, s ∈ choices ∨
            ∃ j id : Nat, s = i + j ∧ (slot :: slots)[j]? = some (some id)) →
          ∀ s ∈ found, s ∈ choices ∨
            ∃ j id : Nat, s = i + j ∧ (slot :: slots)[j]? = some (some id) := by
        intro c found hfound hc s hs
        rcases hfound s hs with hin | ⟨j, id, rfl, hj⟩
        · exact hc s hin
        · exact Or.inr ⟨j + 1, id, by omega, hj⟩
      cases slot with
      | none =>
          obtain ⟨found, hrun, hfound, hsome⟩ := @ih (i + 1) lowest choices hlen' hlowest
          refine ⟨found, hrun, hshift hfound fun s hs => Or.inl hs, ?_⟩
          rintro (h | ⟨j, id, hj⟩)
          · exact hsome (Or.inl h)
          · cases j with
            | zero => cases hj
            | succ j => exact hsome (Or.inr ⟨j, id, hj⟩)
      | some id =>
          have hused : usage[i]? = some usage[i] := List.getElem?_eq_getElem (by omega)
          have hhere : ∃ j id' : Nat, i = i + j ∧ (some id :: slots)[j]? = some (some id') :=
            ⟨0, id, rfl, rfl⟩
          simp only [leastUsedFrom, hused, Option.bind_eq_bind, Option.bind_some]
          split_ifs with hless hequal
          · obtain ⟨found, hrun, hfound, hsome⟩ := @ih (i + 1) (some usage[i]) [i] hlen'
              (Or.inr (List.cons_ne_nil _ _))
            refine ⟨found, hrun, hshift hfound ?_, fun _ => hsome (Or.inl (List.cons_ne_nil _ _))⟩
            intro s hs
            rw [List.mem_singleton.mp hs]
            exact Or.inr hhere
          · have hne : choices ++ [i] ≠ [] := List.append_ne_nil_of_right_ne_nil _ (List.cons_ne_nil _ _)
            obtain ⟨found, hrun, hfound, hsome⟩ := @ih (i + 1) lowest (choices ++ [i]) hlen'
              (Or.inr hne)
            refine ⟨found, hrun, hshift hfound ?_, fun _ => hsome (Or.inl hne)⟩
            intro s hs
            rcases List.mem_append.mp hs with hin | hin
            · exact Or.inl hin
            · rw [List.mem_singleton.mp hin]
              exact Or.inr hhere
          · have hne : choices ≠ [] := by
              refine hlowest.resolve_left ?_
              rintro rfl
              exact hless rfl
            obtain ⟨found, hrun, hfound, hsome⟩ := @ih (i + 1) lowest choices hlen' (Or.inr hne)
            exact ⟨found, hrun, hshift hfound fun s hs => Or.inl hs, fun _ => hsome (Or.inl hne)⟩

/-- The least used slot is a live one, and there is one if any slot is live. -/
theorem leastUsed_spec {m : StemMap} (hslots : m.out.length ≤ m.usage.length) (rand : Draws) :
    ∃ chosen, m.leastUsed rand = some chosen ∧
      (∀ slot, chosen = some slot → ∃ id, m.Live slot id) ∧
      (chosen = none → ∀ slot id, ¬ m.Live slot id) := by
  obtain ⟨found, hrun, hfound, hsome⟩ := @leastUsedFrom_spec m.usage 0 m.out none []
    (by rw [Nat.zero_add]; exact hslots) (Or.inl rfl)
  have hlive : ∀ slot ∈ found, ∃ id, m.Live slot id := by
    intro slot hslot
    rcases hfound slot hslot with hin | ⟨j, id, rfl, hj⟩
    · cases hin
    · exact ⟨id, by rw [Live, Nat.zero_add]; exact hj⟩
  unfold leastUsed
  simp only [hrun, Option.bind_eq_bind, Option.bind_some]
  match found, hsome, hlive with
  | [], hsome, _ =>
      exact ⟨none, rfl, nofun, fun _ slot id hid => hsome (Or.inr ⟨slot, id, hid⟩) rfl⟩
  | [slot], _, hlive =>
      refine ⟨some slot, rfl, ?_, nofun⟩
      rintro _ ⟨⟩
      exact hlive slot List.mem_cons_self
  | a :: b :: rest, _, hlive =>
      have hdraw := rand.inRange 0 (a :: b :: rest).length (Nat.succ_pos _)
      have hget := List.getElem?_eq_getElem hdraw
      simp only [hget, Option.bind_some]
      refine ⟨some _, rfl, ?_, nofun⟩
      rintro _ ⟨⟩
      exact hlive _ (List.getElem_mem hdraw)

/-- A map whose counts leave one source out. -/
structure SoundBut (source : Option Nat) (m : StemMap) : Prop where
  slots : m.out.length ≤ m.usage.length
  apart : Apart m.out
  mapped : ∀ source slot, m.sources.get source = some slot → slot < m.out.length
  counted : ∀ i < m.usage.length,
    m.usage[i]? = some ((m.sources.del source).total fun _ slot => if slot = i then 1 else 0)

/-- What a source is given: the connection of its slot, or nothing where no slot has one. -/
structure Given (m : StemMap) (source : Option Nat) (stem : Option Nat) (m' : StemMap) : Prop where
  sound : m'.Sound
  out : m'.out = m.out
  others : ∀ other, other ≠ source → m'.sources.get other = m.sources.get other
  held : ∀ id, stem = some id → ∃ slot, m'.sources.get source = some slot ∧ m.Live slot id
  none : stem = none → ∀ slot id, ¬ m.Live slot id

theorem assign_spec {m : StemMap} {source : Option Nat} (h : m.SoundBut source) (rand : Draws) :
    ∃ stem m', m.assign source rand = some (stem, m') ∧ m.Given source stem m' := by
  obtain ⟨chosen, hrun, hlive, hnone⟩ := leastUsed_spec h.slots rand
  unfold assign
  simp only [hrun, Option.bind_eq_bind, Option.bind_some]
  cases chosen with
  | none =>
      refine ⟨none, _, rfl, ⟨h.slots, h.apart, ?_, h.counted⟩, rfl, ?_, nofun, fun _ => hnone rfl⟩
      · intro other slot hget
        rw [Table.get_del] at hget
        split_ifs at hget
        exact h.mapped other slot hget
      · intro other hother
        exact Table.get_del_of_ne _ hother
  | some slot =>
      obtain ⟨id, hid⟩ := hlive slot rfl
      have hslot : slot < m.out.length := (List.getElem?_eq_some_iff.mp hid).1
      have husage : slot < m.usage.length := Nat.lt_of_lt_of_le hslot h.slots
      have hused := h.counted slot husage
      simp only [hused, Option.bind_some]
      rw [show m.out[slot]? = some (some id) from hid]
      refine ⟨some id, _, rfl, ⟨?_, h.apart, ?_, ?_⟩, rfl, ?_, ?_, nofun⟩
      · rw [List.length_set]
        exact h.slots
      · intro other slot' hget
        rw [Table.get_put] at hget
        split_ifs at hget
        · cases hget
          exact hslot
        · exact h.mapped other slot' hget
      · intro i hi
        rw [List.length_set] at hi
        have hput := m.sources.total_put (fun _ s => if s = i then 1 else 0) source slot
        have hdel := m.sources.total_del (fun _ s => if s = i then 1 else 0) source
        show _ = some ((m.sources.put source slot).total fun _ s => if s = i then 1 else 0)
        by_cases heq : slot = i
        · subst heq
          rw [if_pos rfl] at hput
          rw [List.getElem?_set_self hi]
          congr 1
          omega
        · rw [if_neg heq] at hput
          rw [List.getElem?_set_ne heq, h.counted i hi]
          congr 1
          omega
      · intro other hother
        exact Table.get_put_of_ne _ hother _
      · rintro _ ⟨⟩
        exact ⟨slot, Table.get_put_self _ _ _, hid⟩

/-- **A source keeps its stem** while its slot has a connection, and is given one otherwise. -/
theorem getStem_spec {m : StemMap} (h : m.Sound) (source : Option Nat) (rand : Draws) :
    ∃ stem m', m.getStem source rand = some (stem, m') ∧ m.Given source stem m' ∧
      ∀ slot id, m.sources.get source = some slot → m.Live slot id → stem = some id ∧ m' = m := by
  unfold getStem
  cases hget : m.sources.get source with
  | none =>
      have hbut : m.SoundBut source := by
        refine ⟨h.slots, h.apart, h.mapped, ?_⟩
        rw [Table.del_of_get_none hget]
        exact h.counted
      obtain ⟨stem, m', hrun, hgiven⟩ := assign_spec hbut rand
      exact ⟨stem, m', hrun, hgiven, nofun⟩
  | some old =>
      have hold := h.mapped source old hget
      have hcase : m.out[old]? = some m.out[old] := List.getElem?_eq_getElem hold
      have husage : old < m.usage.length := Nat.lt_of_lt_of_le hold h.slots
      simp only [hcase, Option.bind_eq_bind, Option.bind_some]
      cases hheld : m.out[old] with
      | some id =>
          have hlive : m.Live old id := hcase.trans (congrArg some hheld)
          refine ⟨some id, m, rfl, ⟨h, rfl, fun _ _ => rfl, ?_, nofun⟩, ?_⟩
          · rintro _ ⟨⟩
            exact ⟨old, hget, hlive⟩
          · rintro _ id' ⟨⟩ hid'
            rw [Live, hlive] at hid'
            cases hid'
            exact ⟨rfl, rfl⟩
      | none =>
          simp only [h.counted old husage, Option.bind_some, Option.isSome_none,
            Bool.false_eq_true, if_false]
          have hbut : SoundBut source ⟨m.out, m.sources, m.usage.set old
              (m.sources.total (fun _ slot => if slot = old then 1 else 0) - 1)⟩ := by
            refine ⟨?_, h.apart, h.mapped, ?_⟩
            · rw [List.length_set]
              exact h.slots
            · intro i hi
              rw [List.length_set] at hi
              have hdel := m.sources.total_del (fun _ s => if s = i then 1 else 0) source
              rw [hget, Option.map_some, Option.getD_some] at hdel
              show _ = some ((m.sources.del source).total fun _ s => if s = i then 1 else 0)
              by_cases heq : old = i
              · subst heq
                rw [if_pos rfl] at hdel
                rw [List.getElem?_set_self hi]
                congr 1
                omega
              · rw [if_neg heq] at hdel
                rw [List.getElem?_set_ne heq, h.counted i hi]
                congr 1
                omega
          obtain ⟨stem, m', hrun, hgiven⟩ := assign_spec hbut rand
          refine ⟨stem, m', hrun, ⟨hgiven.sound, hgiven.out, hgiven.others, hgiven.held,
            hgiven.none⟩, ?_⟩
          rintro _ id ⟨⟩ hid
          rw [Live, hcase, hheld] at hid
          cases hid

/-! ### Whole runs -/

/-- One operation keeps the invariant, and does not panic. -/
theorem perform_sound {m : StemMap} (h : m.Sound) (op : Op) :
    ∃ m', m.perform op = some m' ∧ m'.Sound := by
  cases op with
  | update current rand => exact ⟨_, rfl, (update_spec m h current rand).1⟩
  | getStem source rand =>
      obtain ⟨stem, m', hrun, hgiven, _⟩ := getStem_spec h source rand
      exact ⟨m', by rw [perform, hrun]; rfl, hgiven.sound⟩

theorem run_cons (m : StemMap) (op : Op) (ops : List Op) :
    m.run (op :: ops) = (m.perform op).bind fun m' => m'.run ops := List.foldlM_cons ..

theorem run_sound {m : StemMap} (h : m.Sound) (ops : List Op) :
    ∃ m', m.run ops = some m' ∧ m'.Sound := by
  induction ops generalizing m with
  | nil => exact ⟨m, rfl, h⟩
  | cons op ops ih =>
      obtain ⟨m', hop, hm'⟩ := perform_sound h op
      obtain ⟨m'', hops, hm''⟩ := ih hm'
      exact ⟨m'', by rw [run_cons, hop]; exact hops, hm''⟩

/-- An update of a run took the connection of a slot away, or put another in its place. -/
def Displaced (m : StemMap) (ops : List Op) (slot id : Nat) : Prop :=
  ∃ before current rand after m', ops = before ++ .update current rand :: after ∧
    m.run before = some m' ∧ m'.Live slot id ∧ ¬ (m'.update current rand).1.Live slot id

/-- Unless its connection is displaced, a slot keeps it, and its sources keep the slot. -/
theorem run_keeps {m m' : StemMap} (h : m.Sound) {ops : List Op} (hrun : m.run ops = some m')
    {source : Option Nat} {slot id : Nat} (hget : m.sources.get source = some slot)
    (hlive : m.Live slot id) (hkept : ¬ m.Displaced ops slot id) :
    m'.sources.get source = some slot ∧ m'.Live slot id := by
  induction ops generalizing m with
  | nil =>
      cases hrun
      exact ⟨hget, hlive⟩
  | cons op ops ih =>
      obtain ⟨m₁, hop, hm₁⟩ := perform_sound h op
      rw [run_cons, hop] at hrun
      have hstep : m₁.sources.get source = some slot ∧ m₁.Live slot id := by
        cases op with
        | update current rand =>
            cases hop
            refine ⟨?_, ?_⟩
            · rw [(update_spec m h current rand).2.1]
              exact hget
            · by_contra hgone
              exact hkept ⟨[], current, rand, ops, m, rfl, rfl, hlive, hgone⟩
        | getStem asking rand =>
            obtain ⟨stem, m₂, hstem, hgiven, hsame⟩ := getStem_spec h asking rand
            rw [perform, hstem] at hop
            cases hop
            refine ⟨?_, by rw [Live, hgiven.out]; exact hlive⟩
            by_cases heq : source = asking
            · subst heq
              rw [(hsame slot id hget hlive).2]
              exact hget
            · rw [hgiven.others source heq]
              exact hget
      refine ih hm₁ hrun hstep.1 hstep.2 ?_
      rintro ⟨before, current, rand, after, m₂, rfl, hbefore, hheld, hgone⟩
      refine hkept ⟨op :: before, current, rand, after, m₂, rfl, ?_, hheld, hgone⟩
      rw [run_cons, hop]
      exact hbefore

/-- **The stems of an epoch**, whatever happens to the map and whatever is drawn: the invariant
    holds, a source is given a stem whenever a slot is live, it is given the same one until an
    update displaces the connection of its slot, and updates fill the slots as far as the
    candidates go. -/
theorem stem_map_runs (connections : Connections) (stems : Nat) (rand : Draws) (ops : List Op) :
    ∃ m, (new connections stems rand).run ops = some m ∧ m.Sound ∧
      (∀ current rand, (m.update current rand).1.Filled current) ∧
      ∀ source rand, ∃ stem m', m.getStem source rand = some (stem, m') ∧
        ((∃ slot id, m.Live slot id) → ∃ slot id, stem = some id ∧ m'.Live slot id) ∧
        ∀ id, stem = some id → ∃ slot, m'.sources.get source = some slot ∧ m'.Live slot id ∧
          ∀ between again, ∃ m₁ stem' m₂, m'.run between = some m₁ ∧
            m₁.getStem source again = some (stem', m₂) ∧
            (stem' ≠ stem → m'.Displaced between slot id) := by
  obtain ⟨m, hrun, hm⟩ := run_sound (new_sound connections stems rand) ops
  refine ⟨m, hrun, hm, fun current rand => (update_spec m hm current rand).2.2, ?_⟩
  intro source rand
  obtain ⟨stem, m', hstem, hgiven, _⟩ := getStem_spec hm source rand
  have hheld : ∀ id, stem = some id → ∃ slot, m'.sources.get source = some slot ∧
      m'.Live slot id := by
    intro id hid
    obtain ⟨slot, hslot, hlive⟩ := hgiven.held id hid
    exact ⟨slot, hslot, by rw [Live, hgiven.out]; exact hlive⟩
  refine ⟨stem, m', hstem, ?_, ?_⟩
  · rintro ⟨slot, id, hlive⟩
    cases hcase : stem with
    | none => exact absurd hlive (hgiven.none hcase slot id)
    | some id' =>
        obtain ⟨slot', _, hlive'⟩ := hheld id' hcase
        exact ⟨slot', id', rfl, hlive'⟩
  · intro id hid
    obtain ⟨slot, hslot, hlive⟩ := hheld id hid
    refine ⟨slot, hslot, hlive, fun between again => ?_⟩
    obtain ⟨m₁, hbetween, hm₁⟩ := run_sound hgiven.sound between
    obtain ⟨stem', m₂, hstem', _, hsame⟩ := getStem_spec hm₁ source again
    refine ⟨m₁, stem', m₂, hbetween, hstem', fun hchanged => ?_⟩
    by_contra hkept
    obtain ⟨hslot', hlive'⟩ := run_keeps hgiven.sound hbetween hslot hlive hkept
    exact hchanged ((hsame slot id hslot' hlive').1.trans hid.symm)

end StemMap

end Wownero

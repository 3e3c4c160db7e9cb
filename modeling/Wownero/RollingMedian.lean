import Wownero.CountMap
import Wownero.WeightWindow
/-!
# The long-term weight window in count maps

The window as the source keeps it: the weights in the order they came, and two count maps beside the
number of values in each.  It stands for the two sorted halves, push by push, and none of the places
where it would panic is reached.
-/

namespace Wownero

open CountMap SplitSorted

/-- The two halves of a `LongTermWeightWindow`, each as value to count, with how many each holds. -/
structure CountedHalves where
  lower : List (Nat × Nat)
  upper : List (Nat × Nat)
  lowerLen : Nat
  upperLen : Nat
  deriving DecidableEq, Repr

namespace CountedHalves

def empty : CountedHalves := ⟨[], [], 0, 0⟩

/-- `len`. -/
def len (c : CountedHalves) : Nat := c.lowerLen + c.upperLen

/-- `shift`; `none` where the length of the half it takes from is zero already.  A value that is not
    counted there is removed all the same. -/
def shift (c : CountedHalves) (v : Nat) (lowerToUpper : Bool) : Option CountedHalves :=
  if lowerToUpper then
    if c.lowerLen = 0 then none
    else some ⟨(decrement v c.lower).getD c.lower, increment v c.upper, c.lowerLen - 1, c.upperLen + 1⟩
  else if c.upperLen = 0 then none
  else some ⟨increment v c.lower, (decrement v c.upper).getD c.upper, c.lowerLen + 1, c.upperLen - 1⟩

/-- The first loop of `rebalance`, for at most so many rounds; `none` where an `expect` fails. -/
def raise : Nat → CountedHalves → Option CountedHalves
  | 0, c => if c.lowerLen > c.upperLen + 1 then none else some c
  | fuel + 1, c =>
      if c.lowerLen > c.upperLen + 1 then do
        let v ← lastKey c.lower
        let c ← c.shift v true
        raise fuel c
      else some c

/-- The second loop of `rebalance`. -/
def sink : Nat → CountedHalves → Option CountedHalves
  | 0, c => if c.upperLen > c.lowerLen then none else some c
  | fuel + 1, c =>
      if c.upperLen > c.lowerLen then do
        let v ← firstKey c.upper
        let c ← c.shift v false
        sink fuel c
      else some c

/-- `rebalance`. -/
def rebalance (c : CountedHalves) : Option CountedHalves := do
  let c ← raise c.lowerLen c
  sink c.upperLen c

/-- `insert`. -/
def insert (v : Nat) (c : CountedHalves) : Option CountedHalves :=
  match lastKey c.lower with
  | some lo =>
      if v > lo then rebalance { c with upper := increment v c.upper, upperLen := c.upperLen + 1 }
      else rebalance { c with lower := increment v c.lower, lowerLen := c.lowerLen + 1 }
  | none => rebalance { c with lower := increment v c.lower, lowerLen := c.lowerLen + 1 }

/-- `remove`; `none` for a value that neither half holds. -/
def remove (v : Nat) (c : CountedHalves) : Option CountedHalves :=
  if containsKey c.lower v then do
    let lower ← decrement v c.lower
    if c.lowerLen = 0 then none else rebalance { c with lower := lower, lowerLen := c.lowerLen - 1 }
  else do
    let upper ← decrement v c.upper
    if c.upperLen = 0 then none else rebalance { c with upper := upper, upperLen := c.upperLen - 1 }

/-- `median`. -/
def median (c : CountedHalves) : Nat :=
  match lastKey c.lower, firstKey c.upper with
  | none, _ => 0
  | some lo, hi =>
      if c.len % 2 = 1 then lo
      else match hi with
        | some hi => getMid lo hi
        | none => lo

/-- The halves that the maps stand for. -/
structure Represents (c : CountedHalves) (h : Halves Nat) : Prop where
  lowerOrdered : CountMap.Ordered c.lower
  upperOrdered : CountMap.Ordered c.upper
  lower : values c.lower = h.lower
  upper : values c.upper = h.upper
  lowerLen : c.lowerLen = h.lower.length
  upperLen : c.upperLen = h.upper.length

/-- Of a sorted list the last value is what is erased. -/
theorem erase_getLast {l : List Nat} {v : Nat} (hl : l.Pairwise (· ≤ ·)) (h : l.getLast? = some v) :
    l.erase v = l.dropLast := by
  have hsplit : l.dropLast ++ [v] = l := List.dropLast_append_getLast? v h
  have hperm : List.Perm (v :: l.erase v) (v :: l.dropLast) := by
    have hmem : v ∈ l := List.mem_of_getLast? h
    refine (List.perm_cons_erase hmem).symm.trans ?_
    rw [← hsplit, List.dropLast_concat]
    exact List.perm_append_singleton v _
  exact (hperm.cons_inv).eq_of_pairwise' (hl.sublist List.erase_sublist)
    (hl.sublist (List.dropLast_sublist l))

variable {c : CountedHalves} {h : Halves Nat}

theorem Represents.shiftUp (hr : c.Represents h) (hne : h.lower ≠ []) :
    ∃ v c', lastKey c.lower = some v ∧ c.shift v true = some c' ∧ c'.Represents h.shiftUp := by
  have hlow : h.lower.Pairwise (· ≤ ·) := hr.lower ▸ hr.lowerOrdered.sorted
  obtain ⟨v, hv⟩ : ∃ v, h.lower.getLast? = some v := ⟨_, List.getLast?_eq_some_getLast hne⟩
  have hmem : v ∈ values c.lower := by
    rw [hr.lower]
    exact List.mem_of_getLast? hv
  obtain ⟨lower, hdec, hordered, hvalues⟩ := hr.lowerOrdered.decrement hmem
  have hpos : c.lowerLen ≠ 0 := by
    rw [hr.lowerLen]
    exact Nat.ne_of_gt (List.length_pos_iff.mpr hne)
  refine ⟨v, ⟨lower, increment v c.upper, c.lowerLen - 1, c.upperLen + 1⟩,
    by rw [hr.lowerOrdered.lastKey_eq, hr.lower, hv], ?_, ?_⟩
  · rw [shift, if_pos rfl, if_neg hpos, hdec, Option.getD_some]
  · rw [Halves.shiftUp, hv]
    refine ⟨hordered, hr.upperOrdered.increment v, ?_, ?_, ?_, ?_⟩
    · rw [hvalues, hr.lower, erase_getLast hlow hv]
    · rw [hr.upperOrdered.values_increment, hr.upper]
    · show c.lowerLen - 1 = h.lower.dropLast.length
      rw [hr.lowerLen, List.length_dropLast]
    · show c.upperLen + 1 = (h.upper.orderedInsert (· ≤ ·) v).length
      rw [hr.upperLen, List.orderedInsert_length]

theorem Represents.shiftDown (hr : c.Represents h) (hne : h.upper ≠ []) :
    ∃ v c', firstKey c.upper = some v ∧ c.shift v false = some c' ∧ c'.Represents h.shiftDown := by
  obtain ⟨v, rest, hup⟩ := List.exists_cons_of_ne_nil hne
  have hmem : v ∈ values c.upper := by
    rw [hr.upper, hup]
    exact List.mem_cons_self ..
  obtain ⟨upper, hdec, hordered, hvalues⟩ := hr.upperOrdered.decrement hmem
  have hpos : c.upperLen ≠ 0 := by
    rw [hr.upperLen]
    exact Nat.ne_of_gt (List.length_pos_iff.mpr hne)
  refine ⟨v, ⟨increment v c.lower, upper, c.lowerLen + 1, c.upperLen - 1⟩,
    by rw [hr.upperOrdered.firstKey_eq, hr.upper, hup, List.head?_cons], ?_, ?_⟩
  · rw [shift, if_neg (by decide), if_neg hpos, hdec, Option.getD_some]
  · rw [Halves.shiftDown, hup]
    refine ⟨hr.lowerOrdered.increment v, hordered, ?_, ?_, ?_, ?_⟩
    · rw [hr.lowerOrdered.values_increment, hr.lower]
    · rw [hvalues, hr.upper, hup, List.erase_cons_head]
    · show c.lowerLen + 1 = (h.lower.orderedInsert (· ≤ ·) v).length
      rw [hr.lowerLen, List.orderedInsert_length]
    · show c.upperLen - 1 = rest.length
      rw [hr.upperLen, hup, List.length_cons, Nat.add_sub_cancel]

theorem Represents.raise (hr : c.Represents h) {fuel : Nat}
    (hfuel : h.lower.length ≤ fuel) :
    ∃ c', CountedHalves.raise fuel c = some c' ∧ c'.Represents (h.raise fuel) := by
  induction fuel generalizing c h with
  | zero =>
      rw [CountedHalves.raise, hr.lowerLen, if_neg (by omega)]
      exact ⟨c, rfl, hr⟩
  | succ fuel ih =>
      rw [CountedHalves.raise, Halves.raise, hr.lowerLen, hr.upperLen]
      split
      case isTrue hlong =>
        have hne : h.lower ≠ [] := by
          rintro hnil
          rw [hnil, List.length_nil] at hlong
          omega
        obtain ⟨v, c', hkey, hshift, hr'⟩ := hr.shiftUp hne
        have hlen := Halves.shiftUp_lengths hne
        rw [hkey, Option.bind_eq_bind, Option.bind_some, hshift, Option.bind_eq_bind, Option.bind_some]
        exact ih hr' (by omega)
      case isFalse => exact ⟨c, rfl, hr⟩

theorem Represents.sink (hr : c.Represents h) {fuel : Nat}
    (hfuel : h.upper.length ≤ fuel) :
    ∃ c', CountedHalves.sink fuel c = some c' ∧ c'.Represents (h.sink fuel) := by
  induction fuel generalizing c h with
  | zero =>
      rw [CountedHalves.sink, hr.upperLen, if_neg (by omega)]
      exact ⟨c, rfl, hr⟩
  | succ fuel ih =>
      rw [CountedHalves.sink, Halves.sink, hr.lowerLen, hr.upperLen]
      split
      case isTrue hlong =>
        have hne : h.upper ≠ [] := by
          rintro hnil
          rw [hnil, List.length_nil] at hlong
          omega
        obtain ⟨v, c', hkey, hshift, hr'⟩ := hr.shiftDown hne
        have hlen := Halves.shiftDown_lengths hne
        rw [hkey, Option.bind_eq_bind, Option.bind_some, hshift, Option.bind_eq_bind, Option.bind_some]
        exact ih hr' (by omega)
      case isFalse => exact ⟨c, rfl, hr⟩

/-- No `expect` of `rebalance` fails, and it does what it does to the halves. -/
theorem Represents.rebalance (hr : c.Represents h) :
    ∃ c', CountedHalves.rebalance c = some c' ∧ c'.Represents h.rebalance := by
  obtain ⟨c', hraise, hr'⟩ := hr.raise (Nat.le_refl _)
  obtain ⟨c'', hsink, hr''⟩ := hr'.sink (Nat.le_refl _)
  refine ⟨c'', ?_, hr''⟩
  rw [CountedHalves.rebalance, hr.lowerLen, hraise, Option.bind_eq_bind, Option.bind_some,
    hr'.upperLen, hsink]

theorem Represents.incrementLower (hr : c.Represents h) (v : Nat) :
    Represents { c with lower := increment v c.lower, lowerLen := c.lowerLen + 1 }
      ⟨h.lower.orderedInsert (· ≤ ·) v, h.upper⟩ := by
  refine ⟨hr.lowerOrdered.increment v, hr.upperOrdered, ?_, hr.upper, ?_, hr.upperLen⟩
  · rw [hr.lowerOrdered.values_increment, hr.lower]
  · show c.lowerLen + 1 = (h.lower.orderedInsert (· ≤ ·) v).length
    rw [hr.lowerLen, List.orderedInsert_length]

theorem Represents.incrementUpper (hr : c.Represents h) (v : Nat) :
    Represents { c with upper := increment v c.upper, upperLen := c.upperLen + 1 }
      ⟨h.lower, h.upper.orderedInsert (· ≤ ·) v⟩ := by
  refine ⟨hr.lowerOrdered, hr.upperOrdered.increment v, hr.lower, ?_, hr.lowerLen, ?_⟩
  · rw [hr.upperOrdered.values_increment, hr.upper]
  · show c.upperLen + 1 = (h.upper.orderedInsert (· ≤ ·) v).length
    rw [hr.upperLen, List.orderedInsert_length]

theorem Represents.insert (hr : c.Represents h) (v : Nat) :
    ∃ c', CountedHalves.insert v c = some c' ∧ c'.Represents (h.insert v) := by
  unfold CountedHalves.insert Halves.insert
  rw [hr.lowerOrdered.lastKey_eq, hr.lower]
  cases h.lower.getLast? with
  | none => exact (hr.incrementLower v).rebalance
  | some lo =>
      dsimp only
      split
      case isTrue => exact (hr.incrementUpper v).rebalance
      case isFalse => exact (hr.incrementLower v).rebalance

/-- A value that the halves hold is found and taken out. -/
theorem Represents.remove (hr : c.Represents h) {v : Nat} (hv : v ∈ h.values) :
    ∃ c', CountedHalves.remove v c = some c' ∧ c'.Represents (h.remove v) := by
  have hcontains := @CountMap.Ordered.containsKey_iff Nat _ c.lower v hr.lowerOrdered
  rw [hr.lower] at hcontains
  unfold CountedHalves.remove Halves.remove
  by_cases hmem : v ∈ h.lower
  · obtain ⟨lower, hdec, hordered, hvalues⟩ :=
      hr.lowerOrdered.decrement (show v ∈ values c.lower from hr.lower ▸ hmem)
    have hpos : c.lowerLen ≠ 0 := by
      rw [hr.lowerLen]
      exact Nat.ne_of_gt (List.length_pos_of_mem hmem)
    rw [if_pos (hcontains.mpr hmem), if_pos hmem, hdec, Option.bind_eq_bind, Option.bind_some,
      if_neg hpos]
    apply Represents.rebalance
    refine ⟨hordered, hr.upperOrdered, by rw [hvalues, hr.lower], hr.upper, ?_, hr.upperLen⟩
    show c.lowerLen - 1 = (h.lower.erase v).length
    rw [hr.lowerLen, List.length_erase_of_mem hmem]
  · have hmem' : v ∈ h.upper := (List.mem_append.mp hv).resolve_left hmem
    obtain ⟨upper, hdec, hordered, hvalues⟩ :=
      hr.upperOrdered.decrement (show v ∈ values c.upper from hr.upper ▸ hmem')
    have hpos : c.upperLen ≠ 0 := by
      rw [hr.upperLen]
      exact Nat.ne_of_gt (List.length_pos_of_mem hmem')
    rw [if_neg (mt hcontains.mp hmem), if_neg hmem, hdec, Option.bind_eq_bind, Option.bind_some,
      if_neg hpos]
    apply Represents.rebalance
    refine ⟨hr.lowerOrdered, hordered, hr.lower, by rw [hvalues, hr.upper], hr.lowerLen, ?_⟩
    show c.upperLen - 1 = (h.upper.erase v).length
    rw [hr.upperLen, List.length_erase_of_mem hmem']

end CountedHalves

/-- `LongTermWeightWindow` as the source keeps it. -/
structure RollingWindow where
  capacity : Nat
  order : List Nat
  halves : CountedHalves
  deriving DecidableEq, Repr

namespace RollingWindow

/-- `with_capacity`, which asserts that a weight fits. -/
def withCapacity (capacity : Nat) : Option RollingWindow :=
  if capacity = 0 then none else some ⟨capacity, [], CountedHalves.empty⟩

/-- `push`. -/
def push (w : RollingWindow) (weight : Nat) : Option RollingWindow :=
  if w.order.length = w.capacity then
    match w.order with
    | [] => none
    | old :: order => do
        let halves ← w.halves.remove old
        return ⟨w.capacity, order ++ [weight], ← halves.insert weight⟩
  else do return ⟨w.capacity, w.order ++ [weight], ← w.halves.insert weight⟩

/-- A window built by pushing weights one after another. -/
def pushAll (w : RollingWindow) : List Nat → Option RollingWindow
  | [] => some w
  | weight :: weights => do (← w.push weight).pushAll weights

/-- `median`. -/
def median (w : RollingWindow) : Nat := w.halves.median

/-- The window that the maps stand for. -/
structure Represents (w : RollingWindow) (l : LongTermWeightWindow) : Prop where
  capacity : w.capacity = l.capacity
  order : w.order = l.order
  halves : w.halves.Represents l.halves

variable {w : RollingWindow} {l : LongTermWeightWindow}

/-- A push panics nowhere and does what it does to the halves. -/
theorem Represents.push (hr : w.Represents l) (hwf : l.Wf) (weight : Nat) :
    ∃ w', RollingWindow.push w weight = some w' ∧ w'.Represents (l.push weight) := by
  have hpos := hwf.pos
  unfold RollingWindow.push LongTermWeightWindow.push
  rw [hr.order, hr.capacity]
  split
  case isTrue hfull =>
    cases horder : l.order with
    | nil =>
        rw [horder, List.length_nil] at hfull
        omega
    | cons old order =>
        have hmem : old ∈ l.halves.values :=
          hwf.perm.symm.subset (by rw [horder]; exact List.mem_cons_self ..)
        obtain ⟨c, hremove, hrc⟩ := hr.halves.remove hmem
        obtain ⟨c', hinsert, hrc'⟩ := hrc.insert weight
        dsimp only
        rw [hremove, Option.bind_eq_bind, Option.bind_some, hinsert]
        exact ⟨_, rfl, rfl, rfl, hrc'⟩
  case isFalse =>
    obtain ⟨c, hinsert, hrc⟩ := hr.halves.insert weight
    rw [hinsert]
    exact ⟨_, rfl, rfl, rfl, hrc⟩

theorem Represents.pushAll (hr : w.Represents l) (hwf : l.Wf) (weights : List Nat) :
    ∃ w', RollingWindow.pushAll w weights = some w' ∧ w'.Represents (l.pushAll weights) := by
  induction weights generalizing w l with
  | nil => exact ⟨w, rfl, hr⟩
  | cons weight weights ih =>
      obtain ⟨w', hpush, hr'⟩ := hr.push hwf weight
      rw [RollingWindow.pushAll, hpush]
      exact ih hr' (LongTermWeightWindow.wf_push hwf weight)

theorem represents_withCapacity {capacity : Nat} (hpos : 0 < capacity) :
    ∃ w, withCapacity capacity = some w ∧
      w.Represents (LongTermWeightWindow.withCapacity capacity) := by
  refine ⟨_, if_neg (Nat.ne_of_gt hpos), rfl, rfl, ?_⟩
  exact ⟨Ordered.nil, Ordered.nil, rfl, rfl, rfl, rfl⟩

end RollingWindow

/-! ### The contents and their median -/

namespace LongTermWeightWindow

theorem wf_withCapacity {capacity : Nat} (hpos : 0 < capacity) : (withCapacity capacity).Wf :=
  ⟨Halves.empty_balanced, List.Perm.refl _, Nat.zero_le _, hpos⟩

/-- However many weights are pushed, the newest are left, as many as fit. -/
theorem pushAll_newest {w : LongTermWeightWindow} (h : w.Wf) (weights : List Nat) :
    (w.pushAll weights).order =
      (w.order ++ weights).drop ((w.order ++ weights).length - w.capacity) := by
  induction weights generalizing w with
  | nil =>
      have hfits := h.fits
      rw [List.append_nil, Nat.sub_eq_zero_of_le hfits, List.drop_zero]
      rfl
  | cons weight weights ih =>
      have hfits := h.fits
      have hrest : (w.pushAll (weight :: weights)).order = ((w.push weight).pushAll weights).order := rfl
      obtain ⟨cut, hcut⟩ : ∃ cut, w.order.length + 1 - w.capacity = cut := ⟨_, rfl⟩
      have hle : cut ≤ (w.order ++ [weight]).length := by
        rw [List.length_append, List.length_singleton]
        omega
      rw [hrest, ih (wf_push h weight), push_order h, push_capacity, hcut,
        ← List.drop_append_of_le_length hle, List.append_assoc, List.singleton_append, List.drop_drop,
        List.length_drop]
      congr 1
      rw [List.length_append, List.length_cons]
      omega

variable {w : LongTermWeightWindow}

/-- The halves are the sorted contents, cut in the middle. -/
theorem Wf.halves_eq (h : w.Wf) :
    w.halves.lower = (w.order.insertionSort (· ≤ ·)).take ((w.order.length + 1) / 2) ∧
      w.halves.upper = (w.order.insertionSort (· ≤ ·)).drop ((w.order.length + 1) / 2) := by
  have hvalues : w.halves.values = w.order.insertionSort (· ≤ ·) :=
    (h.perm.trans (List.perm_insertionSort _ _).symm).eq_of_pairwise' h.balanced.sorted
      (List.pairwise_insertionSort _ _)
  have hlen : w.halves.lower.length = (w.order.length + 1) / 2 := by
    have htotal := h.perm.length_eq
    rw [Halves.values, List.length_append] at htotal
    have hmiddle := h.balanced.middle
    omega
  rw [← hvalues, Halves.values, ← hlen, List.take_left, List.drop_left]
  exact ⟨rfl, rfl⟩

/-- The median of the halves is the median of the contents. -/
theorem Wf.median_eq (h : w.Wf) : w.median = Wownero.median w.order := by
  obtain ⟨hlower, hupper⟩ := h.halves_eq
  obtain ⟨sorted, hsorted⟩ : ∃ sorted, w.order.insertionSort (· ≤ ·) = sorted := ⟨_, rfl⟩
  obtain ⟨n, hn⟩ : ∃ n, w.order.length = n := ⟨_, rfl⟩
  have hlen : sorted.length = n := by rw [← hsorted, List.length_insertionSort, hn]
  rw [hsorted, hn] at hlower hupper
  have hlast : w.halves.lower.getLast? = sorted[(n + 1) / 2 - 1]? := by
    rw [hlower, List.getLast?_eq_getElem?, List.length_take, hlen, Nat.min_eq_left (by omega),
      List.getElem?_take]
    split
    · rfl
    · rw [List.getElem?_eq_none (by omega)]
  have hfirst : w.halves.upper.head? = sorted[(n + 1) / 2]? := by
    rw [hupper, List.head?_drop]
  have htotal : w.halves.lower.length + w.halves.upper.length = n := by
    rw [hlower, hupper, List.length_take, List.length_drop, hlen]
    omega
  unfold LongTermWeightWindow.median
  rw [hlast, hfirst, htotal]
  match horder : w.order, hn with
  | [], hn =>
      obtain rfl : n = 0 := hn.symm
      rw [List.eq_nil_of_length_eq_zero hlen]
      rfl
  | [v], hn =>
      obtain rfl : n = 1 := hn.symm
      rw [horder, List.insertionSort_cons, List.insertionSort_nil, List.orderedInsert_nil] at hsorted
      rw [← hsorted]
      rfl
  | a :: b :: rest, hn =>
      have htwo : 2 ≤ n := by
        rw [← hn, List.length_cons, List.length_cons]
        omega
      have hmedian : Wownero.median (a :: b :: rest) =
          if n % 2 = 1 then sorted.getD (n / 2) 0
          else getMid (sorted.getD (n / 2 - 1) 0) (sorted.getD (n / 2) 0) := by
        rw [← hsorted, ← hn, horder]
        rfl
      obtain ⟨lo, hlo⟩ : ∃ lo, sorted[(n + 1) / 2 - 1]? = some lo :=
        ⟨_, List.getElem?_eq_getElem (by omega)⟩
      obtain ⟨hi, hhi⟩ : ∃ hi, sorted[(n + 1) / 2]? = some hi :=
        ⟨_, List.getElem?_eq_getElem (by omega)⟩
      rw [hmedian, hlo, hhi]
      simp only [List.getD_eq_getElem?_getD]
      split
      case isTrue hodd =>
        rw [show n / 2 = (n + 1) / 2 - 1 by omega, hlo, Option.getD_some]
      case isFalse heven =>
        rw [show n / 2 - 1 = (n + 1) / 2 - 1 by omega, hlo, show n / 2 = (n + 1) / 2 by omega, hhi,
          Option.getD_some, Option.getD_some]

end LongTermWeightWindow

namespace RollingWindow

variable {w : RollingWindow} {l : LongTermWeightWindow}

theorem Represents.median (hr : w.Represents l) : RollingWindow.median w = l.median := by
  have hlen : w.halves.len = l.halves.lower.length + l.halves.upper.length := by
    rw [CountedHalves.len, hr.halves.lowerLen, hr.halves.upperLen]
  unfold RollingWindow.median CountedHalves.median LongTermWeightWindow.median
  rw [hr.halves.lowerOrdered.lastKey_eq, hr.halves.upperOrdered.firstKey_eq, hr.halves.lower,
    hr.halves.upper, hlen]
  cases l.halves.lower.getLast? with
  | none => rfl
  | some lo =>
      cases l.halves.upper.head? with
      | none => exact ite_self lo
      | some hi => rfl

end RollingWindow

/-- Whatever is pushed, no push panics; the window holds the newest weights, as many as fit; its halves
    are the sorted weights cut in the middle, each counted; and its median is the median of them. -/
theorem rolling_median {capacity : Nat} (hpos : 0 < capacity) (weights : List Nat) :
    ∃ start w, RollingWindow.withCapacity capacity = some start ∧ start.pushAll weights = some w ∧
      w.order = weights.drop (weights.length - capacity) ∧
      w.order.length = min capacity weights.length ∧
      values w.halves.lower =
        (w.order.insertionSort (· ≤ ·)).take ((w.order.length + 1) / 2) ∧
      values w.halves.upper =
        (w.order.insertionSort (· ≤ ·)).drop ((w.order.length + 1) / 2) ∧
      (∀ a ∈ values w.halves.lower, ∀ b ∈ values w.halves.upper, a ≤ b) ∧
      w.halves.lowerLen = (w.halves.lower.map (·.2)).sum ∧
      w.halves.upperLen = (w.halves.upper.map (·.2)).sum ∧
      w.halves.lowerLen = (w.order.length + 1) / 2 ∧ w.halves.upperLen = w.order.length / 2 ∧
      w.median = median w.order := by
  obtain ⟨start, hstart, hr⟩ := RollingWindow.represents_withCapacity hpos
  have hwf := LongTermWeightWindow.wf_withCapacity hpos
  obtain ⟨w, hw, hr'⟩ := hr.pushAll hwf weights
  have hwf' := LongTermWeightWindow.wf_pushAll hwf weights
  have horder : w.order = weights.drop (weights.length - capacity) := by
    rw [hr'.order, LongTermWeightWindow.pushAll_newest hwf]
    rfl
  have hlen : w.order.length = min capacity weights.length := by
    rw [horder, List.length_drop]
    omega
  obtain ⟨hlower, hupper⟩ := hwf'.halves_eq
  rw [← hr'.order] at hlower hupper
  have hlowerLen := hr'.halves.lowerLen
  have hupperLen := hr'.halves.upperLen
  refine ⟨start, w, hstart, hw, horder, hlen, ?_, ?_, ?_, ?_, ?_, ?_, ?_, ?_⟩
  · rw [hr'.halves.lower, hlower]
  · rw [hr'.halves.upper, hupper]
  · rw [hr'.halves.lower, hr'.halves.upper]
    exact ((Halves.sorted_iff _).mp hwf'.balanced.sorted).2.2
  · rw [hlowerLen, ← length_values, hr'.halves.lower]
  · rw [hupperLen, ← length_values, hr'.halves.upper]
  · rw [hlowerLen, hlower, List.length_take, List.length_insertionSort]
    omega
  · rw [hupperLen, hupper, List.length_drop, List.length_insertionSort]
    omega
  · rw [hr'.median, hwf'.median_eq, hr'.order]

/-- Three weights through a window of two, two of them the same. -/
theorem rolling_median_two : ∃ start w, RollingWindow.withCapacity 2 = some start ∧
    start.pushAll [7, 3, 3] = some w ∧ w.order = [3, 3] := by
  obtain ⟨start, w, hstart, hw, horder, -⟩ := rolling_median (show 0 < 2 by decide) [7, 3, 3]
  exact ⟨start, w, hstart, hw, horder⟩

end Wownero

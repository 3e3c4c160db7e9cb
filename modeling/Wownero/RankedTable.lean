import Mathlib
/-!
# Finite tables ordered by key

A key-value table as an ordered store keeps it: the rows ascend by the rank of their key, no key
occurs twice, and so a table is determined by its lookups.  The invariant is a field of the
structure; there is no table out of order.

Two ways of writing a row occur in such stores.  `put` replaces the row of its key, and `add`
leaves a row that is already there alone.
-/

/-- A key type with an injective rank to order rows by. -/
class Ranked (κ : Type) where
  rank : κ → Nat
  rank_injective : Function.Injective rank

instance : Ranked Nat := ⟨id, Function.injective_id⟩

instance {w : Nat} : Ranked (BitVec w) := ⟨BitVec.toNat, fun _ _ h => BitVec.eq_of_toNat_eq h⟩

instance : Ranked (Nat × Nat) :=
  ⟨fun p => Nat.pair p.1 p.2, fun a b h => by
    obtain ⟨h₁, h₂⟩ := Nat.pair_eq_pair.mp h
    exact Prod.ext h₁ h₂⟩

open Ranked

variable {κ ν : Type} [Ranked κ]

/-- The order of two rows. -/
def RowLt (a b : κ × ν) : Prop := rank a.1 < rank b.1

structure Table (κ ν : Type) [Ranked κ] where
  rows : List (κ × ν)
  ascending : rows.Pairwise RowLt

namespace Table

/-! ### The operations on rows -/

def getRow (k : κ) : List (κ × ν) → Option ν
  | [] => none
  | row :: rows => if rank row.1 = rank k then some row.2 else getRow k rows

def putRow (k : κ) (v : ν) : List (κ × ν) → List (κ × ν)
  | [] => [(k, v)]
  | row :: rows =>
      if rank k < rank row.1 then (k, v) :: row :: rows
      else if rank k = rank row.1 then (k, v) :: rows
      else row :: putRow k v rows

def delRow (k : κ) : List (κ × ν) → List (κ × ν)
  | [] => []
  | row :: rows => if rank row.1 = rank k then rows else row :: delRow k rows

theorem mem_putRow {k : κ} {v : ν} {rows : List (κ × ν)} {row : κ × ν}
    (h : row ∈ putRow k v rows) : row = (k, v) ∨ row ∈ rows := by
  induction rows with
  | nil => exact Or.inl (List.mem_singleton.mp h)
  | cons r rows ih =>
      unfold putRow at h
      split_ifs at h
      · exact List.mem_cons.mp h
      · exact (List.mem_cons.mp h).imp id (List.mem_cons_of_mem r)
      · rcases List.mem_cons.mp h with rfl | h
        · exact Or.inr List.mem_cons_self
        · exact (ih h).imp id (List.mem_cons_of_mem r)

theorem putRow_ascending (k : κ) (v : ν) {rows : List (κ × ν)} (h : rows.Pairwise RowLt) :
    (putRow k v rows).Pairwise RowLt := by
  induction rows with
  | nil => exact List.pairwise_singleton _ _
  | cons r rows ih =>
      obtain ⟨hr, hrows⟩ := List.pairwise_cons.mp h
      unfold putRow
      split_ifs with hlt heq
      · refine List.pairwise_cons.mpr ⟨?_, h⟩
        intro row hrow
        rcases List.mem_cons.mp hrow with rfl | hrow
        · exact hlt
        · exact Nat.lt_trans hlt (hr row hrow)
      · refine List.pairwise_cons.mpr ⟨?_, hrows⟩
        intro row hrow
        exact Nat.lt_of_le_of_lt (Nat.le_of_eq heq) (hr row hrow)
      · refine List.pairwise_cons.mpr ⟨?_, ih hrows⟩
        intro row hrow
        rcases mem_putRow hrow with rfl | hrow
        · exact Nat.lt_of_le_of_ne (Nat.not_lt.mp hlt) (Ne.symm heq)
        · exact hr row hrow

theorem delRow_sublist (k : κ) (rows : List (κ × ν)) : (delRow k rows).Sublist rows := by
  induction rows with
  | nil => exact List.Sublist.refl _
  | cons r rows ih =>
      unfold delRow
      split_ifs
      · exact List.sublist_cons_self r rows
      · exact ih.cons_cons r

/-! ### The table -/

def empty : Table κ ν := ⟨[], List.Pairwise.nil⟩

/-- The value under a key. -/
def get (t : Table κ ν) (k : κ) : Option ν := getRow k t.rows

/-- Whether a key has a row. -/
def has (t : Table κ ν) (k : κ) : Bool := (t.get k).isSome

/-- Write a row, replacing the one of its key. -/
def put (t : Table κ ν) (k : κ) (v : ν) : Table κ ν :=
  ⟨putRow k v t.rows, putRow_ascending k v t.ascending⟩

/-- Write a row unless its key has one. -/
def add (t : Table κ ν) (k : κ) (v : ν) : Table κ ν := if t.has k then t else t.put k v

/-- Remove the row of a key, if there is one. -/
def del (t : Table κ ν) (k : κ) : Table κ ν :=
  ⟨delRow k t.rows, t.ascending.sublist (delRow_sublist k t.rows)⟩

/-- The rows that satisfy `p`. -/
def retain (t : Table κ ν) (p : κ → ν → Bool) : Table κ ν :=
  ⟨t.rows.filter fun row => p row.1 row.2, t.ascending.sublist List.filter_sublist⟩

/-- How many rows there are. -/
def size (t : Table κ ν) : Nat := t.rows.length

/-- How many rows have a key satisfying `p`. -/
def count (t : Table κ ν) (p : κ → Bool) : Nat := t.rows.countP fun row => p row.1

theorem eq_of_rows {t t' : Table κ ν} (h : t.rows = t'.rows) : t = t' := by
  cases t
  cases t'
  cases h
  rfl

instance [DecidableEq κ] [DecidableEq ν] : DecidableEq (Table κ ν) := fun t t' =>
  decidable_of_iff (t.rows = t'.rows) ⟨eq_of_rows, congrArg rows⟩

/-! ### Lookups -/

private theorem getRow_eq_none {k : κ} {rows : List (κ × ν)} (h : ∀ row ∈ rows, rank k < rank row.1) :
    getRow k rows = none := by
  induction rows with
  | nil => rfl
  | cons r rows ih =>
      have hr := h r List.mem_cons_self
      unfold getRow
      rw [if_neg (Nat.ne_of_gt hr), ih fun row hrow => h row (List.mem_cons_of_mem r hrow)]

private theorem getRow_putRow_self (k : κ) (v : ν) (rows : List (κ × ν)) :
    getRow k (putRow k v rows) = some v := by
  induction rows with
  | nil => simp [putRow, getRow]
  | cons r rows ih =>
      unfold putRow
      split_ifs with hlt heq
      · simp [getRow]
      · simp [getRow]
      · unfold getRow
        rw [if_neg (Ne.symm heq), ih]

private theorem getRow_putRow_of_ne {k k' : κ} (hne : rank k' ≠ rank k) (v : ν)
    (rows : List (κ × ν)) : getRow k' (putRow k v rows) = getRow k' rows := by
  induction rows with
  | nil => simp [putRow, getRow, Ne.symm hne]
  | cons r rows ih =>
      unfold putRow
      split_ifs with hlt heq
      · rw [getRow, if_neg (Ne.symm hne)]
      · rw [getRow, if_neg (Ne.symm hne), getRow, if_neg (fun h => hne (h.symm.trans heq.symm))]
      · rw [getRow, getRow, ih]

private theorem getRow_delRow_self {k : κ} {rows : List (κ × ν)} (h : rows.Pairwise RowLt) :
    getRow k (delRow k rows) = none := by
  induction rows with
  | nil => rfl
  | cons r rows ih =>
      obtain ⟨hr, hrows⟩ := List.pairwise_cons.mp h
      unfold delRow
      split_ifs with heq
      · exact getRow_eq_none fun row hrow => heq ▸ (show rank r.1 < rank row.1 from hr row hrow)
      · rw [getRow, if_neg heq, ih hrows]

private theorem getRow_delRow_of_ne {k k' : κ} (hne : rank k' ≠ rank k) (rows : List (κ × ν)) :
    getRow k' (delRow k rows) = getRow k' rows := by
  induction rows with
  | nil => rfl
  | cons r rows ih =>
      unfold delRow
      split_ifs with heq
      · rw [getRow, if_neg (fun h => hne (h.symm.trans heq))]
      · rw [getRow, getRow, ih]

@[simp] theorem get_empty (k : κ) : (empty : Table κ ν).get k = none := rfl

@[simp] theorem size_empty : (empty : Table κ ν).size = 0 := rfl

@[simp] theorem get_put_self (t : Table κ ν) (k : κ) (v : ν) : (t.put k v).get k = some v :=
  getRow_putRow_self k v t.rows

theorem get_put_of_ne (t : Table κ ν) {k k' : κ} (h : k' ≠ k) (v : ν) :
    (t.put k v).get k' = t.get k' :=
  getRow_putRow_of_ne (fun hr => h (rank_injective hr)) v t.rows

@[simp] theorem get_del_self (t : Table κ ν) (k : κ) : (t.del k).get k = none :=
  getRow_delRow_self t.ascending

theorem get_del_of_ne (t : Table κ ν) {k k' : κ} (h : k' ≠ k) : (t.del k).get k' = t.get k' :=
  getRow_delRow_of_ne (fun hr => h (rank_injective hr)) t.rows

theorem get_put [DecidableEq κ] (t : Table κ ν) (k k' : κ) (v : ν) :
    (t.put k v).get k' = if k' = k then some v else t.get k' := by
  split_ifs with h
  · rw [h, get_put_self]
  · exact get_put_of_ne t h v

theorem get_del [DecidableEq κ] (t : Table κ ν) (k k' : κ) :
    (t.del k).get k' = if k' = k then none else t.get k' := by
  split_ifs with h
  · rw [h, get_del_self]
  · exact get_del_of_ne t h

@[simp] theorem has_eq (t : Table κ ν) (k : κ) : t.has k = (t.get k).isSome := rfl

/-- A row that is there survives every row that is added. -/
theorem get_add_of_get [DecidableEq κ] {t : Table κ ν} {k : κ} {v : ν} (h : t.get k = some v)
    (k' : κ) (v' : ν) : (t.add k' v').get k = some v := by
  unfold add
  split_ifs with hhas
  · exact h
  · rw [get_put]
    split_ifs with hk
    · rw [has, ← hk, h] at hhas
      exact absurd rfl hhas
    · exact h

theorem add_of_get_none {t : Table κ ν} {k : κ} (h : t.get k = none) (v : ν) :
    t.add k v = t.put k v := by
  simp [add, h]

/-! ### Extensionality -/

private theorem mem_rows_iff {rows : List (κ × ν)} (h : rows.Pairwise RowLt) (k : κ) (v : ν) :
    (k, v) ∈ rows ↔ getRow k rows = some v := by
  induction rows with
  | nil => simp [getRow]
  | cons r rows ih =>
      obtain ⟨hr, hrows⟩ := List.pairwise_cons.mp h
      rw [List.mem_cons, ih hrows, getRow]
      split_ifs with heq
      · have hk : r.1 = k := rank_injective heq
        have hnone : getRow k rows = none :=
          getRow_eq_none fun row hrow => heq ▸ (show rank r.1 < rank row.1 from hr row hrow)
        rw [hnone]
        constructor
        · rintro (rfl | hf)
          · rfl
          · cases hf
        · intro hv
          rw [Option.some.injEq] at hv
          exact Or.inl (Prod.ext hk.symm hv.symm)
      · constructor
        · rintro (rfl | hm)
          · exact absurd rfl heq
          · exact hm
        · exact Or.inr

theorem mem_iff (t : Table κ ν) (k : κ) (v : ν) : (k, v) ∈ t.rows ↔ t.get k = some v :=
  mem_rows_iff t.ascending k v

/-- **Extensionality.**  A table is its lookups. -/
theorem ext {t t' : Table κ ν} (h : ∀ k, t.get k = t'.get k) : t = t' := by
  apply eq_of_rows
  have hirrefl : Std.Irrefl (@RowLt κ ν _) := ⟨fun a => Nat.lt_irrefl _⟩
  have hanti : Std.Antisymm (@RowLt κ ν _) :=
    ⟨fun a b hab hba => absurd (Nat.lt_trans hab hba) (Nat.lt_irrefl _)⟩
  refine t.ascending.eq_of_mem_iff t'.ascending ?_
  rintro ⟨k, v⟩
  rw [mem_iff, mem_iff, h k]

/-- Tables that agree on the rows of some kind list them alike. -/
theorem filter_rows_eq {t t' : Table κ ν} {q : κ × ν → Bool}
    (h : ∀ k v, q (k, v) = true → (t.get k = some v ↔ t'.get k = some v)) :
    t.rows.filter q = t'.rows.filter q := by
  have hirrefl : Std.Irrefl (@RowLt κ ν _) := ⟨fun a => Nat.lt_irrefl _⟩
  have hanti : Std.Antisymm (@RowLt κ ν _) :=
    ⟨fun a b hab hba => absurd (Nat.lt_trans hab hba) (Nat.lt_irrefl _)⟩
  refine (t.ascending.sublist List.filter_sublist).eq_of_mem_iff
    (t'.ascending.sublist List.filter_sublist) ?_
  rintro ⟨k, v⟩
  rw [List.mem_filter, List.mem_filter, mem_iff, mem_iff]
  exact and_congr_left fun hq => h k v hq

/-- Writing a new row and removing it again leaves the table as it was. -/
theorem del_put_of_get_none {t : Table κ ν} {k : κ} (h : t.get k = none) (v : ν) :
    (t.put k v).del k = t := by
  refine ext fun k' => ?_
  by_cases hk : k' = k
  · rw [hk, get_del_self, h]
  · rw [get_del_of_ne _ hk, get_put_of_ne _ hk]

theorem del_of_get_none {t : Table κ ν} {k : κ} (h : t.get k = none) : t.del k = t := by
  refine ext fun k' => ?_
  by_cases hk : k' = k
  · rw [hk, get_del_self, h]
  · rw [get_del_of_ne _ hk]

theorem del_put_comm (t : Table κ ν) {k k' : κ} (h : k ≠ k') (v : ν) :
    (t.put k v).del k' = (t.del k').put k v := by
  refine ext fun j => ?_
  by_cases hj : j = k'
  · rw [hj, get_del_self, get_put_of_ne _ h.symm, get_del_self]
  · rw [get_del_of_ne _ hj]
    by_cases hjk : j = k
    · rw [hjk, get_put_self, get_put_self]
    · rw [get_put_of_ne _ hjk, get_put_of_ne _ hjk, get_del_of_ne _ hj]

theorem del_comm (t : Table κ ν) (k k' : κ) : (t.del k).del k' = (t.del k').del k := by
  refine ext fun j => ?_
  by_cases hj : j = k'
  · by_cases hjk : j = k
    · rw [← hj, ← hjk]
    · rw [hj, get_del_self, get_del_of_ne _ (hj ▸ hjk), get_del_self]
  · rw [get_del_of_ne _ hj]
    by_cases hjk : j = k
    · rw [hjk, get_del_self, get_del_self]
    · rw [get_del_of_ne _ hjk, get_del_of_ne _ hjk, get_del_of_ne _ hj]

/-! ### Counting rows -/

private theorem countP_putRow {k : κ} (v : ν) (p : κ → Bool) {rows : List (κ × ν)}
    (hasc : rows.Pairwise RowLt) (h : getRow k rows = none) :
    (putRow k v rows).countP (fun row => p row.1) =
      rows.countP (fun row => p row.1) + if p k then 1 else 0 := by
  induction rows with
  | nil => simp [putRow, List.countP_cons]
  | cons r rows ih =>
      unfold getRow at h
      split_ifs at h with heq
      have hrows := (List.pairwise_cons.mp hasc).2
      rw [putRow]
      by_cases hlt : rank k < rank r.1
      · rw [if_pos hlt, List.countP_cons]
      · rw [if_neg hlt, if_neg (Ne.symm heq), List.countP_cons, List.countP_cons, ih hrows h]
        omega

theorem count_put_of_get_none {t : Table κ ν} {k : κ} (h : t.get k = none) (v : ν)
    (p : κ → Bool) : (t.put k v).count p = t.count p + if p k then 1 else 0 :=
  countP_putRow v p t.ascending h

theorem size_eq_count (t : Table κ ν) : t.size = t.count fun _ => true := by
  simp [size, count]

theorem size_put_of_get_none {t : Table κ ν} {k : κ} (h : t.get k = none) (v : ν) :
    (t.put k v).size = t.size + 1 := by
  rw [size_eq_count, count_put_of_get_none h, size_eq_count]
  rfl

/-! ### Totals -/

/-- The sum of a quantity over all rows. -/
def total (f : κ → ν → Nat) (t : Table κ ν) : Nat := (t.rows.map fun row => f row.1 row.2).sum

@[simp] theorem total_empty (f : κ → ν → Nat) : (empty : Table κ ν).total f = 0 := rfl

private theorem sum_delRow (f : κ → ν → Nat) (k : κ) (rows : List (κ × ν)) :
    ((delRow k rows).map fun row => f row.1 row.2).sum + ((getRow k rows).map (f k)).getD 0 =
      (rows.map fun row => f row.1 row.2).sum := by
  induction rows with
  | nil => rfl
  | cons r rows ih =>
      obtain ⟨k', v'⟩ := r
      unfold delRow getRow
      split_ifs with heq
      · cases rank_injective heq
        simp [Nat.add_comm]
      · simp only [List.map_cons, List.sum_cons]
        omega

private theorem sum_putRow (f : κ → ν → Nat) (k : κ) (v : ν) {rows : List (κ × ν)}
    (hasc : rows.Pairwise RowLt) :
    ((putRow k v rows).map fun row => f row.1 row.2).sum + ((getRow k rows).map (f k)).getD 0 =
      (rows.map fun row => f row.1 row.2).sum + f k v := by
  induction rows with
  | nil => simp [putRow, getRow]
  | cons r rows ih =>
      obtain ⟨hr, hrows⟩ := List.pairwise_cons.mp hasc
      obtain ⟨k', v'⟩ := r
      unfold putRow
      split_ifs with hlt heq
      · -- The key comes before every row, so none has it.
        have hnone : getRow k ((k', v') :: rows) = none := by
          refine getRow_eq_none fun row hrow => ?_
          rcases List.mem_cons.mp hrow with rfl | hrow
          · exact hlt
          · exact Nat.lt_trans hlt (hr row hrow)
        rw [hnone]
        simp [Nat.add_comm]
      · cases rank_injective heq
        rw [getRow, if_pos rfl]
        simp only [List.map_cons, List.sum_cons, Option.map_some, Option.getD_some]
        omega
      · rw [getRow, if_neg (Ne.symm heq)]
        have hrest := ih hrows
        simp only [List.map_cons, List.sum_cons]
        omega

/-- A row written adds its own, less what it replaces. -/
theorem total_put (f : κ → ν → Nat) (t : Table κ ν) (k : κ) (v : ν) :
    (t.put k v).total f + ((t.get k).map (f k)).getD 0 = t.total f + f k v :=
  sum_putRow f k v t.ascending

/-- A row removed takes its own. -/
theorem total_del (f : κ → ν → Nat) (t : Table κ ν) (k : κ) :
    (t.del k).total f + ((t.get k).map (f k)).getD 0 = t.total f :=
  sum_delRow f k t.rows

/-- The first row is that of the lowest key. -/
theorem get_of_head? {t : Table κ ν} {k : κ} {v : ν} (h : t.rows.head? = some (k, v)) :
    t.get k = some v ∧ ∀ k' v', t.get k' = some v' → rank k ≤ rank k' := by
  obtain ⟨rows, hrows⟩ := List.head?_eq_some_iff.mp h
  refine ⟨(mem_iff t k v).mp (List.mem_of_mem_head? h), ?_⟩
  intro k' v' hget
  have hmem := (mem_iff t k' v').mpr hget
  have hasc := t.ascending
  rw [hrows] at hmem hasc
  rcases List.mem_cons.mp hmem with heq | hmem
  · cases heq
    exact Nat.le_refl _
  · exact Nat.le_of_lt ((List.pairwise_cons.mp hasc).1 _ hmem)

private theorem length_delRow {k : κ} {v : ν} {rows : List (κ × ν)} (h : getRow k rows = some v) :
    (delRow k rows).length + 1 = rows.length := by
  induction rows with
  | nil => cases h
  | cons r rows ih =>
      unfold getRow at h
      unfold delRow
      split_ifs at h ⊢
      · rfl
      · rw [List.length_cons, ih h, List.length_cons]

theorem size_del_of_get {t : Table κ ν} {k : κ} {v : ν} (h : t.get k = some v) :
    (t.del k).size + 1 = t.size :=
  length_delRow h

theorem size_retain_le (t : Table κ ν) (p : κ → ν → Bool) : (t.retain p).size ≤ t.size :=
  List.length_filter_le _ _

/-! ### Many rows -/

theorem get_retain (t : Table κ ν) (p : κ → ν → Bool) (k : κ) :
    (t.retain p).get k = (t.get k).filter (p k) := by
  refine Option.ext fun v => ?_
  have hmem : (k, v) ∈ (t.retain p).rows ↔ (k, v) ∈ t.rows ∧ p k v = true := List.mem_filter
  rw [mem_iff, mem_iff] at hmem
  rw [hmem, Option.filter_eq_some_iff]

/-- What is left after the rows of many keys are removed. -/
theorem get_foldl_del [DecidableEq κ] {α : Type} (f : α → κ) (l : List α) (t : Table κ ν)
    (k : κ) :
    (l.foldl (fun t x => t.del (f x)) t).get k = if k ∈ l.map f then none else t.get k := by
  induction l generalizing t with
  | nil => simp
  | cons x l ih =>
      rw [List.foldl_cons, ih, get_del, List.map_cons]
      by_cases hk : k = f x
      · simp [hk]
      · simp [hk]

/-- What is there after one value is written under many keys. -/
theorem get_foldl_put [DecidableEq κ] (l : List κ) (v : ν) (t : Table κ ν) (k : κ) :
    (l.foldl (fun t k => t.put k v) t).get k = if k ∈ l then some v else t.get k := by
  induction l generalizing t with
  | nil => simp
  | cons x l ih =>
      rw [List.foldl_cons, ih, get_put]
      by_cases hk : k = x
      · simp [hk]
      · simp [hk]

private theorem get_putRows [DecidableEq κ] {μ : Type} (f : ν → μ) {rows : List (κ × ν)}
    (hasc : rows.Pairwise RowLt) (t : Table κ μ) (k : κ) :
    (rows.foldl (fun t row => t.put row.1 (f row.2)) t).get k =
      ((getRow k rows).map f).or (t.get k) := by
  induction rows generalizing t with
  | nil => simp [getRow]
  | cons r rows ih =>
      obtain ⟨hr, hrows⟩ := List.pairwise_cons.mp hasc
      rw [List.foldl_cons, ih hrows, getRow, get_put]
      by_cases heq : rank r.1 = rank k
      · have hnone : getRow k rows = none :=
          getRow_eq_none fun row hrow => heq ▸ (show rank r.1 < rank row.1 from hr row hrow)
        rw [hnone, if_pos heq, if_pos (rank_injective heq).symm]
        rfl
      · rw [if_neg heq, if_neg fun hk => heq (congrArg rank hk.symm)]

/-- What is there after one table is written over another. -/
theorem get_putAll [DecidableEq κ] {μ : Type} (f : ν → μ) (u : Table κ ν) (t : Table κ μ)
    (k : κ) :
    (u.rows.foldl (fun t row => t.put row.1 (f row.2)) t).get k =
      ((u.get k).map f).or (t.get k) :=
  get_putRows f u.ascending t k

/-! ### Tables numbered from zero -/

/-- The keys are exactly the numbers below the size. -/
def Dense (t : Table Nat ν) : Prop := ∀ k, (t.get k).isSome ↔ k < t.size

theorem dense_empty : (empty : Table Nat ν).Dense := by
  intro k
  simp

theorem Dense.get_size {t : Table Nat ν} (h : t.Dense) : t.get t.size = none := by
  rw [← Option.not_isSome_iff_eq_none, h]
  exact Nat.lt_irrefl _

theorem Dense.get_some {t : Table Nat ν} (h : t.Dense) {k : Nat} (hk : k < t.size) :
    ∃ v, t.get k = some v :=
  Option.isSome_iff_exists.mp ((h k).mpr hk)

theorem Dense.put {t : Table Nat ν} (h : t.Dense) (v : ν) : (t.put t.size v).Dense := by
  intro k
  rw [size_put_of_get_none h.get_size, get_put]
  split_ifs with hk
  · simp [hk]
  · rw [h k]
    omega

/-- Removing the last row keeps the numbering, and the size falls by one. -/
theorem Dense.del {t : Table Nat ν} (h : t.Dense) (hpos : 0 < t.size) :
    (t.del (t.size - 1)).Dense ∧ (t.del (t.size - 1)).size + 1 = t.size := by
  obtain ⟨v, hv⟩ := h.get_some (Nat.sub_lt hpos Nat.one_pos)
  -- The size is read off the table that putting the row back gives.
  have hback : (t.del (t.size - 1)).put (t.size - 1) v = t := by
    refine ext fun k => ?_
    rw [get_put, get_del]
    split_ifs with hk
    · rw [hk, hv]
    · rfl
  have hsize : (t.del (t.size - 1)).size + 1 = t.size := by
    rw [← size_put_of_get_none (get_del_self t (t.size - 1)) v, hback]
  refine ⟨fun k => ?_, hsize⟩
  rw [get_del]
  split_ifs with hk
  · simp only [Option.isSome_none, Bool.false_eq_true, false_iff]
    omega
  · rw [h k]
    omega

end Table

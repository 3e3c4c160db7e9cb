import Mathlib
/-!
# Count maps

A multiset kept as an ordered map from its values to how often each is there.  Spelled out, each key as
often as it is counted, the map is a sorted list; counting one more is an ordered insertion there, and
counting one less erases.
-/

namespace CountMap

variable {α : Type}

/-- The values, each as often as it is counted. -/
def values (m : List (α × Nat)) : List α := m.flatMap fun e => List.replicate e.2 e.1

section

variable {m : List (α × Nat)} {v : α}

@[simp] theorem values_nil : values ([] : List (α × Nat)) = [] := rfl

theorem values_cons (k : α) (c : Nat) (m : List (α × Nat)) :
    values ((k, c) :: m) = List.replicate c k ++ values m := rfl

theorem length_values (m : List (α × Nat)) : (values m).length = (m.map (·.2)).sum := by
  rw [values, List.length_flatMap]
  simp only [List.length_replicate]

theorem mem_values : v ∈ values m ↔ ∃ e ∈ m, e.1 = v ∧ 0 < e.2 := by
  unfold values
  rw [List.mem_flatMap]
  constructor
  · rintro ⟨e, he, hv⟩
    obtain ⟨hne, rfl⟩ := List.mem_replicate.mp hv
    exact ⟨e, he, rfl, Nat.pos_of_ne_zero hne⟩
  · rintro ⟨e, he, rfl, hpos⟩
    exact ⟨e, he, List.mem_replicate.mpr ⟨Nat.ne_of_gt hpos, rfl⟩⟩

end

variable [LinearOrder α]

/-- Keys ascend, and none is counted zero times. -/
structure Ordered (m : List (α × Nat)) : Prop where
  keys : m.Pairwise fun e e' => e.1 < e'.1
  counted : ∀ e ∈ m, 0 < e.2

def firstKey (m : List (α × Nat)) : Option α := m.head?.map (·.1)

def lastKey (m : List (α × Nat)) : Option α := m.getLast?.map (·.1)

def containsKey (m : List (α × Nat)) (v : α) : Bool := m.any (·.1 = v)

/-- Count a value once more. -/
def increment (v : α) : List (α × Nat) → List (α × Nat)
  | [] => [(v, 1)]
  | (k, c) :: m =>
      if v < k then (v, 1) :: (k, c) :: m
      else if v = k then (k, c + 1) :: m
      else (k, c) :: increment v m

/-- Count a value once less, and forget it when none is left; `none` for a value that is not there. -/
def decrement (v : α) : List (α × Nat) → Option (List (α × Nat))
  | [] => none
  | (k, c) :: m =>
      if v = k then some (if c > 1 then (k, c - 1) :: m else m)
      else (decrement v m).map ((k, c) :: ·)

variable {m : List (α × Nat)} {v : α}

theorem Ordered.nil : Ordered ([] : List (α × Nat)) :=
  ⟨List.Pairwise.nil, fun _ h => absurd h List.not_mem_nil⟩

theorem Ordered.tail {e : α × Nat} (h : Ordered (e :: m)) : Ordered m :=
  ⟨(List.pairwise_cons.mp h.keys).2, fun e he => h.counted e (List.mem_cons_of_mem _ he)⟩

theorem Ordered.cons {k : α} {c : Nat} (h : Ordered m) (hc : 0 < c) (hk : ∀ e ∈ m, k < e.1) :
    Ordered ((k, c) :: m) := by
  refine ⟨List.pairwise_cons.mpr ⟨hk, h.keys⟩, fun e he => ?_⟩
  rcases List.mem_cons.mp he with rfl | he
  · exact hc
  · exact h.counted e he

/-- The head's key is under all values behind it. -/
theorem Ordered.head_lt {k : α} {c : Nat} (h : Ordered ((k, c) :: m)) {a : α} (ha : a ∈ values m) :
    k < a := by
  obtain ⟨e, he, rfl, -⟩ := mem_values.mp ha
  exact (List.pairwise_cons.mp h.keys).1 e he

theorem Ordered.sorted (h : Ordered m) : (values m).Pairwise (· ≤ ·) := by
  induction m with
  | nil => exact List.Pairwise.nil
  | cons e m ih =>
      obtain ⟨k, c⟩ := e
      rw [values_cons, List.pairwise_append]
      refine ⟨List.pairwise_replicate.mpr (Or.inr le_rfl), ih h.tail, fun a ha b hb => ?_⟩
      rw [List.eq_of_mem_replicate ha]
      exact le_of_lt (h.head_lt hb)

/-! ### Keys -/

theorem Ordered.containsKey_iff (h : Ordered m) : containsKey m v = true ↔ v ∈ values m := by
  rw [containsKey, List.any_eq_true, mem_values]
  constructor
  · rintro ⟨e, he, hkey⟩
    exact ⟨e, he, of_decide_eq_true hkey, h.counted e he⟩
  · rintro ⟨e, he, hkey, -⟩
    exact ⟨e, he, decide_eq_true hkey⟩

theorem Ordered.firstKey_eq (h : Ordered m) : firstKey m = (values m).head? := by
  cases m with
  | nil => rfl
  | cons e m =>
      obtain ⟨k, c⟩ := e
      obtain ⟨c, rfl⟩ : ∃ n, c = n + 1 :=
        ⟨c - 1, (Nat.sub_add_cancel (h.counted _ (List.mem_cons_self ..))).symm⟩
      rw [values_cons, List.replicate_succ]
      rfl

theorem Ordered.lastKey_eq (h : Ordered m) : lastKey m = (values m).getLast? := by
  induction m with
  | nil => rfl
  | cons e m ih =>
      obtain ⟨k, c⟩ := e
      have hc : c ≠ 0 := Nat.ne_of_gt (h.counted _ (List.mem_cons_self ..))
      rw [values_cons]
      cases m with
      | nil =>
          rw [values_nil, List.append_nil, List.getLast?_replicate, if_neg hc]
          rfl
      | cons e' m =>
          have hne : values (e' :: m) ≠ [] := by
            intro hnil
            have hmem : e'.1 ∈ values (e' :: m) :=
              mem_values.mpr ⟨e', List.mem_cons_self .., rfl, h.tail.counted _ (List.mem_cons_self ..)⟩
            rw [hnil] at hmem
            exact absurd hmem List.not_mem_nil
          rw [List.getLast?_append_of_ne_nil _ hne, ← ih h.tail]
          rfl

/-! ### Counting -/

theorem mem_increment {e : α × Nat} (h : e ∈ increment v m) : e.1 = v ∨ ∃ e' ∈ m, e'.1 = e.1 := by
  induction m with
  | nil =>
      rw [increment, List.mem_singleton] at h
      exact Or.inl (by rw [h])
  | cons e' m ih =>
      obtain ⟨k, c⟩ := e'
      rw [increment] at h
      split_ifs at h with hlt heq
      · rcases List.mem_cons.mp h with rfl | h
        · exact Or.inl rfl
        · exact Or.inr ⟨e, h, rfl⟩
      · rcases List.mem_cons.mp h with rfl | h
        · exact Or.inl heq.symm
        · exact Or.inr ⟨e, List.mem_cons_of_mem _ h, rfl⟩
      · rcases List.mem_cons.mp h with rfl | h
        · exact Or.inr ⟨_, List.mem_cons_self .., rfl⟩
        · rcases ih h with hv | ⟨e'', he'', hkey⟩
          · exact Or.inl hv
          · exact Or.inr ⟨e'', List.mem_cons_of_mem _ he'', hkey⟩

theorem Ordered.increment (h : Ordered m) (v : α) : Ordered (increment v m) := by
  induction m with
  | nil => exact Ordered.nil.cons Nat.one_pos fun _ he => absurd he List.not_mem_nil
  | cons e m ih =>
      obtain ⟨k, c⟩ := e
      have hkeys := (List.pairwise_cons.mp h.keys).1
      rw [CountMap.increment]
      split_ifs with hlt heq
      · refine h.cons Nat.one_pos fun e he => ?_
        rcases List.mem_cons.mp he with rfl | he
        · exact hlt
        · exact lt_trans hlt (hkeys e he)
      · exact h.tail.cons (Nat.succ_pos c) hkeys
      · have hkv : k < v := lt_of_le_of_ne (not_lt.mp hlt) (Ne.symm heq)
        refine (ih h.tail).cons (h.counted _ (List.mem_cons_self ..)) fun e he => ?_
        rcases mem_increment he with hv | ⟨e', he', hkey⟩
        · exact hv ▸ hkv
        · exact hkey ▸ hkeys e' he'

/-- Counting once more inserts in order. -/
theorem Ordered.values_increment (h : Ordered m) (v : α) :
    values (CountMap.increment v m) = (values m).orderedInsert (· ≤ ·) v := by
  have hperm : List.Perm (values (CountMap.increment v m)) (v :: values m) := by
    induction m with
    | nil => exact List.Perm.refl _
    | cons e m ih =>
        obtain ⟨k, c⟩ := e
        rw [CountMap.increment]
        split_ifs with hlt heq
        · exact List.Perm.refl _
        · rw [values_cons, values_cons, List.replicate_succ, heq, List.cons_append]
        · rw [values_cons, values_cons]
          exact ((ih h.tail).append_left _).trans List.perm_middle
  exact (hperm.trans (List.perm_orderedInsert _ v _).symm).eq_of_pairwise' (h.increment v).sorted
    (h.sorted.orderedInsert v _)

theorem mem_decrement {m' : List (α × Nat)} (h : decrement v m = some m') {e : α × Nat} (he : e ∈ m') :
    ∃ e' ∈ m, e'.1 = e.1 := by
  induction m generalizing m' with
  | nil => exact absurd h.symm (Option.some_ne_none m')
  | cons e' m ih =>
      obtain ⟨k, c⟩ := e'
      rw [decrement] at h
      by_cases heq : v = k
      · rw [if_pos heq] at h
        obtain rfl := Option.some.inj h
        split_ifs at he with hmany
        · rcases List.mem_cons.mp he with rfl | he
          · exact ⟨_, List.mem_cons_self .., rfl⟩
          · exact ⟨e, List.mem_cons_of_mem _ he, rfl⟩
        · exact ⟨e, List.mem_cons_of_mem _ he, rfl⟩
      · rw [if_neg heq] at h
        obtain ⟨rest, hrest, rfl⟩ := Option.map_eq_some_iff.mp h
        rcases List.mem_cons.mp he with rfl | he
        · exact ⟨_, List.mem_cons_self .., rfl⟩
        · obtain ⟨e'', he'', hkey⟩ := ih hrest he
          exact ⟨e'', List.mem_cons_of_mem _ he'', hkey⟩

/-- Counting once less erases a value that is there. -/
theorem Ordered.decrement (h : Ordered m) (hv : v ∈ values m) :
    ∃ m', CountMap.decrement v m = some m' ∧ Ordered m' ∧ values m' = (values m).erase v := by
  induction m with
  | nil => exact absurd hv List.not_mem_nil
  | cons e m ih =>
      obtain ⟨k, c⟩ := e
      have hkeys := (List.pairwise_cons.mp h.keys).1
      have hc : 0 < c := h.counted _ (List.mem_cons_self ..)
      obtain ⟨c, rfl⟩ : ∃ n, c = n + 1 := ⟨c - 1, (Nat.sub_add_cancel hc).symm⟩
      rw [CountMap.decrement, values_cons, List.replicate_succ, List.cons_append]
      by_cases heq : v = k
      · rw [if_pos heq, heq, List.erase_cons_head, Nat.add_sub_cancel]
        refine ⟨_, rfl, ?_, ?_⟩
        · split_ifs with hmany
          · exact h.tail.cons (by omega) hkeys
          · exact h.tail
        · split_ifs with hmany
          · rfl
          · obtain rfl : c = 0 := by omega
            rfl
      · have hrest : v ∈ values m := by
          rw [values_cons, List.mem_append] at hv
          exact hv.resolve_left fun hmem => heq (List.eq_of_mem_replicate hmem)
        obtain ⟨m', hm', hordered, hvalues⟩ := ih h.tail hrest
        rw [if_neg heq, hm', Option.map_some]
        refine ⟨_, rfl, ?_, ?_⟩
        · refine hordered.cons hc fun e he => ?_
          obtain ⟨e', he', hkey⟩ := mem_decrement hm' he
          exact hkey ▸ hkeys e' he'
        · have hnot : v ∉ k :: List.replicate c k := by
            rw [← List.replicate_succ]
            exact fun hmem => heq (List.eq_of_mem_replicate hmem)
          rw [values_cons, hvalues, List.replicate_succ, ← List.cons_append,
            List.erase_append_right _ hnot]

end CountMap

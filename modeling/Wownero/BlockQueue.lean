import Mathlib.Data.List.Induction
import Wownero.Block
import Wownero.RankedTable
/-!
# The block queue

One sync spread over several peers.  Every connection reserves spans of block ids that no other
has asked for, files the blocks that come back, and one applier takes spans off the front.  Three
maps are kept in step: the spans by their first height, the height of every id in a span, and the
ids that are on their way to the chain.

Answers may be late, partial or for a span that somebody else has asked for again.  A partial
answer fills the span it is for and gives the rest of it back, whoever reserved it.
-/

namespace Wownero

/-! ### Spans -/

/-- `IpAddr`. -/
inductive IpAddr where
  | v4 (bits : BitVec 32)
  | v6 (bits : BitVec 128)
  deriving DecidableEq, Repr

/-- `SocketAddr`. -/
structure SocketAddr where
  ip : IpAddr
  port : BitVec 16
  deriving DecidableEq, Repr

/-- `Span`: a run of consecutive blocks, asked for or delivered.  There are no blocks in it while
    it is only reserved. -/
structure Span where
  start : Nat
  ids : List Hash256
  blocks : List BlockEntry
  conn : Nat
  origin : SocketAddr
  requested : Nat
  rate : Float
  size : Nat

/-- `is_filled`. -/
def Span.isFilled (s : Span) : Bool := !s.blocks.isEmpty

/-- `BlockQueue`. -/
structure BlockQueue where
  spans : Table Nat Span
  heights : Table Hash256 Nat
  applying : Table Hash256 Nat

namespace BlockQueue

def new : BlockQueue := ⟨.empty, .empty, .empty⟩

/-! ### The operations -/

/-- Ids written under the heights from `start` on. -/
def record (t : Table Hash256 Nat) (start : Nat) : List Hash256 → Table Hash256 Nat
  | [] => t
  | id :: ids => record (t.put id start) (start + 1) ids

def requested (q : BlockQueue) (id : Hash256) : Bool := q.heights.has id || q.applying.has id

def insert (q : BlockQueue) (span : Span) : BlockQueue :=
  { q with
    heights := record q.heights span.start span.ids
    spans := q.spans.put span.start span }

def remove (q : BlockQueue) (start : Nat) : Option Span × BlockQueue :=
  match q.spans.get start with
  | none => (none, q)
  | some span =>
      (some span, { q with
        spans := q.spans.del start
        heights := span.ids.foldl (fun t id => t.del id) q.heights })

/-- `reserve`: the first run of `ids` nobody has asked for, as long as `limit` allows. -/
def reserve (q : BlockQueue) (conn : Nat) (origin : SocketAddr) (firstHeight : Nat)
    (ids : List Hash256) (limit : Nat → Nat → Nat) (now : Nat) :
    Option (Nat × List Hash256) × BlockQueue :=
  match ids.findIdx? (fun id => !q.requested id) with
  | none => (none, q)
  | some skip =>
      let start := firstHeight + skip
      if q.spans.has start then (none, q)
      else
        let free := ((ids.drop skip).takeWhile fun id => !q.requested id).length
        let n := min (limit start free) free
        if n = 0 then (none, q)
        else
          let reserved := (ids.drop skip).take n
          (some (start, reserved), q.insert ⟨start, reserved, [], conn, origin, now, 0, 0⟩)

/-- The span at `start` is waiting for these ids first. -/
def awaits (s : Span) (answered : List Hash256) : Bool :=
  !s.isFilled && decide (s.ids.length ≥ answered.length) &&
    decide (s.ids.take answered.length = answered)

/-- `fill`: file blocks a peer sent for the first of `ids`. -/
def fill (q : BlockQueue) (start : Nat) (ids : List Hash256) (blocks : List BlockEntry)
    (conn : Nat) (origin : SocketAddr) (rate : Float) (size now : Nat) : Bool × BlockQueue :=
  let n := blocks.length
  if n = 0 ∨ n > ids.length then (false, q)
  else
    match q.spans.get start with
    | none =>
        if (ids.take n).any q.requested then (false, q)
        else (true, q.insert ⟨start, ids.take n, blocks, conn, origin, now, rate, size⟩)
    | some s =>
        if awaits s (ids.take n) then
          match q.remove start with
          | (none, q) => (false, q)
          | (some span, q) =>
              (true, q.insert { span with
                ids := span.ids.take n
                blocks := blocks
                conn := conn
                origin := origin
                rate := rate
                size := size })
        else (false, q)

/-- The loop of `take_next`. -/
def takeLoop (height : Nat) (known : Hash256 → Bool) : Nat → BlockQueue →
    Option Span × BlockQueue
  | 0, q => (none, q)
  | fuel + 1, q =>
      match q.spans.rows.head? with
      | none => (none, q)
      | some (start, first) =>
          if first.ids.getLast?.any known then takeLoop height known fuel (q.remove start).2
          else if start > height ∨ first.isFilled = false then (none, q)
          else
            match q.remove start with
            | (none, q) => (none, q)
            | (some span, q) =>
                (some span, { q with applying := record q.applying span.start span.ids })

/-- `take_next`: the lowest span, when it is filled and starts at or below `height`.  Each turn of
    the loop but the last removes a span. -/
def takeNext (q : BlockQueue) (height : Nat) (known : Hash256 → Bool) :
    Option Span × BlockQueue :=
  takeLoop height known (q.spans.size + 1) q

def applied (q : BlockQueue) (span : Span) : BlockQueue :=
  { q with applying := span.ids.foldl (fun t id => t.del id) q.applying }

def flush (q : BlockQueue) (conn : Nat) (all : Bool) : BlockQueue :=
  let starts := (q.spans.rows.filter fun row =>
    row.2.conn == conn && (all || !row.2.isFilled)).map (·.2.start)
  starts.foldl (fun q start => (q.remove start).2) q

def clear (q : BlockQueue) : BlockQueue := { q with spans := .empty, heights := .empty }

def touch (q : BlockQueue) (start now : Nat) : BlockQueue :=
  match q.spans.get start with
  | none => q
  | some s => { q with spans := q.spans.put start { s with requested := now } }

/-! ### The maps in step -/

/-- The queue has a span from `start` whose `i`-th id is this one. -/
def Placed (q : BlockQueue) (id : Hash256) (start i : Nat) : Prop :=
  ∃ s, q.spans.get start = some s ∧ s.ids[i]? = some id

/-- The representation invariant. -/
structure WellFormed (q : BlockQueue) : Prop where
  keyed : ∀ start s, q.spans.get start = some s → s.start = start
  nonempty : ∀ start s, q.spans.get start = some s → s.ids ≠ []
  filled : ∀ start s, q.spans.get start = some s → s.isFilled = true →
    s.blocks.length = s.ids.length
  heights : ∀ id h, q.heights.get id = some h ↔ ∃ start i, q.Placed id start i ∧ h = start + i
  apart : ∀ id start i start' i', q.Placed id start i → q.Placed id start' i' →
    start = start' ∧ i = i'
  idle : ∀ id start i, q.Placed id start i → q.applying.get id = none

theorem wellFormed_new : new.WellFormed := by
  refine ⟨nofun, nofun, nofun, ?_, ?_, ?_⟩
  · intro id h
    constructor
    · exact nofun
    · rintro ⟨start, i, ⟨s, hget, _⟩, _⟩
      cases hget
  · rintro id start i start' i' ⟨s, hget, _⟩
    cases hget
  · rintro id start i ⟨s, hget, _⟩
    cases hget

theorem Placed.mem_heights {q : BlockQueue} (h : q.WellFormed) {id : Hash256} {start i : Nat}
    (hplaced : q.Placed id start i) : q.heights.get id = some (start + i) :=
  (h.heights id _).mpr ⟨start, i, hplaced, rfl⟩

theorem get_record (t : Table Hash256 Nat) (start : Nat) {ids : List Hash256}
    (hnodup : ids.Nodup) (id : Hash256) (h : Nat) :
    (record t start ids).get id = some h ↔
      (∃ i, ids[i]? = some id ∧ h = start + i) ∨ id ∉ ids ∧ t.get id = some h := by
  induction ids generalizing t start with
  | nil => simp [record]
  | cons x ids ih =>
      obtain ⟨hx, hids⟩ := List.nodup_cons.mp hnodup
      rw [record, ih _ _ hids, Table.get_put]
      by_cases hid : id = x
      · subst hid
        constructor
        · rintro (⟨i, hi, rfl⟩ | ⟨_, hput⟩)
          · exact absurd (List.mem_of_getElem? hi) hx
          · rw [if_pos rfl, Option.some.injEq] at hput
            exact Or.inl ⟨0, rfl, hput.symm⟩
        · rintro (⟨i, hi, rfl⟩ | ⟨hnot, _⟩)
          · cases i with
            | zero => exact Or.inr ⟨hx, by simp⟩
            | succ i =>
                rw [List.getElem?_cons_succ] at hi
                exact absurd (List.mem_of_getElem? hi) hx
          · exact absurd List.mem_cons_self hnot
      · rw [if_neg hid]
        constructor
        · rintro (⟨i, hi, rfl⟩ | ⟨hnot, hget⟩)
          · exact Or.inl ⟨i + 1, hi, by omega⟩
          · exact Or.inr ⟨by simp [hid, hnot], hget⟩
        · rintro (⟨i, hi, rfl⟩ | ⟨hnot, hget⟩)
          · cases i with
            | zero => exact absurd (Option.some.inj hi).symm hid
            | succ i => exact Or.inl ⟨i, hi, by omega⟩
          · exact Or.inr ⟨fun hmem => hnot (List.mem_cons_of_mem x hmem), hget⟩

/-! ### Inserting and removing a span -/

theorem placed_insert {q : BlockQueue} {span : Span} {id : Hash256} {start i : Nat} :
    (q.insert span).Placed id start i ↔
      start = span.start ∧ span.ids[i]? = some id ∨
        start ≠ span.start ∧ q.Placed id start i := by
  simp only [Placed, insert, Table.get_put]
  by_cases hstart : start = span.start
  · simp [hstart]
  · simp [hstart]

/-- A span of new ids at a height where no span starts. -/
theorem WellFormed.insert {q : BlockQueue} (h : q.WellFormed) {span : Span}
    (hfree : q.spans.get span.start = none) (hne : span.ids ≠ []) (hnodup : span.ids.Nodup)
    (hfilled : span.isFilled = true → span.blocks.length = span.ids.length)
    (hnew : ∀ id ∈ span.ids, q.requested id = false) : (q.insert span).WellFormed := by
  have hold : ∀ id start i, q.Placed id start i → start ≠ span.start ∧ id ∉ span.ids := by
    intro id start i hplaced
    refine ⟨?_, fun hmem => ?_⟩
    · rintro rfl
      obtain ⟨s, hget, _⟩ := hplaced
      rw [hfree] at hget
      cases hget
    · have hreq := hnew id hmem
      simp only [requested, Table.has_eq, hplaced.mem_heights h, Option.isSome_some,
        Bool.true_or] at hreq
      cases hreq
  have hspan : ∀ start s, (q.insert span).spans.get start = some s →
      start = span.start ∧ s = span ∨ q.spans.get start = some s := by
    intro start s hget
    simp only [BlockQueue.insert, Table.get_put] at hget
    split_ifs at hget with hstart
    · exact Or.inl ⟨hstart, (Option.some.inj hget).symm⟩
    · exact Or.inr hget
  refine ⟨?_, ?_, ?_, ?_, ?_, ?_⟩
  · intro start s hget
    rcases hspan start s hget with ⟨rfl, rfl⟩ | hget
    · rfl
    · exact h.keyed start s hget
  · intro start s hget
    rcases hspan start s hget with ⟨_, rfl⟩ | hget
    · exact hne
    · exact h.nonempty start s hget
  · intro start s hget
    rcases hspan start s hget with ⟨_, rfl⟩ | hget
    · exact hfilled
    · exact h.filled start s hget
  · intro id height
    rw [BlockQueue.insert, get_record _ _ hnodup, h.heights]
    constructor
    · rintro (⟨i, hi, rfl⟩ | ⟨_, start, i, hplaced, rfl⟩)
      · exact ⟨span.start, i, placed_insert.mpr (Or.inl ⟨rfl, hi⟩), rfl⟩
      · exact ⟨start, i, placed_insert.mpr (Or.inr ⟨(hold id start i hplaced).1, hplaced⟩), rfl⟩
    · rintro ⟨start, i, hplaced, rfl⟩
      rcases placed_insert.mp hplaced with ⟨rfl, hi⟩ | ⟨_, hplaced⟩
      · exact Or.inl ⟨i, hi, rfl⟩
      · exact Or.inr ⟨(hold id start i hplaced).2, start, i, hplaced, rfl⟩
  · intro id start i start' i' hplaced hplaced'
    rcases placed_insert.mp hplaced with ⟨rfl, hi⟩ | ⟨_, hplaced⟩
    · rcases placed_insert.mp hplaced' with ⟨rfl, hi'⟩ | ⟨_, hplaced'⟩
      · obtain ⟨hlt, _⟩ := List.getElem?_eq_some_iff.mp hi
        exact ⟨rfl, (List.getElem?_inj hlt hnodup).mp (hi.trans hi'.symm)⟩
      · exact absurd (List.mem_of_getElem? hi) (hold id start' i' hplaced').2
    · rcases placed_insert.mp hplaced' with ⟨rfl, hi'⟩ | ⟨_, hplaced'⟩
      · exact absurd (List.mem_of_getElem? hi') (hold id start i hplaced).2
      · exact h.apart id start i start' i' hplaced hplaced'
  · intro id start i hplaced
    rcases placed_insert.mp hplaced with ⟨_, hi⟩ | ⟨_, hplaced⟩
    · have hreq := hnew id (List.mem_of_getElem? hi)
      rw [requested, Bool.or_eq_false_iff] at hreq
      show q.applying.get id = none
      simpa using hreq.2
    · exact h.idle id start i hplaced

theorem placed_remove {q : BlockQueue} {start₀ : Nat} {id : Hash256} {start i : Nat} :
    (q.remove start₀).2.Placed id start i ↔ start ≠ start₀ ∧ q.Placed id start i := by
  unfold remove
  cases hget : q.spans.get start₀ with
  | none =>
      refine ⟨fun hplaced => ⟨?_, hplaced⟩, fun hplaced => hplaced.2⟩
      rintro rfl
      obtain ⟨s, hs, _⟩ := hplaced
      rw [hget] at hs
      cases hs
  | some span =>
      simp only [Placed, Table.get_del]
      by_cases hstart : start = start₀
      · simp [hstart]
      · simp [hstart]

theorem spans_remove (q : BlockQueue) (start₀ start : Nat) :
    (q.remove start₀).2.spans.get start = if start = start₀ then none else q.spans.get start := by
  unfold remove
  cases hget : q.spans.get start₀ with
  | none =>
      split_ifs with hstart
      · rw [hstart, hget]
      · rfl
  | some span => exact Table.get_del _ _ _

theorem applying_remove (q : BlockQueue) (start : Nat) :
    (q.remove start).2.applying = q.applying := by
  unfold remove
  split <;> rfl

theorem WellFormed.remove {q : BlockQueue} (h : q.WellFormed) (start₀ : Nat) :
    (q.remove start₀).2.WellFormed := by
  have hspan : ∀ start s, (q.remove start₀).2.spans.get start = some s →
      q.spans.get start = some s := by
    intro start s hget
    rw [spans_remove] at hget
    split_ifs at hget
    exact hget
  refine ⟨fun start s hget => h.keyed start s (hspan start s hget),
    fun start s hget => h.nonempty start s (hspan start s hget),
    fun start s hget => h.filled start s (hspan start s hget), ?_, ?_, ?_⟩
  · intro id height
    have hheights : (q.remove start₀).2.heights.get id = some height ↔
        q.heights.get id = some height ∧ ∀ i, ¬ q.Placed id start₀ i := by
      unfold BlockQueue.remove
      cases hget : q.spans.get start₀ with
      | none =>
          refine (and_iff_left ?_).symm
          rintro i ⟨s, hs, _⟩
          rw [hget] at hs
          cases hs
      | some span =>
          have hnot : (∀ i, ¬ q.Placed id start₀ i) ↔ id ∉ span.ids := by
            simp only [Placed, hget, Option.some.injEq, exists_eq_left', List.mem_iff_getElem?]
            exact not_exists.symm
          rw [hnot]
          show (span.ids.foldl (fun t id => t.del id) q.heights).get id = some height ↔ _
          rw [Table.get_foldl_del (fun id => id), List.map_id']
          by_cases hmem : id ∈ span.ids
          · simp [hmem]
          · simp [hmem]
    rw [hheights, h.heights]
    constructor
    · rintro ⟨⟨start, i, hplaced, rfl⟩, hnot⟩
      refine ⟨start, i, placed_remove.mpr ⟨?_, hplaced⟩, rfl⟩
      rintro rfl
      exact hnot i hplaced
    · rintro ⟨start, i, hplaced, rfl⟩
      obtain ⟨hne, hplaced⟩ := placed_remove.mp hplaced
      refine ⟨⟨start, i, hplaced, rfl⟩, fun i' hplaced' => hne ?_⟩
      exact (h.apart id start i start₀ i' hplaced hplaced').1
  · intro id start i start' i' hplaced hplaced'
    exact h.apart id start i start' i' (placed_remove.mp hplaced).2 (placed_remove.mp hplaced').2
  · intro id start i hplaced
    rw [applying_remove]
    exact h.idle id start i (placed_remove.mp hplaced).2

/-! ### The operations keep the maps in step -/

theorem requested_iff {q : BlockQueue} (h : q.WellFormed) {id : Hash256} :
    q.requested id = true ↔
      (∃ start i, q.Placed id start i) ∨ ∃ height, q.applying.get id = some height := by
  have hheights : (q.heights.get id).isSome = true ↔ ∃ start i, q.Placed id start i := by
    rw [Option.isSome_iff_exists]
    constructor
    · rintro ⟨height, hget⟩
      obtain ⟨start, i, hplaced, _⟩ := (h.heights id height).mp hget
      exact ⟨start, i, hplaced⟩
    · rintro ⟨start, i, hplaced⟩
      exact ⟨_, hplaced.mem_heights h⟩
  rw [requested, Bool.or_eq_true, Table.has_eq, Table.has_eq, hheights, Option.isSome_iff_exists]

theorem not_requested_of_mem_take {q : BlockQueue} {ids : List Hash256} {n : Nat}
    (hn : n ≤ (ids.takeWhile fun id => !q.requested id).length) {id : Hash256}
    (h : id ∈ ids.take n) : q.requested id = false := by
  have hrun := List.prefix_iff_eq_take.mp
    (List.takeWhile_prefix (l := ids) fun id => !q.requested id)
  have htake : ids.take n = (ids.takeWhile fun id => !q.requested id).take n := by
    rw [hrun, List.take_take, Nat.min_eq_left hn]
  have hmem : id ∈ ids.takeWhile fun id => !q.requested id :=
    List.mem_of_mem_take (htake ▸ h)
  simpa using List.all_eq_true.mp (List.all_takeWhile (l := ids)) id hmem

/-- What `reserve` answers: a run of ids nobody has asked for, at a height where no span starts. -/
theorem reserve_cases (q : BlockQueue) (conn : Nat) (origin : SocketAddr) (firstHeight : Nat)
    (ids : List Hash256) (limit : Nat → Nat → Nat) (now : Nat) :
    q.reserve conn origin firstHeight ids limit now = (none, q) ∨
      ∃ start reserved,
        q.reserve conn origin firstHeight ids limit now = (some (start, reserved),
          q.insert ⟨start, reserved, [], conn, origin, now, 0, 0⟩) ∧
        q.spans.get start = none ∧ reserved ≠ [] ∧ reserved.Sublist ids ∧
        ∀ id ∈ reserved, q.requested id = false := by
  unfold reserve
  cases ids.findIdx? (fun id => !q.requested id) with
  | none => exact Or.inl rfl
  | some skip =>
      dsimp only
      split_ifs with hstart hzero
      · exact Or.inl rfl
      · exact Or.inl rfl
      · refine Or.inr ⟨_, _, rfl, ?_, ?_, ?_, ?_⟩
        · simpa using hstart
        · intro hnil
          rw [List.take_eq_nil_iff] at hnil
          rcases hnil with hn | hdrop
          · exact hzero hn
          · rw [hdrop] at hzero
            simp at hzero
        · exact (List.take_sublist _ _).trans (List.drop_sublist _ _)
        · intro id hid
          refine not_requested_of_mem_take (Nat.min_le_right _ _) hid

theorem WellFormed.reserve {q : BlockQueue} (h : q.WellFormed) (conn : Nat) (origin : SocketAddr)
    (firstHeight : Nat) {ids : List Hash256} (hnodup : ids.Nodup) (limit : Nat → Nat → Nat)
    (now : Nat) : (q.reserve conn origin firstHeight ids limit now).2.WellFormed := by
  rcases reserve_cases q conn origin firstHeight ids limit now with
    hout | ⟨start, reserved, hout, hfree, hne, hsub, hnew⟩
  · rw [hout]
    exact h
  · rw [hout]
    exact h.insert hfree hne (hnodup.sublist hsub) nofun hnew

theorem WellFormed.nodup {q : BlockQueue} (h : q.WellFormed) {start : Nat} {s : Span}
    (hget : q.spans.get start = some s) : s.ids.Nodup := by
  rw [List.nodup_iff_getElem?_ne_getElem?]
  intro i j hij hj heq
  have hid : s.ids[j]? = some (s.ids.get ⟨j, hj⟩) := List.getElem?_eq_getElem hj
  have hsame := h.apart _ start i start j ⟨s, hget, heq.trans hid⟩ ⟨s, hget, hid⟩
  exact absurd hsame.2 (Nat.ne_of_lt hij)

/-- The blocks `fill` takes: for a span that awaits them, or that nobody has asked for, at a height
    where no span starts. -/
def Fillable (q : BlockQueue) (start : Nat) (ids : List Hash256) (blocks : List BlockEntry) :
    Prop :=
  0 < blocks.length ∧ blocks.length ≤ ids.length ∧
    (q.spans.get start = none ∧ (∀ id ∈ ids.take blocks.length, q.requested id = false) ∨
      ∃ s, q.spans.get start = some s ∧ awaits s (ids.take blocks.length) = true)

/-- What `fill` does: refuse the blocks, file them as a new span, or fill the span that awaits
    them and give the rest of it back. -/
theorem fill_cases (q : BlockQueue) (start : Nat) (ids : List Hash256) (blocks : List BlockEntry)
    (conn : Nat) (origin : SocketAddr) (rate : Float) (size now : Nat) :
    q.fill start ids blocks conn origin rate size now = (false, q) ∧
        ¬ q.Fillable start ids blocks ∨
      0 < blocks.length ∧ blocks.length ≤ ids.length ∧
        (q.spans.get start = none ∧ (∀ id ∈ ids.take blocks.length, q.requested id = false) ∧
            q.fill start ids blocks conn origin rate size now =
              (true, q.insert
                ⟨start, ids.take blocks.length, blocks, conn, origin, now, rate, size⟩) ∨
          ∃ s, q.spans.get start = some s ∧ awaits s (ids.take blocks.length) = true ∧
            q.fill start ids blocks conn origin rate size now =
              (true, (q.remove start).2.insert ⟨s.start, s.ids.take blocks.length, blocks, conn,
                origin, s.requested, rate, size⟩)) := by
  unfold fill Fillable
  dsimp only
  by_cases hcount : blocks.length = 0 ∨ blocks.length > ids.length
  · rw [if_pos hcount]
    refine Or.inl ⟨rfl, ?_⟩
    rintro ⟨hpos, hle, _⟩
    omega
  · rw [if_neg hcount]
    have hlen : 0 < blocks.length ∧ blocks.length ≤ ids.length := by omega
    cases hget : q.spans.get start with
    | none =>
        by_cases hreq : (ids.take blocks.length).any q.requested = true
        · refine Or.inl ⟨if_pos hreq, ?_⟩
          rintro ⟨_, _, ⟨_, hnew⟩ | ⟨s, hs, _⟩⟩
          · obtain ⟨id, hid, hrequested⟩ := List.any_eq_true.mp hreq
            rw [hnew id hid] at hrequested
            cases hrequested
          · cases hs
        · refine Or.inr ⟨hlen.1, hlen.2, Or.inl ⟨rfl, ?_, if_neg hreq⟩⟩
          simpa using hreq
    | some s =>
        by_cases hawaits : awaits s (ids.take blocks.length) = true
        · refine Or.inr ⟨hlen.1, hlen.2, Or.inr ⟨s, rfl, hawaits, ?_⟩⟩
          simp only [hawaits, if_true, remove, hget]
        · refine Or.inl ⟨if_neg hawaits, ?_⟩
          rintro ⟨_, _, ⟨hnone, _⟩ | ⟨s', hs', hawaits'⟩⟩
          · cases hnone
          · cases hs'
            exact hawaits hawaits'

theorem awaits_iff {s : Span} {answered : List Hash256} :
    awaits s answered = true ↔ s.isFilled = false ∧ answered <+: s.ids := by
  rw [awaits, Bool.and_eq_true, Bool.and_eq_true, decide_eq_true_iff, decide_eq_true_iff,
    Bool.not_eq_true', List.prefix_iff_eq_take]
  constructor
  · rintro ⟨⟨hfilled, _⟩, htake⟩
    exact ⟨hfilled, htake.symm⟩
  · rintro ⟨hfilled, htake⟩
    refine ⟨⟨hfilled, ?_⟩, htake.symm⟩
    rw [htake, List.length_take]
    exact Nat.min_le_right _ _

theorem WellFormed.fill {q : BlockQueue} (h : q.WellFormed) (start : Nat) {ids : List Hash256}
    (hnodup : ids.Nodup) (blocks : List BlockEntry) (conn : Nat) (origin : SocketAddr)
    (rate : Float) (size now : Nat) :
    (q.fill start ids blocks conn origin rate size now).2.WellFormed := by
  rcases fill_cases q start ids blocks conn origin rate size now with
    ⟨hout, _⟩ | ⟨hpos, hle, ⟨hfree, hnew, hout⟩ | ⟨s, hget, hawaits, hout⟩⟩
  · rw [hout]
    exact h
  · rw [hout]
    refine h.insert hfree ?_ (hnodup.sublist (List.take_sublist _ _)) ?_ hnew
    · intro hnil
      have hlen := congrArg List.length hnil
      simp only [List.length_take, List.length_nil] at hlen
      omega
    · intro _
      rw [List.length_take, Nat.min_eq_left hle]
  · rw [hout]
    obtain ⟨_, hprefix⟩ := awaits_iff.mp hawaits
    have hlen : blocks.length ≤ s.ids.length := by
      have hanswered := hprefix.length_le
      rw [List.length_take, Nat.min_eq_left hle] at hanswered
      exact hanswered
    have hkeyed := h.keyed start s hget
    refine (h.remove start).insert ?_ ?_ ((h.nodup hget).sublist (List.take_sublist _ _)) ?_ ?_
    · rw [spans_remove]
      exact if_pos hkeyed
    · intro hnil
      have hzero := congrArg List.length hnil
      simp only [List.length_take, List.length_nil] at hzero
      omega
    · intro _
      rw [List.length_take, Nat.min_eq_left hlen]
    · intro id hid
      obtain ⟨i, hi⟩ := List.mem_iff_getElem?.mp (List.mem_of_mem_take hid)
      have hplaced : q.Placed id start i := ⟨s, hget, hi⟩
      rw [← Bool.not_eq_true, requested_iff (h.remove start)]
      rintro (⟨start', i', hplaced'⟩ | ⟨height, happlying⟩)
      · obtain ⟨hne, hplaced'⟩ := placed_remove.mp hplaced'
        exact hne (h.apart id start' i' start i hplaced' hplaced).1
      · rw [applying_remove, h.idle id start i hplaced] at happlying
        cases happlying

theorem WellFormed.applied {q : BlockQueue} (h : q.WellFormed) (span : Span) :
    (q.applied span).WellFormed := by
  refine ⟨h.keyed, h.nonempty, h.filled, h.heights, h.apart, ?_⟩
  intro id start i hplaced
  have hidle := h.idle id start i hplaced
  show (span.ids.foldl (fun t id => t.del id) q.applying).get id = none
  rw [Table.get_foldl_del (fun id => id), hidle, ite_self]

theorem WellFormed.flush {q : BlockQueue} (h : q.WellFormed) (conn : Nat) (all : Bool) :
    (q.flush conn all).WellFormed := by
  unfold BlockQueue.flush
  dsimp only
  generalize ((q.spans.rows.filter _).map _) = starts
  induction starts generalizing q with
  | nil => exact h
  | cons start starts ih => exact ih (h.remove start)

theorem wellFormed_clear (q : BlockQueue) : q.clear.WellFormed := by
  have hnone : ∀ id start i, ¬ q.clear.Placed id start i := by
    rintro id start i ⟨s, hget, _⟩
    cases hget
  refine ⟨nofun, nofun, nofun, ?_, ?_, ?_⟩
  · intro id height
    refine ⟨nofun, ?_⟩
    rintro ⟨start, i, hplaced, _⟩
    exact absurd hplaced (hnone id start i)
  · intro id start i _ _ hplaced
    exact absurd hplaced (hnone id start i)
  · intro id start i hplaced
    exact absurd hplaced (hnone id start i)

theorem placed_touch {q : BlockQueue} {start₀ now : Nat} {id : Hash256} {start i : Nat} :
    (q.touch start₀ now).Placed id start i ↔ q.Placed id start i := by
  unfold touch
  cases hget : q.spans.get start₀ with
  | none => rfl
  | some s =>
      simp only [Placed, Table.get_put]
      by_cases hstart : start = start₀
      · simp [hstart, hget]
      · simp [hstart]

theorem WellFormed.touch {q : BlockQueue} (h : q.WellFormed) (start₀ now : Nat) :
    (q.touch start₀ now).WellFormed := by
  have hspan : ∀ start s, (q.touch start₀ now).spans.get start = some s →
      ∃ s₀, q.spans.get start = some s₀ ∧ s.start = s₀.start ∧ s.ids = s₀.ids ∧
        s.blocks = s₀.blocks := by
    intro start s hget
    unfold BlockQueue.touch at hget
    cases hold : q.spans.get start₀ with
    | none =>
        rw [hold] at hget
        exact ⟨s, hget, rfl, rfl, rfl⟩
    | some s₀ =>
        rw [hold] at hget
        simp only [Table.get_put] at hget
        split_ifs at hget with hstart
        · cases hget
          exact ⟨s₀, hstart ▸ hold, rfl, rfl, rfl⟩
        · exact ⟨s, hget, rfl, rfl, rfl⟩
  have hrest : (q.touch start₀ now).heights = q.heights ∧
      (q.touch start₀ now).applying = q.applying := by
    unfold BlockQueue.touch
    split <;> exact ⟨rfl, rfl⟩
  refine ⟨?_, ?_, ?_, ?_, ?_, ?_⟩
  · intro start s hget
    obtain ⟨s₀, hget₀, hstart, _⟩ := hspan start s hget
    rw [hstart]
    exact h.keyed start s₀ hget₀
  · intro start s hget
    obtain ⟨s₀, hget₀, _, hids, _⟩ := hspan start s hget
    rw [hids]
    exact h.nonempty start s₀ hget₀
  · intro start s hget hfilled
    obtain ⟨s₀, hget₀, _, hids, hblocks⟩ := hspan start s hget
    rw [Span.isFilled, hblocks] at hfilled
    rw [hids, hblocks]
    exact h.filled start s₀ hget₀ hfilled
  · intro id height
    rw [hrest.1, h.heights]
    simp only [placed_touch]
  · intro id start i start' i' hplaced hplaced'
    exact h.apart id start i start' i' (placed_touch.mp hplaced) (placed_touch.mp hplaced')
  · intro id start i hplaced
    rw [hrest.2]
    exact h.idle id start i (placed_touch.mp hplaced)

/-! ### The applier -/

/-- Spans go on the way to the applier only if the chain has their last block. -/
structure DropsKnown (known : Hash256 → Bool) (q q' : BlockQueue) : Prop where
  wellFormed : q'.WellFormed
  kept : ∀ start s, q'.spans.get start = some s → q.spans.get start = some s
  dropped : ∀ start s, q.spans.get start = some s → q'.spans.get start = none →
    s.ids.getLast?.any known = true
  applying : q'.applying = q.applying

theorem DropsKnown.refl {known : Hash256 → Bool} {q : BlockQueue} (h : q.WellFormed) :
    DropsKnown known q q := by
  refine ⟨h, fun _ _ hget => hget, ?_, rfl⟩
  intro start s hget hnone
  rw [hget] at hnone
  cases hnone

/-- The lowest span, if the chain has its last block. -/
theorem DropsKnown.step {known : Hash256 → Bool} {q q' : BlockQueue} {start₀ : Nat} {s₀ : Span}
    (hget₀ : q.spans.get start₀ = some s₀) (hknown : s₀.ids.getLast?.any known = true)
    (hrest : DropsKnown known (q.remove start₀).2 q') :
    DropsKnown known q q' := by
  refine ⟨hrest.wellFormed, ?_, ?_, hrest.applying.trans (applying_remove q start₀)⟩
  · intro start s hget
    have hkept := hrest.kept start s hget
    rw [spans_remove] at hkept
    split_ifs at hkept
    exact hkept
  · intro start s hget hnone
    by_cases hstart : start = start₀
    · subst hstart
      rw [hget₀] at hget
      cases hget
      exact hknown
    · refine hrest.dropped start s ?_ hnone
      rw [spans_remove, if_neg hstart]
      exact hget

/-- How `take_next` ends: with a filled span at or below the height, the lowest of those that are
    left, or at a span that has to wait, or with none left. -/
inductive Taken (height : Nat) (known : Hash256 → Bool) (q : BlockQueue) :
    Option Span × BlockQueue → Prop
  | span {q' : BlockQueue} {s : Span} (drops : DropsKnown known q q')
      (get : q'.spans.get s.start = some s) (filled : s.isFilled = true) (low : s.start ≤ height)
      (lowest : ∀ start s', q'.spans.get start = some s' → s.start ≤ start) :
      Taken height known q (some s, { (q'.remove s.start).2 with
        applying := record q'.applying s.start s.ids })
  | waits {q' : BlockQueue} {start : Nat} {s : Span} (drops : DropsKnown known q q')
      (get : q'.spans.get start = some s)
      (lowest : ∀ start' s', q'.spans.get start' = some s' → start ≤ start')
      (new : s.ids.getLast?.any known = false) (why : start > height ∨ s.isFilled = false) :
      Taken height known q (none, q')
  | nothing {q' : BlockQueue} (drops : DropsKnown known q q') (empty : q'.spans.rows = []) :
      Taken height known q (none, q')

theorem takeLoop_taken {height : Nat} {known : Hash256 → Bool} (fuel : Nat) {q : BlockQueue}
    (h : q.WellFormed) (hfuel : q.spans.size < fuel) :
    Taken height known q (takeLoop height known fuel q) := by
  induction fuel generalizing q with
  | zero => exact absurd hfuel (Nat.not_lt_zero _)
  | succ fuel ih =>
      unfold takeLoop
      cases hhead : q.spans.rows.head? with
      | none => exact .nothing (.refl h) (List.head?_eq_none_iff.mp hhead)
      | some row =>
          obtain ⟨start, first⟩ := row
          obtain ⟨hget, hlowest⟩ := Table.get_of_head? hhead
          have hkeyed := h.keyed start first hget
          dsimp only
          split_ifs with hknown hwaits
          · have hsize := Table.size_del_of_get hget
            have hspans : (q.remove start).2.spans = q.spans.del start := by
              simp only [remove, hget]
            have hrest := ih (h.remove start) (by rw [hspans]; omega)
            generalize takeLoop height known fuel (q.remove start).2 = out at hrest ⊢
            cases hrest with
            | span drops get filled low lowest =>
                exact .span (.step hget hknown drops) get filled low lowest
            | waits drops get lowest new why =>
                exact .waits (.step hget hknown drops) get lowest new why
            | nothing drops empty => exact .nothing (.step hget hknown drops) empty
          · exact .waits (.refl h) hget hlowest (by simpa using hknown) hwaits
          · rw [not_or, Nat.not_lt, Bool.not_eq_false] at hwaits
            have hremove : q.remove start = (some first, (q.remove start).2) := by
              simp only [remove, hget]
            rw [hremove]
            subst hkeyed
            dsimp only
            rw [applying_remove]
            exact .span (.refl h) hget hwaits.2 hwaits.1 hlowest

/-- **`take_next`** comes to an end by itself. -/
theorem takeNext_taken {q : BlockQueue} (h : q.WellFormed) (height : Nat)
    (known : Hash256 → Bool) : Taken height known q (q.takeNext height known) :=
  takeLoop_taken _ h (Nat.lt_succ_self _)

theorem reserve_applying (q : BlockQueue) (conn : Nat) (origin : SocketAddr) (firstHeight : Nat)
    (ids : List Hash256) (limit : Nat → Nat → Nat) (now : Nat) :
    (q.reserve conn origin firstHeight ids limit now).2.applying = q.applying := by
  rcases reserve_cases q conn origin firstHeight ids limit now with hout | ⟨_, _, hout, _⟩
  · rw [hout]
  · rw [hout]
    rfl

theorem fill_applying (q : BlockQueue) (start : Nat) (ids : List Hash256)
    (blocks : List BlockEntry) (conn : Nat) (origin : SocketAddr) (rate : Float)
    (size now : Nat) :
    (q.fill start ids blocks conn origin rate size now).2.applying = q.applying := by
  rcases fill_cases q start ids blocks conn origin rate size now with
    ⟨hout, _⟩ | ⟨_, _, ⟨_, _, hout⟩ | ⟨s, _, _, hout⟩⟩
  · rw [hout]
  · rw [hout]
    rfl
  · rw [hout]
    exact applying_remove q start

theorem flush_applying (q : BlockQueue) (conn : Nat) (all : Bool) :
    (q.flush conn all).applying = q.applying := by
  unfold flush
  dsimp only
  generalize ((q.spans.rows.filter _).map _) = starts
  induction starts generalizing q with
  | nil => rfl
  | cons start starts ih => exact (ih _).trans (applying_remove q start)

theorem touch_applying (q : BlockQueue) (start now : Nat) :
    (q.touch start now).applying = q.applying := by
  unfold touch
  split <;> rfl

end BlockQueue

/-! ### Connections and the applier -/

/-- The queue, and the spans the applier has taken and not reported yet. -/
structure Downloads where
  queue : BlockQueue
  handed : List Span

/-- What the connections and the applier ask of the queue.  The applier reports any of the spans
    it has. -/
inductive QueueOp where
  | reserve (conn : Nat) (origin : SocketAddr) (firstHeight : Nat) (ids : List Hash256)
      (limit : Nat → Nat → Nat) (now : Nat)
  | fill (start : Nat) (ids : List Hash256) (blocks : List BlockEntry) (conn : Nat)
      (origin : SocketAddr) (rate : Float) (size now : Nat)
  | takeNext (height : Nat) (known : Hash256 → Bool)
  | applied (i : Nat)
  | flush (conn : Nat) (all : Bool)
  | clear
  | touch (start now : Nat)

/-- What `on_chain_entry` has checked of the ids a peer names. -/
def QueueOp.Checked : QueueOp → Prop
  | .reserve _ _ firstHeight ids _ _ => ids.Nodup ∧ firstHeight + ids.length ≤ u64Max
  | .fill start ids _ _ _ _ _ _ => ids.Nodup ∧ start + ids.length ≤ u64Max
  | _ => True

namespace Downloads

def start : Downloads := ⟨.new, []⟩

def perform (d : Downloads) : QueueOp → Downloads
  | .reserve conn origin firstHeight ids limit now =>
      { d with queue := (d.queue.reserve conn origin firstHeight ids limit now).2 }
  | .fill start ids blocks conn origin rate size now =>
      { d with queue := (d.queue.fill start ids blocks conn origin rate size now).2 }
  | .takeNext height known =>
      let out := d.queue.takeNext height known
      ⟨out.2, d.handed ++ out.1.toList⟩
  | .applied i =>
      match d.handed[i]? with
      | none => d
      | some span => ⟨d.queue.applied span, d.handed.eraseIdx i⟩
  | .flush conn all => { d with queue := d.queue.flush conn all }
  | .clear => { d with queue := d.queue.clear }
  | .touch start now => { d with queue := d.queue.touch start now }

def run (d : Downloads) (ops : List QueueOp) : Downloads := ops.foldl perform d

/-- The queue's maps are in step, and what is being applied are the ids the applier has, each of
    them once. -/
structure Consistent (d : Downloads) : Prop where
  wellFormed : d.queue.WellFormed
  applying : ∀ id h, d.queue.applying.get id = some h ↔
    ∃ s ∈ d.handed, ∃ i, s.ids[i]? = some id ∧ h = s.start + i
  once : (d.handed.flatMap (·.ids)).Nodup

theorem consistent_start : start.Consistent := by
  refine ⟨BlockQueue.wellFormed_new, ?_, List.nodup_nil⟩
  intro id h
  refine ⟨nofun, ?_⟩
  rintro ⟨s, hs, _⟩
  cases hs

theorem Consistent.with_queue {d : Downloads} (h : d.Consistent) {q : BlockQueue}
    (hq : q.WellFormed) (happlying : q.applying = d.queue.applying) :
    Consistent { d with queue := q } := by
  refine ⟨hq, ?_, h.once⟩
  intro id height
  rw [← h.applying id height, ← happlying]

theorem Consistent.handed_applying {d : Downloads} (h : d.Consistent) {s : Span}
    (hs : s ∈ d.handed) {id : Hash256} (hid : id ∈ s.ids) :
    ∃ height, d.queue.applying.get id = some height := by
  obtain ⟨i, hi⟩ := List.mem_iff_getElem?.mp hid
  exact ⟨_, (h.applying id _).mpr ⟨s, hs, i, hi, rfl⟩⟩

/-- The applier takes a span. -/
theorem Consistent.takeNext {d : Downloads} (h : d.Consistent) (height : Nat)
    (known : Hash256 → Bool) :
    (d.perform (.takeNext height known)).Consistent ∧
      ∀ s, (d.queue.takeNext height known).1 = some s →
        ∀ s' ∈ d.handed, ∀ id ∈ s.ids, id ∉ s'.ids := by
  have htaken := BlockQueue.takeNext_taken h.wellFormed height known
  simp only [perform]
  generalize d.queue.takeNext height known = out at htaken ⊢
  cases htaken with
  | waits drops _ _ _ _ =>
      refine ⟨?_, nofun⟩
      simpa using h.with_queue drops.wellFormed drops.applying
  | nothing drops _ =>
      refine ⟨?_, nofun⟩
      simpa using h.with_queue drops.wellFormed drops.applying
  | @span q' s drops get filled low lowest =>
      have hnew : ∀ id ∈ s.ids, d.queue.applying.get id = none := by
        intro id hid
        obtain ⟨i, hi⟩ := List.mem_iff_getElem?.mp hid
        rw [← drops.applying]
        exact drops.wellFormed.idle id s.start i ⟨s, get, hi⟩
      have hapart : ∀ s' ∈ d.handed, ∀ id ∈ s.ids, id ∉ s'.ids := by
        intro s' hs' id hid hid'
        obtain ⟨height', hget⟩ := h.handed_applying hs' hid'
        rw [hnew id hid] at hget
        cases hget
      have hnodup := drops.wellFormed.nodup get
      have hremoved := drops.wellFormed.remove s.start
      refine ⟨⟨?_, ?_, ?_⟩, ?_⟩
      · refine ⟨hremoved.keyed, hremoved.nonempty, hremoved.filled, hremoved.heights,
          hremoved.apart, ?_⟩
        intro id start i hplaced
        obtain ⟨hne, hplaced'⟩ := BlockQueue.placed_remove.mp hplaced
        have hnot : id ∉ s.ids := by
          intro hid
          obtain ⟨i', hi'⟩ := List.mem_iff_getElem?.mp hid
          exact hne (drops.wellFormed.apart id start i s.start i' hplaced' ⟨s, get, hi'⟩).1
        have hidle := drops.wellFormed.idle id start i hplaced'
        cases hrecord : (BlockQueue.record q'.applying s.start s.ids).get id with
        | none => rfl
        | some height' =>
            rcases (BlockQueue.get_record _ _ hnodup id height').mp hrecord with
              ⟨i', hi', _⟩ | ⟨_, hget⟩
            · exact absurd (List.mem_of_getElem? hi') hnot
            · rw [hidle] at hget
              cases hget
      · intro id height'
        show (BlockQueue.record q'.applying s.start s.ids).get id = some height' ↔ _
        rw [BlockQueue.get_record _ _ hnodup, drops.applying, h.applying]
        simp only [Option.toList_some, List.mem_append, List.mem_singleton]
        constructor
        · rintro (⟨i, hi, rfl⟩ | ⟨_, s', hs', i, hi, rfl⟩)
          · exact ⟨s, Or.inr rfl, i, hi, rfl⟩
          · exact ⟨s', Or.inl hs', i, hi, rfl⟩
        · rintro ⟨s', hs' | rfl, i, hi, rfl⟩
          · refine Or.inr ⟨fun hid => ?_, s', hs', i, hi, rfl⟩
            exact hapart s' hs' id hid (List.mem_of_getElem? hi)
          · exact Or.inl ⟨i, hi, rfl⟩
      · show ((d.handed ++ [s]).flatMap (·.ids)).Nodup
        rw [List.flatMap_append, List.flatMap_singleton]
        refine List.nodup_append'.mpr ⟨h.once, hnodup, ?_⟩
        intro id hid hid'
        obtain ⟨s', hs', hmem⟩ := List.mem_flatMap.mp hid
        exact hapart s' hs' id hid' hmem
      · intro s' hs'
        cases hs'
        exact hapart

/-- The applier reports a span. -/
theorem Consistent.applied {d : Downloads} (h : d.Consistent) (i : Nat) :
    (d.perform (.applied i)).Consistent := by
  simp only [Downloads.perform]
  cases hspan : d.handed[i]? with
  | none => exact h
  | some s =>
      have hsplit : ∃ before after, d.handed = before ++ s :: after ∧
          d.handed.eraseIdx i = before ++ after := by
        obtain ⟨hlt, heq⟩ := List.getElem?_eq_some_iff.mp hspan
        refine ⟨d.handed.take i, d.handed.drop (i + 1), ?_, List.eraseIdx_eq_take_drop_succ _ _⟩
        rw [← heq, List.getElem_cons_drop, List.take_append_drop]
      obtain ⟨before, after, hhanded, herase⟩ := hsplit
      have honce := h.once
      rw [hhanded, List.flatMap_append, List.flatMap_cons] at honce
      have hapart : ∀ s' ∈ before ++ after, ∀ id ∈ s'.ids, id ∉ s.ids := by
        intro s' hs' id hid hid'
        obtain ⟨_, hrest, hdisjoint⟩ := List.nodup_append'.mp honce
        rcases List.mem_append.mp hs' with hs' | hs'
        · exact hdisjoint (List.mem_flatMap.mpr ⟨s', hs', hid⟩) (List.mem_append_left _ hid')
        · exact (List.nodup_append'.mp hrest).2.2 hid' (List.mem_flatMap.mpr ⟨s', hs', hid⟩)
      refine ⟨h.wellFormed.applied s, ?_, ?_⟩
      · intro id height
        show (s.ids.foldl (fun t id => t.del id) d.queue.applying).get id = some height ↔ _
        rw [Table.get_foldl_del (fun id => id), List.map_id', herase]
        constructor
        · intro hget
          split_ifs at hget with hid
          obtain ⟨s', hs', i', hi', heq⟩ := (h.applying id height).mp hget
          refine ⟨s', ?_, i', hi', heq⟩
          rw [hhanded, List.mem_append, List.mem_cons] at hs'
          rcases hs' with hs' | rfl | hs'
          · exact List.mem_append_left _ hs'
          · exact absurd (List.mem_of_getElem? hi') hid
          · exact List.mem_append_right _ hs'
        · rintro ⟨s', hs', i', hi', rfl⟩
          rw [if_neg (hapart s' hs' id (List.mem_of_getElem? hi'))]
          refine (h.applying id _).mpr ⟨s', ?_, i', hi', rfl⟩
          rw [hhanded]
          rcases List.mem_append.mp hs' with hs' | hs'
          · exact List.mem_append_left _ hs'
          · exact List.mem_append_right _ (List.mem_cons_of_mem s hs')
      · rw [herase, List.flatMap_append]
        exact honce.sublist ((List.sublist_append_right _ _).append_left _)

theorem Consistent.perform {d : Downloads} (h : d.Consistent) {op : QueueOp} (hop : op.Checked) :
    (d.perform op).Consistent := by
  cases op with
  | reserve conn origin firstHeight ids limit now =>
      exact h.with_queue (h.wellFormed.reserve conn origin firstHeight hop.1 limit now)
        (BlockQueue.reserve_applying _ _ _ _ _ _ _)
  | fill start ids blocks conn origin rate size now =>
      exact h.with_queue (h.wellFormed.fill start hop.1 blocks conn origin rate size now)
        (BlockQueue.fill_applying _ _ _ _ _ _ _ _ _)
  | takeNext height known => exact (h.takeNext height known).1
  | applied i => exact h.applied i
  | flush conn all =>
      exact h.with_queue (h.wellFormed.flush conn all) (BlockQueue.flush_applying _ _ _)
  | clear => exact h.with_queue (BlockQueue.wellFormed_clear _) rfl
  | touch start now =>
      exact h.with_queue (h.wellFormed.touch start now) (BlockQueue.touch_applying _ _ _)

theorem run_consistent (ops : List QueueOp) (hops : ∀ op ∈ ops, op.Checked) :
    (start.run ops).Consistent := by
  induction ops using List.reverseRecOn with
  | nil => exact consistent_start
  | append_singleton before op ih =>
      rw [run, List.foldl_append]
      exact (ih fun op hop => hops op (List.mem_append_left _ hop)).perform (hops op (by simp))

/-- What `fill` answers.  It takes blocks for a span that awaits them, and blocks nobody has asked
    for at a height where no span starts; it refuses blocks of which some are delivered, being
    applied or asked for otherwise.  The ids it gives back are the rest of the span it fills. -/
structure Fills (q : BlockQueue) (start : Nat) (ids : List Hash256) (blocks : List BlockEntry)
    (out : Bool × BlockQueue) : Prop where
  bad : blocks = [] ∨ blocks.length > ids.length → out.1 = false
  awaited : blocks ≠ [] → blocks.length ≤ ids.length →
    (∃ s, q.spans.get start = some s ∧ s.isFilled = false ∧ ids.take blocks.length <+: s.ids) →
      out.1 = true
  new : blocks ≠ [] → blocks.length ≤ ids.length → q.spans.get start = none →
    (∀ id ∈ ids.take blocks.length, q.requested id = false) → out.1 = true
  unwanted : (∃ id ∈ ids.take blocks.length, q.requested id = true) →
    (¬ ∃ s, q.spans.get start = some s ∧ s.isFilled = false ∧
      ids.take blocks.length <+: s.ids) → out.1 = false
  refused : out.1 = false → out.2 = q
  filed : out.1 = true → ∃ s, out.2.spans.get start = some s ∧ s.ids = ids.take blocks.length ∧
    s.blocks = blocks
  kept : ∀ id start' i, q.Placed id start' i →
    out.2.Placed id start' i ∨ start' = start ∧ blocks.length ≤ i

theorem fill_fills {q : BlockQueue} (h : q.WellFormed) (start : Nat) (ids : List Hash256)
    (blocks : List BlockEntry) (conn : Nat) (origin : SocketAddr) (rate : Float)
    (size now : Nat) :
    Fills q start ids blocks (q.fill start ids blocks conn origin rate size now) := by
  rcases BlockQueue.fill_cases q start ids blocks conn origin rate size now with
    ⟨hout, hnot⟩ | ⟨hpos, hle, ⟨hfree, hnew, hout⟩ | ⟨s, hget, hawaits, hout⟩⟩
  · rw [hout]
    refine ⟨fun _ => rfl, ?_, ?_, fun _ _ => rfl, fun _ => rfl, nofun, fun _ _ _ h => Or.inl h⟩
    · rintro hne hle ⟨s, hget, hunfilled, hprefix⟩
      refine absurd ⟨List.length_pos_iff.mpr hne, hle, Or.inr ⟨s, hget, ?_⟩⟩ hnot
      exact BlockQueue.awaits_iff.mpr ⟨hunfilled, hprefix⟩
    · intro hne hle hfree hnew
      exact absurd ⟨List.length_pos_iff.mpr hne, hle, Or.inl ⟨hfree, hnew⟩⟩ hnot
  · rw [hout]
    refine ⟨?_, fun _ _ _ => rfl, fun _ _ _ _ => rfl, ?_, nofun, fun _ => ?_, ?_⟩
    · rintro (rfl | hlong)
      · exact absurd hpos (Nat.lt_irrefl 0)
      · exact absurd hle (Nat.not_le.mpr hlong)
    · rintro ⟨id, hid, hreq⟩
      rw [hnew id hid] at hreq
      cases hreq
    · exact ⟨_, Table.get_put_self _ _ _, rfl, rfl⟩
    · intro id start' i hplaced
      refine Or.inl (BlockQueue.placed_insert.mpr (Or.inr ⟨?_, hplaced⟩))
      rintro rfl
      obtain ⟨s, hget, _⟩ := hplaced
      rw [hfree] at hget
      cases hget
  · rw [hout]
    have hkeyed := h.keyed start s hget
    obtain ⟨hunfilled, hprefix⟩ := BlockQueue.awaits_iff.mp hawaits
    refine ⟨?_, fun _ _ _ => rfl, fun _ _ _ _ => rfl, ?_, nofun, fun _ => ?_, ?_⟩
    · rintro (rfl | hlong)
      · exact absurd hpos (Nat.lt_irrefl 0)
      · exact absurd hle (Nat.not_le.mpr hlong)
    · intro _ hnot
      exact absurd ⟨s, hget, hunfilled, hprefix⟩ hnot
    · refine ⟨_, by rw [BlockQueue.insert, ← hkeyed]; exact Table.get_put_self _ _ _, ?_, rfl⟩
      have htake := List.prefix_iff_eq_take.mp hprefix
      rw [List.length_take, Nat.min_eq_left hle] at htake
      exact htake.symm
    · intro id start' i hplaced
      by_cases hstart : start' = start
      · subst hstart
        obtain ⟨s', hget', hi⟩ := hplaced
        rw [hget] at hget'
        cases hget'
        by_cases hlt : i < blocks.length
        · refine Or.inl (BlockQueue.placed_insert.mpr (Or.inl ⟨hkeyed.symm, ?_⟩))
          rw [List.getElem?_take_of_lt hlt]
          exact hi
        · exact Or.inr ⟨rfl, Nat.not_lt.mp hlt⟩
      · refine Or.inl (BlockQueue.placed_insert.mpr (Or.inr ⟨?_, ?_⟩))
        · rw [hkeyed]
          exact hstart
        · exact BlockQueue.placed_remove.mpr ⟨hstart, hplaced⟩

/-- **The block queue.**  Whatever connections and the applier do, in any order: the heights are
    those of the ids in spans, an id is in one span once, and never in a span and on its way to
    the chain; a filled span has a block for each id.  What the applier has is not reserved or
    handed out again.  `take_next` comes to an end, and what it hands out is filled and lower than
    all spans that are left; `fill` takes what is awaited or new, refuses what is asked for
    otherwise, and gives back no more than the rest of the span it fills. -/
theorem blockQueue_consistent (ops : List QueueOp) (hops : ∀ op ∈ ops, op.Checked) :
    (start.run ops).Consistent ∧
      (∀ conn origin firstHeight ids limit now start' reserved,
        ((start.run ops).queue.reserve conn origin firstHeight ids limit now).1 =
            some (start', reserved) →
          ∀ s ∈ (start.run ops).handed, ∀ id ∈ reserved, id ∉ s.ids) ∧
      (∀ height known,
        BlockQueue.Taken height known (start.run ops).queue
            ((start.run ops).queue.takeNext height known) ∧
          ∀ s, ((start.run ops).queue.takeNext height known).1 = some s →
            ∀ s' ∈ (start.run ops).handed, ∀ id ∈ s.ids, id ∉ s'.ids) ∧
      ∀ start' ids blocks conn origin rate size now,
        Fills (start.run ops).queue start' ids blocks
          ((start.run ops).queue.fill start' ids blocks conn origin rate size now) := by
  have hd := run_consistent ops hops
  generalize start.run ops = d at hd ⊢
  refine ⟨hd, ?_, ?_, ?_⟩
  · intro conn origin firstHeight ids limit now start' reserved hout s hs id hid hmem
    rcases BlockQueue.reserve_cases d.queue conn origin firstHeight ids limit now with
      hnone | ⟨start'', reserved', hsome, _, _, _, hnew⟩
    · rw [hnone] at hout
      cases hout
    · rw [hsome] at hout
      cases hout
      obtain ⟨height, happlying⟩ := hd.handed_applying hs hmem
      have hreq := hnew id hid
      rw [← Bool.not_eq_true, BlockQueue.requested_iff hd.wellFormed] at hreq
      exact hreq (Or.inr ⟨height, happlying⟩)
  · intro height known
    exact ⟨BlockQueue.takeNext_taken hd.wellFormed height known, (hd.takeNext height known).2⟩
  · intro start' ids blocks conn origin rate size now
    exact fill_fills hd.wellFormed start' ids blocks conn origin rate size now

end Downloads

namespace Sample

/-- The address of a peer. -/
def peer : SocketAddr := ⟨.v4 0, 34567⟩

/-- A connection has reserved two blocks. -/
def reserved : List QueueOp := [.reserve 1 peer 5 [1, 2] (fun _ free => free) 0]

end Sample

section

open Sample Downloads

/-- A reservation of two blocks. -/
theorem blockQueue_consistent_reserved :
    (start.run reserved).queue.heights.get 2 = some 6 ∧ (start.run reserved).Consistent := by
  refine ⟨by decide, ?_⟩
  refine (blockQueue_consistent reserved ?_).1
  simp [reserved, QueueOp.Checked, u64Max]

/-- Another connection that was asked for the two blocks as well answers with the first: the
    second, reserved by the first connection, is dropped from the queue. -/
theorem partial_answer_drops_reserved :
    (start.run reserved).queue.spans.get 5 = some ⟨5, [1, 2], [], 1, peer, 0, 0, 0⟩ ∧
      ((start.run reserved).queue.fill 5 [1, 2] [⟨[], [], 0⟩] 2 peer 0 0 1).1 = true ∧
      ((start.run reserved).queue.fill 5 [1, 2] [⟨[], [], 0⟩] 2 peer 0 0 1).2.requested 2 =
        false := by
  refine ⟨rfl, by decide, by decide⟩

end

end Wownero

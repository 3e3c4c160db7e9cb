import Wownero.EpeeAccepts
/-!
# Sections

What is looked up in a section of portable storage, and sections that are put together row by row.
-/

namespace Wownero.Epee

/-- A name, from its characters. -/
def Name.ofChars (cs : List Char) : Name :=
  ⟨Utf8.repair (cs.map fun c => UInt8.ofNat c.toNat), Utf8.valid_repair _⟩

/-- `Section::get`. -/
def lookup (name : Name) : Section → Option Value
  | [] => none
  | row :: rows => if row.1 = name then some row.2 else lookup name rows

namespace Value

/-- `as_bytes`. -/
def asBytes : Value → Option (List UInt8)
  | .leaf (.string bytes) => some bytes
  | _ => none

/-- `as_u64`. -/
def asU64 : Value → Option (BitVec 64)
  | .leaf (.u64 v) => some v
  | .leaf (.u32 v) => some (v.setWidth 64)
  | .leaf (.u16 v) => some (v.setWidth 64)
  | .leaf (.u8 v) => some (v.setWidth 64)
  | _ => none

/-- `int_of`. -/
def intOf : Value → Option (BitVec 64)
  | .leaf (.i64 v) => some v
  | .leaf (.i32 v) => some (v.signExtend 64)
  | .leaf (.i16 v) => some (v.signExtend 64)
  | .leaf (.i8 v) => some (v.signExtend 64)
  | v => v.asU64

/-- `as_object`. -/
def asObject : Value → Option Section
  | .object rows => some rows
  | _ => none

/-- `as_array`, of which only the items are asked for. -/
def asArray : Value → Option (List Value)
  | .array _ items => some items
  | _ => none

end Value

/-! ### Row by row -/

theorem lookup_insertRow (name name' : Name) (value : Value) (s : Section) :
    lookup name (insertRow name' value s) = if name' = name then some value else lookup name s := by
  induction s with
  | nil => rfl
  | cons row rows ih =>
      rw [insertRow]
      split
      case isTrue => rfl
      case isFalse =>
        split
        case isTrue heq =>
          rw [lookup, lookup, ← heq]
          split <;> rfl
        case isFalse hne =>
          rw [lookup, lookup, ih]
          split
          case isTrue hrow =>
            rw [if_neg fun h => hne (h.trans hrow.symm)]
          case isFalse => rfl

/-- A section within the limits, of no more than so many rows. -/
def Holds (left rows : Nat) (s : Section) : Prop :=
  SectionFits Name.Short (· < 128) (left + 1) s ∧ s.length ≤ rows

theorem holds_nil (left : Nat) : Holds left 0 [] :=
  ⟨⟨List.Pairwise.nil, Nat.zero_le _, fun _ h => absurd h List.not_mem_nil⟩, Nat.le_refl _⟩

theorem Holds.insert {left rows : Nat} {s : Section} (h : Holds left rows s) {name : Name}
    {value : Value} (hrows : rows < epeeVarintMax) (hname : name.Short)
    (hvalue : EntryFits (· < 128) (SectionFits Name.Short (· < 128) left) value) :
    Holds left (rows + 1) (insertRow name value s) := by
  obtain ⟨⟨hsorted, -, hfits⟩, hlen⟩ := h
  have hone := length_insertRow_le name value s
  refine ⟨⟨ascending_insertRow name value hsorted, by omega, fun row hrow => ?_⟩, by omega⟩
  rcases mem_insertRow hrow with rfl | hold
  · exact ⟨hname, hvalue⟩
  · exact hfits row hold

theorem Holds.more {left rows rows' : Nat} {s : Section} (h : Holds left rows s)
    (hle : rows ≤ rows') : Holds left rows' s :=
  ⟨h.1, Nat.le_trans h.2 hle⟩

theorem Holds.insert_if {left rows : Nat} {s : Section} (h : Holds left rows s) {c : Prop}
    [Decidable c] {name : Name} {value : Value} (hrows : rows < epeeVarintMax) (hname : name.Short)
    (hvalue : EntryFits (· < 128) (SectionFits Name.Short (· < 128) left) value) :
    Holds left (rows + 1) (if c then insertRow name value s else s) := by
  split
  · exact h.insert hrows hname hvalue
  · exact h.more (Nat.le_succ _)

theorem lookup_insert_if (name name' : Name) (value : Value) (s : Section) {c : Prop} [Decidable c] :
    lookup name (if c then insertRow name' value s else s)
      = if c ∧ name' = name then some value else lookup name s := by
  by_cases hc : c
  · rw [if_pos hc, lookup_insertRow]
    simp only [hc, true_and]
  · rw [if_neg hc]
    simp only [hc, false_and, if_false]

/-! ### What is written fits -/

theorem mem_of_lookup {name : Name} {s : Section} {v : Value} (h : lookup name s = some v) : (name, v) ∈ s := by
  induction s with
  | nil => nomatch h
  | cons row rows ih =>
      rw [lookup] at h
      split at h
      · next heq =>
          rw [← heq, ← Option.some.inj h]
          exact List.mem_cons_self
      · exact List.mem_cons_of_mem _ (ih h)

/-- Where rows are written, the value of each is. -/
theorem writeEntryValue_of_writeRows {rows : Section} {bytes : List UInt8} (h : writeRows rows = .ok bytes)
    {row : Name × Value} (hrow : row ∈ rows) : ∃ out, writeEntryValue row.2 = .ok out := by
  induction rows generalizing bytes with
  | nil => cases hrow
  | cons row' rows ih =>
      rw [writeRows] at h
      dsimp only at h
      split at h
      · cases h
      · cases hvalue : writeEntryValue row'.2 with
        | error e =>
            rw [hvalue] at h
            cases h
        | ok out =>
            cases hrest : writeRows rows with
            | error e =>
                rw [hvalue, hrest] at h
                cases h
            | ok outs =>
                rcases List.mem_cons.mp hrow with rfl | hrow
                · exact ⟨out, hvalue⟩
                · exact ih hrest hrow

theorem writeRows_of_writeSection {s : Section} {bytes : List UInt8} (h : writeSection s = .ok bytes) :
    ∃ out, writeRows s = .ok out := by
  unfold writeSection at h
  cases hcount : writeEpeeVarint s.length with
  | error e =>
      rw [hcount] at h
      nomatch h
  | ok count =>
      cases hrows : writeRows s with
      | error e =>
          rw [hcount, hrows] at h
          nomatch h
      | ok out => exact ⟨out, rfl⟩

theorem writeRows_of_object {rows : Section} {bytes : List UInt8}
    (h : writeEntryValue (.object rows) = .ok bytes) : ∃ out, writeRows rows = .ok out := by
  rw [writeEntryValue_object] at h
  cases hsection : writeSection rows with
  | error e =>
      rw [hsection] at h
      nomatch h
  | ok out => exact writeRows_of_writeSection hsection

/-- A string that is written is not too long. -/
theorem length_le_of_written {string bytes : List UInt8}
    (h : writeEntryValue (.leaf (.string string)) = .ok bytes) : string.length ≤ maxStringLen := by
  rw [writeEntryValue, Leaf.write] at h
  split at h
  · cases h
  · next hle => exact Nat.le_of_not_lt hle

end Wownero.Epee

import Wownero.EpeeRoundTrip
/-!
# What the reader of portable storage finds

Whatever the bytes are, the reader stays within them, and a section it returns is within the limits
of the format but for the lengths of its names.
-/

namespace Wownero.Epee

open Wownero.Archive Outcome

variable {α β : Type}

/-! ### Readings that stay within the buffer -/

/-- From within its buffer a reading does not panic and stays within it, and it finds what
satisfies `Q`. -/
def Safely (Q : α → Prop) (p : Read α) : Prop :=
  ∀ r, r.pos ≤ r.buf.length →
    Ends (· ≠ Stop.panicked) (fun out => Q out.1 ∧ out.2.pos ≤ out.2.buf.length) (p r)

variable {Q Q' : α → Prop} {R : β → Prop}

theorem safely_pure {a : α} (h : Q a) : Safely Q (pure a : Read α) := fun _ hr => ⟨h, hr⟩

theorem safely_fail (e : Error) : Safely Q (fail e : Read α) := fun _ _ => by
  rintro ⟨⟩

theorem Safely.bind {p : Read α} {f : α → Read β} (hp : Safely Q p)
    (hf : ∀ a, Q a → Safely R (f a)) : Safely R (p >>= f) := by
  intro r hr
  show Ends _ _ (p r >>= fun out => f out.1 out.2)
  refine (hp r hr).bind ?_
  rintro ⟨a, r'⟩ ⟨ha, hr'⟩
  exact hf a ha r' hr'

theorem Safely.mono {p : Read α} (hp : Safely Q p) (h : ∀ a, Q a → Q' a) : Safely Q' p :=
  fun r hr => (hp r hr).mono fun out hout => ⟨h out.1 hout.1, hout.2⟩

theorem safely_ite {c : Prop} [Decidable c] {p q : Read α} (hp : c → Safely Q p)
    (hq : ¬ c → Safely Q q) : Safely Q (if c then p else q) := by
  by_cases h : c
  · rw [if_pos h]
    exact hp h
  · rw [if_neg h]
    exact hq h

theorem safely_take (n : Nat) : Safely (·.length = n) (take n) := by
  intro r hr
  show Ends _ _ ((if r.buf.length < r.pos + n then fail .unexpectedEof else do
    let s ← slice (r.pos + n)
    set { r with pos := r.pos + n }
    return s : Read (List UInt8)) r)
  by_cases hend : r.buf.length < r.pos + n
  · rw [if_pos hend]
    exact ends_error.mpr (by rintro ⟨⟩)
  · have hin : r.pos + n ≤ r.buf.length := Nat.le_of_not_lt hend
    have hslice : slice (r.pos + n) r
        = .ok ((r.buf.drop r.pos).take (r.pos + n - r.pos), r) := by
      rw [slice, if_pos ⟨Nat.le_add_right _ _, hin⟩]
    rw [if_neg hend, run_bind hslice]
    refine ⟨?_, hin⟩
    show ((r.buf.drop r.pos).take (r.pos + n - r.pos)).length = n
    rw [List.length_take, List.length_drop]
    omega

theorem safely_u8 : Safely (fun _ => True) u8 := by
  refine (safely_take 1).bind ?_
  intro bytes hone
  cases bytes with
  | nil => cases hone
  | cons b rest => exact safely_pure trivial

theorem safely_fixed (n : Nat) : Safely (fun _ => True) (fixed n) :=
  (safely_take n).bind fun _ _ => safely_pure trivial

theorem widthOf_le (tag : Nat) : widthOf tag ≤ 8 := by
  unfold widthOf
  split <;> decide

/-- A varint that is found lies within the bytes and within its range. -/
theorem readEpeeVarint_within (rest : List UInt8) :
    Ends (fun _ => True) (fun out => out.1 ≤ epeeVarintMax ∧ out.2 ≤ rest.length)
      (readEpeeVarint rest) := by
  cases rest with
  | nil => exact trivial
  | cons first rest =>
      rw [readEpeeVarint_cons]
      refine ends_ite (fun _ => trivial) fun hlong => ⟨?_, Nat.le_of_not_lt hlong⟩
      have hlt := leNat_lt ((first :: rest).take (widthOf (first.toNat % 4)))
      have hwidth : ((first :: rest).take (widthOf (first.toNat % 4))).length ≤ 8 :=
        Nat.le_trans (List.length_take_le _ _) (widthOf_le _)
      have hpow := Nat.pow_le_pow_right (n := 256) (by decide) hwidth
      unfold epeeVarintMax
      show leNat _ / 4 ≤ 2 ^ 62 - 1
      omega

theorem safely_varint : Safely (· ≤ epeeVarintMax) varint := by
  intro r hr
  have hslice : slice r.buf.length r = .ok (r.buf.drop r.pos, r) := by
    rw [slice, if_pos ⟨hr, Nat.le_refl _⟩, ← List.length_drop, List.take_length]
  have hwithin := readEpeeVarint_within (r.buf.drop r.pos)
  unfold varint
  rw [run_bind (p := get) rfl, run_bind hslice]
  cases hread : readEpeeVarint (r.buf.drop r.pos) with
  | error e => exact ends_error.mpr (by rintro ⟨⟩)
  | ok out =>
      obtain ⟨hv, hn⟩ := hwithin.of_ok hread
      rw [List.length_drop] at hn
      have hpos : r.pos + out.2 ≤ r.buf.length := by omega
      exact ⟨hv, hpos⟩

theorem safely_count : Safely (· ≤ epeeVarintMax) count := by
  refine safely_varint.bind ?_
  intro n hn r hr
  show Ends _ _ ((if r.buf.length < r.pos then panicked
    else if r.buf.length - r.pos < n then fail .unexpectedEof
    else pure n : Read Nat) r)
  rw [if_neg (Nat.not_lt.mpr hr)]
  have hrest : Safely (· ≤ epeeVarintMax) (if r.buf.length - r.pos < n then
      fail .unexpectedEof else pure n : Read Nat) :=
    safely_ite (fun _ => safely_fail _) fun _ => safely_pure hn
  exact hrest r hr

/-! ### What is found fits -/

theorem tag_eq {tag : UInt8} {n : Nat} (h : tag.toNat = n) : UInt8.ofNat n = tag := by
  rw [← h, UInt8.ofNat_toNat]

variable {readObject : Read Section} {okObject : Section → Prop}

theorem entryFits_of_scalar {okElem : UInt8 → Prop} {v : Value} (h : ScalarFits okObject v) :
    EntryFits okElem okObject v := by
  cases v with
  | leaf l => exact h
  | object rows => exact h
  | array elemType items => exact h.elim

theorem elemType_lt (tag : UInt8) : tag &&& 0x7f < 128 := by
  rw [UInt8.lt_iff_toNat_lt, UInt8.toNat_and]
  exact Nat.lt_succ_of_le Nat.and_le_right

section

variable (hobj : Safely okObject readObject)

include hobj

theorem safely_scalar (tag : UInt8) :
    Safely (fun v => v.typeByte = tag ∧ ScalarFits okObject v) (readScalar readObject tag) := by
  unfold readScalar
  split
  case h_10 h =>
    refine safely_varint.bind fun n _ => safely_ite (fun _ => safely_fail _) fun hfew => ?_
    refine (safely_take n).bind fun bytes hlen => safely_pure ⟨tag_eq h, ?_⟩
    show bytes.length ≤ maxStringLen
    rw [hlen]
    exact Nat.le_of_not_lt hfew
  case h_11 h => exact safely_u8.bind fun b _ => safely_pure ⟨tag_eq h, trivial⟩
  case h_12 h => exact hobj.bind fun rows hrows => safely_pure ⟨tag_eq h, hrows⟩
  case h_13 => exact safely_fail _
  all_goals
    rename_i h
    exact (safely_fixed _).bind fun v _ => safely_pure ⟨tag_eq h, trivial⟩

theorem safely_items (elemType : UInt8) (n : Nat) :
    Safely (fun items => items.length = n ∧
      ∀ item ∈ items, item.typeByte = elemType ∧ ScalarFits okObject item)
      (readItems readObject elemType n) := by
  induction n with
  | zero => exact safely_pure ⟨rfl, fun _ h => absurd h List.not_mem_nil⟩
  | succ n ih =>
      refine (safely_scalar hobj elemType).bind fun item hitem => ih.bind fun items hitems => ?_
      refine safely_pure ⟨congrArg (· + 1) hitems.1, ?_⟩
      intro other hother
      rcases List.mem_cons.mp hother with rfl | hrest
      · exact hitem
      · exact hitems.2 other hrest

theorem safely_entry :
    Safely (EntryFits (· < 128) okObject) (readEntryValue readObject) := by
  refine safely_u8.bind fun tag _ => safely_ite (fun _ => ?_) fun _ => ?_
  · refine safely_count.bind fun n hn => (safely_items hobj _ n).bind fun items hitems => ?_
    exact safely_pure ⟨elemType_lt tag, hitems.1.trans_le hn, hitems.2⟩
  · exact (safely_scalar hobj tag).mono fun v hv => entryFits_of_scalar hv.2

end

/-! ### Rows in order -/

theorem key_injective {a b : Name} (h : a.key = b.key) : a = b := by
  obtain ⟨as, ha⟩ := a
  obtain ⟨bs, hb⟩ := b
  have hmap : Function.Injective (List.map UInt8.toNat) :=
    List.map_injective_iff.mpr fun _ _ => UInt8.toNat_inj.mp
  have heq : as = bs := hmap h
  subst heq
  rfl

theorem mem_insertRow {name : Name} {value : Value} {s : Section} {row : Name × Value}
    (h : row ∈ insertRow name value s) : row = (name, value) ∨ row ∈ s := by
  induction s with
  | nil => exact .inl (List.mem_singleton.mp h)
  | cons first rows ih =>
      rw [insertRow] at h
      split at h
      · exact List.mem_cons.mp h
      · split at h
        · rcases List.mem_cons.mp h with hnew | hold
          · exact .inl hnew
          · exact .inr (List.mem_cons_of_mem _ hold)
        · rcases List.mem_cons.mp h with hfirst | hrest
          · exact .inr (hfirst ▸ List.mem_cons_self)
          · exact (ih hrest).imp_right (List.mem_cons_of_mem _)

theorem length_insertRow_le (name : Name) (value : Value) (s : Section) :
    (insertRow name value s).length ≤ s.length + 1 := by
  induction s with
  | nil => exact Nat.le_refl _
  | cons first rows ih =>
      rw [insertRow]
      split
      · exact Nat.le_refl _
      · split
        · exact Nat.le_succ _
        · exact Nat.succ_le_succ ih

theorem ascending_insertRow (name : Name) (value : Value) {s : Section} (h : Ascending s) :
    Ascending (insertRow name value s) := by
  induction s with
  | nil => exact List.pairwise_singleton _ _
  | cons first rows ih =>
      obtain ⟨hfirst, hrows⟩ := List.pairwise_cons.mp h
      rw [insertRow]
      split
      case isTrue hlt =>
        refine List.pairwise_cons.mpr ⟨?_, h⟩
        intro row hrow
        rcases List.mem_cons.mp hrow with rfl | hrest
        · exact hlt
        · exact lt_trans hlt (hfirst row hrest)
      case isFalse hle =>
        split
        case isTrue heq =>
          refine List.pairwise_cons.mpr ⟨?_, hrows⟩
          rw [heq]
          exact hfirst
        case isFalse hne =>
          have hgt : first.1.key < name.key :=
            lt_of_le_of_ne (not_lt.mp hle) fun hkey => hne (key_injective hkey).symm
          refine List.pairwise_cons.mpr ⟨?_, ih hrows⟩
          intro row hrow
          rcases mem_insertRow hrow with rfl | hold
          · exact hgt
          · exact hfirst row hold

/-- The rows found so far, and those still to come. -/
theorem safely_rows (hobj : Safely okObject readObject) (n : Nat) {out : Section}
    (hsorted : Ascending out)
    (hrows : ∀ row ∈ out, True ∧ EntryFits (· < 128) okObject row.2) :
    Safely (fun s => Ascending s ∧ s.length ≤ out.length + n ∧
      ∀ row ∈ s, True ∧ EntryFits (· < 128) okObject row.2) (readRows readObject n out) := by
  induction n generalizing out with
  | zero => exact safely_pure ⟨hsorted, Nat.le_refl _, hrows⟩
  | succ n ih =>
      refine safely_u8.bind fun nameLen _ => (safely_take _).bind fun name _ =>
        (safely_entry hobj).bind fun value hvalue => ?_
      refine (ih (ascending_insertRow _ value hsorted) ?_).mono ?_
      · intro row hrow
        rcases mem_insertRow hrow with rfl | hold
        · exact ⟨trivial, hvalue⟩
        · exact hrows row hold
      · rintro s ⟨hs, hlen, hfits⟩
        have hone := length_insertRow_le ⟨Utf8.repair name, Utf8.valid_repair name⟩ value out
        exact ⟨hs, by omega, hfits⟩

/-- Whatever is read. -/
theorem safely_section (left : Nat) :
    Safely (SectionFits (fun _ => True) (· < 128) left) (readSection left) := by
  induction left with
  | zero => exact safely_fail _
  | succ left ih =>
      refine safely_count.bind fun n hn => ?_
      refine (safely_rows ih n List.Pairwise.nil fun _ h => absurd h List.not_mem_nil).mono ?_
      rintro s ⟨hs, hlen, hfits⟩
      rw [List.length_nil, Nat.zero_add] at hlen
      exact ⟨hs, Nat.le_trans hlen hn, hfits⟩

theorem fromBytes_safe (blob : List UInt8) :
    Ends (· ≠ Stop.panicked) (SectionFits (fun _ => True) (· < 128) recursionLimit)
      (fromBytes blob) := by
  unfold fromBytes
  refine ends_ite (fun _ => by rintro ⟨⟩) fun hlong => ends_ite (fun _ => by rintro ⟨⟩) fun _ => ?_
  have hsafe := safely_section recursionLimit ⟨blob, 9⟩ (Nat.le_of_not_lt hlong)
  cases hread : readSection recursionLimit ⟨blob, 9⟩ with
  | error e => exact hsafe.of_error hread
  | ok out => exact (hsafe.of_ok hread).1

/-! ### The names of a section -/

mutual

/-- The names within a value. -/
def Value.names : Value → List Name
  | .leaf _ => []
  | .object rows => rowNames rows
  | .array _ items => itemNames items

/-- The names within the items of an array. -/
def itemNames : List Value → List Name
  | [] => []
  | item :: items => item.names ++ itemNames items

/-- The names of a section, at every level. -/
def rowNames : List (Name × Value) → List Name
  | [] => []
  | (name, value) :: rows => name :: (value.names ++ rowNames rows)

end

theorem mem_itemNames {items : List Value} {item : Value} (h : item ∈ items) {name : Name}
    (hname : name ∈ item.names) : name ∈ itemNames items := by
  induction items with
  | nil => cases h
  | cons first items ih =>
      rw [itemNames, List.mem_append]
      rcases List.mem_cons.mp h with rfl | hrest
      · exact .inl hname
      · exact .inr (ih hrest)

theorem mem_rowNames {s : Section} {row : Name × Value} (h : row ∈ s) :
    row.1 ∈ rowNames s ∧ ∀ name ∈ row.2.names, name ∈ rowNames s := by
  induction s with
  | nil => cases h
  | cons first rows ih =>
      obtain ⟨firstName, firstValue⟩ := first
      rw [rowNames]
      rcases List.mem_cons.mp h with rfl | hrest
      · exact ⟨List.mem_cons_self,
          fun name hname => List.mem_cons_of_mem _ (List.mem_append_left _ hname)⟩
      · obtain ⟨hown, hinner⟩ := ih hrest
        exact ⟨List.mem_cons_of_mem _ (List.mem_append_right _ hown),
          fun name hname => List.mem_cons_of_mem _ (List.mem_append_right _ (hinner name hname))⟩

variable {okName : Name → Prop} {okElem : UInt8 → Prop}

theorem scalarFits_names {okObject' : Section → Prop} {v : Value}
    (hobj : ∀ s, okObject s → (∀ name ∈ rowNames s, okName name) → okObject' s)
    (h : ScalarFits okObject v) (hnames : ∀ name ∈ v.names, okName name) :
    ScalarFits okObject' v := by
  cases v with
  | leaf l => exact h
  | object rows => exact hobj rows h hnames
  | array elemType items => exact h

theorem entryFits_names {okObject' : Section → Prop} {v : Value}
    (hobj : ∀ s, okObject s → (∀ name ∈ rowNames s, okName name) → okObject' s)
    (h : EntryFits okElem okObject v) (hnames : ∀ name ∈ v.names, okName name) :
    EntryFits okElem okObject' v := by
  cases v with
  | leaf l => exact h
  | object rows => exact hobj rows h hnames
  | array elemType items =>
      obtain ⟨helem, hmany, hitems⟩ := h
      refine ⟨helem, hmany, fun item hitem => ⟨(hitems item hitem).1, ?_⟩⟩
      exact scalarFits_names hobj (hitems item hitem).2
        fun name hname => hnames name (mem_itemNames hitem hname)

/-- A section of which every name is as it should be. -/
theorem sectionFits_names {left : Nat} {s : Section}
    (h : SectionFits (fun _ => True) okElem left s) (hnames : ∀ name ∈ rowNames s, okName name) :
    SectionFits okName okElem left s := by
  induction left generalizing s with
  | zero => exact h
  | succ left ih =>
      obtain ⟨hsorted, hmany, hrows⟩ := h
      refine ⟨hsorted, hmany, fun row hrow => ⟨hnames _ (mem_rowNames hrow).1, ?_⟩⟩
      exact entryFits_names (fun _ => ih) (hrows row hrow).2
        fun name hname => hnames name ((mem_rowNames hrow).2 name hname)

/-! ### The round trip -/

/-- Within the limits of the format a section is written, measured and read back.  Whatever is read
is read within its bytes, and comes back from what is written of it if its names are short. -/
theorem portable_storage_round_trip :
    (∀ s, SectionFits Name.Short (· < 13) recursionLimit s → ∃ out n,
      toBytes s = .ok out ∧ fromBytes out = .ok s ∧ encodedLen s = .ok n ∧ n + 9 = out.length) ∧
    ∀ blob, fromBytes blob ≠ .error .panicked ∧
      ∀ s, fromBytes blob = .ok s → (∀ name ∈ rowNames s, name.Short) →
        ∃ out, toBytes s = .ok out ∧ fromBytes out = .ok s := by
  constructor
  · intro s hfits
    have helem : ∀ elemType : UInt8, elemType < 13 → elemType < 128 :=
      fun _ h => lt_trans (α := Nat) h (by decide)
    obtain ⟨out, hwrite, hread, hlen, hlong⟩ := blob_written (fun _ h => h) helem hfits
    exact ⟨out, _, hwrite, hread, hlen, Nat.sub_add_cancel hlong⟩
  · intro blob
    refine ⟨fun hpanic => (fromBytes_safe blob).of_error hpanic rfl, ?_⟩
    intro s hread hnames
    have hfits := sectionFits_names ((fromBytes_safe blob).of_ok hread) hnames
    obtain ⟨out, hwrite, hback, -, -⟩ := blob_written (fun _ h => h) (fun _ h => h) hfits
    exact ⟨out, hwrite, hback⟩

/-- A blob with one entry, of which the name is eighty-six bytes that are no text. -/
def garbledName : List UInt8 := header ++ 4 :: 86 :: (List.replicate 86 0xff ++ [11, 1])

/-- A name. -/
def nameA : Name := ⟨[97], rfl⟩

/-- A string over the limit is refused by the writer; and a section that was read is refused by it
where a name was no text, of which every byte became three. -/
theorem garbled_name_not_written :
    (∃ s, fromBytes garbledName = .ok s ∧ ¬ ∃ out, toBytes s = .ok out ∧ fromBytes out = .ok s) ∧
    ¬ ∃ out, toBytes [(nameA, .leaf (.string (List.replicate (maxStringLen + 1) 0)))] = .ok out := by
  constructor
  · have hrun : (fromBytes garbledName).map toBytes = .ok (.error .nameTooLong) := by
      decide +kernel
    cases hread : fromBytes garbledName with
    | error e =>
        rw [hread] at hrun
        cases hrun
    | ok s =>
        rw [hread] at hrun
        have hwrite : toBytes s = .error .nameTooLong := Except.ok.inj hrun
        refine ⟨s, rfl, ?_⟩
        rintro ⟨out, hout, -⟩
        rw [hwrite] at hout
        cases hout
  · rintro ⟨out, hout⟩
    have hlong : (Leaf.string (List.replicate (maxStringLen + 1) 0)).write
        = .error (.limitExceeded "epee string > MAX_STRING_LEN") := by
      rw [Leaf.write, if_pos (by rw [List.length_replicate]; exact Nat.lt_succ_self _)]
    have hfail : toBytes [(nameA, .leaf (.string (List.replicate (maxStringLen + 1) 0)))]
        = .error (.limitExceeded "epee string > MAX_STRING_LEN") := by
      unfold toBytes writeSection writeRows writeEntryValue
      rw [hlong]
      rfl
    rw [hfail] at hout
    cases hout

end Wownero.Epee

import Wownero.Epee
/-!
# Portable storage is read back as it was written

A section that is within the limits of the format is written, has the length that was foretold, and
is read back.  Conversely the reader stays within its buffer, and what it finds is within the limits
but for the lengths of the names: a name that is no text grows when it is made one.
-/

namespace Wownero.Epee

open Wownero.Archive Outcome

variable {α β : Type}

/-! ### Within the limits of the format -/

/-- A value that holds no others and is not too long to be written. -/
def Leaf.Fits : Leaf → Prop
  | .string bytes => bytes.length ≤ maxStringLen
  | _ => True

/-- A value that may be the item of an array. -/
def ScalarFits (okObject : Section → Prop) : Value → Prop
  | .leaf l => l.Fits
  | .object rows => okObject rows
  | .array .. => False

/-- A value that may be an entry: an array is homogeneous and holds no array. -/
def EntryFits (okElem : UInt8 → Prop) (okObject : Section → Prop) : Value → Prop
  | .array elemType items =>
      okElem elemType ∧ items.length ≤ epeeVarintMax ∧
        ∀ item ∈ items, item.typeByte = elemType ∧ ScalarFits okObject item
  | v => ScalarFits okObject v

/-- The rows of an ordered map. -/
def Ascending (s : Section) : Prop := s.Pairwise fun a b => a.1.key < b.1.key

/-- A section nested no deeper than so many levels. -/
def SectionFits (okName : Name → Prop) (okElem : UInt8 → Prop) : Nat → Section → Prop
  | 0, _ => False
  | left + 1, s =>
      Ascending s ∧ s.length ≤ epeeVarintMax ∧
        ∀ row ∈ s, okName row.1 ∧ EntryFits okElem (SectionFits okName okElem left) row.2

/-- A name of which the length is one byte. -/
def Name.Short (n : Name) : Prop := n.bytes.length ≤ 255

/-! ### Readers against writers -/

theorem run_bind {p : Read α} {f : α → Read β} {r r' : EpeeReader} {a : α}
    (h : p r = .ok (a, r')) : (p >>= f) r = f a r' := by
  show (p r >>= fun x => f x.1 x.2) = _
  rw [h]
  rfl

/-- A reader takes exactly these bytes, wherever they stand in a buffer. -/
def Reads (p : Read α) (bytes : List UInt8) (a : α) : Prop :=
  ∀ pre post, p ⟨pre ++ (bytes ++ post), pre.length⟩
    = .ok (a, ⟨pre ++ (bytes ++ post), pre.length + bytes.length⟩)

theorem reads_pure (a : α) : Reads (pure a) [] a := fun _ _ => rfl

theorem Reads.bind {p : Read α} {f : α → Read β} {bs cs : List UInt8} {a : α} {b : β}
    (hp : Reads p bs a) (hf : Reads (f a) cs b) : Reads (p >>= f) (bs ++ cs) b := by
  intro pre post
  have hnext := hf (pre ++ bs) post
  rw [List.length_append, List.append_assoc] at hnext
  rw [List.append_assoc, run_bind (hp pre (cs ++ post)), hnext, List.length_append, Nat.add_assoc]

theorem Reads.map {p : Read α} {bs : List UInt8} {a : α} (hp : Reads p bs a) (f : α → β) :
    Reads (p >>= fun x => pure (f x)) bs (f a) := by
  have h := hp.bind (f := fun x => pure (f x)) (reads_pure (f a))
  rwa [List.append_nil] at h

theorem reads_take (bs : List UInt8) : Reads (take bs.length) bs bs := by
  intro pre post
  have hlen : ¬ (pre ++ (bs ++ post)).length < pre.length + bs.length := by
    simp only [List.length_append]
    omega
  have hin : pre.length + bs.length ≤ (pre ++ (bs ++ post)).length := by omega
  have hslice : slice (pre.length + bs.length) ⟨pre ++ (bs ++ post), pre.length⟩
      = .ok (bs, ⟨pre ++ (bs ++ post), pre.length⟩) := by
    rw [slice, if_pos ⟨Nat.le_add_right _ _, hin⟩, List.drop_left, Nat.add_sub_cancel_left,
      List.take_left]
  show (if (pre ++ (bs ++ post)).length < pre.length + bs.length then _ else _ : Read (List UInt8))
    ⟨pre ++ (bs ++ post), pre.length⟩ = _
  rw [if_neg hlen, run_bind hslice]
  rfl

theorem reads_u8 (b : UInt8) : Reads u8 [b] b := by
  have h : Reads u8 ([b] ++ []) b := (reads_take [b]).bind (reads_pure b)
  rwa [List.append_nil] at h

theorem reads_fixed (n : Nat) (v : BitVec (8 * n)) : Reads (fixed n) (leBytes n v.toNat) v := by
  have hback : BitVec.ofNat (8 * n) (leNat (leBytes n v.toNat)) = v := by
    rw [leNat_leBytes]
    have hlt : v.toNat < 256 ^ n := by
      have hbits := v.isLt
      rwa [Nat.pow_mul] at hbits
    rw [Nat.mod_eq_of_lt hlt, BitVec.ofNat_toNat, BitVec.setWidth_eq]
  have h := (reads_take (leBytes n v.toNat)).map fun bs => BitVec.ofNat (8 * n) (leNat bs)
  rw [hback, length_leBytes] at h
  exact h

/-! ### The varint -/

/-- How many bytes the tag in the low bits stands for. -/
def widthOf : Nat → Nat
  | 0 => 1
  | 1 => 2
  | 2 => 4
  | _ => 8

theorem readEpeeVarint_cons (first : UInt8) (rest : List UInt8) :
    readEpeeVarint (first :: rest) =
      if rest.length + 1 < widthOf (first.toNat % 4) then .error .unexpectedEof
      else .ok (leNat ((first :: rest).take (widthOf (first.toNat % 4))) / 4,
        widthOf (first.toNat % 4)) := rfl

theorem widthOf_pos (tag : Nat) : 0 < widthOf tag := by
  unfold widthOf
  split <;> decide

theorem readEpeeVarint_tagged {v tag : Nat} (htag : tag < 4)
    (hlt : 4 * v + tag < 256 ^ widthOf tag) (post : List UInt8) :
    readEpeeVarint (leBytes (widthOf tag) (4 * v + tag) ++ post) = .ok (v, widthOf tag) := by
  obtain ⟨k, hk⟩ := Nat.exists_eq_succ_of_ne_zero (widthOf_pos tag).ne'
  have hfirst : (UInt8.ofNat (4 * v + tag)).toNat % 4 = tag := by
    rw [UInt8.toNat_ofNat']
    omega
  have hcons : leBytes (widthOf tag) (4 * v + tag) ++ post
      = UInt8.ofNat (4 * v + tag) :: (leBytes k ((4 * v + tag) / 256) ++ post) := by
    rw [hk]
    rfl
  have hlen : ¬ (leBytes k ((4 * v + tag) / 256) ++ post).length + 1 < widthOf tag := by
    rw [List.length_append, length_leBytes, hk]
    omega
  have htake : (leBytes (widthOf tag) (4 * v + tag) ++ post).take (widthOf tag)
      = leBytes (widthOf tag) (4 * v + tag) :=
    List.take_left' (length_leBytes _ _)
  rw [hcons, readEpeeVarint_cons, hfirst, if_neg hlen, ← hcons, htake, leNat_leBytes,
    Nat.mod_eq_of_lt hlt]
  have hv : (4 * v + tag) / 4 = v := by omega
  rw [hv]

/-- What is written within the range of the format, and how. -/
theorem writeEpeeVarint_eq {v : Nat} (hv : v ≤ epeeVarintMax) : ∃ tag < 4,
    4 * v + tag < 256 ^ widthOf tag ∧ epeeVarintLen v = widthOf tag ∧
      writeEpeeVarint v = .ok (leBytes (widthOf tag) (4 * v + tag)) := by
  unfold epeeVarintMax at hv
  unfold writeEpeeVarint epeeVarintLen epeeVarintMax
  by_cases h1 : v ≤ 63
  · exact ⟨0, by decide, by simp only [widthOf]; omega, by rw [if_pos h1]; rfl,
      by rw [if_pos h1]; rfl⟩
  by_cases h2 : v ≤ 16383
  · exact ⟨1, by decide, by simp only [widthOf]; omega, by rw [if_neg h1, if_pos h2]; rfl,
      by rw [if_neg h1, if_pos h2]; rfl⟩
  by_cases h3 : v ≤ 1073741823
  · exact ⟨2, by decide, by simp only [widthOf]; omega,
      by rw [if_neg h1, if_neg h2, if_pos h3]; rfl, by rw [if_neg h1, if_neg h2, if_pos h3]; rfl⟩
  · exact ⟨3, by decide, by simp only [widthOf]; omega,
      by rw [if_neg h1, if_neg h2, if_neg h3]; rfl,
      by rw [if_neg h1, if_neg h2, if_neg h3, if_pos hv]; rfl⟩

theorem run_varint {r : EpeeReader} {rest : List UInt8} {v n : Nat}
    (hslice : slice r.buf.length r = .ok (rest, r)) (hread : readEpeeVarint rest = .ok (v, n)) :
    varint r = .ok (v, { r with pos := r.pos + n }) := by
  unfold varint
  rw [run_bind (p := get) rfl, run_bind hslice, hread]
  rfl

/-- A varint is written, has the length foretold, and is read back. -/
theorem varint_written {v : Nat} (hv : v ≤ epeeVarintMax) : ∃ bytes,
    writeEpeeVarint v = .ok bytes ∧ epeeVarintLen v = bytes.length ∧ bytes ≠ [] ∧
      Reads varint bytes v := by
  obtain ⟨tag, htag, hlt, hwidth, hwrite⟩ := writeEpeeVarint_eq hv
  refine ⟨_, hwrite, by rw [hwidth, length_leBytes], ?_, ?_⟩
  · intro hnil
    have hlen := length_leBytes (widthOf tag) (4 * v + tag)
    rw [hnil] at hlen
    exact (widthOf_pos tag).ne hlen
  · intro pre post
    set bytes := leBytes (widthOf tag) (4 * v + tag) with hbytes
    have hslice : slice (pre ++ (bytes ++ post)).length ⟨pre ++ (bytes ++ post), pre.length⟩
        = .ok (bytes ++ post, ⟨pre ++ (bytes ++ post), pre.length⟩) := by
      have hin : pre.length ≤ (pre ++ (bytes ++ post)).length := by
        rw [List.length_append]
        exact Nat.le_add_right _ _
      rw [slice, if_pos ⟨hin, Nat.le_refl _⟩, List.drop_left, List.length_append,
        Nat.add_sub_cancel_left, List.take_length]
    have hread := readEpeeVarint_tagged htag hlt post
    rw [← hbytes] at hread
    rw [run_varint hslice hread, hbytes, length_leBytes]

/-- A count is read where at least so many bytes follow it. -/
theorem Reads.count {f : Nat → Read α} {v : Nat} {bs body : List UInt8} {a : α}
    (hv : Reads varint bs v) (hle : v ≤ body.length) (hf : Reads (f v) body a) :
    Reads (count >>= f) (bs ++ body) a := by
  intro pre post
  have hcount : Epee.count ⟨pre ++ ((bs ++ body) ++ post), pre.length⟩
      = .ok (v, ⟨pre ++ ((bs ++ body) ++ post), pre.length + bs.length⟩) := by
    have hrun := hv pre (body ++ post)
    rw [← List.append_assoc bs] at hrun
    have hlen : (pre ++ ((bs ++ body) ++ post)).length
        = pre.length + bs.length + (body.length + post.length) := by
      simp only [List.length_append]
      omega
    have h1 : ¬ (pre ++ ((bs ++ body) ++ post)).length < pre.length + bs.length := by omega
    have h2 : ¬ (pre ++ ((bs ++ body) ++ post)).length - (pre.length + bs.length) < v := by omega
    unfold Epee.count
    rw [run_bind hrun]
    show (if (pre ++ ((bs ++ body) ++ post)).length < pre.length + bs.length then panicked
      else if (pre ++ ((bs ++ body) ++ post)).length - (pre.length + bs.length) < v then
        fail .unexpectedEof
      else pure v : Read Nat) _ = _
    rw [if_neg h1, if_neg h2]
    rfl
  have hnext := hf (pre ++ bs) post
  rw [List.length_append, List.append_assoc, ← List.append_assoc bs] at hnext
  rw [run_bind hcount, hnext, List.length_append, Nat.add_assoc]

/-! ### A section is written, measured and read back -/

/-- The bytes written are not none, as many as foretold, and read back. -/
def Codes (write : Except Error (List UInt8)) (len : Except Error Nat) (read : Read α) (a : α) :
    Prop :=
  ∃ bytes, write = .ok bytes ∧ len = .ok bytes.length ∧ bytes ≠ [] ∧ Reads read bytes a

theorem Codes.map {write : Except Error (List UInt8)} {len : Except Error Nat} {p : Read α} {a : α}
    (h : Codes write len p a) (f : α → β) : Codes write len (p >>= fun x => pure (f x)) (f a) := by
  obtain ⟨bytes, hwrite, hlen, hne, hread⟩ := h
  exact ⟨bytes, hwrite, hlen, hne, hread.map f⟩

theorem codes_fixed {n : Nat} (hn : 0 < n) (v : BitVec (8 * n)) :
    Codes (.ok (leBytes n v.toNat)) (.ok n) (fixed n) v := by
  have hlen := length_leBytes n v.toNat
  refine ⟨_, rfl, by rw [hlen], ?_, reads_fixed n v⟩
  intro hnil
  rw [hnil] at hlen
  exact hn.ne hlen

variable {readObject : Read Section} {okName : Name → Prop} {okElem : UInt8 → Prop}
  {okObject : Section → Prop}

theorem codes_string {bytes : List UInt8} (hfits : bytes.length ≤ maxStringLen) :
    Codes (Leaf.string bytes).write (.ok (Leaf.string bytes).len) (readScalar readObject 10)
      (.leaf (.string bytes)) := by
  have hmax : maxStringLen ≤ epeeVarintMax := by decide
  obtain ⟨count, hwrite, hlen, hne, hread⟩ := varint_written (Nat.le_trans hfits hmax)
  have hfew : ¬ maxStringLen < bytes.length := Nat.not_lt.mpr hfits
  refine ⟨count ++ bytes, ?_, ?_, ?_, ?_⟩
  · rw [Leaf.write, if_neg hfew, hwrite]
    rfl
  · rw [Leaf.len, hlen, List.length_append]
  · exact fun hnil => hne (List.append_eq_nil_iff.mp hnil).1
  · have hbody : Reads (if maxStringLen < bytes.length then
          fail (.limitExceeded "epee string > MAX_STRING_LEN")
        else do return Value.leaf (.string (← take bytes.length))) bytes
        (.leaf (.string bytes)) := by
      rw [if_neg hfew]
      exact (reads_take bytes).map _
    exact hread.bind hbody

theorem codes_leaf {l : Leaf} (hfits : l.Fits) :
    Codes l.write (.ok l.len) (readScalar readObject l.typeByte) (.leaf l) := by
  cases l with
  | i64 v => exact (codes_fixed (n := 8) (by decide) v).map fun v => Value.leaf (.i64 v)
  | i32 v => exact (codes_fixed (n := 4) (by decide) v).map fun v => Value.leaf (.i32 v)
  | i16 v => exact (codes_fixed (n := 2) (by decide) v).map fun v => Value.leaf (.i16 v)
  | i8 v => exact (codes_fixed (n := 1) (by decide) v).map fun v => Value.leaf (.i8 v)
  | u64 v => exact (codes_fixed (n := 8) (by decide) v).map fun v => Value.leaf (.u64 v)
  | u32 v => exact (codes_fixed (n := 4) (by decide) v).map fun v => Value.leaf (.u32 v)
  | u16 v => exact (codes_fixed (n := 2) (by decide) v).map fun v => Value.leaf (.u16 v)
  | u8 v => exact (codes_fixed (n := 1) (by decide) v).map fun v => Value.leaf (.u8 v)
  | double v => exact (codes_fixed (n := 8) (by decide) v).map fun v => Value.leaf (.double v)
  | string bytes => exact codes_string hfits
  | bool v =>
      have hread := (reads_u8 (if v then 1 else 0)).map fun b => Value.leaf (.bool (b != 0))
      have hback : (((if v then 1 else 0 : UInt8)) != 0) = v := by cases v <;> rfl
      rw [hback] at hread
      exact ⟨[if v then 1 else 0], rfl, rfl, List.cons_ne_nil _ _, hread⟩

/-- What an object inside has to come back from. -/
def ObjectCodes (readObject : Read Section) (rows : Section) : Prop :=
  Codes (writeSection rows) (encodedLen rows) readObject rows

section

variable (hobj : ∀ rows, okObject rows → ObjectCodes readObject rows)

include hobj

theorem codes_scalar {v : Value} (hfits : ScalarFits okObject v) :
    Codes (writeScalar v) (scalarLen v) (readScalar readObject v.typeByte) v := by
  cases v with
  | leaf l => exact codes_leaf hfits
  | object rows => exact (hobj rows hfits).map Value.object
  | array elemType items => exact hfits.elim

/-- The items of an array, of which each takes at least a byte. -/
theorem codes_items {elemType : UInt8} {items : List Value}
    (hfits : ∀ item ∈ items, item.typeByte = elemType ∧ ScalarFits okObject item) :
    ∃ bytes, writeItems elemType items = .ok bytes ∧ itemsLen items = .ok bytes.length ∧
      items.length ≤ bytes.length ∧
      Reads (readItems readObject elemType items.length) bytes items := by
  induction items with
  | nil => exact ⟨[], rfl, rfl, Nat.le_refl _, reads_pure []⟩
  | cons item items ih =>
      obtain ⟨htype, hitem⟩ := hfits item List.mem_cons_self
      obtain ⟨rest, hrest, hrestLen, hrestMany, hrestRead⟩ :=
        ih fun other hother => hfits other (List.mem_cons_of_mem _ hother)
      obtain ⟨first, hfirst, hfirstLen, hne, hfirstRead⟩ := codes_scalar hobj hitem
      rw [htype] at hfirstRead
      have hpos : 0 < first.length := List.length_pos_iff.mpr hne
      refine ⟨first ++ rest, ?_, ?_, ?_, ?_⟩
      · rw [writeItems, if_neg (by simpa using htype), hfirst, hrest]
        rfl
      · rw [itemsLen, hfirstLen, hrestLen, List.length_append]
        rfl
      · rw [List.length_cons, List.length_append]
        omega
      · exact hfirstRead.bind (hrestRead.map (item :: ·))

end

/-- The two bits of the tag of an array. -/
theorem array_tag {elemType : UInt8} (h : elemType < 128) :
    (elemType ||| arrayFlag) &&& arrayFlag ≠ 0 ∧ (elemType ||| arrayFlag) &&& 0x7f = elemType := by
  have hall : ∀ e : Fin 128, (UInt8.ofNat e.val ||| arrayFlag) &&& arrayFlag ≠ 0 ∧
      (UInt8.ofNat e.val ||| arrayFlag) &&& 0x7f = UInt8.ofNat e.val := by decide
  have hlt : elemType.toNat < 128 := h
  have hself : UInt8.ofNat elemType.toNat = elemType := UInt8.ofNat_toNat
  have hthis := hall ⟨elemType.toNat, hlt⟩
  rwa [hself] at hthis

theorem Leaf.typeByte_plain (l : Leaf) : l.typeByte &&& arrayFlag = 0 := by
  cases l <;> simp only [Leaf.typeByte] <;> decide

theorem writeEntryValue_object (rows : Section) :
    writeEntryValue (.object rows) = do return 12 :: (← writeSection rows) := by
  simp only [writeEntryValue, writeSection, bind_assoc, pure_bind]

theorem valueLen_object (rows : Section) :
    valueLen (.object rows) = do return 1 + (← encodedLen rows) := by
  simp only [valueLen, encodedLen, bind_assoc, pure_bind]

theorem insertRow_last {name : Name} {value : Value} {out : Section}
    (h : ∀ row ∈ out, row.1.key < name.key) :
    insertRow name value out = out ++ [(name, value)] := by
  induction out with
  | nil => rfl
  | cons row rows ih =>
      have hrow := h row List.mem_cons_self
      have hne : name ≠ row.1 := by
        rintro rfl
        exact absurd hrow (lt_irrefl _)
      rw [insertRow, if_neg (lt_asymm hrow), if_neg hne,
        ih fun other hother => h other (List.mem_cons_of_mem _ hother)]
      rfl

section

variable (hobj : ∀ rows, okObject rows → ObjectCodes readObject rows)
  (helem : ∀ elemType, okElem elemType → elemType < 128)

include hobj helem

theorem codes_entry {v : Value} (hfits : EntryFits okElem okObject v) :
    Codes (writeEntryValue v) (valueLen v) (readEntryValue readObject) v := by
  have hplain : ∀ {tag : UInt8} {v : Value} {write : Except Error (List UInt8)}
      {len : Except Error Nat}, tag &&& arrayFlag = 0 →
      Codes write len (readScalar readObject tag) v →
      Codes (do return tag :: (← write)) (do return 1 + (← len)) (readEntryValue readObject) v := by
    rintro tag v write len htag ⟨bytes, rfl, rfl, hne, hread⟩
    refine ⟨tag :: bytes, rfl, ?_, List.cons_ne_nil _ _, ?_⟩
    · rw [List.length_cons, Nat.add_comm]
      rfl
    · have hrest : Reads (if tag &&& arrayFlag ≠ 0 then do
          let elemType := tag &&& 0x7f
          let n ← count
          return Value.array elemType (← readItems readObject elemType n)
        else readScalar readObject tag) bytes v := by
        rw [if_neg (not_not.mpr htag)]
        exact hread
      exact (reads_u8 tag).bind hrest
  cases v with
  | leaf l => exact hplain l.typeByte_plain (codes_leaf hfits)
  | object rows =>
      rw [writeEntryValue_object, valueLen_object]
      have htag : (12 : UInt8) &&& arrayFlag = 0 := by decide
      exact hplain htag ((hobj rows hfits).map Value.object)
  | array elemType items =>
      obtain ⟨hok, hmany, hitems⟩ := hfits
      obtain ⟨htag, hback⟩ := array_tag (helem elemType hok)
      obtain ⟨count, hcount, hcountLen, -, hcountRead⟩ := varint_written hmany
      obtain ⟨body, hbody, hbodyLen, hbodyMany, hbodyRead⟩ := codes_items hobj hitems
      refine ⟨(elemType ||| arrayFlag) :: (count ++ body), ?_, ?_, List.cons_ne_nil _ _, ?_⟩
      · rw [writeEntryValue, hcount, hbody]
        rfl
      · rw [valueLen, hbodyLen, hcountLen]
        show Except.ok _ = _
        rw [List.length_cons, List.length_append]
        congr 1
        omega
      · have hrest : Reads (if (elemType ||| arrayFlag) &&& arrayFlag ≠ 0 then do
            let elemType := (elemType ||| arrayFlag) &&& 0x7f
            let n ← Epee.count
            return Value.array elemType (← readItems readObject elemType n)
          else readScalar readObject (elemType ||| arrayFlag)) (count ++ body)
          (.array elemType items) := by
          rw [if_pos htag, hback]
          exact hcountRead.count hbodyMany (hbodyRead.map fun items => Value.array elemType items)
        exact (reads_u8 (elemType ||| arrayFlag)).bind hrest

/-- The rows that are left, put behind those already read. -/
theorem codes_rows (hname : ∀ name, okName name → name.Short) {rows out : Section}
    (hsorted : Ascending (out ++ rows))
    (hfits : ∀ row ∈ rows, okName row.1 ∧ EntryFits okElem okObject row.2) :
    ∃ bytes, writeRows rows = .ok bytes ∧ rowsLen rows = .ok bytes.length ∧
      rows.length ≤ bytes.length ∧
      Reads (readRows readObject rows.length out) bytes (out ++ rows) := by
  induction rows generalizing out with
  | nil =>
      refine ⟨[], rfl, rfl, Nat.le_refl _, ?_⟩
      rw [List.append_nil]
      exact reads_pure out
  | cons row rows ih =>
      obtain ⟨name, value⟩ := row
      obtain ⟨hok, hentry⟩ := hfits (name, value) List.mem_cons_self
      have hshort : ¬ 255 < name.bytes.length := Nat.not_lt.mpr (hname name hok)
      have hlast : insertRow name value out = out ++ [(name, value)] :=
        insertRow_last fun row hrow =>
          (List.pairwise_append.mp hsorted).2.2 row hrow (name, value) List.mem_cons_self
      have hsplit : out ++ (name, value) :: rows = (out ++ [(name, value)]) ++ rows := by
        rw [List.append_assoc]
        rfl
      rw [hsplit] at hsorted
      obtain ⟨rest, hrest, hrestLen, hrestMany, hrestRead⟩ :=
        ih hsorted fun other hother => hfits other (List.mem_cons_of_mem _ hother)
      obtain ⟨body, hbody, hbodyLen, hne, hbodyRead⟩ := codes_entry hobj helem hentry
      have hlen : (UInt8.ofNat name.bytes.length).toNat = name.bytes.length := by
        rw [UInt8.toNat_ofNat']
        omega
      refine ⟨UInt8.ofNat name.bytes.length :: (name.bytes ++ body) ++ rest, ?_, ?_, ?_, ?_⟩
      · rw [writeRows, if_neg hshort, hbody, hrest]
        rfl
      · rw [rowsLen, if_neg hshort, hbodyLen, hrestLen]
        show Except.ok _ = _
        simp only [List.length_append, List.length_cons]
        congr 1
        omega
      · simp only [List.length_append, List.length_cons]
        omega
      · rw [hsplit, List.cons_append, List.append_assoc]
        refine (reads_u8 _).bind ?_
        rw [hlen]
        refine (reads_take name.bytes).bind (hbodyRead.bind ?_)
        have hname : (⟨Utf8.repair name.bytes, Utf8.valid_repair name.bytes⟩ : Name) = name := by
          cases name with
          | mk bytes text => simp only [Utf8.repair_of_valid text]
        rw [hname, hlast]
        exact hrestRead

end

/-- A section within the limits, nested no deeper than so many levels. -/
theorem codes_section (hname : ∀ name, okName name → name.Short)
    (helem : ∀ elemType, okElem elemType → elemType < 128) (left : Nat) (s : Section)
    (hfits : SectionFits okName okElem left s) : ObjectCodes (readSection left) s := by
  induction left generalizing s with
  | zero => exact hfits.elim
  | succ left ih =>
      obtain ⟨hsorted, hmany, hrows⟩ := hfits
      obtain ⟨count, hcount, hcountLen, hne, hcountRead⟩ := varint_written hmany
      obtain ⟨body, hbody, hbodyLen, hbodyMany, hbodyRead⟩ :=
        @codes_rows _ _ _ _ ih helem hname s [] hsorted hrows
      refine ⟨count ++ body, ?_, ?_, ?_, ?_⟩
      · rw [writeSection, hcount, hbody]
        rfl
      · rw [encodedLen, hbodyLen, hcountLen, List.length_append]
        rfl
      · exact fun hnil => hne (List.append_eq_nil_iff.mp hnil).1
      · exact hcountRead.count hbodyMany hbodyRead

/-- The whole blob. -/
theorem blob_written (hname : ∀ name, okName name → name.Short)
    (helem : ∀ elemType, okElem elemType → elemType < 128) {s : Section}
    (hfits : SectionFits okName okElem recursionLimit s) : ∃ out,
      toBytes s = .ok out ∧ fromBytes out = .ok s ∧
        encodedLen s = .ok (out.length - 9) ∧ 9 ≤ out.length := by
  obtain ⟨body, hwrite, hlen, hne, hread⟩ := codes_section hname helem recursionLimit s hfits
  refine ⟨header ++ body, ?_, ?_, ?_, ?_⟩
  · rw [toBytes, hwrite]
    rfl
  · have hlong : ¬ (header ++ body).length < 9 := by
      rw [List.length_append]
      exact Nat.not_lt.mpr (Nat.le_add_right 9 _)
    have hhead : (header ++ body).take 9 = header := List.take_left' rfl
    have hrun := hread header []
    rw [List.append_nil] at hrun
    have hstart : header.length = 9 := rfl
    rw [hstart] at hrun
    rw [fromBytes, if_neg hlong, if_neg (not_not.mpr hhead), hrun]
    rfl
  · rw [hlen, List.length_append]
    congr 1
    exact (Nat.add_sub_cancel_left 9 _).symm
  · rw [List.length_append]
    exact Nat.le_add_right 9 _

end Wownero.Epee

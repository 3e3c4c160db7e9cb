import Wownero.AddressBook
/-!
# What holds of an address book

The lists stay apart, within their limits and free of what may not be listed, whatever is done.  A
list that a peer sent touches the gray list only, moves nobody's `last_seen`, and pushes out entries
in the order of `last_seen` and arrival only.
-/

namespace Wownero.Peers

open IpText

/-! ### Eviction -/

/-- Which of two entries goes first. -/
def Listed.Before (l l' : Listed) : Prop :=
  l.record.lastSeen.toInt < l'.record.lastSeen.toInt ∨
    l.record.lastSeen.toInt = l'.record.lastSeen.toInt ∧ l.seq < l'.seq

instance (l l' : Listed) : Decidable (l.Before l') := inferInstanceAs (Decidable (_ ∨ _))

theorem Listed.Before.trans {l l' l'' : Listed} (h : l.Before l') (h' : l'.Before l'') :
    l.Before l'' := by
  unfold Listed.Before at *
  omega

instance : Std.Total AgeLe := ⟨fun a b => by
  unfold AgeLe
  omega⟩

instance : IsTrans Age AgeLe := ⟨fun a b c hab hbc => by
  unfold AgeLe at *
  omega⟩

/-- The entries of a list: each under its own address, and no two of one arrival. -/
structure Filed (m : PeerTable) : Prop where
  keyed : ∀ a l, m.get a = some l → l.record.addr = a
  apart : ∀ a l a' l', m.get a = some l → m.get a' = some l' → l.seq = l'.seq → a = a'

theorem Filed.before {m : PeerTable} (h : Filed m) {a a' : SocketAddr} {l l' : Listed}
    (hl : m.get a = some l) (hl' : m.get a' = some l') (hne : a' ≠ a) (hle : AgeLe l.age l'.age) :
    l.Before l' := by
  have hseq : l.seq ≠ l'.seq := fun heq => hne (h.apart a l a' l' hl hl' heq).symm
  unfold AgeLe Listed.age at hle
  unfold Listed.Before
  simp only at hle
  omega

theorem trim_of_le {m : PeerTable} {limit : Nat} (h : m.size ≤ limit) : trim m limit = (m, []) :=
  if_pos h

/-- With one entry too many, the one that goes first is evicted. -/
theorem trim_of_gt {m : PeerTable} {limit : Nat} (hm : Filed m) (h : m.size = limit + 1) :
    ∃ a l, m.get a = some l ∧ (∀ a' l', m.get a' = some l' → a' ≠ a → l.Before l') ∧
      trim m limit = (m.del a, [l.record]) := by
  set ages := m.rows.map fun row => row.2.age with hages
  have hperm : (ages.insertionSort AgeLe).Perm ages := List.perm_insertionSort _ _
  have hsorted : (ages.insertionSort AgeLe).Pairwise AgeLe := List.pairwise_insertionSort _ _
  have hlen : (ages.insertionSort AgeLe).length = limit + 1 := by
    rw [hperm.length_eq, hages, List.length_map]
    exact h
  obtain ⟨first, rest, hcons⟩ := List.exists_cons_of_length_eq_add_one hlen
  have hfirst : first ∈ ages := hperm.mem_iff.mp (hcons ▸ List.mem_cons_self)
  obtain ⟨⟨a, l⟩, hrow, rfl⟩ := List.mem_map.mp hfirst
  have hget : m.get a = some l := (m.mem_iff a l).mp hrow
  refine ⟨a, l, hget, fun a' l' hget' hne => hm.before hget hget' hne ?_, ?_⟩
  · have hmem : l'.age ∈ ages.insertionSort AgeLe :=
      hperm.mem_iff.mpr (List.mem_map.mpr ⟨(a', l'), (m.mem_iff a' l').mpr hget', rfl⟩)
    rw [hcons] at hmem hsorted
    rcases List.mem_cons.mp hmem with heq | hrest
    · rw [heq]
      exact (Std.Total.total (r := AgeLe) l.age l.age).elim id id
    · exact (List.pairwise_cons.mp hsorted).1 _ hrest
  · have hone : m.size - limit = 1 := by omega
    have haddr : l.record.addr = a := hm.keyed a l hget
    unfold trim
    rw [if_neg (by omega), hone]
    show removeAll ((ages.insertionSort AgeLe).take 1) m = _
    rw [hcons]
    show removeAll [(_, _, l.record.addr)] m = _
    rw [haddr, removeAll, hget]
    rfl

/-! ### One list -/

/-- A list within its limit, of addresses that may be listed, the latest of which arrived no later
than `n`. -/
structure Kept (allowLocal : Bool) (limit n : Nat) (m : PeerTable) : Prop extends Filed m where
  fits : m.size ≤ limit
  listable : ∀ a l, m.get a = some l → AddressBook.isListable allowLocal a = true
  arrived : ∀ a l, m.get a = some l → l.seq ≤ n

section

variable {allowLocal : Bool} {limit n : Nat} {m : PeerTable}

theorem kept_empty : Kept allowLocal limit n .empty where
  keyed _ _ h := by cases h
  apart _ _ _ _ h := by cases h
  fits := Nat.zero_le _
  listable _ _ h := by cases h
  arrived _ _ h := by cases h

theorem Kept.later (h : Kept allowLocal limit n m) {n' : Nat} (hn : n ≤ n') :
    Kept allowLocal limit n' m :=
  { h with arrived := fun a l hl => Nat.le_trans (h.arrived a l hl) hn }

/-- A list of some of the entries. -/
theorem Kept.sub (h : Kept allowLocal limit n m) {m' : PeerTable} (hsize : m'.size ≤ limit)
    (hsub : ∀ a l, m'.get a = some l → m.get a = some l) : Kept allowLocal limit n m' where
  keyed a l hl := h.keyed a l (hsub a l hl)
  apart a l a' l' hl hl' := h.apart a l a' l' (hsub a l hl) (hsub a' l' hl')
  fits := hsize
  listable a l hl := h.listable a l (hsub a l hl)
  arrived a l hl := h.arrived a l (hsub a l hl)

theorem size_del_le (m : PeerTable) (a : SocketAddr) : (m.del a).size ≤ m.size := by
  cases hget : m.get a with
  | none => rw [Table.del_of_get_none hget]
  | some l =>
      have hsize := Table.size_del_of_get hget
      omega

theorem get_of_get_del {m : PeerTable} {a a' : SocketAddr} {l : Listed}
    (h : (m.del a).get a' = some l) : a' ≠ a ∧ m.get a' = some l := by
  rw [Table.get_del] at h
  split at h
  case isTrue => cases h
  case isFalse hne => exact ⟨hne, h⟩

theorem Kept.del (h : Kept allowLocal limit n m) (a : SocketAddr) :
    Kept allowLocal limit n (m.del a) :=
  h.sub (Nat.le_trans (size_del_le m a) h.fits) fun _ _ hl => (get_of_get_del hl).2

theorem Kept.retain (h : Kept allowLocal limit n m) (p : SocketAddr → Listed → Bool) :
    Kept allowLocal limit n (m.retain p) := by
  refine h.sub (Nat.le_trans (m.size_retain_le p) h.fits) fun a l hl => ?_
  rw [Table.get_retain, Option.filter_eq_some_iff] at hl
  exact hl.1

theorem size_put_of_get {m : PeerTable} {a : SocketAddr} {l : Listed} (h : m.get a = some l)
    (l' : Listed) : (m.put a l').size = m.size := by
  have hput := Table.size_del_of_get (Table.get_put_self m a l')
  have hdel := Table.size_del_of_get h
  have heq : (m.put a l').del a = m.del a := by
    refine Table.ext fun k => ?_
    rw [Table.get_del, Table.get_del, Table.get_put]
    split <;> rfl
  rw [heq] at hput
  omega

/-- An entry changed in place. -/
theorem Kept.update (h : Kept allowLocal limit n m) {a : SocketAddr} {l : Listed} (hl : m.get a = some l)
    {r : PeerRecord} (hr : r.addr = a) : Kept allowLocal limit n (m.put a ⟨r, l.seq⟩) := by
  have hcases : ∀ a' l', (m.put a ⟨r, l.seq⟩).get a' = some l' →
      ∃ old, m.get a' = some old ∧ old.seq = l'.seq ∧ l'.record.addr = a' := by
    intro a' l' hl'
    rw [Table.get_put] at hl'
    split at hl'
    case isTrue heq =>
      cases hl'
      exact ⟨l, heq ▸ hl, rfl, hr.trans heq.symm⟩
    case isFalse => exact ⟨l', hl', rfl, h.keyed a' l' hl'⟩
  constructor
  · constructor
    · intro a' l' hl'
      obtain ⟨-, -, -, haddr⟩ := hcases a' l' hl'
      exact haddr
    · intro a' l' a'' l'' hl' hl'' heq
      obtain ⟨old, hold, hseq, -⟩ := hcases a' l' hl'
      obtain ⟨old', hold', hseq', -⟩ := hcases a'' l'' hl''
      exact h.apart a' old a'' old' hold hold' (by rw [hseq, hseq', heq])
  · rw [size_put_of_get hl]
    exact h.fits
  · intro a' l' hl'
    obtain ⟨old, hold, -, -⟩ := hcases a' l' hl'
    exact h.listable a' old hold
  · intro a' l' hl'
    obtain ⟨old, hold, hseq, -⟩ := hcases a' l' hl'
    exact hseq ▸ h.arrived a' old hold

/-- A new entry, before the list is trimmed. -/
theorem Kept.arrive (h : Kept allowLocal limit n m) {r : PeerRecord} (hnone : m.get r.addr = none)
    (hlistable : AddressBook.isListable allowLocal r.addr = true) :
    Kept allowLocal (limit + 1) (n + 1) (m.put r.addr ⟨r, n + 1⟩) := by
  have hcases : ∀ a l, (m.put r.addr ⟨r, n + 1⟩).get a = some l →
      a = r.addr ∧ l = ⟨r, n + 1⟩ ∨ m.get a = some l := by
    intro a l hl
    rw [Table.get_put] at hl
    split at hl
    case isTrue heq => exact .inl ⟨heq, (Option.some.inj hl).symm⟩
    case isFalse => exact .inr hl
  constructor
  · constructor
    · intro a l hl
      rcases hcases a l hl with ⟨rfl, rfl⟩ | hold
      · rfl
      · exact h.keyed a l hold
    · intro a l a' l' hl hl' heq
      rcases hcases a l hl with ⟨rfl, rfl⟩ | hold
      · rcases hcases a' l' hl' with ⟨rfl, rfl⟩ | hold'
        · rfl
        · have hlate := h.arrived a' l' hold'
          rw [← heq] at hlate
          exact absurd hlate (Nat.not_succ_le_self n)
      · rcases hcases a' l' hl' with ⟨rfl, rfl⟩ | hold'
        · have hlate := h.arrived a l hold
          rw [heq] at hlate
          exact absurd hlate (Nat.not_succ_le_self n)
        · exact h.apart a l a' l' hold hold' heq
  · rw [Table.size_put_of_get_none hnone]
    exact Nat.succ_le_succ h.fits
  · intro a l hl
    rcases hcases a l hl with ⟨rfl, -⟩ | hold
    · exact hlistable
    · exact h.listable a l hold
  · intro a l hl
    rcases hcases a l hl with ⟨-, rfl⟩ | hold
    · exact Nat.le_refl _
    · exact Nat.le_succ_of_le (h.arrived a l hold)

/-- What becomes of a list that an entry is added to: there is room for it, or the one that goes
first goes. -/
theorem Kept.admit (h : Kept allowLocal limit n m) {r : PeerRecord} (hnone : m.get r.addr = none)
    (hlistable : AddressBook.isListable allowLocal r.addr = true) :
    m.size < limit ∧ trim (m.put r.addr ⟨r, n + 1⟩) limit = (m.put r.addr ⟨r, n + 1⟩, []) ∨
    m.size = limit ∧ ∃ a l, (m.put r.addr ⟨r, n + 1⟩).get a = some l ∧
      (∀ a' l', (m.put r.addr ⟨r, n + 1⟩).get a' = some l' → a' ≠ a → l.Before l') ∧
      trim (m.put r.addr ⟨r, n + 1⟩) limit = ((m.put r.addr ⟨r, n + 1⟩).del a, [l.record]) := by
  have hsize : (m.put r.addr ⟨r, n + 1⟩).size = m.size + 1 := Table.size_put_of_get_none hnone _
  rcases Nat.lt_or_ge m.size limit with hlt | hge
  · exact .inl ⟨hlt, trim_of_le (by rw [hsize]; exact hlt)⟩
  · have hfull : m.size = limit := Nat.le_antisymm h.fits hge
    have hfiled := (h.arrive hnone hlistable).toFiled
    exact .inr ⟨hfull, trim_of_gt hfiled (by rw [hsize, hfull])⟩

theorem Kept.trimmed (h : Kept allowLocal limit n m) {r : PeerRecord} (hnone : m.get r.addr = none)
    (hlistable : AddressBook.isListable allowLocal r.addr = true) :
    Kept allowLocal limit (n + 1) (trim (m.put r.addr ⟨r, n + 1⟩) limit).1 := by
  have hsize : (m.put r.addr ⟨r, n + 1⟩).size = m.size + 1 := Table.size_put_of_get_none hnone _
  have harrived := h.arrive hnone hlistable
  rcases h.admit hnone hlistable with ⟨hroom, htrim⟩ | ⟨hfull, a, l, hget, -, htrim⟩
  · rw [htrim]
    exact { harrived with fits := by rw [hsize]; exact hroom }
  · have hdel := Table.size_del_of_get hget
    have hfits : ((m.put r.addr ⟨r, n + 1⟩).del a).size ≤ limit := by omega
    rw [htrim]
    exact { harrived.del a with fits := hfits }

end

/-! ### The book -/

namespace AddressBook

/-- What holds of a book at all times. -/
structure Sound (b : AddressBook) : Prop where
  white : Kept b.allowLocal whiteLimit b.nextSeq b.white
  gray : Kept b.allowLocal grayLimit b.nextSeq b.gray
  disjoint : ∀ a l, b.white.get a = some l → b.gray.get a = none
  oneEach : ∀ a l a' l', b.white.get a = some l → b.white.get a' = some l' →
    sameHost a a' = true → a = a'
  anchors : ∀ a r, b.anchors.get a = some r →
    r.addr = a ∧ isListable b.allowLocal a = true

theorem sound_new (allowLocal : Bool) : (new allowLocal).Sound where
  white := kept_empty
  gray := kept_empty
  disjoint _ _ h := by cases h
  oneEach _ _ _ _ h := by cases h
  anchors _ _ h := by cases h

/-- What adding to the gray list does. -/
inductive AddsGray (b : AddressBook) (rec : PeerRecord) : AddressBook → Prop where
  | ignored : AddsGray b rec b
  | updated (l : Listed) (hget : b.gray.get rec.addr = some l) :
      AddsGray b rec
        { b with gray := b.gray.put rec.addr ⟨rec.replacing l.record false, l.seq⟩ }
  | listed (hnone : b.gray.get rec.addr = none) (hroom : b.gray.size < grayLimit) :
      AddsGray b rec
        { b with gray := b.gray.put rec.addr ⟨rec, b.nextSeq + 1⟩, nextSeq := b.nextSeq + 1 }
  | evicting (hnone : b.gray.get rec.addr = none) (hfull : b.gray.size = grayLimit)
      (a : SocketAddr) (l : Listed)
      (hget : (b.gray.put rec.addr ⟨rec, b.nextSeq + 1⟩).get a = some l)
      (hfirst : ∀ a' l', (b.gray.put rec.addr ⟨rec, b.nextSeq + 1⟩).get a' = some l' →
        a' ≠ a → l.Before l') :
      AddsGray b rec
        ⟨b.white, (b.gray.put rec.addr ⟨rec, b.nextSeq + 1⟩).del a, b.anchors, b.bans, b.fails,
          b.failedHosts, b.nextSeq + 1, b.allowLocal⟩

theorem addGray_cases {b : AddressBook} (hgray : Kept b.allowLocal grayLimit b.nextSeq b.gray)
    (rec : PeerRecord) : AddsGray b rec (b.addGray rec) := by
  unfold addGray
  split
  case isTrue => exact .ignored
  case isFalse hok =>
    have hlistable : isListable b.allowLocal rec.addr = true := by
      cases h : isListable b.allowLocal rec.addr with
      | true => rfl
      | false => exact absurd (by rw [h]; rfl) hok
    split
    case h_1 existing hget => exact .updated existing hget
    case h_2 hnone =>
      rcases hgray.admit hnone hlistable with ⟨hroom, htrim⟩ | ⟨hfull, a, l, hget, hfirst, htrim⟩
      · simp only [htrim]
        exact .listed hnone hroom
      · simp only [htrim]
        exact .evicting hnone hfull a l hget hfirst

/-- The rest of the book is left alone. -/
theorem addGray_rest (b : AddressBook) (rec : PeerRecord) :
    (b.addGray rec).white = b.white ∧ (b.addGray rec).anchors = b.anchors ∧
      (b.addGray rec).allowLocal = b.allowLocal ∧ b.nextSeq ≤ (b.addGray rec).nextSeq := by
  unfold addGray
  split
  · exact ⟨rfl, rfl, rfl, Nat.le_refl _⟩
  · split
    · exact ⟨rfl, rfl, rfl, Nat.le_refl _⟩
    · exact ⟨rfl, rfl, rfl, Nat.le_succ _⟩

theorem kept_addGray {b : AddressBook} (hgray : Kept b.allowLocal grayLimit b.nextSeq b.gray)
    (rec : PeerRecord) :
    Kept b.allowLocal grayLimit (b.addGray rec).nextSeq (b.addGray rec).gray ∧
      ∀ a l, (b.addGray rec).gray.get a = some l →
        (b.gray.get a).isSome ∨ a = rec.addr ∧ b.white.get a = none := by
  unfold addGray
  split
  case isTrue => exact ⟨hgray, fun a l hl => .inl (by rw [hl]; rfl)⟩
  case isFalse hok =>
    have hboth : isListable b.allowLocal rec.addr = true ∧ b.white.get rec.addr = none := by
      cases h : isListable b.allowLocal rec.addr with
      | true =>
          refine ⟨rfl, ?_⟩
          cases hwhite : b.white.get rec.addr with
          | none => rfl
          | some l => exact absurd (by rw [h, Table.has_eq, hwhite]; rfl) hok
      | false => exact absurd (by rw [h]; rfl) hok
    obtain ⟨hlistable, hwhite⟩ := hboth
    split
    case h_1 existing hget =>
      refine ⟨hgray.update hget rfl, fun a l hl => ?_⟩
      simp only [Table.get_put] at hl
      split at hl
      case isTrue heq => exact .inr ⟨heq, heq ▸ hwhite⟩
      case isFalse => exact .inl (by rw [hl]; rfl)
    case h_2 hnone =>
      refine ⟨hgray.trimmed hnone hlistable, fun a l hl => ?_⟩
      have hput : (b.gray.put rec.addr ⟨rec, b.nextSeq + 1⟩).get a = some l := by
        rcases hgray.admit hnone hlistable with ⟨-, htrim⟩ | ⟨-, a', l', -, -, htrim⟩
        · simp only [htrim] at hl
          exact hl
        · simp only [htrim] at hl
          exact (get_of_get_del hl).2
      rw [Table.get_put] at hput
      split at hput
      case isTrue heq => exact .inr ⟨heq, heq ▸ hwhite⟩
      case isFalse => exact .inl (by rw [hput]; rfl)

theorem Sound.addGray {b : AddressBook} (h : b.Sound) (rec : PeerRecord) :
    (b.addGray rec).Sound := by
  obtain ⟨hwhite, hanchors, hlocal, hlater⟩ := addGray_rest b rec
  obtain ⟨hgray, hfrom⟩ := kept_addGray h.gray rec
  constructor
  · rw [hwhite, hlocal]
    exact h.white.later hlater
  · rw [hlocal]
    exact hgray
  · intro a l hl
    rw [hwhite] at hl
    cases hget : (b.addGray rec).gray.get a with
    | none => rfl
    | some l' =>
        rcases hfrom a l' hget with hold | ⟨-, hnone⟩
        · rw [h.disjoint a l hl] at hold
          cases hold
        · rw [hnone] at hl
          cases hl
  · rw [hwhite]
    exact h.oneEach
  · rw [hanchors, hlocal]
    exact h.anchors

theorem Sound.foldl_addGray {b : AddressBook} (h : b.Sound) (recs : List PeerRecord) :
    (recs.foldl AddressBook.addGray b).Sound := by
  induction recs generalizing b with
  | nil => exact h
  | cons rec recs ih => exact ih (h.addGray rec)

theorem sameHost_comm (a a' : SocketAddr) : sameHost a a' = sameHost a' a := by
  unfold sameHost
  by_cases h : a.ip = a'.ip
  · rw [h]
  · rw [decide_eq_false h, decide_eq_false (Ne.symm h)]
    rfl

/-- What adding to the white list does: to a book that is sound, of addresses that were there or
come now, what was evicted is added to the gray list. -/
theorem addWhite_spec {b : AddressBook} (h : b.Sound) (rec : PeerRecord) (trustLastSeen : Bool) :
    ∃ (b₁ : AddressBook) (evicted : List PeerRecord),
      b.addWhite rec trustLastSeen = evicted.foldl AddressBook.addGray b₁ ∧ b₁.Sound ∧
      (∀ a l, b₁.white.get a = some l → a = rec.addr ∨ (b.white.get a).isSome) ∧
      (∀ a l, b₁.gray.get a = some l → (b.gray.get a).isSome) ∧ b₁.anchors = b.anchors ∧
      ∀ r ∈ evicted, r.addr = rec.addr ∨ (b.white.get r.addr).isSome := by
  unfold AddressBook.addWhite
  split
  case isTrue =>
    exact ⟨b, [], rfl, h, fun a l hl => .inr (by rw [hl]; rfl), fun a l hl => by rw [hl]; rfl, rfl,
      fun r hr => absurd hr List.not_mem_nil⟩
  case isFalse hok =>
    have hlistable : isListable b.allowLocal rec.addr = true := by
      cases hl : isListable b.allowLocal rec.addr with
      | true => rfl
      | false => exact absurd (by rw [hl]; rfl) hok
    have hgrayFrom : ∀ a l, (b.gray.del rec.addr).get a = some l → (b.gray.get a).isSome := by
      intro a l hl
      rw [(get_of_get_del hl).2]
      rfl
    have hgrayNone : ∀ a, (∀ l, b.white.get a = some l → b.gray.get a = none) →
        (a = rec.addr ∨ ∃ l, b.white.get a = some l) → (b.gray.del rec.addr).get a = none := by
      rintro a hdisjoint hthere
      rw [Table.get_del]
      split
      case isTrue => rfl
      case isFalse hne =>
        obtain ⟨l, hl⟩ := hthere.resolve_left hne
        exact hdisjoint l hl
    simp only
    split
    case h_1 existing hget =>
      have hfrom : ∀ a l, (b.white.put rec.addr
          ⟨rec.replacing existing.record trustLastSeen, existing.seq⟩).get a = some l →
          ∃ old, b.white.get a = some old := by
        intro a l hl
        rw [Table.get_put] at hl
        split at hl
        case isTrue heq => exact ⟨existing, heq ▸ hget⟩
        case isFalse => exact ⟨l, hl⟩
      refine ⟨_, [], rfl, ⟨h.white.update hget rfl, h.gray.del rec.addr, ?_, ?_, h.anchors⟩, ?_,
        hgrayFrom, rfl, fun r hr => absurd hr List.not_mem_nil⟩
      · exact fun a l hl => hgrayNone a (h.disjoint a) (.inr (hfrom a l hl))
      · intro a l a' l' hl hl' hsame
        obtain ⟨old, hold⟩ := hfrom a l hl
        obtain ⟨old', hold'⟩ := hfrom a' l' hl'
        exact h.oneEach a old a' old' hold hold' hsame
      · intro a l hl
        obtain ⟨old, hold⟩ := hfrom a l hl
        rw [hold]
        exact .inr rfl
    case h_2 hnone =>
      set others := b.white.retain fun a _ => !sameHost a rec.addr with hothers
      have hkept : Kept b.allowLocal whiteLimit b.nextSeq others := h.white.retain _
      have hget : ∀ a l, others.get a = some l →
          b.white.get a = some l ∧ sameHost a rec.addr = false := by
        intro a l hl
        rw [hothers, Table.get_retain, Option.filter_eq_some_iff] at hl
        exact ⟨hl.1, by simpa using hl.2⟩
      have hnew : others.get rec.addr = none := by
        cases hl : others.get rec.addr with
        | none => rfl
        | some l =>
            have hold := (hget _ l hl).1
            rw [hnone] at hold
            cases hold
      have hput : ∀ a l, (others.put rec.addr ⟨rec, b.nextSeq + 1⟩).get a = some l →
          a = rec.addr ∨ b.white.get a = some l ∧ sameHost a rec.addr = false := by
        intro a l hl
        rw [Table.get_put] at hl
        split at hl
        case isTrue heq => exact .inl heq
        case isFalse => exact .inr (hget a l hl)
      have hthere : ∀ a l, (others.put rec.addr ⟨rec, b.nextSeq + 1⟩).get a = some l →
          a = rec.addr ∨ (b.white.get a).isSome := fun a l hl =>
        (hput a l hl).imp_right fun hold => by rw [hold.1]; rfl
      have htrim : ∀ a l,
          (trim (others.put rec.addr ⟨rec, b.nextSeq + 1⟩) whiteLimit).1.get a = some l →
          (others.put rec.addr ⟨rec, b.nextSeq + 1⟩).get a = some l := by
        intro a l hl
        rcases hkept.admit hnew hlistable with ⟨-, htrim⟩ | ⟨-, a', l', -, -, htrim⟩
        · rwa [htrim] at hl
        · rw [htrim] at hl
          exact (get_of_get_del hl).2
      have hevicted : ∀ r ∈ (trim (others.put rec.addr ⟨rec, b.nextSeq + 1⟩) whiteLimit).2,
          r.addr = rec.addr ∨ (b.white.get r.addr).isSome := by
        intro r hr
        rcases hkept.admit hnew hlistable with ⟨-, htrim⟩ | ⟨-, a', l', hl', -, htrim⟩
        · rw [htrim] at hr
          cases hr
        · rw [htrim] at hr
          rw [List.mem_singleton.mp hr, (hkept.arrive hnew hlistable).keyed a' l' hl']
          exact hthere a' l' hl'
      refine ⟨_, _, rfl, ⟨hkept.trimmed hnew hlistable, (h.gray.del rec.addr).later (Nat.le_succ _),
        ?_, ?_, h.anchors⟩, fun a l hl => hthere a l (htrim a l hl), hgrayFrom, rfl, hevicted⟩
      · intro a l hl
        refine hgrayNone a (h.disjoint a) ?_
        exact (hput a l (htrim a l hl)).imp_right fun hold => ⟨l, hold.1⟩
      · intro a l a' l' hl hl' hsame
        rcases hput a l (htrim a l hl) with rfl | ⟨hold, hother⟩
        · rcases hput a' l' (htrim a' l' hl') with rfl | ⟨hold', hother'⟩
          · rfl
          · rw [sameHost_comm, hother'] at hsame
            cases hsame
        · rcases hput a' l' (htrim a' l' hl') with rfl | ⟨hold', -⟩
          · rw [hother] at hsame
            cases hsame
          · exact h.oneEach a l a' l' hold hold' hsame

theorem Sound.addWhite {b : AddressBook} (h : b.Sound) (rec : PeerRecord) (trustLastSeen : Bool) :
    (b.addWhite rec trustLastSeen).Sound := by
  obtain ⟨b₁, evicted, heq, hsound, -⟩ := addWhite_spec h rec trustLastSeen
  rw [heq]
  exact hsound.foldl_addGray evicted

/-! ### What a peer's list may do -/

/-- An entry of this time and arrival goes before all that are there, and there is no room. -/
def Gone (b : AddressBook) (lastSeen : Int) (seq : Nat) : Prop :=
  b.gray.size = grayLimit ∧ ∀ a l, b.gray.get a = some l →
    lastSeen < l.record.lastSeen.toInt ∨ lastSeen = l.record.lastSeen.toInt ∧ seq < l.seq

/-- What a book is like that only heard of addresses: nobody's `last_seen` has moved, what arrived
has a `last_seen` of zero, and what is not there any more went before all that is. -/
structure Heard (b b' : AddressBook) : Prop where
  white : b'.white = b.white
  later : b.nextSeq ≤ b'.nextSeq
  stays : ∀ a l, b.gray.get a = some l →
    (∃ l', b'.gray.get a = some l' ∧ l'.seq = l.seq) ∨
      b'.Gone l.record.lastSeen.toInt l.seq
  arrives : ∀ n, b.nextSeq < n → n ≤ b'.nextSeq →
    (∃ a l', b'.gray.get a = some l' ∧ l'.seq = n) ∨ b'.Gone 0 n
  origin : ∀ a l', b'.gray.get a = some l' →
    (∃ l, b.gray.get a = some l ∧ l'.seq = l.seq ∧
      l'.record.lastSeen = l.record.lastSeen) ∨
    b.nextSeq < l'.seq ∧ l'.record.lastSeen = 0
  lasting : ∀ t n, n ≤ b.nextSeq → b.Gone t n → b'.Gone t n

theorem heard_refl (b : AddressBook) : Heard b b where
  white := rfl
  later := Nat.le_refl _
  stays _ l hl := .inl ⟨l, hl, rfl⟩
  arrives _ hlt hle := absurd hle (Nat.not_le.mpr hlt)
  origin _ l' hl' := .inl ⟨l', hl', rfl, rfl⟩
  lasting _ _ _ h := h

theorem Heard.trans {b b' b'' : AddressBook} (hb : ∀ a l, b.gray.get a = some l → l.seq ≤ b.nextSeq)
    (h : Heard b b') (h' : Heard b' b'') : Heard b b'' := by
  refine ⟨h'.white.trans h.white, Nat.le_trans h.later h'.later, ?_, ?_, ?_, ?_⟩
  · intro a l hl
    rcases h.stays a l hl with ⟨l', hl', hseq⟩ | hwent
    · rcases h'.stays a l' hl' with ⟨l'', hl'', hseq'⟩ | hgoes
      · exact .inl ⟨l'', hl'', hseq'.trans hseq⟩
      · rcases h.origin a l' hl' with ⟨l₀, hl₀, -, hseen⟩ | ⟨hnew, -⟩
        · rw [hl] at hl₀
          rw [← Option.some.inj hl₀] at hseen
          rw [hseen, hseq] at hgoes
          exact .inr hgoes
        · rw [hseq] at hnew
          exact absurd (hb a l hl) (Nat.not_le.mpr hnew)
    · exact .inr (h'.lasting _ _ (Nat.le_trans (hb a l hl) h.later) hwent)
  · intro n hlt hle
    rcases Nat.lt_or_ge b'.nextSeq n with hlate | hearly
    · exact h'.arrives n hlate hle
    · rcases h.arrives n hlt hearly with ⟨a, l', hl', hseq⟩ | hwent
      · rcases h'.stays a l' hl' with ⟨l'', hl'', hseq'⟩ | hgoes
        · exact .inl ⟨a, l'', hl'', hseq'.trans hseq⟩
        · rcases h.origin a l' hl' with ⟨l₀, hl₀, hseq₀, -⟩ | ⟨-, hseen⟩
          · have hold := hb a l₀ hl₀
            omega
          · rw [hseen, hseq] at hgoes
            exact .inr hgoes
      · exact .inr (h'.lasting _ _ hearly hwent)
  · intro a l'' hl''
    rcases h'.origin a l'' hl'' with ⟨l', hl', hseq, hseen⟩ | ⟨hnew, hseen⟩
    · rcases h.origin a l' hl' with ⟨l, hl, hseq', hseen'⟩ | ⟨hnew, hseen'⟩
      · exact .inl ⟨l, hl, hseq.trans hseq', hseen.trans hseen'⟩
      · exact .inr ⟨hseq ▸ hnew, hseen.trans hseen'⟩
    · exact .inr ⟨Nat.lt_of_le_of_lt h.later hnew, hseen⟩
  · intro t n hn hwent
    exact h'.lasting t n (Nat.le_trans hn h.later) (h.lasting t n hn hwent)

/-- An entry that was new and is evicted at once, or one that was there and makes room for it. -/
theorem AddsGray.lasting {b b' : AddressBook} {rec : PeerRecord} {t : Int} {n : Nat}
    (hgray : Kept b.allowLocal grayLimit b.nextSeq b.gray) (hn : n ≤ b.nextSeq)
    (hadds : AddsGray b rec b') (h : b.Gone t n) : b'.Gone t n := by
  obtain ⟨hfull, hlast⟩ := h
  cases hadds with
  | ignored => exact ⟨hfull, hlast⟩
  | updated l hget =>
      refine ⟨(size_put_of_get hget _).trans hfull, fun a l' hl' => ?_⟩
      simp only [Table.get_put] at hl'
      split at hl'
      case isTrue heq =>
        rw [← Option.some.inj hl']
        exact hlast _ l hget
      case isFalse => exact hlast a l' hl'
  | listed hnone hroom => exact absurd hfull (Nat.ne_of_lt hroom)
  | evicting hnone _ a l hget hfirst =>
      have hdel := Table.size_del_of_get hget
      have hput := Table.size_put_of_get_none hnone ⟨rec, b.nextSeq + 1⟩
      have hsize : ((b.gray.put rec.addr ⟨rec, b.nextSeq + 1⟩).del a).size = grayLimit := by omega
      refine ⟨hsize, fun a' l' hl' => ?_⟩
      obtain ⟨hne, hl'⟩ := get_of_get_del hl'
      have hbefore := hfirst a' l' hl' hne
      rw [Table.get_put] at hl' hget
      split at hl'
      case isFalse => exact hlast a' l' hl'
      case isTrue heq =>
        -- The entry is the new one, so that the one that went had been there before.
        rw [if_neg (fun ha => hne (heq.trans ha.symm))] at hget
        have hold := hlast a l hget
        have harrived := hgray.arrived a l hget
        rw [← Option.some.inj hl'] at hbefore ⊢
        unfold Listed.Before at hbefore
        simp only at hbefore ⊢
        omega

section

variable {b b' : AddressBook} {rec : PeerRecord}

/-- Without the entry that goes first there is no more than there is room for, and all of it goes
later. -/
theorem gone_of_evicted {l : Listed} {a : SocketAddr} (hnone : b.gray.get rec.addr = none)
    (hfull : b.gray.size = grayLimit)
    (hget : (b.gray.put rec.addr ⟨rec, b.nextSeq + 1⟩).get a = some l)
    (hfirst : ∀ a' l', (b.gray.put rec.addr ⟨rec, b.nextSeq + 1⟩).get a' = some l' →
      a' ≠ a → l.Before l')
    (hb' : b'.gray = (b.gray.put rec.addr ⟨rec, b.nextSeq + 1⟩).del a) :
    b'.Gone l.record.lastSeen.toInt l.seq := by
  have hdel := Table.size_del_of_get hget
  have hput := Table.size_put_of_get_none hnone ⟨rec, b.nextSeq + 1⟩
  refine ⟨by rw [hb']; omega, fun a' l' hl' => ?_⟩
  rw [hb'] at hl'
  obtain ⟨hne, hl'⟩ := get_of_get_del hl'
  exact hfirst a' l' hl' hne

theorem AddsGray.stays (h : AddsGray b rec b') {a : SocketAddr} {l : Listed}
    (hl : b.gray.get a = some l) :
    (∃ l', b'.gray.get a = some l' ∧ l'.seq = l.seq) ∨
      b'.Gone l.record.lastSeen.toInt l.seq := by
  have hother : b.gray.get rec.addr = none → a ≠ rec.addr := by
    rintro hnone rfl
    rw [hnone] at hl
    cases hl
  cases h with
  | ignored => exact .inl ⟨l, hl, rfl⟩
  | updated old hget =>
      refine .inl ?_
      simp only [Table.get_put]
      split
      case isTrue heq =>
        rw [heq, hget] at hl
        exact ⟨_, rfl, by rw [← Option.some.inj hl]⟩
      case isFalse => exact ⟨l, hl, rfl⟩
  | listed hnone hroom =>
      refine .inl ⟨l, ?_, rfl⟩
      simp only [Table.get_put, if_neg (hother hnone), hl]
  | evicting hnone hfull a' l' hget hfirst =>
      have hput : (b.gray.put rec.addr ⟨rec, b.nextSeq + 1⟩).get a = some l := by
        rw [Table.get_put, if_neg (hother hnone), hl]
      by_cases heq : a = a'
      · have hgone := @gone_of_evicted b ⟨b.white,
          (b.gray.put rec.addr ⟨rec, b.nextSeq + 1⟩).del a', b.anchors, b.bans, b.fails,
          b.failedHosts, b.nextSeq + 1, b.allowLocal⟩ rec _ _ hnone hfull hget hfirst rfl
        rw [← heq, hput] at hget
        rw [Option.some.inj hget]
        exact .inr hgone
      · refine .inl ⟨l, ?_, rfl⟩
        simp only [Table.get_del, if_neg heq, hput]

theorem AddsGray.origin (h : AddsGray b rec b') {a : SocketAddr} {l' : Listed}
    (hl' : b'.gray.get a = some l') :
    (∃ l, b.gray.get a = some l ∧ l'.seq = l.seq ∧ l'.record.lastSeen = l.record.lastSeen) ∨
      l' = ⟨rec, b.nextSeq + 1⟩ := by
  have hput : (b.gray.put rec.addr ⟨rec, b.nextSeq + 1⟩).get a = some l' →
      b.gray.get a = some l' ∨ l' = ⟨rec, b.nextSeq + 1⟩ := by
    intro hput
    rw [Table.get_put] at hput
    split at hput
    case isTrue => exact .inr (Option.some.inj hput).symm
    case isFalse => exact .inl hput
  cases h with
  | ignored => exact .inl ⟨l', hl', rfl, rfl⟩
  | updated old hget =>
      simp only [Table.get_put] at hl'
      split at hl'
      case isTrue heq =>
        rw [← Option.some.inj hl']
        exact .inl ⟨old, heq ▸ hget, rfl, rfl⟩
      case isFalse => exact .inl ⟨l', hl', rfl, rfl⟩
  | listed hnone hroom => exact (hput hl').imp_left fun hold => ⟨l', hold, rfl, rfl⟩
  | evicting hnone hfull a' l hget hfirst =>
      exact (hput (get_of_get_del hl').2).imp_left fun hold => ⟨l', hold, rfl, rfl⟩

theorem AddsGray.arrives (h : AddsGray b rec b') (hzero : rec.lastSeen = 0) {n : Nat}
    (hlt : b.nextSeq < n) (hle : n ≤ b'.nextSeq) :
    (∃ a l', b'.gray.get a = some l' ∧ l'.seq = n) ∨ b'.Gone 0 n := by
  cases h with
  | ignored => exact absurd hle (Nat.not_le.mpr hlt)
  | updated old hget => exact absurd hle (Nat.not_le.mpr hlt)
  | listed hnone hroom =>
      have hn : n = b.nextSeq + 1 := Nat.le_antisymm hle hlt
      exact .inl ⟨rec.addr, ⟨rec, b.nextSeq + 1⟩, by simp only [Table.get_put_self], hn.symm⟩
  | evicting hnone hfull a' l' hget hfirst =>
      have hn : n = b.nextSeq + 1 := Nat.le_antisymm hle hlt
      by_cases heq : rec.addr = a'
      · have hgone := @gone_of_evicted b ⟨b.white,
          (b.gray.put rec.addr ⟨rec, b.nextSeq + 1⟩).del a', b.anchors, b.bans, b.fails,
          b.failedHosts, b.nextSeq + 1, b.allowLocal⟩ rec _ _ hnone hfull hget hfirst rfl
        have htoInt : rec.lastSeen.toInt = 0 := by rw [hzero]; rfl
        rw [← heq, Table.get_put_self] at hget
        rw [← Option.some.inj hget, htoInt] at hgone
        rw [hn]
        exact .inr hgone
      · refine .inl ⟨rec.addr, ⟨rec, b.nextSeq + 1⟩, ?_, hn.symm⟩
        simp only [Table.get_del, if_neg heq, Table.get_put_self]

/-- One address is heard of. -/
theorem AddsGray.heard (hgray : Kept b.allowLocal grayLimit b.nextSeq b.gray)
    (hzero : rec.lastSeen = 0) (h : AddsGray b rec b') : Heard b b' := by
  have hrest : b'.white = b.white ∧ b.nextSeq ≤ b'.nextSeq := by
    cases h with
    | ignored => exact ⟨rfl, Nat.le_refl _⟩
    | updated old hget => exact ⟨rfl, Nat.le_refl _⟩
    | listed hnone hroom => exact ⟨rfl, Nat.le_succ _⟩
    | evicting hnone hfull a' l' hget hfirst => exact ⟨rfl, Nat.le_succ _⟩
  refine ⟨hrest.1, hrest.2, fun _ _ => h.stays, fun _ => h.arrives hzero, ?_,
    fun _ _ hn => AddsGray.lasting hgray hn h⟩
  intro a l' hl'
  rcases h.origin hl' with hold | rfl
  · exact .inl hold
  · exact .inr ⟨Nat.lt_succ_self _, hzero⟩

end

/-- An entry of a list a peer sent is not taken, or is added with a `last_seen` of zero to a book
of which only the bans may be fewer. -/
theorem mergeEntry_cases (now : Nat) (b : AddressBook) (e : PeerlistEntry) :
    ∃ bans, mergeEntry now b e = { b with bans := bans } ∨
      ∃ rec : PeerRecord, rec.lastSeen = 0 ∧
        mergeEntry now b e = AddressBook.addGray { b with bans := bans } rec := by
  unfold mergeEntry
  cases PeerRecord.fromEntry e with
  | none => exact ⟨b.bans, .inl rfl⟩
  | some rec =>
      simp only
      split
      case isTrue => exact ⟨b.bans, .inl rfl⟩
      case isFalse =>
        refine ⟨(b.dropExpired now).bans, ?_⟩
        unfold isBanned
        simp only
        split
        case isTrue => exact .inl rfl
        case isFalse => exact .inr ⟨_, rfl, rfl⟩

theorem Sound.bans {b : AddressBook} (h : b.Sound) (bans : Table BanTarget (BitVec 64)) :
    ({ b with bans := bans } : AddressBook).Sound :=
  ⟨h.white, h.gray, h.disjoint, h.oneEach, h.anchors⟩

theorem Sound.mergeEntry {b : AddressBook} (h : b.Sound) (now : Nat) (e : PeerlistEntry) :
    (AddressBook.mergeEntry now b e).Sound := by
  obtain ⟨bans, hsame | ⟨rec, -, hadd⟩⟩ := mergeEntry_cases now b e
  · rw [hsame]
    exact h.bans bans
  · rw [hadd]
    exact (h.bans bans).addGray rec

theorem heard_mergeEntry {b : AddressBook} (h : b.Sound) (now : Nat) (e : PeerlistEntry) :
    Heard b (AddressBook.mergeEntry now b e) := by
  have hbans : ∀ bans, Heard b { b with bans := bans } := by
    intro bans
    have hself := heard_refl b
    exact ⟨hself.white, hself.later, hself.stays, hself.arrives, hself.origin, hself.lasting⟩
  obtain ⟨bans, hsame | ⟨rec, hzero, hadd⟩⟩ := mergeEntry_cases now b e
  · rw [hsame]
    exact hbans bans
  · rw [hadd]
    have hgray := (h.bans bans).gray
    exact (hbans bans).trans h.gray.arrived ((addGray_cases hgray rec).heard hgray hzero)

theorem Sound.mergePeerlist {b : AddressBook} (h : b.Sound) (peers : List PeerlistEntry)
    (now : Nat) : (b.mergePeerlist peers now).Sound ∧ Heard b (b.mergePeerlist peers now) := by
  unfold AddressBook.mergePeerlist
  induction peers generalizing b with
  | nil => exact ⟨h, heard_refl b⟩
  | cons e peers ih =>
      obtain ⟨hsound, hheard⟩ := ih (h.mergeEntry now e)
      exact ⟨hsound, (heard_mergeEntry h now e).trans h.gray.arrived hheard⟩

/-! ### Runs -/

theorem Sound.removeGray {b : AddressBook} (h : b.Sound) (addr : SocketAddr) :
    (b.removeGray addr).Sound := by
  refine ⟨h.white, h.gray.del addr, fun a l hl => ?_, h.oneEach, h.anchors⟩
  have hnone := h.disjoint a l hl
  simp only [AddressBook.removeGray, Table.get_del, hnone, ite_self]

theorem Sound.addAnchor {b : AddressBook} (h : b.Sound) (rec : PeerRecord) :
    (b.addAnchor rec).Sound := by
  unfold AddressBook.addAnchor
  split
  case isFalse => exact h
  case isTrue hlistable =>
    refine ⟨h.white, h.gray, h.disjoint, h.oneEach, fun a r hr => ?_⟩
    simp only [Table.get_put] at hr
    split at hr
    case isTrue heq =>
      rw [← Option.some.inj hr, heq]
      exact ⟨rfl, hlistable⟩
    case isFalse => exact h.anchors a r hr

theorem Sound.removeAnchor {b : AddressBook} (h : b.Sound) (addr : SocketAddr) :
    (b.removeAnchor addr).Sound := by
  refine ⟨h.white, h.gray, h.disjoint, h.oneEach, fun a r hr => ?_⟩
  simp only [AddressBook.removeAnchor, Table.get_del] at hr
  split at hr
  case isTrue => cases hr
  case isFalse => exact h.anchors a r hr

theorem recordFailure_rest (b : AddressBook) (ip : Ip) (now : Nat) :
    ∃ fails bans, b.recordFailure ip now = { b with fails := fails, bans := bans } := by
  unfold AddressBook.recordFailure ban
  simp only
  generalize (if failedAddrForgetSeconds < now - ((b.fails.get ip).getD (0, now)).2 then (0, now)
    else (b.fails.get ip).getD (0, now)) = entry
  by_cases hmany : failsBeforeBlock ≤ entry.1 + 1
  · rw [if_pos hmany]
    exact ⟨_, _, rfl⟩
  · rw [if_neg hmany]
    exact ⟨_, _, rfl⟩

theorem Sound.step {b : AddressBook} (h : b.Sound) (op : Op) : (b.step op).Sound := by
  cases op with
  | addGray rec => exact h.addGray rec
  | addWhite rec trustLastSeen => exact h.addWhite rec trustLastSeen
  | mergePeerlist peers now => exact (h.mergePeerlist peers now).1
  | removeGray addr => exact h.removeGray addr
  | recordAddrFailed ip now => exact ⟨h.white, h.gray, h.disjoint, h.oneEach, h.anchors⟩
  | addAnchor rec => exact h.addAnchor rec
  | removeAnchor addr => exact h.removeAnchor addr
  | clearAnchors => exact ⟨h.white, h.gray, h.disjoint, h.oneEach, fun a r hr => by cases hr⟩
  | ban target seconds now => exact h.bans _
  | unban target => exact ⟨h.white, h.gray, h.disjoint, h.oneEach, h.anchors⟩
  | dropExpired now => exact h.bans _
  | recordFailure ip now =>
      obtain ⟨fails, bans, heq⟩ := recordFailure_rest b ip now
      rw [AddressBook.step, heq]
      exact ⟨h.white, h.gray, h.disjoint, h.oneEach, h.anchors⟩

theorem sound_foldl {b : AddressBook} (h : b.Sound) (ops : List Op) : (ops.foldl step b).Sound := by
  induction ops generalizing b with
  | nil => exact h
  | cons op ops ih => exact ih (h.step op)

/-- What holds of a book after any operations. -/
theorem sound_run (allowLocal : Bool) (ops : List Op) : (run allowLocal ops).Sound :=
  sound_foldl (sound_new allowLocal) ops

end AddressBook

end Wownero.Peers

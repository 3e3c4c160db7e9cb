import Wownero.PeerStateCodec
/-!
# What survives a restart

A book that is saved and read again has the records, the anchors and the bans it had, less the flow
and scope of addresses.  Of the order in which entries go only `last_seen` is saved, and entries
of equal `last_seen` come back in the reverse order of their addresses.
-/

namespace Wownero.Peers

open Epee IpText

namespace AddressBook

/-! ### Addresses that come from records -/

/-- Every address of a book is of some kind. -/
structure Within (Q : SocketAddr → Prop) (b : AddressBook) : Prop where
  white : ∀ a l, b.white.get a = some l → Q a
  gray : ∀ a l, b.gray.get a = some l → Q a
  anchors : ∀ a r, b.anchors.get a = some r → Q a

section

variable {Q : SocketAddr → Prop} {b : AddressBook}

theorem of_isSome {ν : Type} {m : Table SocketAddr ν} (h : ∀ a l, m.get a = some l → Q a)
    {a : SocketAddr} (ha : (m.get a).isSome) : Q a := by
  obtain ⟨l, hl⟩ := Option.isSome_iff_exists.mp ha
  exact h a l hl

theorem Within.addGray (h : Within Q b) (hb : b.Sound) {rec : PeerRecord} (hrec : Q rec.addr) :
    Within Q (b.addGray rec) := by
  obtain ⟨hwhite, hanchors, -, -⟩ := addGray_rest b rec
  constructor
  · rw [hwhite]
    exact h.white
  · intro a l hl
    rcases (kept_addGray hb.gray rec).2 a l hl with hold | ⟨rfl, -⟩
    · exact of_isSome h.gray hold
    · exact hrec
  · rw [hanchors]
    exact h.anchors

theorem Within.foldl_addGray (h : Within Q b) (hb : b.Sound) {recs : List PeerRecord}
    (hrecs : ∀ r ∈ recs, Q r.addr) : Within Q (recs.foldl AddressBook.addGray b) := by
  induction recs generalizing b with
  | nil => exact h
  | cons r recs ih =>
      exact ih (h.addGray hb (hrecs r List.mem_cons_self)) (hb.addGray r)
        fun r' hr' => hrecs r' (List.mem_cons_of_mem _ hr')

theorem Within.addWhite (h : Within Q b) (hb : b.Sound) {rec : PeerRecord} (hrec : Q rec.addr)
    (trustLastSeen : Bool) : Within Q (b.addWhite rec trustLastSeen) := by
  obtain ⟨b₁, evicted, heq, hsound, hwhite, hgray, hanchors, hevicted⟩ :=
    addWhite_spec hb rec trustLastSeen
  have hfrom : ∀ a, a = rec.addr ∨ (b.white.get a).isSome → Q a := by
    rintro a (rfl | hold)
    · exact hrec
    · exact of_isSome h.white hold
  rw [heq]
  refine Within.foldl_addGray ⟨?_, ?_, ?_⟩ hsound fun r hr => hfrom r.addr (hevicted r hr)
  · exact fun a l hl => hfrom a (hwhite a l hl)
  · exact fun a l hl => of_isSome h.gray (hgray a l hl)
  · rw [hanchors]
    exact h.anchors

theorem Within.foldl_addWhite (h : Within Q b) (hb : b.Sound) {recs : List PeerRecord}
    (hrecs : ∀ r ∈ recs, Q r.addr) :
    Within Q (recs.foldl (fun b r => b.addWhite r true) b) ∧
      (recs.foldl (fun b r => b.addWhite r true) b).Sound := by
  induction recs generalizing b with
  | nil => exact ⟨h, hb⟩
  | cons r recs ih =>
      exact ih (h.addWhite hb (hrecs r List.mem_cons_self) true) (hb.addWhite r true)
        fun r' hr' => hrecs r' (List.mem_cons_of_mem _ hr')

theorem Within.foldl_addAnchor (h : Within Q b) {recs : List PeerRecord}
    (hrecs : ∀ r ∈ recs, Q r.addr) : Within Q (recs.foldl AddressBook.addAnchor b) := by
  induction recs generalizing b with
  | nil => exact h
  | cons r recs ih =>
      refine ih ?_ fun r' hr' => hrecs r' (List.mem_cons_of_mem _ hr')
      unfold AddressBook.addAnchor
      split
      case isFalse => exact h
      case isTrue =>
        refine ⟨h.white, h.gray, fun a r' hr' => ?_⟩
        simp only [Table.get_put] at hr'
        split at hr'
        case isTrue heq => exact heq ▸ hrecs r List.mem_cons_self
        case isFalse => exact h.anchors a r' hr'

end

/-- A book put together of records is of their addresses. -/
theorem within_assemble {Q : SocketAddr → Prop} {allowLocal : Bool}
    {white gray anchors : List PeerRecord} {bans : List (BanTarget × BitVec 64)}
    (hwhite : ∀ r ∈ white, Q r.addr) (hgray : ∀ r ∈ gray, Q r.addr)
    (hanchors : ∀ r ∈ anchors, Q r.addr) : Within Q (assemble allowLocal white gray anchors bans) := by
  have hnew : Within Q (new allowLocal) :=
    ⟨(fun a l hl => by cases hl), (fun a l hl => by cases hl), (fun a r hr => by cases hr)⟩
  obtain ⟨hfirst, hsound⟩ := hnew.foldl_addWhite (sound_new allowLocal)
    fun r hr => hwhite r (List.mem_reverse.mp hr)
  have hsecond := hfirst.foldl_addGray hsound fun r hr => hgray r (List.mem_reverse.mp hr)
  have hthird := hsecond.foldl_addAnchor hanchors
  exact ⟨hthird.white, hthird.gray, hthird.anchors⟩

theorem unscoped_unscoped (a : SocketAddr) : a.unscoped.unscoped = a.unscoped := by
  cases a <;> rfl

/-! ### A list put together in order -/

/-- A list of exactly these records, which arrived in this order. -/
structure Lists (m : PeerTable) (rs : List PeerRecord) (start : Nat) : Prop where
  size : m.size = rs.length
  found : ∀ a l, m.get a = some l ↔
    ∃ i : Nat, rs[i]? = some l.record ∧ l.record.addr = a ∧ l.seq = start + i + 1

theorem lists_empty (start : Nat) : Lists .empty [] start where
  size := rfl
  found a l := by
    constructor
    · intro h
      cases h
    · rintro ⟨i, hi, -⟩
      cases hi

theorem Lists.snoc {m : PeerTable} {rs : List PeerRecord} {start : Nat} (h : Lists m rs start)
    {r : PeerRecord} (hnone : m.get r.addr = none) :
    Lists (m.put r.addr ⟨r, start + rs.length + 1⟩) (rs ++ [r]) start := by
  constructor
  · rw [Table.size_put_of_get_none hnone, h.size, List.length_append, List.length_singleton]
  · intro a l
    rw [Table.get_put]
    constructor
    · intro hl
      split at hl
      case isTrue heq =>
        rw [← Option.some.inj hl]
        exact ⟨rs.length, by simp, heq.symm, rfl⟩
      case isFalse =>
        obtain ⟨i, hi, haddr, hseq⟩ := (h.found a l).mp hl
        have hlt : i < rs.length := (List.getElem?_eq_some_iff.mp hi).1
        exact ⟨i, by rw [List.getElem?_append_left hlt, hi], haddr, hseq⟩
    · rintro ⟨i, hi, haddr, hseq⟩
      rcases Nat.lt_or_ge i rs.length with hlt | hge
      · rw [List.getElem?_append_left hlt] at hi
        have hold := (h.found a l).mpr ⟨i, hi, haddr, hseq⟩
        have hne : a ≠ r.addr := by
          rintro rfl
          rw [hnone] at hold
          cases hold
        rw [if_neg hne, hold]
      · have hlast : i = rs.length := by
          have hbound := (List.getElem?_eq_some_iff.mp hi).1
          rw [List.length_append, List.length_singleton] at hbound
          omega
        rw [hlast, List.getElem?_concat_length] at hi
        have hr := Option.some.inj hi
        rw [hlast] at hseq
        rw [← hr] at haddr
        rw [if_pos haddr.symm, Option.some.injEq]
        cases l
        cases hr
        cases hseq
        rfl

theorem Lists.none {m : PeerTable} {rs : List PeerRecord} {start : Nat} (h : Lists m rs start)
    {a : SocketAddr} (ha : ∀ r ∈ rs, r.addr ≠ a) : m.get a = none := by
  cases hget : m.get a with
  | none => rfl
  | some l =>
      obtain ⟨i, hi, haddr, -⟩ := (h.found a l).mp hget
      exact absurd haddr (ha _ (List.mem_of_getElem? hi))

/-- Records that a list has room for: each of an address of its own. -/
structure Loadable (allowLocal : Bool) (limit : Nat) (rs : List PeerRecord) : Prop where
  apart : rs.Pairwise fun r r' => r.addr ≠ r'.addr
  listable : ∀ r ∈ rs, isListable allowLocal r.addr = true
  fits : rs.length ≤ limit

/-- Gray records are listed as they come. -/
theorem load_gray {rs seen : List PeerRecord} {b : AddressBook} {start : Nat}
    (hload : Loadable b.allowLocal grayLimit (seen ++ rs)) (hlists : Lists b.gray seen start)
    (hnext : b.nextSeq = start + seen.length) (hwhite : ∀ r ∈ rs, b.white.get r.addr = none) :
    ∃ m, rs.foldl addGray b = { b with gray := m, nextSeq := start + (seen ++ rs).length } ∧
      Lists m (seen ++ rs) start := by
  induction rs generalizing seen b with
  | nil =>
      rw [List.append_nil]
      refine ⟨b.gray, ?_, hlists⟩
      rw [List.foldl_nil, ← hnext]
  | cons r rs ih =>
      have hsplit : seen ++ r :: rs = (seen ++ [r]) ++ rs := by
        rw [List.append_assoc]
        rfl
      have hnone : b.gray.get r.addr = none := by
        refine hlists.none fun r' hr' => ?_
        exact (List.pairwise_append.mp hload.apart).2.2 r' hr' r List.mem_cons_self
      have hlistable := hload.listable r (List.mem_append_right _ List.mem_cons_self)
      have hroom : (b.gray.put r.addr ⟨r, b.nextSeq + 1⟩).size ≤ grayLimit := by
        have hfits := hload.fits
        rw [List.length_append, List.length_cons] at hfits
        rw [Table.size_put_of_get_none hnone, hlists.size]
        omega
      have hadd : b.addGray r
          = { b with gray := b.gray.put r.addr ⟨r, b.nextSeq + 1⟩, nextSeq := b.nextSeq + 1 } := by
        unfold addGray
        rw [hlistable, Table.has_eq, hwhite r List.mem_cons_self, if_neg (by simp), hnone]
        simp only [trim_of_le hroom]
      have hsnoc := hlists.snoc hnone
      rw [← hnext] at hsnoc
      obtain ⟨m, hm, hall⟩ := @ih (seen ++ [r]) (b.addGray r)
        (by rw [hadd, ← hsplit]; exact hload) (by rw [hadd]; exact hsnoc)
        (by rw [hadd, List.length_append, List.length_singleton, hnext]; rfl)
        (by rw [hadd]; exact fun r' hr' => hwhite r' (List.mem_cons_of_mem _ hr'))
      refine ⟨m, ?_, by rw [hsplit]; exact hall⟩
      rw [List.foldl_cons, hm, hadd, hsplit]

/-- White records of different hosts are listed as they come. -/
theorem load_white {rs seen : List PeerRecord} {b : AddressBook}
    (hload : Loadable b.allowLocal whiteLimit (seen ++ rs))
    (hhosts : (seen ++ rs).Pairwise fun r r' => sameHost r.addr r'.addr = false)
    (hlists : Lists b.white seen 0) (hnext : b.nextSeq = seen.length) (hgray : b.gray = .empty) :
    ∃ m, rs.foldl (fun b r => b.addWhite r true) b
        = { b with white := m, nextSeq := (seen ++ rs).length } ∧
      Lists m (seen ++ rs) 0 := by
  induction rs generalizing seen b with
  | nil =>
      rw [List.append_nil]
      refine ⟨b.white, ?_, hlists⟩
      rw [List.foldl_nil, ← hnext]
  | cons r rs ih =>
      have hsplit : seen ++ r :: rs = (seen ++ [r]) ++ rs := by
        rw [List.append_assoc]
        rfl
      have hnone : b.white.get r.addr = none := by
        refine hlists.none fun r' hr' => ?_
        exact (List.pairwise_append.mp hload.apart).2.2 r' hr' r List.mem_cons_self
      have hlistable := hload.listable r (List.mem_append_right _ List.mem_cons_self)
      have hroom : (b.white.put r.addr ⟨r, b.nextSeq + 1⟩).size ≤ whiteLimit := by
        have hfits := hload.fits
        rw [List.length_append, List.length_cons] at hfits
        rw [Table.size_put_of_get_none hnone, hlists.size]
        omega
      have hothers : b.white.retain (fun a _ => !sameHost a r.addr) = b.white := by
        refine Table.ext fun a => ?_
        rw [Table.get_retain]
        cases hget : b.white.get a with
        | none => rfl
        | some l =>
            obtain ⟨i, hi, rfl, -⟩ := (hlists.found a l).mp hget
            have hother := (List.pairwise_append.mp hhosts).2.2 _ (List.mem_of_getElem? hi) r
              List.mem_cons_self
            rw [Option.filter_some, hother]
            rfl
      have hnoGray : b.gray.del r.addr = b.gray := by
        rw [hgray]
        exact Table.del_of_get_none rfl
      have hadd : b.addWhite r true
          = { b with white := b.white.put r.addr ⟨r, b.nextSeq + 1⟩, nextSeq := b.nextSeq + 1 } := by
        unfold addWhite
        rw [hlistable, if_neg (by simp), hnone, hothers, hnoGray]
        simp only [trim_of_le hroom, List.foldl_nil]
      have hsnoc := hlists.snoc hnone
      rw [Nat.zero_add, ← hnext] at hsnoc
      obtain ⟨m, hm, hall⟩ := @ih (seen ++ [r]) (b.addWhite r true)
        (by rw [hadd, ← hsplit]; exact hload) (by rw [← hsplit]; exact hhosts)
        (by rw [hadd]; exact hsnoc)
        (by rw [hadd, List.length_append, List.length_singleton, hnext])
        (by rw [hadd]; exact hgray)
      refine ⟨m, ?_, by rw [hsplit]; exact hall⟩
      rw [List.foldl_cons, hm, hadd, hsplit]

theorem get_foldl_addAnchor {rs : List PeerRecord} {b : AddressBook}
    (hapart : rs.Pairwise fun r r' => r.addr ≠ r'.addr)
    (hlistable : ∀ r ∈ rs, isListable b.allowLocal r.addr = true) :
    ∃ m : Table SocketAddr PeerRecord, rs.foldl addAnchor b = { b with anchors := m } ∧
      ∀ a r, m.get a = some r ↔
        (r ∈ rs ∧ r.addr = a) ∨ (∀ r' ∈ rs, r'.addr ≠ a) ∧ b.anchors.get a = some r := by
  induction rs generalizing b with
  | nil => exact ⟨b.anchors, rfl, fun a r => by simp⟩
  | cons r rs ih =>
      obtain ⟨hfirst, hrest⟩ := List.pairwise_cons.mp hapart
      have hadd : b.addAnchor r = { b with anchors := b.anchors.put r.addr r } := by
        rw [addAnchor, if_pos (hlistable r List.mem_cons_self)]
      obtain ⟨m, hm, hget⟩ := @ih (b.addAnchor r) hrest
        (by rw [hadd]; exact fun r' hr' => hlistable r' (List.mem_cons_of_mem _ hr'))
      refine ⟨m, by rw [List.foldl_cons, hm, hadd], fun a r' => ?_⟩
      rw [hget, hadd]
      simp only [Table.get_put, List.mem_cons, forall_eq_or_imp]
      by_cases ha : a = r.addr
      · rw [if_pos ha, Option.some.injEq]
        subst ha
        constructor
        · rintro (⟨hmem, haddr⟩ | ⟨-, rfl⟩)
          · exact .inl ⟨.inr hmem, haddr⟩
          · exact .inl ⟨.inl rfl, rfl⟩
        · rintro (⟨rfl | hmem, haddr⟩ | ⟨⟨hne, -⟩, -⟩)
          · exact .inr ⟨fun r' hr' => (hfirst r' hr').symm, rfl⟩
          · exact .inl ⟨hmem, haddr⟩
          · exact absurd rfl hne
      · rw [if_neg ha]
        constructor
        · rintro (⟨hmem, haddr⟩ | ⟨hnone, hold⟩)
          · exact .inl ⟨.inr hmem, haddr⟩
          · exact .inr ⟨⟨Ne.symm ha, hnone⟩, hold⟩
        · rintro (⟨rfl | hmem, haddr⟩ | ⟨⟨-, hnone⟩, hold⟩)
          · exact absurd haddr.symm ha
          · exact .inl ⟨hmem, haddr⟩
          · exact .inr ⟨hnone, hold⟩

/-! ### The lists in the order they are saved -/

theorem sorted_perm (v : List PeerRecord) : (sorted v).Perm v := List.perm_insertionSort _ _

instance : Std.Total SortsBefore := ⟨fun a b => by
  unfold SortsBefore
  omega⟩

instance : IsTrans PeerRecord SortsBefore := ⟨fun a b c hab hbc => by
  unfold SortsBefore at *
  omega⟩

theorem mem_listedRecords {m : PeerTable} (hm : Filed m) {r : PeerRecord} {a : SocketAddr} :
    r ∈ listedRecords m ∧ r.addr = a ↔ (m.get a).map (·.record) = some r := by
  rw [listedRecords, (sorted_perm _).mem_iff, List.mem_map, Option.map_eq_some_iff]
  constructor
  · rintro ⟨⟨⟨a', l⟩, hrow, rfl⟩, rfl⟩
    have hget := (m.mem_iff a' l).mp hrow
    rw [hm.keyed a' l hget]
    exact ⟨l, hget, rfl⟩
  · rintro ⟨l, hget, rfl⟩
    exact ⟨⟨(a, l), (m.mem_iff a l).mpr hget, rfl⟩, hm.keyed a l hget⟩

/-- What holds of any two rows of a table, both ways, holds of any two values in any order. -/
theorem pairwise_sorted {ν : Type} {t : Table SocketAddr ν} {f : ν → PeerRecord}
    {R : PeerRecord → PeerRecord → Prop} (hsymm : ∀ r r', R r r' → R r' r)
    (h : ∀ a v a' v', t.get a = some v → t.get a' = some v' → a ≠ a' → R (f v) (f v')) :
    (sorted (t.rows.map fun row => f row.2)).Pairwise R := by
  refine (List.Perm.pairwise_iff (fun {a b} => hsymm a b) (sorted_perm _)).mpr ?_
  rw [List.pairwise_map]
  refine t.ascending.imp_of_mem fun {row row'} hrow hrow' hlt => ?_
  refine h row.1 row.2 row'.1 row'.2 ((t.mem_iff _ _).mp hrow) ((t.mem_iff _ _).mp hrow') ?_
  intro heq
  rw [RowLt, heq] at hlt
  exact Nat.lt_irrefl _ hlt

theorem listedRecords_apart {m : PeerTable} (hm : Filed m) :
    (listedRecords m).Pairwise fun r r' => r.addr ≠ r'.addr := by
  refine pairwise_sorted (fun r r' h => h.symm) fun a l a' l' hl hl' hne => ?_
  rw [hm.keyed a l hl, hm.keyed a' l' hl']
  exact hne

section

variable {m m' : PeerTable} {start : Nat}

/-- The records are those that were saved. -/
theorem Lists.records (hm : Filed m) (h : Lists m' (listedRecords m).reverse start)
    (a : SocketAddr) : (m'.get a).map (·.record) = (m.get a).map (·.record) := by
  refine Option.ext fun r => ?_
  rw [← mem_listedRecords hm, Option.map_eq_some_iff]
  constructor
  · rintro ⟨l, hl, rfl⟩
    obtain ⟨i, hi, haddr, -⟩ := (h.found a l).mp hl
    exact ⟨List.mem_reverse.mp (List.mem_of_getElem? hi), haddr⟩
  · rintro ⟨hmem, haddr⟩
    obtain ⟨i, hi⟩ := List.mem_iff_getElem?.mp (List.mem_reverse.mpr hmem)
    exact ⟨⟨r, start + i + 1⟩, (h.found a _).mpr ⟨i, hi, haddr, rfl⟩, rfl⟩

/-- Of one time, the entry of the higher address is the first to go. -/
theorem Lists.before_iff (hm : Filed m) (h : Lists m' (listedRecords m).reverse start)
    {a a' : SocketAddr} {k k' : Listed} (hk : m'.get a = some k) (hk' : m'.get a' = some k') :
    k.Before k' ↔ k.record.lastSeen.toInt < k'.record.lastSeen.toInt ∨
      k.record.lastSeen.toInt = k'.record.lastSeen.toInt ∧
        Ranked.rank a' < Ranked.rank a := by
  obtain ⟨i, hi, haddr, hseq⟩ := (h.found a k).mp hk
  obtain ⟨i', hi', haddr', hseq'⟩ := (h.found a' k').mp hk'
  have hsorted : (listedRecords m).reverse.Pairwise fun r r' => SortsBefore r' r :=
    List.pairwise_reverse.mpr (List.pairwise_insertionSort _ _)
  have hapart : (listedRecords m).reverse.Pairwise fun r r' => r.addr ≠ r'.addr :=
    List.pairwise_reverse.mpr ((listedRecords_apart hm).imp Ne.symm)
  have hboth : ∀ {j j' : Nat} {r r' : PeerRecord}, (listedRecords m).reverse[j]? = some r →
      (listedRecords m).reverse[j']? = some r' → j < j' →
      SortsBefore r' r ∧ Ranked.rank r.addr ≠ Ranked.rank r'.addr := by
    intro j j' r r' hj hj' hlt
    obtain ⟨hb, rfl⟩ := List.getElem?_eq_some_iff.mp hj
    obtain ⟨hb', rfl⟩ := List.getElem?_eq_some_iff.mp hj'
    exact ⟨List.pairwise_iff_getElem.mp hsorted j j' hb hb' hlt, fun heq =>
      List.pairwise_iff_getElem.mp hapart j j' hb hb' hlt (Ranked.rank_injective heq)⟩
  have hself : i = i' → Ranked.rank a = Ranked.rank a' := by
    rintro rfl
    rw [hi] at hi'
    rw [← haddr, ← haddr', Option.some.inj hi']
  unfold Listed.Before
  rcases Nat.lt_trichotomy i i' with hlt | heq | hgt
  · have hpair := hboth hi hi' hlt
    unfold SortsBefore at hpair
    rw [haddr, haddr'] at hpair
    omega
  · have hrank := hself heq
    omega
  · have hpair := hboth hi' hi hgt
    unfold SortsBefore at hpair
    rw [haddr, haddr'] at hpair
    omega

end

/-- Of two entries of one time, the one of the higher address arrived first. -/
def HighFirst (m : PeerTable) : Prop :=
  ∀ a l a' l', m.get a = some l → m.get a' = some l' →
    l.record.lastSeen = l'.record.lastSeen → l.seq < l'.seq → Ranked.rank a' < Ranked.rank a

/-- The entries of one list go in the order in which those of the other do. -/
def SameOrder (m m' : PeerTable) : Prop :=
  ∀ a l a' l' k k', m.get a = some l → m.get a' = some l' → m'.get a = some k →
    m'.get a' = some k' → (l.Before l' ↔ k.Before k')

theorem sameOrder_iff {m m' : PeerTable} {start : Nat} (hm : Filed m)
    (h : Lists m' (listedRecords m).reverse start) : SameOrder m m' ↔ HighFirst m := by
  have hsame : ∀ {a l k}, m.get a = some l → m'.get a = some k → k.record = l.record := by
    intro a l k hl hk
    have hrecord := h.records hm a
    rw [hl, hk] at hrecord
    exact Option.some.inj hrecord
  have hthere : ∀ {a l}, m.get a = some l → ∃ k, m'.get a = some k := by
    intro a l hl
    have hrecord := h.records hm a
    rw [hl] at hrecord
    obtain ⟨k, hk, -⟩ := Option.map_eq_some_iff.mp hrecord
    exact ⟨k, hk⟩
  constructor
  · intro horder a l a' l' hl hl' hseen hseq
    obtain ⟨k, hk⟩ := hthere hl
    obtain ⟨k', hk'⟩ := hthere hl'
    have hbefore : l.Before l' := .inr ⟨by rw [hseen], hseq⟩
    have hiff := (horder a l a' l' k k' hl hl' hk hk').mp hbefore
    rw [h.before_iff hm hk hk', hsame hl hk, hsame hl' hk', hseen] at hiff
    omega
  · intro hhigh a l a' l' k k' hl hl' hk hk'
    rw [h.before_iff hm hk hk', hsame hl hk, hsame hl' hk']
    have hforth := hhigh a l a' l' hl hl'
    have hback := hhigh a' l' a l hl' hl
    have hapart := hm.apart a l a' l' hl hl'
    unfold Listed.Before
    rcases Int.lt_trichotomy l.record.lastSeen.toInt l'.record.lastSeen.toInt with hlt | heq | hgt
    · omega
    · have hseen : l.record.lastSeen = l'.record.lastSeen := BitVec.eq_of_toInt_eq heq
      have hf := hforth hseen
      have hb := hback hseen.symm
      have hself : l.seq = l'.seq → Ranked.rank a = Ranked.rank a' := fun hs => by rw [hapart hs]
      omega
    · omega

/-! ### The book -/

/-- What a book that was saved and read has of the one it was: the records of both lists and their
order, the anchors and the bans. -/
structure Restored (b b' : AddressBook) : Prop where
  white : ∀ a, (b'.white.get a).map (·.record) = (b.white.get a).map (·.record)
  gray : ∀ a, (b'.gray.get a).map (·.record) = (b.gray.get a).map (·.record)
  anchors : b'.anchors = b.anchors
  bans : b'.bans = b.bans
  whiteOrder : SameOrder b.white b'.white
  grayOrder : SameOrder b.gray b'.gray

/-- An address that a message can carry whole. -/
def Carried (a : SocketAddr) : Prop := a.unscoped = a

/-- What a book has to be like to be restored. -/
structure Restorable (b : AddressBook) : Prop where
  countable : b.Countable
  carried : Within Carried b
  whiteTies : HighFirst b.white
  grayTies : HighFirst b.gray

theorem map_unscoped {rs : List PeerRecord} (h : ∀ r ∈ rs, Carried r.addr) :
    rs.map PeerRecord.unscoped = rs := by
  refine (List.map_congr_left fun r hr => ?_).trans (List.map_id rs)
  have hr := h r hr
  unfold Carried at hr
  rw [PeerRecord.unscoped, hr]
  rfl

theorem mem_records {m : PeerTable} (hm : Filed m) {r : PeerRecord} (hr : r ∈ listedRecords m) :
    ∃ l, m.get r.addr = some l ∧ l.record = r :=
  Option.map_eq_some_iff.mp ((mem_listedRecords hm).mp ⟨hr, rfl⟩)

theorem mem_anchorRecords {b : AddressBook} (hb : b.Sound) {r : PeerRecord} {a : SocketAddr} :
    r ∈ b.anchorRecords ∧ r.addr = a ↔ b.anchors.get a = some r := by
  rw [anchorRecords, (sorted_perm _).mem_iff, List.mem_map]
  constructor
  · rintro ⟨⟨⟨a', r'⟩, hrow, rfl⟩, rfl⟩
    have hget := (b.anchors.mem_iff a' r').mp hrow
    rw [(hb.anchors a' r' hget).1]
    exact hget
  · intro hget
    exact ⟨⟨(a, r), (b.anchors.mem_iff a r).mpr hget, rfl⟩, (hb.anchors a r hget).1⟩

theorem loadable_records {allowLocal : Bool} {limit n : Nat} {m : PeerTable}
    (h : Kept allowLocal limit n m) : Loadable allowLocal limit (listedRecords m).reverse where
  apart := List.pairwise_reverse.mpr ((listedRecords_apart h.toFiled).imp Ne.symm)
  listable r hr := by
    obtain ⟨l, hl, -⟩ := mem_records h.toFiled (List.mem_reverse.mp hr)
    exact h.listable r.addr l hl
  fits := by
    rw [List.length_reverse, length_listedRecords]
    exact h.fits

/-- The book put together of what was saved of one whose addresses messages carry whole. -/
theorem assemble_saved {b : AddressBook} (hb : b.Sound) (hcarried : Within Carried b) :
    ∃ b', assemble b.allowLocal ((listedRecords b.white).map PeerRecord.unscoped)
        ((listedRecords b.gray).map PeerRecord.unscoped)
        (b.anchorRecords.map PeerRecord.unscoped) b.bans.rows = b' ∧
      Lists b'.white (listedRecords b.white).reverse 0 ∧
      Lists b'.gray (listedRecords b.gray).reverse (listedRecords b.white).reverse.length ∧
      b'.anchors = b.anchors ∧ b'.bans = b.bans := by
  have hw : (listedRecords b.white).map PeerRecord.unscoped = listedRecords b.white := by
    refine map_unscoped fun r hr => ?_
    obtain ⟨l, hl, -⟩ := mem_records hb.white.toFiled hr
    exact hcarried.white _ l hl
  have hg : (listedRecords b.gray).map PeerRecord.unscoped = listedRecords b.gray := by
    refine map_unscoped fun r hr => ?_
    obtain ⟨l, hl, -⟩ := mem_records hb.gray.toFiled hr
    exact hcarried.gray _ l hl
  have ha : b.anchorRecords.map PeerRecord.unscoped = b.anchorRecords :=
    map_unscoped fun r hr => hcarried.anchors _ r ((mem_anchorRecords hb).mp ⟨hr, rfl⟩)
  rw [hw, hg, ha]
  have hhosts : (listedRecords b.white).reverse.Pairwise
      fun r r' => sameHost r.addr r'.addr = false := by
    refine List.pairwise_reverse.mpr ?_
    refine pairwise_sorted (fun r r' h => by rw [sameHost_comm]; exact h)
      fun a l a' l' hl hl' hne => ?_
    rw [hb.white.keyed a l hl, hb.white.keyed a' l' hl']
    cases hsame : sameHost a' a with
    | false => rfl
    | true => exact absurd (hb.oneEach a' l' a l hl' hl hsame).symm hne
  obtain ⟨m, hm, hwhite⟩ := @load_white (listedRecords b.white).reverse []
    (new b.allowLocal) (loadable_records hb.white) hhosts (lists_empty 0) rfl rfl
  rw [List.nil_append] at hm hwhite
  have hfresh : ∀ r ∈ (listedRecords b.gray).reverse, m.get r.addr = none := by
    intro r hr
    obtain ⟨l, hl, -⟩ := mem_records hb.gray.toFiled (List.mem_reverse.mp hr)
    have hrecord := hwhite.records hb.white.toFiled r.addr
    cases hget : m.get r.addr with
    | none => rfl
    | some k =>
        rw [hget] at hrecord
        obtain ⟨l', hl', -⟩ := Option.map_eq_some_iff.mp hrecord.symm
        rw [hb.disjoint _ l' hl'] at hl
        cases hl
  obtain ⟨m', hm', hgray⟩ := @load_gray (listedRecords b.gray).reverse []
    { new b.allowLocal with white := m, nextSeq := (listedRecords b.white).reverse.length }
    (listedRecords b.white).reverse.length (loadable_records hb.gray) (lists_empty _) rfl hfresh
  rw [List.nil_append] at hm' hgray
  have hanchors : b.anchorRecords.Pairwise fun r r' => r.addr ≠ r'.addr := by
    refine @pairwise_sorted _ b.anchors (fun r => r) (fun r r' => r.addr ≠ r'.addr)
      (fun _ _ => Ne.symm) fun a r a' r' hr hr' hne => ?_
    rw [(hb.anchors a r hr).1, (hb.anchors a' r' hr').1]
    exact hne
  obtain ⟨m'', hm'', hget⟩ := @get_foldl_addAnchor b.anchorRecords
    ((listedRecords b.gray).reverse.foldl addGray
      ((listedRecords b.white).reverse.foldl (fun b r => b.addWhite r true) (new b.allowLocal)))
    hanchors (by
      rw [hm, hm']
      intro r hr
      exact (hb.anchors r.addr r ((mem_anchorRecords hb).mp ⟨hr, rfl⟩)).2)
  refine ⟨_, rfl, ?_, ?_, ?_, ?_⟩
  · unfold assemble
    simp only
    rw [hm'', hm, hm']
    exact hwhite
  · unfold assemble
    simp only
    rw [hm'', hm, hm']
    exact hgray
  · unfold assemble
    simp only
    rw [hm'']
    refine Table.ext fun a => Option.ext fun r => ?_
    rw [hget, mem_anchorRecords hb, hm, hm']
    exact or_iff_left fun h => by cases h.2
  · unfold assemble
    simp only
    rw [hm'', hm, hm']
    refine Table.ext fun t => ?_
    have hput := Table.get_putAll (fun v => v) b.bans (.empty : Table BanTarget (BitVec 64)) t
    rw [Option.map_id', Table.get_empty, Option.or_none] at hput
    exact hput

/-- A book is restored exactly if its entries of one time arrived in the order in which they come
back, messages carry its addresses whole, and there are not too many of anything. -/
theorem restored_iff {b : AddressBook} (hb : b.Sound) :
    (∃ b', fromBytes b.toBytes b.allowLocal = .ok b' ∧ Restored b b') ↔ b.Restorable := by
  have hfitsWhite : b.white.size ≤ epeeVarintMax := Nat.le_trans hb.white.fits (by decide)
  have hfitsGray : b.gray.size ≤ epeeVarintMax := Nat.le_trans hb.gray.fits (by decide)
  constructor
  · rintro ⟨b', hread, hrestored⟩
    have hcount := countable_of_fromBytes hread
    rw [fromBytes_toBytes hfitsWhite hfitsGray hcount] at hread
    have hunscoped : ∀ {rs : List PeerRecord}, ∀ r ∈ rs.map PeerRecord.unscoped,
        Carried r.addr := by
      intro rs r hr
      obtain ⟨r', -, rfl⟩ := List.mem_map.mp hr
      exact unscoped_unscoped r'.addr
    have hwithin : Within Carried b' := by
      rw [← Except.ok.inj hread]
      exact within_assemble hunscoped hunscoped hunscoped
    have hcarried : Within Carried b := by
      constructor
      · intro a l hl
        have hrecord := hrestored.white a
        rw [hl] at hrecord
        obtain ⟨l', hl', -⟩ := Option.map_eq_some_iff.mp hrecord
        exact hwithin.white a l' hl'
      · intro a l hl
        have hrecord := hrestored.gray a
        rw [hl] at hrecord
        obtain ⟨l', hl', -⟩ := Option.map_eq_some_iff.mp hrecord
        exact hwithin.gray a l' hl'
      · rw [← hrestored.anchors]
        exact hwithin.anchors
    obtain ⟨b'', heq, hwhite, hgray, -, -⟩ := assemble_saved hb hcarried
    have hsame : b'' = b' := by
      rw [← heq]
      exact Except.ok.inj hread
    subst hsame
    exact ⟨hcount, hcarried, (sameOrder_iff hb.white.toFiled hwhite).mp hrestored.whiteOrder,
      (sameOrder_iff hb.gray.toFiled hgray).mp hrestored.grayOrder⟩
  · rintro ⟨hcount, hcarried, hwhiteTies, hgrayTies⟩
    obtain ⟨b', heq, hwhite, hgray, hanchors, hbans⟩ := assemble_saved hb hcarried
    refine ⟨b', by rw [fromBytes_toBytes hfitsWhite hfitsGray hcount, heq], ?_⟩
    exact ⟨hwhite.records hb.white.toFiled, hgray.records hb.gray.toFiled, hanchors, hbans,
      (sameOrder_iff hb.white.toFiled hwhite).mpr hwhiteTies,
      (sameOrder_iff hb.gray.toFiled hgray).mpr hgrayTies⟩

/-- What is done to the lists of a book by a list that a peer sent: the white list is as it was, no
entry has another `last_seen`, and whatever is gone of what was there, and of what came with a
`last_seen` of zero, goes before whatever is there. -/
structure OnlyHeard (b b' : AddressBook) : Prop where
  white : b'.white = b.white
  lastSeen : ∀ a l l', b.gray.get a = some l → b'.gray.get a = some l' → l'.seq = l.seq →
    l'.record.lastSeen = l.record.lastSeen
  evicted : ∀ a l, b.gray.get a = some l → (∀ l', b'.gray.get a = some l' → l'.seq ≠ l.seq) →
    ∀ a' l', b'.gray.get a' = some l' → l.Before l'
  arrivals : ∀ n, b.nextSeq < n → n ≤ b'.nextSeq →
    (∀ a l', b'.gray.get a = some l' → l'.seq ≠ n) →
    ∀ a' l', b'.gray.get a' = some l' →
      0 < l'.record.lastSeen.toInt ∨ 0 = l'.record.lastSeen.toInt ∧ n < l'.seq

theorem Heard.onlyHeard {b b' : AddressBook} (hb : b.Sound) (h : Heard b b') : OnlyHeard b b' where
  white := h.white
  lastSeen a l l' hl hl' hseq := by
    rcases h.origin a l' hl' with ⟨l₀, hl₀, -, hseen⟩ | ⟨hnew, -⟩
    · rw [hl] at hl₀
      rw [hseen, Option.some.inj hl₀]
    · rw [hseq] at hnew
      exact absurd (hb.gray.arrived a l hl) (Nat.not_le.mpr hnew)
  evicted a l hl hgone := by
    rcases h.stays a l hl with ⟨l', hl', hseq⟩ | hwent
    · exact absurd hseq (hgone l' hl')
    · exact hwent.2
  arrivals n hlt hle hgone := by
    rcases h.arrives n hlt hle with ⟨a, l', hl', hseq⟩ | hwent
    · exact absurd hseq (hgone a l' hl')
    · exact hwent.2

/-- What holds of a book after any operations, what a peer's list may do to it, and when it
survives a restart. -/
theorem address_book_runs (allowLocal : Bool) (ops : List Op) :
    let b := run allowLocal ops
    (∀ a, b.white.has a = true → b.gray.has a = false) ∧
      b.white.size ≤ whiteLimit ∧ b.gray.size ≤ grayLimit ∧
      (∀ a a', b.white.has a = true → b.white.has a' = true → sameHost a a' = true → a = a') ∧
      (∀ a, b.white.has a = true ∨ b.gray.has a = true ∨ b.anchors.has a = true →
        isListable b.allowLocal a = true) ∧
      (∀ peers now, OnlyHeard b (b.mergePeerlist peers now)) ∧
      ((∃ b', fromBytes b.toBytes b.allowLocal = .ok b' ∧ Restored b b') ↔ b.Restorable) := by
  intro b
  have hb : b.Sound := sound_run allowLocal ops
  have hsome : ∀ {ν : Type} {t : Table SocketAddr ν} {a : SocketAddr}, t.has a = true →
      ∃ v, t.get a = some v := fun h => Option.isSome_iff_exists.mp h
  refine ⟨?_, hb.white.fits, hb.gray.fits, ?_, ?_, ?_, restored_iff hb⟩
  · intro a ha
    obtain ⟨l, hl⟩ := hsome ha
    rw [Table.has_eq, hb.disjoint a l hl]
    rfl
  · intro a a' ha ha' hsame
    obtain ⟨l, hl⟩ := hsome ha
    obtain ⟨l', hl'⟩ := hsome ha'
    exact hb.oneEach a l a' l' hl hl' hsame
  · rintro a (ha | ha | ha)
    · obtain ⟨l, hl⟩ := hsome ha
      exact hb.white.listable a l hl
    · obtain ⟨l, hl⟩ := hsome ha
      exact hb.gray.listable a l hl
    · obtain ⟨r, hr⟩ := hsome ha
      exact (hb.anchors a r hr).2
  · intro peers now
    exact (hb.mergePeerlist peers now).2.onlyHeard hb

/-- A peer mentions 8.8.4.4 and then 8.8.8.8. -/
def twoMentioned : List Op :=
  [.mergePeerlist [⟨.v4 0x04040808 34567, 1, 0, 0, 0⟩, ⟨.v4 0x08080808 34567, 2, 0, 0, 0⟩] 0]

/-- The first to arrive is the first to go, and after a restart the last. -/
theorem twoMentioned_not_restored :
    ¬ ∃ b', fromBytes (run false twoMentioned).toBytes (run false twoMentioned).allowLocal = .ok b' ∧
      Restored (run false twoMentioned) b' := by
  rw [restored_iff (sound_run false twoMentioned)]
  intro h
  have hlow : (run false twoMentioned).gray.get (.v4 0x08080404 34567)
      = some ⟨⟨.v4 0x08080404 34567, 1, 0, 0, 0⟩, 1⟩ := by decide
  have hhigh : (run false twoMentioned).gray.get (.v4 0x08080808 34567)
      = some ⟨⟨.v4 0x08080808 34567, 2, 0, 0, 0⟩, 2⟩ := by decide
  have hties := h.grayTies _ _ _ _ hlow hhigh rfl (by decide)
  exact absurd hties (by decide)

end AddressBook

end Wownero.Peers

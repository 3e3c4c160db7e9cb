import Wownero.AddressBookRuns
import Wownero.PeerState
/-!
# What is saved of an address book is what is read

Every entry is read back from the section it was saved as, less the flow and the scope of its
address, and the section of a whole book is within the limits of the format unless there are more
anchors or bans than a count can say.
-/

namespace Wownero.Peers

open Epee IpText

/-! ### Entries -/

/-- An address without its flow and its scope, which no message carries. -/
def SocketAddr.unscoped : SocketAddr → SocketAddr
  | .v4 ip port => .v4 ip port
  | .v6 ip port _ _ => .v6 ip port 0 0

/-- A record, of its address without flow and scope. -/
def PeerRecord.unscoped (r : PeerRecord) : PeerRecord := { r with addr := r.addr.unscoped }

theorem swapBytes_swapBytes (ip : BitVec 32) : swapBytes (swapBytes ip) = ip := by
  have hlen : (leBytes 4 ip.toNat).reverse.length = 4 := by
    rw [List.length_reverse, Archive.length_leBytes]
  have hlt : leNat (leBytes 4 ip.toNat).reverse < 2 ^ 32 := by
    have hbound := Archive.leNat_lt (leBytes 4 ip.toNat).reverse
    rwa [hlen] at hbound
  have hback : leBytes 4 (leNat (leBytes 4 ip.toNat).reverse) = (leBytes 4 ip.toNat).reverse := by
    have hself := Archive.leBytes_leNat (leBytes 4 ip.toNat).reverse
    rwa [hlen] at hself
  have hmod : ip.toNat % 256 ^ 4 = ip.toNat := Nat.mod_eq_of_lt ip.isLt
  unfold swapBytes
  rw [BitVec.toNat_ofNat, Nat.mod_eq_of_lt hlt, hback, List.reverse_reverse,
    Archive.leNat_leBytes, hmod, BitVec.ofNat_toNat, BitVec.setWidth_eq]

theorem socketAddr_fromSocketAddr (a : SocketAddr) :
    (NetworkAddress.fromSocketAddr a).socketAddr = some a.unscoped := by
  cases a with
  | v4 ip port => rw [NetworkAddress.fromSocketAddr, NetworkAddress.socketAddr,
      swapBytes_swapBytes, SocketAddr.unscoped]
  | v6 ip port flowinfo scopeId => rfl

theorem fromEntry_toEntry (r : PeerRecord) : PeerRecord.fromEntry r.toEntry = some r.unscoped := by
  rw [PeerRecord.fromEntry, PeerRecord.toEntry, socketAddr_fromSocketAddr]
  rfl

theorem octets16_back (addr : BitVec 128) :
    (NetworkAddress.octets16 addr).length = 16 ∧
      BitVec.ofNat 128 (leNat (NetworkAddress.octets16 addr).reverse) = addr := by
  have hmod : addr.toNat % 256 ^ 16 = addr.toNat := Nat.mod_eq_of_lt addr.isLt
  unfold NetworkAddress.octets16
  constructor
  · rw [List.length_reverse, Archive.length_leBytes]
  · rw [List.reverse_reverse, Archive.leNat_leBytes, hmod, BitVec.ofNat_toNat, BitVec.setWidth_eq]

theorem widened_back {w : Nat} (hw : w ≤ 64) (v : BitVec w) : (v.setWidth 64).setWidth w = v := by
  rw [BitVec.setWidth_setWidth_of_le _ hw, BitVec.setWidth_eq]

section

open NetworkAddress

theorem names_apart_addr : Names.addr ≠ Names.type ∧ Names.mPort ≠ Names.mIp ∧
    Names.mPort ≠ Names.addr := by decide

theorem fromSection_address (a : SocketAddr) :
    NetworkAddress.fromSection (fromSocketAddr a).toSection = .ok (fromSocketAddr a) := by
  obtain ⟨h1, h2, h3⟩ := names_apart_addr
  cases a with
  | v4 ip port =>
      simp [NetworkAddress.fromSection, NetworkAddress.toSection, fromSocketAddr, lookup_insertRow,
        h1, h2, Value.asU64, Value.asObject, orMissing, numberOr0, bind, Except.bind, pure,
        Except.pure]
  | v6 ip port flowinfo scopeId =>
      obtain ⟨hlen, hback⟩ := octets16_back ip
      simp [NetworkAddress.fromSection, NetworkAddress.toSection, fromSocketAddr, lookup_insertRow,
        h1, h3, Value.asU64, Value.asObject, Value.asBytes, orMissing, numberOr0, hlen,
        hback, bind, Except.bind, pure, Except.pure]

end

theorem names_apart_entry : [Names.id, Names.lastSeen, Names.pruningSeed, Names.rpcPort,
    Names.adr].Pairwise (· ≠ ·) := by decide

/-- The rows of the section of an entry. -/
theorem lookup_toSection (e : PeerlistEntry) (name : Name) :
    lookup name e.toSection =
      if e.rpcPort ≠ 0 ∧ Names.rpcPort = name then some (.leaf (.u16 e.rpcPort))
      else if e.pruningSeed ≠ 0 ∧ Names.pruningSeed = name then
        some (.leaf (.u32 e.pruningSeed))
      else if e.lastSeen ≠ 0 ∧ Names.lastSeen = name then some (.leaf (.i64 e.lastSeen))
      else if Names.id = name then some (.leaf (.u64 e.id))
      else if Names.adr = name then some (.object e.address.toSection)
      else none := by
  rw [PeerlistEntry.toSection, lookup_insert_if, lookup_insert_if, lookup_insert_if, lookup_insertRow, lookup_insertRow,
    lookup]

/-- An entry is read back from the section it is saved as. -/
theorem fromSection_entry (r : PeerRecord) :
    PeerlistEntry.fromSection r.toEntry.toSection = .ok r.toEntry := by
  obtain ⟨h1, hrest⟩ := List.pairwise_cons.mp names_apart_entry
  obtain ⟨h2, hrest⟩ := List.pairwise_cons.mp hrest
  obtain ⟨h3, hrest⟩ := List.pairwise_cons.mp hrest
  obtain ⟨h4, -⟩ := List.pairwise_cons.mp hrest
  simp only [List.mem_cons, List.not_mem_nil, or_false, forall_eq_or_imp, forall_eq] at h1 h2 h3 h4
  have hadr : lookup Names.adr r.toEntry.toSection
      = some (.object (NetworkAddress.fromSocketAddr r.addr).toSection) := by
    simp [lookup_toSection, h1, h2, h3, h4, PeerRecord.toEntry]
  have hid : lookup Names.id r.toEntry.toSection = some (.leaf (.u64 r.id)) := by
    simp [lookup_toSection, h1.1.symm, h1.2.1.symm, h1.2.2.1.symm, PeerRecord.toEntry]
  have hseen : lookup Names.lastSeen r.toEntry.toSection
      = if r.lastSeen ≠ 0 then some (.leaf (.i64 r.lastSeen)) else none := by
    simp [lookup_toSection, h1, h2.1.symm, h2.2.1.symm, h2.2.2.symm, PeerRecord.toEntry]
  have hseed : lookup Names.pruningSeed r.toEntry.toSection
      = if r.pruningSeed ≠ 0 then some (.leaf (.u32 r.pruningSeed)) else none := by
    simp [lookup_toSection, h1, h2, h3.1.symm, h3.2.symm, PeerRecord.toEntry]
  have hport : lookup Names.rpcPort r.toEntry.toSection
      = if r.rpcPort ≠ 0 then some (.leaf (.u16 r.rpcPort)) else none := by
    simp [lookup_toSection, h1, h2, h3, h4.symm, PeerRecord.toEntry]
  have hseen0 : ((lookup Names.lastSeen r.toEntry.toSection).bind Value.intOf).getD 0
      = r.lastSeen := by
    rw [hseen]
    split
    case isTrue => rfl
    case isFalse hzero => exact (not_not.mp hzero).symm
  have hseed0 : (numberOr0 Names.pruningSeed r.toEntry.toSection).setWidth 32
      = r.pruningSeed := by
    rw [numberOr0, hseed]
    split
    case isTrue => exact widened_back (by decide) _
    case isFalse hzero =>
      rw [not_not.mp hzero]
      rfl
  have hport0 : (numberOr0 Names.rpcPort r.toEntry.toSection).setWidth 16 = r.rpcPort := by
    rw [numberOr0, hport]
    split
    case isTrue => exact widened_back (by decide) _
    case isFalse hzero =>
      rw [not_not.mp hzero]
      rfl
  have hid0 : numberOr0 Names.id r.toEntry.toSection = r.id := by
    rw [numberOr0, hid]
    rfl
  unfold PeerlistEntry.fromSection
  rw [hadr, hseen0, hseed0, hport0, hid0]
  show (NetworkAddress.fromSection (NetworkAddress.fromSocketAddr r.addr).toSection >>= _) = _
  rw [fromSection_address]
  rfl

/-! ### Within the limits -/

instance (n : Name) : Decidable n.Short := inferInstanceAs (Decidable (_ ≤ _))

theorem names_short : ∀ name ∈ [Names.version, Names.white, Names.gray, Names.anchor, Names.bans,
    Names.target, Names.untilTime, Names.adr, Names.id, Names.lastSeen, Names.pruningSeed,
    Names.rpcPort, Names.type, Names.addr, Names.mIp, Names.mPort], name.Short := by
  decide

theorem holds_address (left : Nat) (a : SocketAddr) :
    Holds (left + 1) 2 (NetworkAddress.fromSocketAddr a).toSection := by
  have hshort := names_short
  simp only [List.mem_cons, List.not_mem_nil, or_false, forall_eq_or_imp, forall_eq] at hshort
  obtain ⟨-, -, -, -, -, -, -, -, -, -, -, -, htype, haddr, hip, hport⟩ := hshort
  have houter : ∀ (kind : UInt8) (inner : Section), Holds left 2 inner →
      Holds (left + 1) 2 (insertRow Names.addr (.object inner)
        (insertRow Names.type (.leaf (.u8 (BitVec.ofNat 8 kind.toNat))) [])) :=
    fun kind inner hinner => ((holds_nil (left + 1)).insert (by decide) htype (by trivial)).insert
      (by decide) haddr (by exact hinner.1)
  cases a with
  | v4 ip port =>
      exact houter 1 _ (((holds_nil left).insert (by decide) hip (by trivial)).insert (by decide) hport
        (by trivial))
  | v6 ip port flowinfo scopeId =>
      have hlen : (NetworkAddress.octets16 ip).length ≤ maxStringLen := by
        rw [(octets16_back ip).1]
        decide
      exact houter 2 _ (((holds_nil left).insert (by decide) haddr (by exact hlen)).insert (by decide) hport
        (by trivial))

theorem holds_entry (left : Nat) (r : PeerRecord) : Holds (left + 2) 5 r.toEntry.toSection := by
  have hshort := names_short
  simp only [List.mem_cons, List.not_mem_nil, or_false, forall_eq_or_imp, forall_eq] at hshort
  obtain ⟨-, -, -, -, -, -, -, hadr, hid, hseen, hseed, hrpc, -⟩ := hshort
  have haddress := (holds_address left r.addr).1
  have htwo : Holds (left + 2) 2 (insertRow Names.id (.leaf (.u64 r.id))
      (insertRow Names.adr (.object (NetworkAddress.fromSocketAddr r.addr).toSection) [])) :=
    ((holds_nil (left + 2)).insert (by decide) hadr (by exact haddress)).insert (by decide) hid (by trivial)
  exact ((htwo.insert_if (by decide) hseen (by trivial)).insert_if (by decide) hseed (by trivial)).insert_if
    (by decide) hrpc trivial

/-! ### The state -/

namespace AddressBook

theorem savedBan_banSection (target : BanTarget) (until_ : BitVec 64) :
    savedBan (banSection target until_) = some (target, until_) := by
  have hne : Names.untilTime ≠ Names.target := by decide
  have htext : lookup Names.target (banSection target until_)
      = some (.leaf (.string target.text)) := by
    rw [banSection, lookup_insertRow, if_neg hne, lookup_insertRow, if_pos rfl]
  have huntil : lookup Names.untilTime (banSection target until_) = some (.leaf (.u64 until_)) := by
    rw [banSection, lookup_insertRow, if_pos rfl]
  unfold savedBan
  rw [htext, huntil]
  simp [Value.asBytes, Value.asU64, target.valid_text, BanTarget.parse_text]

theorem names_apart_state : [Names.version, Names.white, Names.gray, Names.anchor,
    Names.bans].Pairwise (· ≠ ·) := by decide

/-- The rows of the state. -/
theorem lookup_stateSection (b : AddressBook) :
    lookup Names.version b.stateSection = some (.leaf (.u64 stateVersion)) ∧
      lookup Names.white b.stateSection
        = some (peerListValue ((listedRecords b.white).map PeerRecord.toEntry)) ∧
      lookup Names.gray b.stateSection
        = some (peerListValue ((listedRecords b.gray).map PeerRecord.toEntry)) ∧
      lookup Names.anchor b.stateSection
        = some (peerListValue (b.anchorRecords.map PeerRecord.toEntry)) ∧
      lookup Names.bans b.stateSection
        = some (sectionArray (b.bans.rows.map fun row => banSection row.1 row.2)) := by
  obtain ⟨h1, hrest⟩ := List.pairwise_cons.mp names_apart_state
  obtain ⟨h2, hrest⟩ := List.pairwise_cons.mp hrest
  obtain ⟨h3, hrest⟩ := List.pairwise_cons.mp hrest
  obtain ⟨h4, -⟩ := List.pairwise_cons.mp hrest
  simp only [List.mem_cons, List.not_mem_nil, or_false, forall_eq_or_imp, forall_eq] at h1 h2 h3 h4
  unfold stateSection
  simp only [lookup_insertRow]
  simp [h1.1.symm, h1.2.1.symm, h1.2.2.1.symm, h1.2.2.2.symm, h2.1.symm, h2.2.1.symm, h2.2.2.symm,
    h3.1.symm, h3.2.symm, h4.symm]

/-- The records of a list come back without flow and scope. -/
theorem savedRecords_eq {s : Section} {name : Name} {rs : List PeerRecord}
    (h : lookup name s = some (peerListValue (rs.map PeerRecord.toEntry))) :
    savedRecords s name = rs.map PeerRecord.unscoped := by
  unfold savedRecords
  rw [h]
  show List.filterMap PeerRecord.fromEntry (List.filterMap (fun e =>
    (PeerlistEntry.fromSection e).toOption) (List.filterMap Value.asObject
      (List.map Value.object (List.map PeerlistEntry.toSection
        (List.map PeerRecord.toEntry rs))))) = _
  clear h
  induction rs with
  | nil => rfl
  | cons r rs ih =>
      have hentry : (PeerlistEntry.fromSection r.toEntry.toSection).toOption = some r.toEntry := by
        rw [fromSection_entry]
        rfl
      simp only [List.map_cons, List.filterMap_cons, Value.asObject, hentry, fromEntry_toEntry]
      rw [ih]

theorem savedBans_eq (b : AddressBook) : savedBans b.stateSection = b.bans.rows := by
  unfold savedBans
  rw [(lookup_stateSection b).2.2.2.2]
  show List.filterMap savedBan (List.filterMap Value.asObject
    (List.map Value.object (b.bans.rows.map fun row => banSection row.1 row.2))) = _
  induction b.bans.rows with
  | nil => rfl
  | cons row rows ih =>
      simp only [List.map_cons, List.filterMap_cons, Value.asObject, savedBan_banSection]
      rw [ih]

/-- There are no more anchors and no more bans than a count can say. -/
def Countable (b : AddressBook) : Prop :=
  b.anchors.size ≤ epeeVarintMax ∧ b.bans.size ≤ epeeVarintMax

theorem fits_peers {left : Nat} {rs : List PeerRecord} (hrs : rs.length ≤ epeeVarintMax) :
    EntryFits (· < 128) (SectionFits Name.Short (· < 128) (left + 3))
      (peerListValue (rs.map PeerRecord.toEntry)) := by
  refine ⟨by decide, by rw [List.length_map, List.length_map, List.length_map]; exact hrs, ?_⟩
  intro item hitem
  obtain ⟨section_, hsection, rfl⟩ := List.mem_map.mp hitem
  obtain ⟨e, he, rfl⟩ := List.mem_map.mp hsection
  obtain ⟨r, -, rfl⟩ := List.mem_map.mp he
  exact ⟨rfl, (holds_entry left r).1⟩

theorem fits_bans {left : Nat} {rows : List (BanTarget × BitVec 64)}
    (hrows : rows.length ≤ epeeVarintMax) :
    EntryFits (· < 128) (SectionFits Name.Short (· < 128) (left + 3))
      (sectionArray (rows.map fun row => banSection row.1 row.2)) := by
  refine ⟨by decide, by rw [List.length_map, List.length_map]; exact hrows, ?_⟩
  intro item hitem
  obtain ⟨section_, hsection, rfl⟩ := List.mem_map.mp hitem
  obtain ⟨row, -, rfl⟩ := List.mem_map.mp hsection
  have hshort := names_short
  simp only [List.mem_cons, List.not_mem_nil, or_false, forall_eq_or_imp, forall_eq] at hshort
  obtain ⟨-, -, -, -, -, htarget, huntil, -⟩ := hshort
  have htext : row.1.text.length ≤ maxStringLen := Nat.le_trans row.1.length_text (by decide)
  exact ⟨rfl, (((holds_nil (left + 2)).insert (by decide) htarget (by exact htext)).insert
    (by decide) huntil (by trivial)).1⟩

theorem length_listedRecords (m : PeerTable) : (listedRecords m).length = m.size := by
  rw [listedRecords, sorted, List.length_insertionSort, List.length_map]
  rfl

theorem length_anchorRecords (b : AddressBook) : b.anchorRecords.length = b.anchors.size := by
  rw [anchorRecords, sorted, List.length_insertionSort, List.length_map]
  rfl

theorem fits_stateSection {b : AddressBook} (hwhite : b.white.size ≤ epeeVarintMax)
    (hgray : b.gray.size ≤ epeeVarintMax) (hcount : b.Countable) :
    SectionFits Name.Short (· < 128) recursionLimit b.stateSection := by
  have hshort := names_short
  simp only [List.mem_cons, List.not_mem_nil, or_false, forall_eq_or_imp, forall_eq] at hshort
  obtain ⟨hversion, hw, hg, ha, hb, -⟩ := hshort
  have hfour : Holds 99 5 b.stateSection :=
    (((((holds_nil 99).insert (by decide) hversion (by trivial)).insert (by decide) hw
      (fits_peers (by rw [length_listedRecords]; exact hwhite))).insert (by decide) hg
      (fits_peers (by rw [length_listedRecords]; exact hgray))).insert (by decide) ha
      (fits_peers (by rw [length_anchorRecords]; exact hcount.1))).insert (by decide) hb
      (fits_bans hcount.2)
  exact hfour.1

/-- A book that is not too large is read as what its lists and its bans are put together to. -/
theorem fromBytes_toBytes {b : AddressBook} (hwhite : b.white.size ≤ epeeVarintMax)
    (hgray : b.gray.size ≤ epeeVarintMax) (hcount : b.Countable) (allowLocal : Bool) :
    fromBytes b.toBytes allowLocal = .ok (assemble allowLocal
      ((listedRecords b.white).map PeerRecord.unscoped)
      ((listedRecords b.gray).map PeerRecord.unscoped)
      (b.anchorRecords.map PeerRecord.unscoped) b.bans.rows) := by
  obtain ⟨out, hwrite, hread, -, -⟩ :=
    blob_written (fun _ h => h) (fun _ h => h) (fits_stateSection hwhite hgray hcount)
  obtain ⟨hversion, hw, hg, ha, -⟩ := lookup_stateSection b
  have hbytes : b.toBytes = out := by
    rw [toBytes, hwrite]
  have hfound : numberOr0 Names.version b.stateSection = stateVersion := by
    rw [numberOr0, hversion]
    rfl
  rw [fromBytes, hbytes, hread]
  simp only [hfound, savedRecords_eq hw, savedRecords_eq hg, savedRecords_eq ha, savedBans_eq]
  rw [if_neg (not_not.mpr rfl)]

/-- What is written of the rows of a section is written of each. -/
theorem written_rows {rows : Section} {out : List UInt8} (h : writeRows rows = .ok out) :
    ∀ row ∈ rows, ∃ bytes, writeEntryValue row.2 = .ok bytes := by
  induction rows generalizing out with
  | nil => exact fun row hrow => absurd hrow List.not_mem_nil
  | cons row rows ih =>
      obtain ⟨name, value⟩ := row
      rw [writeRows] at h
      split at h
      case isTrue => cases h
      case isFalse =>
        cases hvalue : writeEntryValue value with
        | error e =>
            rw [hvalue] at h
            cases h
        | ok bytes =>
            cases hrest : writeRows rows with
            | error e =>
                rw [hvalue, hrest] at h
                cases h
            | ok rest =>
                intro row hrow
                rcases List.mem_cons.mp hrow with rfl | hmem
                · exact ⟨bytes, hvalue⟩
                · exact ih hrest row hmem

theorem written_array {elemType : UInt8} {items : List Value} {out : List UInt8}
    (h : writeEntryValue (.array elemType items) = .ok out) : items.length ≤ epeeVarintMax := by
  by_contra hmany
  have hlarge : epeeVarintMax < items.length := Nat.lt_of_not_le hmany
  have hfail : writeEpeeVarint items.length
      = .error (.limitExceeded "epee varint > 2^62 - 1") := by
    unfold epeeVarintMax at hlarge
    unfold writeEpeeVarint epeeVarintMax
    rw [if_neg (by omega), if_neg (by omega), if_neg (by omega), if_neg (by omega)]
  rw [writeEntryValue, hfail] at h
  cases h

theorem mem_of_lookup {name : Name} {value : Value} {s : Section} (h : lookup name s = some value) :
    (name, value) ∈ s := by
  induction s with
  | nil => cases h
  | cons row rows ih =>
      rw [lookup] at h
      split at h
      case isTrue heq =>
        rw [← heq, ← Option.some.inj h]
        exact List.mem_cons_self
      case isFalse => exact List.mem_cons_of_mem _ (ih h)

/-- A book that is read at all was not too large to be saved. -/
theorem countable_of_fromBytes {b b' : AddressBook} {allowLocal : Bool}
    (h : fromBytes b.toBytes allowLocal = .ok b') : b.Countable := by
  cases hwrite : Epee.toBytes b.stateSection with
  | error e =>
      rw [fromBytes, toBytes, hwrite] at h
      cases h
  | ok out =>
      cases hrows : writeRows b.stateSection with
      | error e =>
          rw [Epee.toBytes, writeSection] at hwrite
          cases hcount : writeEpeeVarint b.stateSection.length with
          | error e' =>
              rw [hcount] at hwrite
              cases hwrite
          | ok count =>
              rw [hcount, hrows] at hwrite
              cases hwrite
      | ok rows =>
          obtain ⟨-, -, -, ha, hb⟩ := lookup_stateSection b
          obtain ⟨anchorBytes, hanchors⟩ := written_rows hrows _ (mem_of_lookup ha)
          obtain ⟨banBytes, hbans⟩ := written_rows hrows _ (mem_of_lookup hb)
          have hfewAnchors := written_array hanchors
          have hfewBans := written_array hbans
          rw [List.length_map, List.length_map, List.length_map, length_anchorRecords]
            at hfewAnchors
          rw [List.length_map, List.length_map] at hfewBans
          exact ⟨hfewAnchors, hfewBans⟩

end AddressBook

end Wownero.Peers

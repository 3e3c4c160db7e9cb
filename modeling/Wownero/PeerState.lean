import Wownero.AddressBook
import Wownero.Sections
/-!
# The saved address book

The address book as a section of portable storage: how it is saved, and how a book is put together
from what was saved.  Entries that do not parse are skipped.
-/

namespace Wownero.Peers

open Epee IpText

/-- `section_array`. -/
def sectionArray (items : List Section) : Value := .array 12 (items.map .object)

/-- `ok_or(missing(what))`. -/
def orMissing {α : Type} (what : String) : Option α → Except String α
  | some a => .ok a
  | none => .error what

namespace Names

def version : Name := .ofChars ['v', 'e', 'r', 's', 'i', 'o', 'n']
def white : Name := .ofChars ['w', 'h', 'i', 't', 'e']
def gray : Name := .ofChars ['g', 'r', 'a', 'y']
def anchor : Name := .ofChars ['a', 'n', 'c', 'h', 'o', 'r']
def bans : Name := .ofChars ['b', 'a', 'n', 's']
def target : Name := .ofChars ['t', 'a', 'r', 'g', 'e', 't']
def untilTime : Name := .ofChars ['u', 'n', 't', 'i', 'l']
def adr : Name := .ofChars ['a', 'd', 'r']
def id : Name := .ofChars ['i', 'd']
def lastSeen : Name := .ofChars ['l', 'a', 's', 't', '_', 's', 'e', 'e', 'n']
def pruningSeed : Name :=
  .ofChars ['p', 'r', 'u', 'n', 'i', 'n', 'g', '_', 's', 'e', 'e', 'd']
def rpcPort : Name := .ofChars ['r', 'p', 'c', '_', 'p', 'o', 'r', 't']
def type : Name := .ofChars ['t', 'y', 'p', 'e']
def addr : Name := .ofChars ['a', 'd', 'd', 'r']
def mIp : Name := .ofChars ['m', '_', 'i', 'p']
def mPort : Name := .ofChars ['m', '_', 'p', 'o', 'r', 't']
def host : Name := .ofChars ['h', 'o', 's', 't']
def port : Name := .ofChars ['p', 'o', 'r', 't']

end Names

/-- An unsigned integer of an entry that may be missing. -/
def numberOr0 (name : Name) (s : Section) : BitVec 64 := ((lookup name s).bind Value.asU64).getD 0

/-! ### Entries -/

namespace NetworkAddress

/-- The sixteen octets of an address, in order. -/
def octets16 (addr : BitVec 128) : List UInt8 := (leBytes 16 addr.toNat).reverse

/-- `to_section`. -/
def toSection (a : NetworkAddress) : Section :=
  let (kind, inner) : UInt8 × Section := match a with
    | .v4 ip port =>
        (1, insertRow Names.mPort (.leaf (.u16 port)) (insertRow Names.mIp (.leaf (.u32 ip)) []))
    | .v6 addr port =>
        (2, insertRow Names.mPort (.leaf (.u16 port))
          (insertRow Names.addr (.leaf (.string (octets16 addr))) []))
    | .hidden kind host port =>
        (kind, insertRow Names.port (.leaf (.u16 port))
          (insertRow Names.host (.leaf (.string host)) []))
  insertRow Names.addr (.object inner)
    (insertRow Names.type (.leaf (.u8 (BitVec.ofNat 8 kind.toNat))) [])

/-- `from_section`. -/
def fromSection (s : Section) : Except String NetworkAddress := do
  let kind ← orMissing "type" ((lookup Names.type s).bind Value.asU64)
  let addr ← orMissing "addr" ((lookup Names.addr s).bind Value.asObject)
  match kind.toNat % 256 with
  | 1 =>
      let ip ← orMissing "m_ip" ((lookup Names.mIp addr).bind Value.asU64)
      return .v4 (ip.setWidth 32) ((numberOr0 Names.mPort addr).setWidth 16)
  | 2 =>
      let bytes ← orMissing "ipv6 addr" ((lookup Names.addr addr).bind Value.asBytes)
      if bytes.length ≠ 16 then throw "ipv6 length"
      return .v6 (BitVec.ofNat 128 (leNat bytes.reverse))
        ((numberOr0 Names.mPort addr).setWidth 16)
  | 3 | 4 =>
      let host := ((lookup Names.host addr).bind Value.asBytes).getD []
      return .hidden (UInt8.ofNat kind.toNat) (Utf8.repair host)
        ((numberOr0 Names.port addr).setWidth 16)
  | _ => throw "unknown network address type"

end NetworkAddress

namespace PeerlistEntry

/-- `to_section`.  What is zero by default is left out. -/
def toSection (e : PeerlistEntry) : Section :=
  let s := insertRow Names.id (.leaf (.u64 e.id))
    (insertRow Names.adr (.object e.address.toSection) [])
  let s := if e.lastSeen ≠ 0 then insertRow Names.lastSeen (.leaf (.i64 e.lastSeen)) s else s
  let s := if e.pruningSeed ≠ 0 then
    insertRow Names.pruningSeed (.leaf (.u32 e.pruningSeed)) s else s
  if e.rpcPort ≠ 0 then insertRow Names.rpcPort (.leaf (.u16 e.rpcPort)) s else s

/-- `from_section`. -/
def fromSection (s : Section) : Except String PeerlistEntry := do
  let addr ← orMissing "adr" ((lookup Names.adr s).bind Value.asObject)
  let address ← NetworkAddress.fromSection addr
  return {
    address := address
    id := numberOr0 Names.id s
    lastSeen := ((lookup Names.lastSeen s).bind Value.intOf).getD 0
    pruningSeed := (numberOr0 Names.pruningSeed s).setWidth 32
    rpcPort := (numberOr0 Names.rpcPort s).setWidth 16 }

end PeerlistEntry

/-- `peer_list_value`. -/
def peerListValue (peers : List PeerlistEntry) : Value :=
  sectionArray (peers.map PeerlistEntry.toSection)

/-! ### The book -/

namespace AddressBook

/-- What `sorted` sorts by: the most recently seen first, and of those the lower address. -/
def SortsBefore (r r' : PeerRecord) : Prop :=
  r'.lastSeen.toInt < r.lastSeen.toInt ∨
    r'.lastSeen.toInt = r.lastSeen.toInt ∧ Ranked.rank r.addr ≤ Ranked.rank r'.addr

instance : DecidableRel SortsBefore := fun _ _ => inferInstanceAs (Decidable (_ ∨ _))

/-- `sorted`. -/
def sorted (v : List PeerRecord) : List PeerRecord := v.insertionSort SortsBefore

/-- The records of a list, as `white` and `gray` give them out. -/
def listedRecords (m : PeerTable) : List PeerRecord := sorted (m.rows.map fun row => row.2.record)

/-- `anchors`. -/
def anchorRecords (b : AddressBook) : List PeerRecord :=
  sorted (b.anchors.rows.map fun row => row.2)

/-- `STATE_VERSION`. -/
def stateVersion : BitVec 64 := 1

/-- A ban, as it is saved. -/
def banSection (target : BanTarget) (until_ : BitVec 64) : Section :=
  insertRow Names.untilTime (.leaf (.u64 until_))
    (insertRow Names.target (.leaf (.string target.text)) [])

/-- The section that is saved.  The order of the bans is that of a hash table, and does not matter
to what is read back. -/
def stateSection (b : AddressBook) : Section :=
  let entries := fun records => peerListValue (records.map PeerRecord.toEntry)
  let s := insertRow Names.version (.leaf (.u64 stateVersion)) []
  let s := insertRow Names.white (entries (listedRecords b.white)) s
  let s := insertRow Names.gray (entries (listedRecords b.gray)) s
  let s := insertRow Names.anchor (entries b.anchorRecords) s
  insertRow Names.bans (sectionArray (b.bans.rows.map fun row => banSection row.1 row.2)) s

/-- `to_bytes`. -/
def toBytes (b : AddressBook) : List UInt8 :=
  match Epee.toBytes b.stateSection with
  | .ok bytes => bytes
  | .error _ => []

/-- Why a state file is refused. -/
inductive LoadError where
  | notAState (e : Stop)
  | version (found : BitVec 64)
  deriving DecidableEq, Repr

/-- The records saved under a name. -/
def savedRecords (s : Section) (name : Name) : List PeerRecord :=
  (((lookup name s).bind Value.asArray).getD []).filterMap Value.asObject
    |>.filterMap (fun e => (PeerlistEntry.fromSection e).toOption)
    |>.filterMap PeerRecord.fromEntry

/-- A saved ban. -/
def savedBan (s : Section) : Option (BanTarget × BitVec 64) := do
  let text ← (lookup Names.target s).bind Value.asBytes
  let target ← if Utf8.valid text then BanTarget.parse text else none
  let until_ ← (lookup Names.untilTime s).bind Value.asU64
  return (target, until_)

/-- The bans saved. -/
def savedBans (s : Section) : List (BanTarget × BitVec 64) :=
  (((lookup Names.bans s).bind Value.asArray).getD []).filterMap Value.asObject
    |>.filterMap savedBan

/-- A book put together: the lists are saved most recently seen first, and read oldest first. -/
def assemble (allowLocal : Bool) (white gray anchors : List PeerRecord)
    (bans : List (BanTarget × BitVec 64)) : AddressBook :=
  let book := white.reverse.foldl (fun b r => b.addWhite r true) (new allowLocal)
  let book := gray.reverse.foldl addGray book
  let book := anchors.foldl addAnchor book
  { book with bans := bans.foldl (fun t ban => t.put ban.1 ban.2) book.bans }

/-- `from_bytes`. -/
def fromBytes (bytes : List UInt8) (allowLocal : Bool) : Except LoadError AddressBook :=
  match Epee.fromBytes bytes with
  | .error e => .error (.notAState e)
  | .ok s =>
      let version := numberOr0 Names.version s
      if version ≠ stateVersion then .error (.version version)
      else .ok (assemble allowLocal (savedRecords s Names.white) (savedRecords s Names.gray)
        (savedRecords s Names.anchor) (savedBans s))

end AddressBook

end Wownero.Peers

import Mathlib.Data.List.Sort
import Wownero.BanTarget
import Wownero.Bytes
/-!
# The address book

Who a node knows about, whom it has verified and whom it has banned: three lists of peers and a
table of bans.  The white and the gray list keep with every entry when it arrived, and what they
have no room for goes in the order of `last_seen` and, where that is equal, of arrival.
-/

namespace Wownero.Peers

open IpText

/-! ### Addresses -/

/-- `SocketAddr`. -/
inductive SocketAddr where
  | v4 (ip : BitVec 32) (port : BitVec 16)
  | v6 (ip : BitVec 128) (port : BitVec 16) (flowinfo scopeId : BitVec 32)
  deriving DecidableEq, Repr

namespace SocketAddr

/-- `ip`. -/
def ip : SocketAddr → Ip
  | .v4 ip _ => .v4 ip
  | .v6 ip _ _ _ => .v6 ip

/-- `port`. -/
def port : SocketAddr → BitVec 16
  | .v4 _ port => port
  | .v6 _ port _ _ => port

/-- An address of the older kind comes before one of the newer; then the parts decide, in order. -/
instance : Ranked SocketAddr where
  rank
    | .v4 ip port => ip.toNat * 2 ^ 16 + port.toNat
    | .v6 ip port flowinfo scopeId =>
        2 ^ 48 + (((ip.toNat * 2 ^ 16 + port.toNat) * 2 ^ 32 + flowinfo.toNat) * 2 ^ 32
          + scopeId.toNat)
  rank_injective := by
    intro a b h
    cases a with
    | v4 ip port =>
        have hip := ip.isLt
        have hport := port.isLt
        cases b with
        | v4 ip' port' =>
            have hport' := port'.isLt
            simp only at h
            have h1 : ip = ip' := BitVec.eq_of_toNat_eq (by omega)
            have h2 : port = port' := BitVec.eq_of_toNat_eq (by omega)
            rw [h1, h2]
        | v6 ip' port' flowinfo scopeId =>
            simp only at h
            omega
    | v6 ip port flowinfo scopeId =>
        have hport := port.isLt
        have hflow := flowinfo.isLt
        have hscope := scopeId.isLt
        cases b with
        | v4 ip' port' =>
            have hip' := ip'.isLt
            have hport' := port'.isLt
            simp only at h
            omega
        | v6 ip' port' flowinfo' scopeId' =>
            have hport' := port'.isLt
            have hflow' := flowinfo'.isLt
            have hscope' := scopeId'.isLt
            simp only at h
            have h1 : ip = ip' := BitVec.eq_of_toNat_eq (by omega)
            have h2 : port = port' := BitVec.eq_of_toNat_eq (by omega)
            have h3 : flowinfo = flowinfo' := BitVec.eq_of_toNat_eq (by omega)
            have h4 : scopeId = scopeId' := BitVec.eq_of_toNat_eq (by omega)
            rw [h1, h2, h3, h4]

end SocketAddr

/-- `NetworkAddress`: an address as a message carries it.  The octets of an IPv4 address are in the
order of the wire, the first the lowest. -/
inductive NetworkAddress where
  | v4 (ip : BitVec 32) (port : BitVec 16)
  | v6 (addr : BitVec 128) (port : BitVec 16)
  | hidden (kind : UInt8) (host : List UInt8) (port : BitVec 16)
  deriving DecidableEq, Repr

/-- The octets the other way round. -/
def swapBytes (ip : BitVec 32) : BitVec 32 :=
  BitVec.ofNat 32 (leNat (leBytes 4 ip.toNat).reverse)

/-- `from_socket_addr`. -/
def NetworkAddress.fromSocketAddr : SocketAddr → NetworkAddress
  | .v4 ip port => .v4 (swapBytes ip) port
  | .v6 ip port _ _ => .v6 ip port

/-- `socket_addr`. -/
def NetworkAddress.socketAddr : NetworkAddress → Option SocketAddr
  | .v4 ip port => some (.v4 (swapBytes ip) port)
  | .v6 addr port => some (.v6 addr port 0 0)
  | .hidden .. => none

/-- `PeerlistEntry`. -/
structure PeerlistEntry where
  address : NetworkAddress
  id : BitVec 64
  lastSeen : BitVec 64
  pruningSeed : BitVec 32
  rpcPort : BitVec 16
  deriving DecidableEq, Repr

/-- `PeerRecord`.  The time it was last seen is signed. -/
structure PeerRecord where
  addr : SocketAddr
  id : BitVec 64
  lastSeen : BitVec 64
  pruningSeed : BitVec 32
  rpcPort : BitVec 16
  deriving DecidableEq, Repr

namespace PeerRecord

/-- `from_entry`. -/
def fromEntry (e : PeerlistEntry) : Option PeerRecord :=
  e.address.socketAddr.map fun addr => ⟨addr, e.id, e.lastSeen, e.pruningSeed, e.rpcPort⟩

/-- `to_entry`. -/
def toEntry (r : PeerRecord) : PeerlistEntry :=
  ⟨.fromSocketAddr r.addr, r.id, r.lastSeen, r.pruningSeed, r.rpcPort⟩

/-- `replacing`. -/
def replacing (r old : PeerRecord) (trustLastSeen : Bool) : PeerRecord where
  addr := r.addr
  id := r.id
  lastSeen := if trustLastSeen then r.lastSeen else old.lastSeen
  pruningSeed := if r.pruningSeed = 0 then old.pruningSeed else r.pruningSeed
  rpcPort := if r.rpcPort = 0 then old.rpcPort else r.rpcPort

end PeerRecord

/-- `IpAddr::is_loopback`. -/
def isLoopback : Ip → Bool
  | .v4 ip => ip.toNat / 2 ^ 24 = 127
  | .v6 ip => ip = 1

/-- `same_host`. -/
def sameHost (a b : SocketAddr) : Bool := a.ip = b.ip && !isLoopback a.ip

/-- `is_public`. -/
def isPublic : Ip → Bool
  | .v4 ip =>
      let a := ip.toNat / 2 ^ 24
      let b := ip.toNat / 2 ^ 16 % 256
      let c := ip.toNat / 2 ^ 8 % 256
      !(isLoopback (.v4 ip)
        || (a = 10 || (a = 172 && 16 ≤ b && b ≤ 31) || (a = 192 && b = 168))
        || (a = 169 && b = 254)
        || ip = BitVec.allOnes 32
        || ((a = 192 && b = 0 && c = 2) || (a = 198 && b = 51 && c = 100)
          || (a = 203 && b = 0 && c = 113))
        || ip = 0
        || (224 ≤ a && a ≤ 239)
        || a = 0
        || (a = 100 && b / 64 = 1))
  | .v6 ip =>
      let first := ip.toNat / 2 ^ 112
      !(isLoopback (.v6 ip) || ip = 0 || first / 2 ^ 8 = 0xff || first / 2 ^ 9 = 0xfc00 / 2 ^ 9
        || first / 2 ^ 6 = 0xfe80 / 2 ^ 6)

/-- `is_valid_pruning_seed`. -/
def isValidPruningSeed (seed : BitVec 32) : Bool :=
  let first := 3 * 2 ^ 7
  let last := first + (2 ^ 3 - 1)
  seed = 0 || (first ≤ seed.toNat && seed.toNat ≤ last)

/-! ### The lists -/

/-- `Listed`. -/
structure Listed where
  record : PeerRecord
  seq : Nat
  deriving DecidableEq, Repr

/-- What `trim` sorts by. -/
abbrev Age := Int × Nat × SocketAddr

def Listed.age (l : Listed) : Age := (l.record.lastSeen.toInt, l.seq, l.record.addr)

/-- The order of tuples. -/
def AgeLe (a b : Age) : Prop :=
  a.1 < b.1 ∨ a.1 = b.1 ∧
    (a.2.1 < b.2.1 ∨ a.2.1 = b.2.1 ∧ Ranked.rank a.2.2 ≤ Ranked.rank b.2.2)

instance : DecidableRel AgeLe := fun _ _ => inferInstanceAs (Decidable (_ ∨ _))

/-- A list of peers by address. -/
abbrev PeerTable := Table SocketAddr Listed

/-- The loop of `trim`. -/
def removeAll : List Age → PeerTable → PeerTable × List PeerRecord
  | [], m => (m, [])
  | (_, _, addr) :: ages, m =>
      match m.get addr with
      | some l =>
          let more := removeAll ages (m.del addr)
          (more.1, l.record :: more.2)
      | none => removeAll ages m

/-- `trim`: what is left, and what was evicted, in order. -/
def trim (m : PeerTable) (limit : Nat) : PeerTable × List PeerRecord :=
  if m.size ≤ limit then (m, [])
  else
    let byAge := (m.rows.map fun row => row.2.age).insertionSort AgeLe
    removeAll (byAge.take (m.size - limit)) m

/-- `WHITE_LIMIT`. -/
def whiteLimit : Nat := 1000

/-- `GRAY_LIMIT`. -/
def grayLimit : Nat := 5000

/-- `FAILS_BEFORE_BLOCK`. -/
def failsBeforeBlock : Nat := 10

/-- `FAILED_ADDR_FORGET_SECONDS`. -/
def failedAddrForgetSeconds : Nat := 3600

/-- `IP_BLOCKTIME`. -/
def ipBlocktime : Nat := 86400

/-- `AddressBook`.  Of the time a ban ends, all ones means never. -/
structure AddressBook where
  white : PeerTable
  gray : PeerTable
  anchors : Table SocketAddr PeerRecord
  bans : Table BanTarget (BitVec 64)
  fails : Table Ip (Nat × Nat)
  failedHosts : Table Ip Nat
  nextSeq : Nat
  allowLocal : Bool

namespace AddressBook

/-- `new`. -/
def new (allowLocal : Bool) : AddressBook :=
  ⟨.empty, .empty, .empty, .empty, .empty, .empty, 0, allowLocal⟩

/-- `is_listable`. -/
def isListable (allowLocal : Bool) (addr : SocketAddr) : Bool :=
  addr.port ≠ 0 && (allowLocal || isPublic addr.ip)

/-- `add_gray`. -/
def addGray (b : AddressBook) (rec : PeerRecord) : AddressBook :=
  if !isListable b.allowLocal rec.addr || b.white.has rec.addr then b
  else
    match b.gray.get rec.addr with
    | some existing =>
        let updated := { existing with record := rec.replacing existing.record false }
        { b with gray := b.gray.put rec.addr updated }
    | none =>
        let seq := b.nextSeq + 1
        { b with gray := (trim (b.gray.put rec.addr ⟨rec, seq⟩) grayLimit).1, nextSeq := seq }

/-- `add_white`. -/
def addWhite (b : AddressBook) (rec : PeerRecord) (trustLastSeen : Bool) : AddressBook :=
  if !isListable b.allowLocal rec.addr then b
  else
    let gray := b.gray.del rec.addr
    match b.white.get rec.addr with
    | some existing =>
        let updated := { existing with record := rec.replacing existing.record trustLastSeen }
        { b with gray := gray, white := b.white.put rec.addr updated }
    | none =>
        let others := b.white.retain fun a _ => !sameHost a rec.addr
        let seq := b.nextSeq + 1
        let trimmed := trim (others.put rec.addr ⟨rec, seq⟩) whiteLimit
        trimmed.2.foldl addGray { b with gray := gray, white := trimmed.1, nextSeq := seq }

/-- `is_addr_recently_failed`. -/
def isAddrRecentlyFailed (b : AddressBook) (ip : Ip) (now : Nat) : Bool :=
  match b.failedHosts.get ip with
  | some at_ => now - at_ ≤ failedAddrForgetSeconds
  | none => false

/-- The bans in force. -/
def dropExpired (b : AddressBook) (now : Nat) : AddressBook :=
  { b with bans := b.bans.retain fun _ until_ => now < until_.toNat }

/-- `is_banned`, and what is left of the bans. -/
def isBanned (b : AddressBook) (ip : Ip) (now : Nat) : Bool × AddressBook :=
  let b := b.dropExpired now
  (b.bans.rows.any fun row => row.1.covers ip, b)

/-- What is dropped from a list that a peer sent, before the bans are asked. -/
def dropped (b : AddressBook) (rec : PeerRecord) (now : Nat) : Bool :=
  let ownRpcPort := match rec.addr.ip with
    | .v4 _ => rec.addr.port = rec.rpcPort
    | .v6 _ => false
  !isPublic rec.addr.ip || ownRpcPort || !isValidPruningSeed rec.pruningSeed
    || b.isAddrRecentlyFailed rec.addr.ip now

/-- One entry of a list that a peer sent. -/
def mergeEntry (now : Nat) (b : AddressBook) (e : PeerlistEntry) : AddressBook :=
  match PeerRecord.fromEntry e with
  | none => b
  | some rec =>
      if b.dropped rec now then b
      else
        let (banned, b) := b.isBanned rec.addr.ip now
        if banned then b else b.addGray { rec with lastSeen := 0 }

/-- `merge_peerlist`. -/
def mergePeerlist (b : AddressBook) (peers : List PeerlistEntry) (now : Nat) : AddressBook :=
  peers.foldl (mergeEntry now) b

/-- `remove_gray`. -/
def removeGray (b : AddressBook) (addr : SocketAddr) : AddressBook :=
  { b with gray := b.gray.del addr }

/-- `record_addr_failed`. -/
def recordAddrFailed (b : AddressBook) (ip : Ip) (now : Nat) : AddressBook :=
  let kept := b.failedHosts.retain fun _ at_ => now - at_ ≤ failedAddrForgetSeconds
  { b with failedHosts := kept.put ip now }

/-- `add_anchor`. -/
def addAnchor (b : AddressBook) (rec : PeerRecord) : AddressBook :=
  if isListable b.allowLocal rec.addr then { b with anchors := b.anchors.put rec.addr rec } else b

/-- `remove_anchor`. -/
def removeAnchor (b : AddressBook) (addr : SocketAddr) : AddressBook :=
  { b with anchors := b.anchors.del addr }

/-- `clear_anchors`. -/
def clearAnchors (b : AddressBook) : AddressBook := { b with anchors := .empty }

/-- `ban`.  The sum stays below the end of time. -/
def ban (b : AddressBook) (target : BanTarget) (seconds now : Nat) : AddressBook :=
  { b with bans := b.bans.put target (BitVec.ofNat 64 (min (now + seconds) (2 ^ 64 - 1))) }

/-- `unban`. -/
def unban (b : AddressBook) (target : BanTarget) : AddressBook :=
  let fails := match target with
    | .host ip => b.fails.del ip
    | .subnet _ => b.fails
  { b with fails := fails, bans := b.bans.del target }

/-- `record_failure`. -/
def recordFailure (b : AddressBook) (ip : Ip) (now : Nat) : AddressBook :=
  let entry := (b.fails.get ip).getD (0, now)
  let entry := if failedAddrForgetSeconds < now - entry.2 then (0, now) else entry
  let count := entry.1 + 1
  if failsBeforeBlock ≤ count then
    { b with fails := b.fails.del ip }.ban (.host ip) ipBlocktime now
  else { b with fails := b.fails.put ip (count, entry.2) }

/-! ### Runs -/

/-- What is done to a book while its node runs. -/
inductive Op where
  | addGray (rec : PeerRecord)
  | addWhite (rec : PeerRecord) (trustLastSeen : Bool)
  | mergePeerlist (peers : List PeerlistEntry) (now : Nat)
  | removeGray (addr : SocketAddr)
  | recordAddrFailed (ip : Ip) (now : Nat)
  | addAnchor (rec : PeerRecord)
  | removeAnchor (addr : SocketAddr)
  | clearAnchors
  | ban (target : BanTarget) (seconds now : Nat)
  | unban (target : BanTarget)
  | dropExpired (now : Nat)
  | recordFailure (ip : Ip) (now : Nat)

def step (b : AddressBook) : Op → AddressBook
  | .addGray rec => b.addGray rec
  | .addWhite rec trustLastSeen => b.addWhite rec trustLastSeen
  | .mergePeerlist peers now => b.mergePeerlist peers now
  | .removeGray addr => b.removeGray addr
  | .recordAddrFailed ip now => b.recordAddrFailed ip now
  | .addAnchor rec => b.addAnchor rec
  | .removeAnchor addr => b.removeAnchor addr
  | .clearAnchors => b.clearAnchors
  | .ban target seconds now => b.ban target seconds now
  | .unban target => b.unban target
  | .dropExpired now => b.dropExpired now
  | .recordFailure ip now => b.recordFailure ip now

/-- A book after these operations. -/
def run (allowLocal : Bool) (ops : List Op) : AddressBook := ops.foldl step (new allowLocal)

end AddressBook

end Wownero.Peers

import Wownero.Codec
/-!
# Levin framing

The header every message of the peer network carries, messages cut into frames of one size, and what
puts them together again.  The source slices buffers, and a slice that is out of range ends in a
panic here, so that there being none can be said.
-/

namespace Wownero.Levin

open Wownero.Archive

/-! ### Headers -/

/-- `SIGNATURE`. -/
def signature : Blob := [0x01, 0x21, 0x01, 0x01, 0x01, 0x01, 0x01, 0x01]

/-- `HEADER_LEN`. -/
def headerLen : Nat := 33

/-- `PROTOCOL_VERSION`. -/
def protocolVersion : UInt32 := 1

namespace Flags

def request : UInt32 := 0x1

def response : UInt32 := 0x2

/-- `BEGIN`. -/
def begins : UInt32 := 0x4

/-- `END`. -/
def ends : UInt32 := 0x8

end Flags

/-- `Kind`. -/
inductive Kind where
  | notification
  | request
  | response
  | fragmentBegin
  | fragmentMiddle
  | fragmentEnd
  | dummy
  | unknown
  deriving DecidableEq, Repr

/-- `LevinError`. -/
inductive LevinError where
  | shortHeader (found : Nat)
  | badSignature (found : Blob)
  | tooLarge (length limit : UInt64)
  | badVersion (found : UInt32)
  | fragmentWithoutBegin
  | fragmentTooShort (found : Nat)
  | fragmentShortBody (found declared : UInt64)
  | fragmentTooLarge (length : Nat) (limit : UInt64)
  deriving DecidableEq, Repr

/-- What ends a step: an error, a panic at an access out of range, or one at a vector grown past the
largest there is. -/
inductive Stop where
  | failed (e : LevinError)
  | outOfRange
  | capacity
  deriving DecidableEq, Repr

/-- `isize::MAX`, the most bytes a vector holds. -/
def isizeMax : Nat := 2 ^ 63 - 1

/-- `Header`.  The return code is its bits. -/
structure Header where
  length : UInt64
  expectResponse : Bool
  command : UInt32
  returnCode : UInt32
  flags : UInt32
  version : UInt32
  deriving DecidableEq, Repr

/-- `&buf[start..stop]`. -/
def slice (buf : Blob) (start stop : Nat) : Except Stop Blob :=
  if start ≤ stop ∧ stop ≤ buf.length then .ok ((buf.drop start).take (stop - start))
  else .error .outOfRange

/-- `u32::from_le_bytes` of a slice. -/
def u32At (buf : Blob) (start : Nat) : Except Stop UInt32 := do
  return UInt32.ofNat (leNat (← slice buf start (start + 4)))

namespace Header

/-- `Header::read`. -/
def read (buf : Blob) (limit : UInt64) : Except Stop Header := do
  if buf.length < headerLen then throw (.failed (.shortHeader buf.length))
  let sig ← slice buf 0 8
  if sig ≠ signature then throw (.failed (.badSignature sig))
  let length := UInt64.ofNat (leNat (← slice buf 8 16))
  if limit < length then throw (.failed (.tooLarge length limit))
  let version ← u32At buf 29
  if version ≠ protocolVersion then throw (.failed (.badVersion version))
  let expects ← slice buf 16 17
  return {
    length := length
    expectResponse := expects ≠ [0]
    command := ← u32At buf 17
    returnCode := ← u32At buf 21
    flags := ← u32At buf 25
    version := version }

/-- `Header::write`. -/
def write (h : Header) : Blob :=
  signature ++ (leBytes 8 h.length.toNat ++ ((if h.expectResponse then 1 else 0) ::
    (leBytes 4 h.command.toNat ++ (leBytes 4 h.returnCode.toNat ++
      (leBytes 4 h.flags.toNat ++ leBytes 4 h.version.toNat)))))

/-- `Header::kind`. -/
def kind (h : Header) : Kind :=
  let q : Bool := h.flags &&& Flags.request != 0
  let s : Bool := h.flags &&& Flags.response != 0
  let b : Bool := h.flags &&& Flags.begins != 0
  let e : Bool := h.flags &&& Flags.ends != 0
  match q, s, b, e with
  | false, false, true, true => .dummy
  | true, false, false, false => if h.expectResponse then .request else .notification
  | false, true, false, false => .response
  | false, false, true, false => .fragmentBegin
  | false, false, false, false => .fragmentMiddle
  | false, false, false, true => .fragmentEnd
  | _, _, _, _ => .unknown

/-- `Header::notification`. -/
def notification (command : UInt32) (length : UInt64) : Header :=
  ⟨length, false, command, 0, Flags.request, protocolVersion⟩

end Header

/-! ### Frames -/

/-- A header and its body, as they are sent. -/
structure Frame where
  header : Header
  body : Blob
  deriving DecidableEq, Repr

/-- `encode`. -/
def Frame.encode (f : Frame) : Blob := f.header.write ++ f.body

/-- Frames cut off the front of a buffer, and what is left of it: the loop of `FrameReader::take`, for
so many frames at most.  A stream that is not Levin is refused as soon as its signature is there. -/
def cut (limit : UInt64) : Nat → Blob → Except Stop (List Frame × Blob)
  | 0, buf => .ok ([], buf)
  | fuel + 1, buf =>
      if signature.length ≤ buf.length ∧ buf.take 8 ≠ signature then
        .error (.failed (.badSignature (buf.take 8)))
      else if buf.length < headerLen then .ok ([], buf)
      else do
        let header ← Header.read (buf.take headerLen) limit
        let total := headerLen + header.length.toNat
        if buf.length < total then return ([], buf)
        let body ← slice buf headerLen total
        let (frames, rest) ← cut limit fuel (buf.drop total)
        return (⟨header, body⟩ :: frames, rest)

/-- A frame without a command and without an answer, of this length and with these flags. -/
def fragment (flags : UInt32) (space : Nat) (piece : Blob) : Frame :=
  ⟨⟨UInt64.ofNat space, false, 0, 0, flags, protocolVersion⟩,
    piece ++ List.replicate (space - piece.length) 0⟩

/-- `noise_notify`. -/
def noiseNotify (bytes : Nat) : Option Blob :=
  if bytes < headerLen then none
  else some (fragment (Flags.begins ||| Flags.ends) (bytes - headerLen) []).encode

/-- The loop of `fragmented_notify` over the message. -/
def fragments (space : Nat) : Nat → Bool → Blob → List Frame
  | 0, _, _ => []
  | fuel + 1, first, rest =>
      if rest.isEmpty then []
      else
        let piece := rest.take space
        let tail := rest.drop space
        let flags := if first then Flags.begins else if tail.isEmpty then Flags.ends else 0
        fragment flags space piece :: fragments space fuel false tail

/-- `fragmented_notify`. -/
def fragmentedNotify (frame : Nat) (command : UInt32) (body : Blob) : Option Blob := do
  if frame < headerLen * 2 then none
  let total ← checkedAdd headerLen body.length
  if total ≤ frame then
    let header := Header.notification command (UInt64.ofNat (frame - headerLen))
    return header.write ++ (body ++ List.replicate (frame - total) 0)
  else
    let message := (Header.notification command (UInt64.ofNat body.length)).write ++ body
    return (fragments (frame - headerLen) message.length true message).flatMap Frame.encode

/-! ### Putting together -/

/-- `Reassembler`. -/
structure Reassembler where
  buf : Blob
  inProgress : Bool
  deriving DecidableEq, Repr

/-- `Reassembly`. -/
inductive Reassembly where
  | notAFragment
  | discarded
  | buffered
  | complete (header : Header) (body : Blob)
  deriving DecidableEq, Repr

namespace Reassembler

/-- `Reassembler::new`. -/
def new : Reassembler := ⟨[], false⟩

/-- `extend`. -/
def extend (r : Reassembler) (body : Blob) (limit : UInt64) : Reassembler × Except Stop Unit :=
  let next := saturatingAdd r.buf.length body.length
  if limit.toNat < next then (new, .error (.failed (.fragmentTooLarge next limit)))
  else if isizeMax < r.buf.length + body.length then (r, .error .capacity)
  else ({ r with buf := r.buf ++ body }, .ok ())

/-- The message in what was put together: its header, and as much behind it as that declares.
Anything after is padding. -/
def unwrap (whole : Blob) (limit : UInt64) : Except Stop Reassembly := do
  let nested ← (Header.read whole limit).mapError fun
    | .failed (.shortHeader found) => .failed (.fragmentTooShort found)
    | other => other
  let found := UInt64.ofNat (whole.length - headerLen)
  if found < nested.length then throw (.failed (.fragmentShortBody found nested.length))
  return .complete nested (← slice whole headerLen (headerLen + nested.length.toNat))

/-- `push`. -/
def push (r : Reassembler) (header : Header) (body : Blob) (limit : UInt64) :
    Reassembler × Except Stop Reassembly :=
  match header.kind with
  | .dummy => (r, .ok .discarded)
  | .fragmentBegin =>
      let (r, extended) := extend ⟨[], true⟩ body limit
      (r, extended.map fun _ => .buffered)
  | .fragmentMiddle =>
      if !r.inProgress then (r, .error (.failed .fragmentWithoutBegin))
      else
        let (r, extended) := r.extend body limit
        (r, extended.map fun _ => .buffered)
  | .fragmentEnd =>
      if !r.inProgress then (r, .error (.failed .fragmentWithoutBegin))
      else
        match r.extend body limit with
        | (r, .error e) => (r, .error e)
        | (r, .ok ()) => (⟨[], false⟩, unwrap r.buf limit)
  | _ => (r, .ok .notAFragment)

/-- Frames fed one after the other, each under the limit in force: what the buffer is after each, and
what was decided. -/
def feed : Reassembler → List (Frame × UInt64) → List (Reassembler × Except Stop Reassembly)
  | _, [] => []
  | r, (f, limit) :: fed =>
      let step := r.push f.header f.body limit
      step :: feed step.1 fed

/-- What a frame has its reader hand on: itself, the message it completes, or nothing. -/
def handedOn (f : Frame) : Reassembly → List Frame
  | .notAFragment => [f]
  | .complete header body => [⟨header, body⟩]
  | .discarded => []
  | .buffered => []

/-- The messages a reader hands on out of these frames, and the reassembler after the last of them. -/
def deliver (limit : UInt64) : Reassembler → List Frame → Except Stop (List Frame × Reassembler)
  | r, [] => .ok ([], r)
  | r, f :: fed => do
      let step := r.push f.header f.body limit
      let decided ← step.2
      let (messages, last) ← deliver limit step.1 fed
      return (handedOn f decided ++ messages, last)

end Reassembler

/-! ### Reading what was written -/

theorem slice_at {buf : Blob} (before : Blob) {piece : Blob} (after : Blob) {start stop : Nat}
    (hbuf : buf = before ++ (piece ++ after)) (hstart : before.length = start)
    (hstop : start + piece.length = stop) : slice buf start stop = .ok piece := by
  subst hbuf hstart hstop
  rw [slice, if_pos (by simp), List.drop_left, Nat.add_sub_cancel_left, List.take_left]

theorem u32At_at {buf : Blob} (before after : Blob) {start : Nat} {v : UInt32}
    (hbuf : buf = before ++ (leBytes 4 v.toNat ++ after)) (hstart : before.length = start) :
    u32At buf start = .ok v := by
  have hslice := slice_at before after hbuf hstart (by rw [length_leBytes])
  rw [u32At, hslice]
  show Except.ok (UInt32.ofNat (leNat (leBytes 4 v.toNat))) = _
  rw [leNat_leBytes, Nat.mod_eq_of_lt (show v.toNat < 256 ^ 4 from v.toNat_lt), UInt32.ofNat_toNat]

namespace Header

theorem length_write (h : Header) : h.write.length = headerLen := by
  simp [write, signature, headerLen, length_leBytes]

/-- What `write` puts down, `read` takes for the header it was, whatever is behind it. -/
theorem read_write (h : Header) {limit : UInt64} (rest : Blob) (hversion : h.version = protocolVersion)
    (hlimit : h.length ≤ limit) : read (h.write ++ rest) limit = .ok h := by
  set expects : UInt8 := if h.expectResponse then 1 else 0 with hexpects
  have hbuf : h.write ++ rest = signature ++ (leBytes 8 h.length.toNat ++ ([expects] ++
      (leBytes 4 h.command.toNat ++ (leBytes 4 h.returnCode.toNat ++ (leBytes 4 h.flags.toNat ++
        (leBytes 4 h.version.toNat ++ rest)))))) := by
    simp [write, hexpects]
  have hlength : ¬ (h.write ++ rest).length < headerLen := by
    rw [List.length_append, length_write]
    exact Nat.not_lt.mpr (Nat.le_add_right _ _)
  have hsig : slice (h.write ++ rest) 0 8 = .ok signature :=
    slice_at [] _ hbuf rfl rfl
  have hlen : slice (h.write ++ rest) 8 16 = .ok (leBytes 8 h.length.toNat) :=
    slice_at signature _ hbuf rfl (by rw [length_leBytes])
  have hver : u32At (h.write ++ rest) 29 = .ok h.version := by
    refine u32At_at (signature ++ leBytes 8 h.length.toNat ++ [expects] ++
      leBytes 4 h.command.toNat ++ leBytes 4 h.returnCode.toNat ++ leBytes 4 h.flags.toNat)
      rest (hbuf.trans ?_) ?_
    · simp only [List.append_assoc]
    · simp [length_leBytes, signature]
  have hexp : slice (h.write ++ rest) 16 17 = .ok [expects] := by
    refine slice_at (signature ++ leBytes 8 h.length.toNat) (leBytes 4 h.command.toNat ++
      (leBytes 4 h.returnCode.toNat ++ (leBytes 4 h.flags.toNat ++
        (leBytes 4 h.version.toNat ++ rest)))) (hbuf.trans ?_) ?_ rfl
    · simp only [List.append_assoc]
    · simp [length_leBytes, signature]
  have hcommand : u32At (h.write ++ rest) 17 = .ok h.command := by
    refine u32At_at (signature ++ leBytes 8 h.length.toNat ++ [expects])
      (leBytes 4 h.returnCode.toNat ++ (leBytes 4 h.flags.toNat ++
        (leBytes 4 h.version.toNat ++ rest))) (hbuf.trans ?_) ?_
    · simp only [List.append_assoc]
    · simp [length_leBytes, signature]
  have hcode : u32At (h.write ++ rest) 21 = .ok h.returnCode := by
    refine u32At_at (signature ++ leBytes 8 h.length.toNat ++ [expects] ++ leBytes 4 h.command.toNat)
      (leBytes 4 h.flags.toNat ++ (leBytes 4 h.version.toNat ++ rest)) (hbuf.trans ?_) ?_
    · simp only [List.append_assoc]
    · simp [length_leBytes, signature]
  have hflags : u32At (h.write ++ rest) 25 = .ok h.flags := by
    refine u32At_at (signature ++ leBytes 8 h.length.toNat ++ [expects] ++
      leBytes 4 h.command.toNat ++ leBytes 4 h.returnCode.toNat)
      (leBytes 4 h.version.toNat ++ rest) (hbuf.trans ?_) ?_
    · simp only [List.append_assoc]
    · simp [length_leBytes, signature]
  have hdeclared : UInt64.ofNat (leNat (leBytes 8 h.length.toNat)) = h.length := by
    rw [leNat_leBytes, Nat.mod_eq_of_lt (show h.length.toNat < 256 ^ 8 from h.length.toNat_lt),
      UInt64.ofNat_toNat]
  have hanswers : decide (¬ ([expects] : Blob) = [0]) = h.expectResponse := by
    rw [hexpects]
    cases h.expectResponse <;> decide
  have hin : ¬ limit < h.length := UInt64.not_lt.mpr hlimit
  generalize h.write ++ rest = buf at *
  simp only [read, bind, Except.bind, pure, Except.pure, hlength, hsig, hlen, hdeclared, hin, hver,
    hversion, hexp, hcommand, hcode, hflags, hanswers, if_false, ne_eq, not_true_eq_false]
  rw [← hversion]

end Header

theorem slice_inRange {buf : Blob} {start stop : Nat} (h : start ≤ stop) (hstop : stop ≤ buf.length) :
    ∃ piece, slice buf start stop = .ok piece :=
  ⟨_, if_pos ⟨h, hstop⟩⟩

theorem u32At_inRange {buf : Blob} {start : Nat} (hstop : start + 4 ≤ buf.length) :
    ∃ v, u32At buf start = .ok v := by
  obtain ⟨piece, hpiece⟩ := slice_inRange (Nat.le_add_right start 4) hstop
  exact ⟨_, by rw [u32At, hpiece]; rfl⟩

/-- What `Header.read` makes of a buffer long enough for a header: three checks, in this order. -/
theorem Header.read_eq {buf : Blob} (limit : UInt64) (hbuf : headerLen ≤ buf.length) :
    ∃ (sig : Blob) (h : Header), Header.read buf limit =
      if sig ≠ signature then .error (.failed (.badSignature sig))
      else if limit < h.length then .error (.failed (.tooLarge h.length limit))
      else if h.version ≠ protocolVersion then .error (.failed (.badVersion h.version))
      else .ok h := by
  have hstop {n : Nat} (hn : n ≤ 33) : n ≤ buf.length := hn.trans hbuf
  obtain ⟨sig, hsig⟩ := slice_inRange (Nat.zero_le 8) (hstop (by decide))
  obtain ⟨declared, hdeclared⟩ := slice_inRange (show 8 ≤ 16 by decide) (hstop (by decide))
  obtain ⟨expects, hexpects⟩ := slice_inRange (show 16 ≤ 17 by decide) (hstop (by decide))
  obtain ⟨command, hcommand⟩ := u32At_inRange (hstop (show 17 + 4 ≤ 33 by decide))
  obtain ⟨code, hcode⟩ := u32At_inRange (hstop (show 21 + 4 ≤ 33 by decide))
  obtain ⟨flags, hflags⟩ := u32At_inRange (hstop (show 25 + 4 ≤ 33 by decide))
  obtain ⟨version, hversion⟩ := u32At_inRange (hstop (show 29 + 4 ≤ 33 by decide))
  refine ⟨sig, ⟨UInt64.ofNat (leNat declared), expects ≠ [0], command, code, flags, version⟩, ?_⟩
  simp only [Header.read, bind, Except.bind, pure, Except.pure, Nat.not_lt.mpr hbuf, if_false, hsig,
    hdeclared, hexpects, hcommand, hcode, hflags, hversion]
  by_cases hs : sig = signature
  · simp only [hs, ne_eq, not_true_eq_false, if_false]
    by_cases hl : limit < UInt64.ofNat (leNat declared)
    · simp only [hl, if_true]
      rfl
    · simp only [hl, if_false]
      by_cases hv : version = protocolVersion
      · simp only [hv, not_true_eq_false, if_false]
      · simp only [hv, not_false_eq_true, if_true]
        rfl
  · simp only [hs, ne_eq, not_false_eq_true, if_true]
    rfl

/-- Nothing that is read of a buffer lies behind its end. -/
theorem Header.read_error {buf : Blob} {limit : UInt64} {s : Stop}
    (h : Header.read buf limit = .error s) : ∃ e, s = .failed e := by
  by_cases hbuf : buf.length < headerLen
  · simp only [Header.read, bind, Except.bind, hbuf, if_true] at h
    cases h
    exact ⟨_, rfl⟩
  · obtain ⟨sig, header, hread⟩ := Header.read_eq limit (Nat.not_lt.mp hbuf)
    rw [hread] at h
    split at h
    · cases h
      exact ⟨_, rfl⟩
    · split at h
      · cases h
        exact ⟨_, rfl⟩
      · split at h
        · cases h
          exact ⟨_, rfl⟩
        · cases h

theorem Header.read_ok {buf : Blob} {limit : UInt64} {header : Header}
    (h : Header.read buf limit = .ok header) :
    headerLen ≤ buf.length ∧ header.length ≤ limit := by
  by_cases hbuf : buf.length < headerLen
  · simp only [Header.read, bind, Except.bind, hbuf, if_true] at h
    cases h
  · obtain ⟨sig, read, hread⟩ := Header.read_eq limit (Nat.not_lt.mp hbuf)
    rw [hread] at h
    split at h
    · cases h
    · split at h
      · cases h
      · next hlimit =>
        split at h
        · cases h
        · cases h
          exact ⟨Nat.not_lt.mp hbuf, UInt64.not_lt.mp hlimit⟩

/-! ### Cutting -/

/-- The header is one `write` puts down, and declares the body there is. -/
structure Frame.Fits (limit : UInt64) (f : Frame) : Prop where
  version : f.header.version = protocolVersion
  limit : f.header.length ≤ limit
  body : f.header.length.toNat = f.body.length

theorem Frame.length_encode (f : Frame) : f.encode.length = headerLen + f.body.length := by
  rw [Frame.encode, List.length_append, Header.length_write]

theorem take_write (h : Header) (rest : Blob) : (h.write ++ rest).take 8 = signature := rfl

/-- Frames sent one behind the other are cut where they were joined. -/
theorem cut_encode {limit : UInt64} (frames : List Frame) (hfits : ∀ f ∈ frames, f.Fits limit)
    (fuel : Nat) (hfuel : frames.length ≤ fuel) :
    cut limit fuel (frames.flatMap Frame.encode) = .ok (frames, []) := by
  induction frames generalizing fuel with
  | nil => cases fuel <;> rfl
  | cons f frames ih =>
    obtain ⟨fuel, rfl⟩ := Nat.exists_eq_succ_of_ne_zero (show fuel ≠ 0 from by
      rintro rfl
      cases hfuel)
    have hf := hfits f (List.mem_cons_self ..)
    have hbuf : (f :: frames).flatMap Frame.encode =
        f.header.write ++ (f.body ++ frames.flatMap Frame.encode) := by
      rw [List.flatMap_cons, Frame.encode, List.append_assoc]
    set rest := frames.flatMap Frame.encode with hrest
    have hhead : (f.header.write ++ (f.body ++ rest)).take headerLen = f.header.write ++ [] := by
      rw [← Header.length_write f.header, List.take_left, List.append_nil]
    have hlen : (f.header.write ++ (f.body ++ rest)).length = headerLen + (f.body.length + rest.length) := by
      rw [List.length_append, List.length_append, Header.length_write]
    have hslice : slice (f.header.write ++ (f.body ++ rest)) headerLen (headerLen + f.body.length) =
        .ok f.body := slice_at f.header.write rest rfl (Header.length_write _) rfl
    have hdrop : (f.header.write ++ (f.body ++ rest)).drop (headerLen + f.body.length) = rest := by
      rw [← List.append_assoc, ← Header.length_write f.header, ← List.length_append, List.drop_left]
    have hnext := ih (fun g hg => hfits g (List.mem_cons_of_mem _ hg)) fuel (Nat.le_of_succ_le_succ hfuel)
    rw [hbuf, cut, if_neg (fun h => h.2 (take_write _ _)), if_neg (by omega), hhead,
      Header.read_write f.header [] hf.version hf.limit]
    show (if _ < headerLen + f.header.length.toNat then _ else _) = _
    rw [hf.body, if_neg (by omega), hslice, hdrop, hnext]
    rfl

/-! ### A message in frames -/

theorem length_encode_fragment (flags : UInt32) {space : Nat} {piece : Blob}
    (hpiece : piece.length ≤ space) : (fragment flags space piece).encode.length = headerLen + space := by
  rw [Frame.length_encode, fragment, List.length_append, List.length_replicate,
    Nat.add_sub_cancel' hpiece]

theorem kind_fragment (flags : UInt32) (space : Nat) (piece : Blob) :
    (fragment flags space piece).header.kind = Header.kind ⟨0, false, 0, 0, flags, protocolVersion⟩ :=
  rfl

theorem Header.kind_notification (command : UInt32) (length : UInt64) :
    (Header.notification command length).kind = .notification := by
  have hrequest : (Flags.request &&& Flags.request != 0) = true := by decide
  have hresponse : (Flags.request &&& Flags.response != 0) = false := by decide
  have hbegins : (Flags.request &&& Flags.begins != 0) = false := by decide
  have hends : (Flags.request &&& Flags.ends != 0) = false := by decide
  simp only [Header.kind, Header.notification, hrequest, hresponse, hbegins, hends]
  rfl

theorem fragment_fits (flags : UInt32) {limit : UInt64} {space : Nat} {piece : Blob}
    (hpiece : piece.length ≤ space) (hspace : space ≤ limit.toNat) :
    (fragment flags space piece).Fits limit := by
  have hwide : (UInt64.ofNat space).toNat = space :=
    UInt64.toNat_ofNat_of_lt' (hspace.trans_lt limit.toNat_lt)
  refine ⟨rfl, ?_, ?_⟩
  · rw [UInt64.le_iff_toNat_le]
    exact hwide.trans_le hspace
  · show (UInt64.ofNat space).toNat = (piece ++ List.replicate (space - piece.length) 0).length
    rw [hwide, List.length_append, List.length_replicate, Nat.add_sub_cancel' hpiece]

/-- What as many bytes take up in pieces of one size. -/
def padded (space n : Nat) : Nat := (n + space - 1) / space * space

theorem padded_of_le {space n : Nat} (hn : 0 < n) (h : n ≤ space) : padded space n = space := by
  have hdiv : (n + space - 1) / space = 1 := by
    rw [Nat.div_eq_iff (by omega)]
    omega
  rw [padded, hdiv, Nat.one_mul]

theorem padded_of_gt {space n : Nat} (hspace : 0 < space) (h : space < n) :
    padded space n = space + padded space (n - space) := by
  have hsplit : n + space - 1 = n - space + space - 1 + space := by omega
  rw [padded, hsplit, Nat.add_div_right _ hspace, Nat.succ_mul, padded, Nat.add_comm]

theorem le_padded {space : Nat} (hspace : 0 < space) (n : Nat) : n ≤ padded space n := by
  have h := Nat.lt_div_mul_add (a := n + space - 1) hspace
  unfold padded
  omega

theorem mem_fragments {space fuel : Nat} {first : Bool} {rest : Blob} {f : Frame}
    (h : f ∈ fragments space fuel first rest) :
    ∃ flags piece, piece.length ≤ space ∧ f = fragment flags space piece := by
  induction fuel generalizing first rest with
  | zero => cases h
  | succ fuel ih =>
    rw [fragments] at h
    split at h
    · cases h
    · rcases List.mem_cons.mp h with rfl | h
      · exact ⟨_, _, List.length_take_le _ _, rfl⟩
      · exact ih h

theorem length_fragments {space fuel : Nat} (hspace : 0 < space) (first : Bool) {rest : Blob}
    (hfuel : rest.length ≤ fuel) :
    (fragments space fuel first rest).length * space = padded space rest.length := by
  have hnone : padded space 0 = 0 := by
    rw [padded, Nat.zero_add, Nat.div_eq_of_lt (Nat.sub_one_lt_of_lt hspace), Nat.zero_mul]
  induction fuel generalizing first rest with
  | zero =>
    rw [Nat.le_zero.mp hfuel, hnone]
    exact Nat.zero_mul _
  | succ fuel ih =>
    rw [fragments]
    split
    · next hempty => rw [List.isEmpty_iff.mp hempty, List.length_nil, List.length_nil, hnone, Nat.zero_mul]
    · next hempty =>
      have hpos : 0 < rest.length := List.length_pos_iff.mpr (fun h => hempty (List.isEmpty_iff.mpr h))
      have hdrop : (rest.drop space).length = rest.length - space := List.length_drop
      have htail := ih false (show (rest.drop space).length ≤ fuel by omega)
      rw [List.length_cons, Nat.succ_mul, htail, hdrop]
      rcases Nat.lt_or_ge space rest.length with hlong | hshort
      · rw [padded_of_gt hspace hlong, Nat.add_comm]
      · rw [Nat.sub_eq_zero_of_le hshort, hnone, padded_of_le hpos hshort, Nat.zero_add]

/-! ### One frame after the other -/

namespace Reassembler

theorem extend_ok {r : Reassembler} {body : Blob} {limit : UInt64}
    (hroom : r.buf.length + body.length ≤ limit.toNat)
    (hcapacity : r.buf.length + body.length ≤ isizeMax) :
    r.extend body limit = (⟨r.buf ++ body, r.inProgress⟩, .ok ()) := by
  have hsum : saturatingAdd r.buf.length body.length ≤ limit.toNat :=
    (Nat.min_le_left _ _).trans hroom
  rw [extend, if_neg (Nat.not_lt.mpr hsum), if_neg (Nat.not_lt.mpr hcapacity)]

theorem push_begin {r : Reassembler} {f : Frame} {limit : UInt64} (hkind : f.header.kind = .fragmentBegin)
    (hroom : f.body.length ≤ limit.toNat) (hcapacity : f.body.length ≤ isizeMax) :
    r.push f.header f.body limit = (⟨f.body, true⟩, .ok .buffered) := by
  have hextend : extend ⟨[], true⟩ f.body limit = (⟨[] ++ f.body, true⟩, .ok ()) :=
    extend_ok (by simpa using hroom) (by simpa using hcapacity)
  rw [push, hkind]
  show ((extend ⟨[], true⟩ f.body limit).1, (extend ⟨[], true⟩ f.body limit).2.map _) = _
  rw [hextend]
  rfl

theorem push_middle {buf : Blob} {f : Frame} {limit : UInt64} (hkind : f.header.kind = .fragmentMiddle)
    (hroom : buf.length + f.body.length ≤ limit.toNat)
    (hcapacity : buf.length + f.body.length ≤ isizeMax) :
    push ⟨buf, true⟩ f.header f.body limit = (⟨buf ++ f.body, true⟩, .ok .buffered) := by
  have hextend : extend ⟨buf, true⟩ f.body limit = (⟨buf ++ f.body, true⟩, .ok ()) :=
    extend_ok hroom hcapacity
  rw [push, hkind]
  show ((extend ⟨buf, true⟩ f.body limit).1, (extend ⟨buf, true⟩ f.body limit).2.map _) = _
  rw [hextend]
  rfl

theorem push_end {buf : Blob} {f : Frame} {limit : UInt64} (hkind : f.header.kind = .fragmentEnd)
    (hroom : buf.length + f.body.length ≤ limit.toNat)
    (hcapacity : buf.length + f.body.length ≤ isizeMax) :
    push ⟨buf, true⟩ f.header f.body limit = (new, unwrap (buf ++ f.body) limit) := by
  have hextend : extend ⟨buf, true⟩ f.body limit = (⟨buf ++ f.body, true⟩, .ok ()) :=
    extend_ok hroom hcapacity
  rw [push, hkind]
  simp only [Bool.not_true, Bool.false_eq_true, if_false, hextend]
  rfl

/-- The message inside, whatever it was padded with. -/
theorem unwrap_message (command : UInt32) {body padding : Blob} {limit : UInt64}
    (hbody : body.length ≤ limit.toNat) (hroom : body.length + padding.length < 2 ^ 64) :
    unwrap ((Header.notification command (UInt64.ofNat body.length)).write ++ (body ++ padding)) limit =
      .ok (.complete (Header.notification command (UInt64.ofNat body.length)) body) := by
  set h := Header.notification command (UInt64.ofNat body.length) with hh
  have hwide : h.length.toNat = body.length :=
    UInt64.toNat_ofNat_of_lt' (hbody.trans_lt limit.toNat_lt)
  have hlimit : h.length ≤ limit := by
    rw [UInt64.le_iff_toNat_le, hwide]
    exact hbody
  have hfound : (UInt64.ofNat ((h.write ++ (body ++ padding)).length - headerLen)).toNat =
      body.length + padding.length := by
    rw [List.length_append, List.length_append, Header.length_write, Nat.add_sub_cancel_left]
    exact UInt64.toNat_ofNat_of_lt' hroom
  have henough : ¬ UInt64.ofNat ((h.write ++ (body ++ padding)).length - headerLen) < h.length := by
    rw [UInt64.lt_iff_toNat_lt, hfound, hwide]
    exact Nat.not_lt.mpr (Nat.le_add_right _ _)
  have hslice : slice (h.write ++ (body ++ padding)) headerLen (headerLen + h.length.toNat) = .ok body :=
    slice_at h.write padding rfl (Header.length_write h) (by rw [hwide])
  have hread := Header.read_write h (body ++ padding) rfl hlimit
  unfold unwrap
  rw [hread]
  show (if UInt64.ofNat ((h.write ++ (body ++ padding)).length - headerLen) < h.length then _ else _) = _
  rw [if_neg henough]
  show (slice (h.write ++ (body ++ padding)) headerLen (headerLen + h.length.toNat) >>= fun _ => _) = _
  rw [hslice]
  rfl

end Reassembler

/-! ### Among other frames -/

/-- Two sequences with their elements mixed, each in its own order. -/
inductive Interleaves {α : Type} : List α → List α → List α → Prop
  | nil : Interleaves [] [] []
  | left (a : α) {xs ys zs : List α} (h : Interleaves xs ys zs) : Interleaves (a :: xs) ys (a :: zs)
  | right (b : α) {xs ys zs : List α} (h : Interleaves xs ys zs) : Interleaves xs (b :: ys) (b :: zs)

theorem Interleaves.append_left {α : Type} {xs ys zs : List α} (h : Interleaves xs ys zs) (as : List α) :
    Interleaves (as ++ xs) ys (as ++ zs) := by
  induction as with
  | nil => exact h
  | cons a as ih => exact .left a ih

/-- No part of a message in frames: a dummy, or a message of its own. -/
def Frame.Harmless (f : Frame) : Prop :=
  f.header.kind ≠ .fragmentBegin ∧ f.header.kind ≠ .fragmentMiddle ∧ f.header.kind ≠ .fragmentEnd

/-- A message of its own. -/
def Frame.isWhole (f : Frame) : Bool := f.header.kind != .dummy

namespace Reassembler

/-- A harmless frame leaves what is being put together alone, and only a message of its own is handed
on. -/
theorem push_harmless (r : Reassembler) {f : Frame} (limit : UInt64) (hf : f.Harmless) :
    ∃ decided, r.push f.header f.body limit = (r, .ok decided) ∧
      handedOn f decided = if f.isWhole then [f] else [] := by
  obtain ⟨hbegin, hmiddle, hend⟩ := hf
  unfold push Frame.isWhole
  cases hkind : f.header.kind with
  | fragmentBegin => exact absurd hkind hbegin
  | fragmentMiddle => exact absurd hkind hmiddle
  | fragmentEnd => exact absurd hkind hend
  | dummy => exact ⟨.discarded, rfl, rfl⟩
  | notification => exact ⟨.notAFragment, rfl, rfl⟩
  | request => exact ⟨.notAFragment, rfl, rfl⟩
  | response => exact ⟨.notAFragment, rfl, rfl⟩
  | unknown => exact ⟨.notAFragment, rfl, rfl⟩

theorem deliver_cons {limit : UInt64} {r next last : Reassembler} {f : Frame} {fed messages : List Frame}
    {decided : Reassembly} (hpush : r.push f.header f.body limit = (next, .ok decided))
    (hrest : deliver limit next fed = .ok (messages, last)) :
    deliver limit r (f :: fed) = .ok (handedOn f decided ++ messages, last) := by
  rw [deliver, hpush]
  show (deliver limit next fed >>= fun _ => _) = _
  rw [hrest]
  rfl

theorem deliver_cons_ok {limit : UInt64} {r last : Reassembler} {f : Frame} {fed messages : List Frame}
    (h : deliver limit r (f :: fed) = .ok (messages, last)) :
    ∃ next decided later, r.push f.header f.body limit = (next, .ok decided) ∧
      deliver limit next fed = .ok (later, last) ∧ messages = handedOn f decided ++ later := by
  rw [deliver] at h
  cases hpush : r.push f.header f.body limit with
  | mk next result =>
    rw [hpush] at h
    cases result with
    | error e => cases h
    | ok decided =>
      dsimp only [bind, Except.bind] at h
      cases hrest : deliver limit next fed with
      | error e =>
        rw [hrest] at h
        cases h
      | ok out =>
        obtain ⟨later, final⟩ := out
        rw [hrest] at h
        cases h
        exact ⟨next, decided, later, rfl, hrest, rfl⟩

/-- Harmless frames among others change nothing: what the others alone have handed on is handed on, and
between it the messages that came whole. -/
theorem deliver_interleaved {limit : UInt64} {frames others fed : List Frame}
    (h : Interleaves frames others fed) (hothers : ∀ f ∈ others, f.Harmless) {r last : Reassembler}
    {messages : List Frame} (halone : deliver limit r frames = .ok (messages, last)) :
    ∃ out, deliver limit r fed = .ok (out, last) ∧
      Interleaves messages (others.filter Frame.isWhole) out := by
  induction h generalizing r messages with
  | nil =>
    cases halone
    exact ⟨[], rfl, .nil⟩
  | left f h ih =>
    obtain ⟨next, decided, later, hpush, hrest, rfl⟩ := deliver_cons_ok halone
    obtain ⟨out, hout, hmixed⟩ := ih hothers hrest
    exact ⟨_, deliver_cons hpush hout, hmixed.append_left _⟩
  | right f h ih =>
    obtain ⟨decided, hpush, hhanded⟩ :=
      push_harmless r limit (hothers f (List.mem_cons_self ..))
    obtain ⟨out, hout, hmixed⟩ := ih (fun g hg => hothers g (List.mem_cons_of_mem _ hg)) halone
    refine ⟨_, deliver_cons hpush hout, ?_⟩
    rw [hhanded, List.filter_cons]
    split
    · exact .right f hmixed
    · exact hmixed

/-- The frames behind the first: pieces until the last, which ends the message. -/
theorem deliver_fragments {space : Nat} (hspace : 0 < space) {limit : UInt64} {message : Frame}
    (fuel : Nat) (buf rest : Blob) (hrest : rest ≠ []) (hfuel : rest.length ≤ fuel)
    (hroom : buf.length + padded space rest.length ≤ limit.toNat)
    (hcapacity : buf.length + padded space rest.length ≤ isizeMax)
    (hwhole : unwrap (buf ++ (rest ++ List.replicate (padded space rest.length - rest.length) 0)) limit =
      .ok (.complete message.header message.body)) :
    deliver limit ⟨buf, true⟩ (fragments space fuel false rest) = .ok ([message], new) := by
  induction fuel generalizing buf rest with
  | zero => exact absurd (List.length_eq_zero_iff.mp (Nat.le_zero.mp hfuel)) hrest
  | succ fuel ih =>
    have hpos : 0 < rest.length := List.length_pos_iff.mpr hrest
    rw [fragments, if_neg (by simpa using hrest)]
    rcases Nat.lt_or_ge space rest.length with hlong | hshort
    · have hpad := padded_of_gt hspace hlong
      have htail : rest.drop space ≠ [] := by
        intro h
        have := congrArg List.length h
        rw [List.length_drop, List.length_nil] at this
        omega
      have hdrop : (rest.drop space).length = rest.length - space := List.length_drop
      have htake : (rest.take space).length = space := List.length_take_of_le hlong.le
      have hbody : (fragment 0 space (rest.take space)).body = rest.take space := by
        rw [fragment, htake, Nat.sub_self, List.replicate_zero, List.append_nil]
      have hkind : (fragment 0 space (rest.take space)).header.kind = .fragmentMiddle :=
        (kind_fragment _ _ _).trans (by decide)
      have hpush : push ⟨buf, true⟩ (fragment 0 space (rest.take space)).header
          (fragment 0 space (rest.take space)).body limit =
            (⟨buf ++ (fragment 0 space (rest.take space)).body, true⟩, .ok .buffered) :=
        push_middle hkind (by rw [hbody, htake]; omega) (by rw [hbody, htake]; omega)
      rw [hbody] at hpush
      dsimp only
      rw [if_neg Bool.false_ne_true, if_neg (by simpa using htail)]
      refine deliver_cons (by rw [hbody]; exact hpush) (ih _ _ htail (by omega) ?_ ?_ ?_)
      · rw [List.length_append, htake, hdrop]
        omega
      · rw [List.length_append, htake, hdrop]
        omega
      · rw [List.append_assoc, ← List.append_assoc (rest.take space), List.take_append_drop, hdrop,
          show padded space (rest.length - space) - (rest.length - space) =
            padded space rest.length - rest.length by omega]
        exact hwhole
    · have hpad := padded_of_le hpos hshort
      have htail : rest.drop space = [] := List.drop_eq_nil_of_le hshort
      have htake : rest.take space = rest := List.take_of_length_le hshort
      have hkind : (fragment Flags.ends space rest).header.kind = .fragmentEnd :=
        (kind_fragment _ _ _).trans (by decide)
      have hbody : (fragment Flags.ends space rest).body =
          rest ++ List.replicate (padded space rest.length - rest.length) 0 := by
        rw [fragment, hpad]
      have hlen : (fragment Flags.ends space rest).body.length = padded space rest.length := by
        rw [hbody, List.length_append, List.length_replicate]
        omega
      have hpush := @push_end buf (fragment Flags.ends space rest) limit hkind
        (by rw [hlen]; exact hroom) (by rw [hlen]; exact hcapacity)
      rw [hbody, hwhole] at hpush
      dsimp only
      rw [htail, htake, if_neg Bool.false_ne_true, if_pos List.isEmpty_nil]
      have hnone : fragments space fuel false [] = [] := by cases fuel <;> rfl
      have hdone : deliver limit new [] = .ok ([], new) := rfl
      rw [hnone]
      rw [← hbody] at hpush
      exact deliver_cons hpush hdone

end Reassembler

/-! ### Sending and receiving -/

/-- What a body takes up behind the headers: what is left of the one frame it fits into, or of as many as
it needs together with a header of its own. -/
def paddedLength (frame : Nat) (body : Blob) : Nat :=
  if headerLen + body.length ≤ frame then frame - headerLen
  else padded (frame - headerLen) (headerLen + body.length)

/-- What a message comes out as: as it was, or in the one frame it fits into padded with zeroes. -/
def sent (frame : Nat) (command : UInt32) (body : Blob) : Frame :=
  if headerLen + body.length ≤ frame then
    ⟨Header.notification command (UInt64.ofNat (frame - headerLen)),
      body ++ List.replicate (frame - headerLen - body.length) 0⟩
  else ⟨Header.notification command (UInt64.ofNat body.length), body⟩

theorem length_le_length_flatMap (frames : List Frame) :
    frames.length ≤ (frames.flatMap Frame.encode).length := by
  induction frames with
  | nil => exact Nat.le_refl 0
  | cons f frames ih =>
    have hone : 1 ≤ f.encode.length := by
      rw [Frame.length_encode, headerLen]
      omega
    rw [List.flatMap_cons, List.length_cons, List.length_append]
    omega

theorem length_flatMap_encode {frame : Nat} (frames : List Frame)
    (h : ∀ f ∈ frames, f.encode.length = frame) :
    (frames.flatMap Frame.encode).length = frames.length * frame := by
  induction frames with
  | nil => simp
  | cons f frames ih =>
    rw [List.flatMap_cons, List.length_append, h f (List.mem_cons_self ..),
      ih (fun g hg => h g (List.mem_cons_of_mem _ hg)), List.length_cons, Nat.succ_mul, Nat.add_comm]

/-- The frames a message is sent in. -/
def framesOf (frame : Nat) (command : UInt32) (body : Blob) : List Frame :=
  if headerLen + body.length ≤ frame then [sent frame command body]
  else
    let message := (Header.notification command (UInt64.ofNat body.length)).write ++ body
    fragments (frame - headerLen) message.length true message

theorem fragmentedNotify_eq {frame : Nat} (command : UInt32) {body : Blob} (hframe : headerLen * 2 ≤ frame)
    (hbody : headerLen + body.length ≤ u64Max) :
    fragmentedNotify frame command body = some ((framesOf frame command body).flatMap Frame.encode) := by
  have htotal : checkedAdd headerLen body.length = some (headerLen + body.length) :=
    checkedAdd_eq_some.mpr ⟨rfl, hbody⟩
  have hzeroes : frame - (headerLen + body.length) = frame - headerLen - body.length := by omega
  unfold fragmentedNotify
  rw [if_neg (Nat.not_lt.mpr hframe), htotal]
  show (if headerLen + body.length ≤ frame then _ else _) = _
  rw [framesOf]
  split
  · next hone =>
    rw [hzeroes, List.flatMap_singleton, Frame.encode, sent, if_pos hone]
    rfl
  · rfl

theorem length_encode_framesOf {frame : Nat} (command : UInt32) {body : Blob}
    (hframe : headerLen * 2 ≤ frame) {f : Frame} (hf : f ∈ framesOf frame command body) :
    f.encode.length = frame := by
  have hhead : headerLen ≤ frame := by
    rw [headerLen] at *
    omega
  rw [framesOf] at hf
  split at hf
  · next hone =>
    rw [List.mem_singleton.mp hf, Frame.length_encode, sent, if_pos hone, List.length_append,
      List.length_replicate]
    omega
  · obtain ⟨flags, piece, hpiece, rfl⟩ := mem_fragments hf
    rw [length_encode_fragment flags hpiece, Nat.add_sub_cancel' hhead]

theorem framesOf_fits {frame : Nat} (command : UInt32) {body : Blob} {limit : UInt64}
    (hframe : headerLen * 2 ≤ frame) (hlimit : paddedLength frame body ≤ limit.toNat) {f : Frame}
    (hf : f ∈ framesOf frame command body) : f.Fits limit := by
  rw [framesOf] at hf
  rw [paddedLength] at hlimit
  split at hf
  · next hone =>
    rw [if_pos hone] at hlimit
    have hwide : (UInt64.ofNat (frame - headerLen)).toNat = frame - headerLen :=
      UInt64.toNat_ofNat_of_lt' (hlimit.trans_lt limit.toNat_lt)
    rw [List.mem_singleton.mp hf, sent, if_pos hone]
    refine ⟨rfl, ?_, ?_⟩
    · rw [UInt64.le_iff_toNat_le]
      exact hwide.trans_le hlimit
    · show (UInt64.ofNat (frame - headerLen)).toNat = _
      rw [hwide, List.length_append, List.length_replicate]
      omega
  · next hmany =>
    rw [if_neg hmany] at hlimit
    obtain ⟨flags, piece, hpiece, rfl⟩ := mem_fragments hf
    refine fragment_fits flags hpiece (le_trans ?_ hlimit)
    rw [padded_of_gt (by rw [headerLen] at *; omega) (by omega)]
    exact Nat.le_add_right _ _

/-- Fed in order, the frames of a message are that message. -/
theorem deliver_framesOf {frame : Nat} (command : UInt32) {body : Blob} {limit : UInt64}
    (hframe : headerLen * 2 ≤ frame) (hlimit : paddedLength frame body ≤ limit.toNat)
    (hcapacity : paddedLength frame body ≤ isizeMax) :
    Reassembler.deliver limit .new (framesOf frame command body) =
      .ok ([sent frame command body], .new) := by
  have hdone : Reassembler.deliver limit .new [] = .ok ([], .new) := rfl
  rw [paddedLength] at hlimit hcapacity
  rw [framesOf, sent]
  split
  · next hone =>
    refine @Reassembler.deliver_cons _ _ _ _ _ _ _ .notAFragment ?_ hdone
    rw [Reassembler.push, Header.kind_notification]
  · next hmany =>
    rw [if_neg hmany] at hlimit hcapacity
    set header := Header.notification command (UInt64.ofNat body.length) with hheader
    set space := frame - headerLen with hspace
    have hpos : 0 < space := by
      rw [hspace, headerLen] at *
      omega
    have hlen : (header.write ++ body).length = headerLen + body.length := by
      rw [List.length_append, Header.length_write]
    have hlong : space < (header.write ++ body).length := by omega
    have hpad := padded_of_gt hpos hlong
    have htail : (header.write ++ body).drop space ≠ [] := by
      intro h
      have := congrArg List.length h
      rw [List.length_drop, List.length_nil] at this
      omega
    have htake : ((header.write ++ body).take space).length = space :=
      List.length_take_of_le hlong.le
    have hdrop : ((header.write ++ body).drop space).length = (header.write ++ body).length - space :=
      List.length_drop
    rw [← hlen] at hlimit hcapacity
    obtain ⟨fuel, hfuel⟩ : ∃ fuel, (header.write ++ body).length = fuel + 1 :=
      Nat.exists_eq_succ_of_ne_zero (by omega)
    have hfirst : fragments space (header.write ++ body).length true (header.write ++ body) =
        fragment Flags.begins space ((header.write ++ body).take space) ::
          fragments space fuel false ((header.write ++ body).drop space) := by
      rw [hfuel, fragments, if_neg (by
        intro h
        rw [List.isEmpty_iff.mp h] at hlong
        cases hlong)]
      rfl
    have hbody : (fragment Flags.begins space ((header.write ++ body).take space)).body =
        (header.write ++ body).take space := by
      rw [fragment, htake, Nat.sub_self, List.replicate_zero, List.append_nil]
    have hkind : (fragment Flags.begins space ((header.write ++ body).take space)).header.kind =
        .fragmentBegin := (kind_fragment _ _ _).trans (by decide)
    have hpush := @Reassembler.push_begin .new _ limit hkind (by rw [hbody, htake]; omega)
      (by rw [hbody, htake]; omega)
    have hwhole := @Reassembler.unwrap_message command body
      (List.replicate (padded space (header.write ++ body).length - (header.write ++ body).length) 0) limit
      (by have := le_padded hpos (header.write ++ body).length; omega)
      (by
        have := le_padded hpos (header.write ++ body).length
        rw [List.length_replicate]
        rw [isizeMax] at hcapacity
        omega)
    have hrest := @Reassembler.deliver_fragments space hpos limit ⟨header, body⟩ fuel
      ((header.write ++ body).take space) ((header.write ++ body).drop space) htail (by omega)
      (by rw [htake, hdrop]; omega) (by rw [htake, hdrop]; omega) (by
        rw [← List.append_assoc, List.take_append_drop, hdrop,
          show padded space ((header.write ++ body).length - space) - ((header.write ++ body).length - space) =
            padded space (header.write ++ body).length - (header.write ++ body).length by omega,
          List.append_assoc]
        exact hwhole)
    rw [hfirst]
    rw [hbody] at hpush
    exact Reassembler.deliver_cons (by rw [hbody]; exact hpush) hrest

theorem length_framesOf {frame : Nat} (command : UInt32) {body : Blob} (hframe : headerLen * 2 ≤ frame) :
    paddedLength frame body ≤ ((framesOf frame command body).flatMap Frame.encode).length := by
  have hhead : headerLen < frame := by
    rw [headerLen] at *
    omega
  rw [length_flatMap_encode _ fun f hf => length_encode_framesOf command hframe hf, paddedLength,
    framesOf]
  split
  · rw [List.length_singleton]
    omega
  · next hmany =>
    have hcount := length_fragments (Nat.sub_pos_of_lt hhead) true (Nat.le_refl
      ((Header.notification command (UInt64.ofNat body.length)).write ++ body).length)
    dsimp only
    rw [List.length_append, Header.length_write] at hcount ⊢
    rw [← hcount]
    exact Nat.mul_le_mul_left _ (Nat.sub_le _ _)

/-- The frame `noise_notify` lays out. -/
def noise (bytes : Nat) : Frame := fragment (Flags.begins ||| Flags.ends) (bytes - headerLen) []

theorem noise_harmless (bytes : Nat) : (noise bytes).Harmless ∧ (noise bytes).isWhole = false := by
  have hkind : (noise bytes).header.kind = .dummy := (kind_fragment _ _ _).trans (by decide)
  rw [Frame.Harmless, Frame.isWhole, hkind]
  decide

/-! ### Any sequence of frames -/

namespace Reassembler

/-- Outside a message nothing is kept. -/
def Clean (r : Reassembler) : Prop := r.inProgress = false → r.buf = []

theorem clean_new : new.Clean := fun _ => rfl

/-- What is left behind an error, or a message that came whole. -/
def Settles (step : Reassembler × Except Stop Reassembly) : Prop :=
  ((∃ e, step.2 = .error (.failed e)) ∨ ∃ header body, step.2 = .ok (.complete header body)) →
    step.1 = new

/-- What holds after a step. -/
structure Holds (limit : Nat) (step : Reassembler × Except Stop Reassembly) : Prop where
  clean : step.1.Clean
  bounded : step.1.buf.length ≤ limit
  inRange : step.2 ≠ .error .outOfRange
  settles : Settles step

theorem unwrap_inRange {whole : Blob} {limit : UInt64} (hwhole : whole.length < 2 ^ 64) :
    unwrap whole limit ≠ .error .outOfRange := by
  intro h
  rw [unwrap] at h
  cases hread : Header.read whole limit with
  | error s =>
    obtain ⟨e, rfl⟩ := Header.read_error hread
    rw [hread] at h
    cases e <;> cases h
  | ok nested =>
    rw [hread] at h
    obtain ⟨hlen, -⟩ := Header.read_ok hread
    dsimp only [Except.mapError, bind, Except.bind] at h
    split at h
    · cases h
    · next hfound =>
      have hwide : (UInt64.ofNat (whole.length - headerLen)).toNat = whole.length - headerLen :=
        UInt64.toNat_ofNat_of_lt' ((Nat.sub_le _ _).trans_lt hwhole)
      rw [UInt64.lt_iff_toNat_lt, hwide] at hfound
      obtain ⟨piece, hpiece⟩ := slice_inRange (Nat.le_add_right headerLen nested.length.toNat)
        (show headerLen + nested.length.toNat ≤ whole.length by omega)
      rw [hpiece] at h
      cases h

/-- What `extend` can do: refuse and start afresh, grow past what a vector holds, or grow. -/
theorem extend_cases (r : Reassembler) (body : Blob) (limit : UInt64) :
    (∃ e, r.extend body limit = (new, .error (.failed e))) ∨
    r.extend body limit = (r, .error .capacity) ∨
    (r.extend body limit = (⟨r.buf ++ body, r.inProgress⟩, .ok ()) ∧
      (r.buf ++ body).length ≤ limit.toNat ∧ (r.buf ++ body).length ≤ isizeMax) := by
  unfold extend
  by_cases hlimit : limit.toNat < saturatingAdd r.buf.length body.length
  · rw [if_pos hlimit]
    exact .inl ⟨_, rfl⟩
  · rw [if_neg hlimit]
    by_cases hcapacity : isizeMax < r.buf.length + body.length
    · rw [if_pos hcapacity]
      exact .inr (.inl rfl)
    · rw [if_neg hcapacity]
      refine .inr (.inr ⟨rfl, ?_, ?_⟩)
      · -- Below the capacity the sum does not saturate.
        have hexact : saturatingAdd r.buf.length body.length = r.buf.length + body.length :=
          Nat.min_eq_left (by rw [isizeMax, u64Max] at *; omega)
        rw [List.length_append]
        omega
      · rw [List.length_append]
        omega

theorem push_holds {r : Reassembler} {f : Frame} {limit : UInt64} {bound : Nat} (hclean : r.Clean)
    (hbuf : r.buf.length ≤ bound) (hlimit : limit.toNat ≤ bound) :
    Holds bound (r.push f.header f.body limit) := by
  have hquiet (decided : Reassembly) (hd : ∀ header body, decided ≠ .complete header body) :
      Holds bound (r, .ok decided) := by
    refine ⟨hclean, hbuf, nofun, ?_⟩
    rintro (⟨e, he⟩ | ⟨header, body, he⟩)
    · cases he
    · cases he
      exact absurd rfl (hd header body)
  have hnew : Holds bound (new, .error (.failed .fragmentWithoutBegin)) :=
    ⟨clean_new, Nat.zero_le _, nofun, fun _ => rfl⟩
  -- A fragment behind the first, or the first on an emptied buffer.
  have hgrow (r : Reassembler) (hr : r.inProgress = true) (hlen : r.buf.length ≤ bound) :
      Holds bound ((r.extend f.body limit).1, (r.extend f.body limit).2.map fun _ => .buffered) := by
    rcases extend_cases r f.body limit with ⟨e, he⟩ | he | ⟨he, hle, -⟩
    · rw [he]
      exact ⟨clean_new, Nat.zero_le _, nofun, fun _ => rfl⟩
    · rw [he]
      refine ⟨fun h => absurd (hr.symm.trans h) nofun, hlen, nofun, ?_⟩
      rintro (⟨e, he⟩ | ⟨header, body, he⟩) <;> cases he
    · rw [he]
      refine ⟨fun h => absurd (hr.symm.trans h) nofun, hle.trans hlimit, nofun, ?_⟩
      rintro (⟨e, he⟩ | ⟨header, body, he⟩) <;> cases he
  unfold push
  cases f.header.kind with
  | dummy => exact hquiet _ nofun
  | notification => exact hquiet _ nofun
  | request => exact hquiet _ nofun
  | response => exact hquiet _ nofun
  | unknown => exact hquiet _ nofun
  | fragmentBegin => exact hgrow ⟨[], true⟩ rfl (Nat.zero_le _)
  | fragmentMiddle =>
    obtain ⟨buf, inProgress⟩ := r
    cases inProgress with
    | false =>
      rw [show buf = [] from hclean rfl]
      exact hnew
    | true => exact hgrow ⟨buf, true⟩ rfl hbuf
  | fragmentEnd =>
    obtain ⟨buf, inProgress⟩ := r
    cases inProgress with
    | false =>
      rw [show buf = [] from hclean rfl]
      exact hnew
    | true =>
      show Holds bound (match extend ⟨buf, true⟩ f.body limit with
        | (r, .error e) => (r, .error e)
        | (r, .ok ()) => ((⟨[], false⟩ : Reassembler), unwrap r.buf limit))
      rcases extend_cases ⟨buf, true⟩ f.body limit with ⟨e, he⟩ | he | ⟨he, -, hle⟩
      · rw [he]
        exact ⟨clean_new, Nat.zero_le _, nofun, fun _ => rfl⟩
      · rw [he]
        refine ⟨nofun, hbuf, nofun, ?_⟩
        rintro (⟨e, he⟩ | ⟨header, body, he⟩) <;> cases he
      · rw [he]
        refine ⟨clean_new, Nat.zero_le _, unwrap_inRange ?_, fun _ => rfl⟩
        exact hle.trans_lt (by decide)

/-- Whatever a peer sends, and whatever limit is in force when: no more is kept than the largest of them,
nothing is read out of range, and an error or a message that came whole leaves nothing behind. -/
theorem feed_holds {bound : Nat} (fed : List (Frame × UInt64)) (hlimits : ∀ x ∈ fed, x.2.toNat ≤ bound)
    {r : Reassembler} (hclean : r.Clean) (hbuf : r.buf.length ≤ bound) :
    ∀ step ∈ r.feed fed, Holds bound step := by
  induction fed generalizing r with
  | nil => exact fun step h => nomatch h
  | cons x fed ih =>
    obtain ⟨f, limit⟩ := x
    have hstep := push_holds (f := f) hclean hbuf (hlimits (f, limit) (List.mem_cons_self ..))
    intro step hmem
    rcases List.mem_cons.mp hmem with rfl | hmem
    · exact hstep
    · exact ih (fun x hx => hlimits x (List.mem_cons_of_mem _ hx)) hstep.clean hstep.bounded step hmem

end Reassembler

theorem length_noise {bytes : Nat} (h : headerLen ≤ bytes) : (noise bytes).encode.length = bytes := by
  rw [noise, length_encode_fragment _ (Nat.zero_le _), Nat.add_sub_cancel' h]

theorem noiseNotify_eq {bytes : Nat} (h : headerLen ≤ bytes) :
    noiseNotify bytes = some (noise bytes).encode :=
  if_neg (Nat.not_lt.mpr h)

/-- More frames than one are what a message takes that does not fit one. -/
theorem one_lt_framesOf {frame : Nat} (command : UInt32) {body : Blob} (hframe : headerLen * 2 ≤ frame) :
    1 < (framesOf frame command body).length ↔ frame < headerLen + body.length := by
  have hpos : 0 < frame - headerLen := by
    rw [headerLen] at *
    omega
  rw [framesOf]
  split
  · next hone =>
    rw [List.length_singleton]
    exact ⟨fun h => absurd h (Nat.lt_irrefl 1), fun h => absurd hone (Nat.not_le.mpr h)⟩
  · next hmany =>
    refine ⟨fun _ => Nat.not_le.mp hmany, fun hlong => ?_⟩
    have hcount := length_fragments hpos true (Nat.le_refl
      ((Header.notification command (UInt64.ofNat body.length)).write ++ body).length)
    rw [List.length_append, Header.length_write] at hcount
    dsimp only
    rw [List.length_append, Header.length_write]
    by_contra hfew
    have hle := Nat.mul_le_mul_right (frame - headerLen) (Nat.not_lt.mp hfew)
    have hpadded := le_padded hpos (headerLen + body.length)
    omega

/-- A message sent in frames of one size comes out of any mix of them with dummies and other messages
once, as it was or, where one frame held it, with zeroes behind it; and no sequence of frames has a reader
keep more than its limit, read out of range, or keep anything behind an error or a message. -/
theorem fragmented_arrives_whole :
    (∀ (frame : Nat) (command : UInt32) (body : Blob) (limit : UInt64),
      headerLen * 2 ≤ frame → body.length ≤ isizeMax →
      ∃ wire, fragmentedNotify frame command body = some wire ∧
        (wire.length ≤ isizeMax → paddedLength frame body ≤ limit.toNat →
          ∃ frames, cut limit wire.length wire = .ok (frames, []) ∧
            (∀ f ∈ frames, f.encode.length = frame) ∧
            (1 < frames.length ↔ frame < headerLen + body.length) ∧
            ∀ others fed : List Frame, (∀ f ∈ others, f.Harmless) → Interleaves frames others fed →
              ∃ messages, Reassembler.deliver limit .new fed = .ok (messages, .new) ∧
                Interleaves [sent frame command body] (others.filter Frame.isWhole) messages)) ∧
    (∀ bytes, headerLen ≤ bytes → noiseNotify bytes = some (noise bytes).encode ∧
      (noise bytes).encode.length = bytes ∧ (noise bytes).Harmless ∧ (noise bytes).isWhole = false) ∧
    (∀ (buf : Blob) (limit : UInt64), Header.read buf limit ≠ .error .outOfRange) ∧
    ∀ (bound : Nat) (fed : List (Frame × UInt64)), (∀ x ∈ fed, x.2.toNat ≤ bound) →
      ∀ step ∈ Reassembler.new.feed fed, step.1.buf.length ≤ bound ∧ step.2 ≠ .error .outOfRange ∧
        Reassembler.Settles step := by
  refine ⟨?_, ?_, ?_, ?_⟩
  · intro frame command body limit hframe hbody
    have htotal : headerLen + body.length ≤ u64Max := by
      rw [isizeMax] at hbody
      rw [headerLen, u64Max]
      omega
    refine ⟨_, fragmentedNotify_eq command hframe htotal, ?_⟩
    intro hwire hlimit
    have hcapacity : paddedLength frame body ≤ isizeMax :=
      (length_framesOf command hframe).trans hwire
    refine ⟨framesOf frame command body, ?_, ?_, one_lt_framesOf command hframe, ?_⟩
    · exact cut_encode _ (fun f hf => framesOf_fits command hframe hlimit hf) _
        (length_le_length_flatMap _)
    · exact fun f hf => length_encode_framesOf command hframe hf
    · intro others fed hothers hmixed
      exact Reassembler.deliver_interleaved hmixed hothers
        (deliver_framesOf command hframe hlimit hcapacity)
  · intro bytes hbytes
    exact ⟨noiseNotify_eq hbytes, length_noise hbytes, noise_harmless bytes⟩
  · intro buf limit h
    obtain ⟨e, he⟩ := Header.read_error h
    cases he
  · intro bound fed hlimits step hstep
    have hholds := Reassembler.feed_holds fed hlimits Reassembler.clean_new (Nat.zero_le _) step hstep
    exact ⟨hholds.bounded, hholds.inRange, hholds.settles⟩

namespace Sample

/-- Forty bytes, in frames that hold thirty-three. -/
def body : Blob := List.replicate 40 7

theorem length_wire : (fragmentedNotify 66 2002 body).map List.length = some 198 := by decide +kernel

theorem mixed_with_none {α : Type} (xs : List α) : Interleaves xs [] xs := by
  induction xs with
  | nil => exact .nil
  | cons x xs ih => exact .left x ih

/-- Sent in three frames, behind a dummy. -/
theorem body_arrives : ∃ wire frames messages, fragmentedNotify 66 2002 body = some wire ∧
    cut 99 wire.length wire = .ok (frames, []) ∧ 1 < frames.length ∧
    Reassembler.deliver 99 .new (noise 100 :: frames) = .ok (messages, .new) ∧
    Interleaves [⟨Header.notification 2002 40, body⟩] [] messages := by
  obtain ⟨wire, hwire, h⟩ := fragmented_arrives_whole.1 66 2002 body 99 (by decide) (by decide)
  have hlength : wire.length ≤ isizeMax := by
    have hlen := length_wire
    rw [hwire] at hlen
    rw [Option.some.inj hlen]
    decide
  obtain ⟨frames, hcut, -, hmany, hall⟩ := h hlength (by decide)
  obtain ⟨messages, hmessages, hmixed⟩ := hall [noise 100] (noise 100 :: frames)
    (fun f hf => List.mem_singleton.mp hf ▸ (noise_harmless 100).1) (.right _ (mixed_with_none frames))
  exact ⟨wire, frames, messages, hwire, hcut, hmany.mpr (by decide), hmessages, hmixed⟩

end Sample

end Wownero.Levin

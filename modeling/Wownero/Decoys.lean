import Mathlib.Data.List.Sort
import Wownero.Keys
import Wownero.Outcome
/-!
# The rings a spend hides in

For each output being spent the wallet asks a node about many outputs at once, sorted so that the
node cannot tell which is the real one, and takes ring members from the answer in the order it
picked them.  The answer has to show the real output with the key and the commitment the wallet
holds for it, and unlocked.

The picks themselves come from a distribution over floating-point numbers and from a random
source; both are behind `Picker`.
-/

namespace Outcome

variable {ε α β : Type}

/-- A sequence fails when its first half does, or the second after it. -/
theorem bind_eq_error {x : Except ε α} {f : α → Except ε β} {e : ε} :
    x >>= f = .error e ↔ x = .error e ∨ ∃ a, x = .ok a ∧ f a = .error e := by
  cases x with
  | error e' =>
      constructor
      · intro h
        cases h
        exact .inl rfl
      · rintro (h | ⟨_, h, _⟩)
        · cases h
          rfl
        · cases h
  | ok a =>
      constructor
      · intro h
        exact .inr ⟨a, rfl, h⟩
      · rintro (h | ⟨_, h, hb⟩)
        · cases h
        · cases h
          exact hb

end Outcome

namespace Wownero

open Outcome

/-- `GET_OUTS_CHUNK`. -/
def getOutsChunk : Nat := 1000

/-- `MINED_MONEY_UNLOCK_WINDOW`. -/
def walletUnlockWindow : Nat := 288

/-- `SPENDABLE_AGE`. -/
def spendableAge : Nat := 4

/-- `requested_outputs_count`: half as many again and one, and what a coinbase stays locked for
    past the spendable age. -/
def requestedOutputsCount (ringSize : Nat) : Nat :=
  ringSize * 3 / 2 + 1 + (walletUnlockWindow - spendableAge)

/-- An output being spent. -/
structure RealOutput where
  globalIndex : Nat
  publicKey : PublicKey
  commitment : EcPoint
  keyImage : KeyImage
  deriving DecidableEq, Repr

/-- A ring member as a node describes it. -/
structure Member where
  key : PublicKey
  mask : EcPoint
  unlocked : Bool
  deriving DecidableEq, Repr

/-- A ring: the indices it references, in ascending order, and where the real one sits. -/
structure Ring where
  indices : List Nat
  realIndex : Nat
  deriving DecidableEq, Repr

inductive DecoyError where
  | noOutputs
  | realOutputNotFound (index : Nat)
  | fetch (reason : String)
  | realOutputNotReturned (index : Nat)
  | tooFewUnlocked (wanted found : Nat)
  | knownRingTooLarge (size ringSize : Nat)
  | knownRingMemberMissing (index : Nat)
  deriving DecidableEq, Repr

/-- The text of a `DecoyError`. -/
def DecoyError.text : DecoyError → String
  | .noOutputs => "the chain has no RingCT outputs to pick from"
  | .realOutputNotFound index => s!"the real output at index {index} is not in the distribution"
  | .fetch reason => s!"the daemon could not say what the ring members are: {reason}"
  | .realOutputNotReturned index =>
      s!"the daemon's answer did not include the output being spent, at index {index}, unlocked " ++
        "and with its own key and commitment"
  | .tooFewUnlocked wanted found =>
      s!"found only {found} usable ring members of the {wanted} a ring needs"
  | .knownRingTooLarge size ringSize =>
      "an output in this transaction was previously spent on another chain with ring size " ++
        s!"{size}; it cannot be spent now with ring size {ringSize}, which is smaller"
  | .knownRingMemberMissing index =>
      s!"the known ring member at index {index} is not in the daemon's answer"

/-- `GammaPicker` over a random source: how many outputs there are to pick from, and one pick. -/
structure Picker (R : Type) where
  numRctOutputs : Nat
  pick : R → Option Nat × R

section

variable {R : Type} (picker : Picker R)

/-! ### The request -/

/-- What was picked for one input so far. -/
structure Picking (R : Type) where
  order : List Nat := []
  seen : List Nat := []
  rng : R

/-- `seen.insert(i)` and `add(i)`, in one. -/
def Picking.add (p : Picking R) (i : Nat) : Picking R :=
  { p with order := p.order ++ [i], seen := if i ∈ p.seen then p.seen else i :: p.seen }

/-- The members of a known ring that are old enough to be asked about. -/
def Picking.addKnown (numOuts : Nat) (ring : List Nat) (p : Picking R) : Picking R :=
  (ring.filter (· < numOuts)).foldl Picking.add p

/-- The picking loop.  `num_found` is how many were picked; a turn picks a new index or uses up
    one of the picks left. -/
def pickLoop (requested : Nat) : Nat → Bool → Nat → Picking R → Picking R
  | 0, _, _, p => p
  | fuel + 1, allowBlackballed, picksLeft, p =>
      if requested ≤ p.order.length then p
      else if p.seen.length = picker.numRctOutputs ∧ allowBlackballed then p
      else
        let allowBlackballed := allowBlackballed || p.seen.length == picker.numRctOutputs
        let (picked, rng) := picker.pick p.rng
        match picked.filter fun i => i < picker.numRctOutputs ∧ i ∉ p.seen with
        | some i => pickLoop requested fuel allowBlackballed picksLeft ({ p with rng := rng }.add i)
        | none =>
            if picksLeft = 0 then { p with rng := rng }
            else pickLoop requested fuel allowBlackballed (picksLeft - 1) { p with rng := rng }

/-- "Start with the real one", unless a known ring named something. -/
def Picking.startWith (real : RealOutput) (p : Picking R) : Picking R :=
  if p.order = [] then p.add real.globalIndex else p

/-- The share of one input in the request, in the order it was picked. -/
def pickSection (ringSize : Nat) (known : Option (List Nat)) (real : RealOutput) (rng : R) :
    Except DecoyError (List Nat × R) :=
  let requested := requestedOutputsCount ringSize
  let numOuts := picker.numRctOutputs
  let ring := known.getD []
  if ring.length > ringSize then .error (.knownRingTooLarge ring.length ringSize)
  else
    let p := ({ rng := rng } : Picking R).addKnown numOuts ring
    if numOuts ≤ requested then
      .ok (p.order ++ List.range numOuts ++ List.replicate (requested - numOuts) (numOuts - 1), rng)
    else
      let picksLeft := saturatingMul requested 1000
      let p := pickLoop picker requested (requested + picksLeft) false picksLeft (p.startWith real)
      .ok (p.order ++ List.replicate (requested - p.order.length) 0, p.rng)

/-- The shares of all inputs. -/
def pickSections (ringSize : Nat) : List (RealOutput × Option (List Nat)) → R →
    Except DecoyError (List (List Nat))
  | [], _ => .ok []
  | (real, known) :: rest, rng => do
      let (order, rng) ← pickSection picker ringSize known real rng
      return order :: (← pickSections ringSize rest rng)

/-- `sort_unstable`: what is sent for one input. -/
def asked (order : List Nat) : List Nat := order.insertionSort (· ≤ ·)

/-! ### The answer -/

/-- The request sent in chunks. -/
def fetchChunks (fetch : List Nat → Except String (List Member)) :
    Nat → List Nat → Except DecoyError (List Member)
  | 0, _ => .ok []
  | fuel + 1, request =>
      if request = [] then .ok []
      else
        let chunk := request.take getOutsChunk
        match fetch chunk with
        | .error reason => .error (.fetch reason)
        | .ok got =>
            if got.length ≠ chunk.length then
              .error (.fetch ("daemon returned wrong response for get_outs.bin, wrong amounts " ++
                s!"count = {got.length}, expected {chunk.length}"))
            else do return got ++ (← fetchChunks fetch fuel (request.drop getOutsChunk))

/-- The guard against a node that sends dummy data for every output. -/
def realOutFound (asked : List Nat) (told : List Member) (real : RealOutput) : Bool :=
  (asked.zip told).any fun (i, m) =>
    i == real.globalIndex && m.key == real.publicKey && m.mask == real.commitment && m.unlocked

end

/-! ### The rings -/

/-- `in_main_subgroup`. -/
def inMainSubgroup (C : Crypto) (bytes : Bytes32) : Bool :=
  match C.decodePoint bytes with
  | some p => C.ell • p == 0
  | none => false

/-- A ring in the making, and the points already found good. -/
structure RingDraft where
  outs : List (Nat × PublicKey × EcPoint)
  valid : List Bytes32

/-- `add_fake_output`. -/
def addFakeOutput (C : Crypto) (index : Nat) (m : Member) (real : RealOutput) (d : RingDraft) :
    RingDraft :=
  if !m.unlocked || index == real.globalIndex || d.outs.contains (index, m.key, m.mask) then d
  else if !d.valid.contains m.key && !inMainSubgroup C m.key then d
  else
    let d := { d with valid := m.key :: d.valid }
    if !d.valid.contains m.mask && !inMainSubgroup C m.mask then d
    else ⟨d.outs ++ [(index, m.key, m.mask)], m.mask :: d.valid⟩

/-- The member told for an index, or the error for one that was not asked about. -/
def memberAt (asked : List Nat) (told : List Member) (index : Nat) (missing : DecoyError) :
    Except DecoyError Member :=
  match (asked.zip told).find? fun (i, _) => i == index with
  | some (_, m) => .ok m
  | none => .error missing

/-- The members of a known ring, kept. -/
def keepKnown (C : Crypto) (numOuts : Nat) (asked : List Nat) (told : List Member)
    (real : RealOutput) : List Nat → RingDraft → Except DecoyError RingDraft
  | [], d => .ok d
  | out :: ring, d => do
      if out < numOuts ∧ out ≠ real.globalIndex then
        let m ← memberAt asked told out (.knownRingMemberMissing out)
        keepKnown C numOuts asked told real ring (addFakeOutput C out m real d)
      else keepKnown C numOuts asked told real ring d

/-- The rest of a ring, in the secret order it was picked in. -/
def takePicked (C : Crypto) (ringSize : Nat) (asked : List Nat) (told : List Member)
    (real : RealOutput) : List Nat → RingDraft → Except DecoyError RingDraft
  | [], d => .ok d
  | picked :: order, d => do
      if ringSize ≤ d.outs.length then return d
      let m ← memberAt asked told picked (.realOutputNotFound picked)
      takePicked C ringSize asked told real order (addFakeOutput C picked m real d)

/-- The members of a ring that is large enough, in ascending order. -/
def finishRing (ringSize : Nat) (real : RealOutput) (d : RingDraft) :
    Except DecoyError ((Ring × List (PublicKey × EcPoint)) × List Bytes32) :=
  if d.outs.length < ringSize then .error (.tooFewUnlocked ringSize d.outs.length)
  else
    let outs := d.outs.insertionSort fun a b => a.1 ≤ b.1
    let indices := outs.map (·.1)
    match indices.findIdx? (· == real.globalIndex) with
    | none => .error (.realOutputNotFound real.globalIndex)
    | some realIndex => .ok ((⟨indices, realIndex⟩, outs.map (·.2)), d.valid)

/-- One input's ring, with each member's key and commitment. -/
def assembleOuts (C : Crypto) (ringSize numOuts : Nat) (known : Option (List Nat))
    (order : List Nat) (told : List Member) (real : RealOutput) (valid : List Bytes32) :
    Except DecoyError ((Ring × List (PublicKey × EcPoint)) × List Bytes32) :=
  if !realOutFound (asked order) told real then
    .error (.realOutputNotReturned real.globalIndex)
  else do
    let start : RingDraft := ⟨[(real.globalIndex, real.publicKey, real.commitment)], valid⟩
    let d ← keepKnown C numOuts (asked order) told real (known.getD []) start
    let d ← takePicked C ringSize (asked order) told real order d
    finishRing ringSize real d

/-- The loop over the inputs, each with its share of the answer. -/
def assembleRings (C : Crypto) (ringSize numOuts : Nat) :
    List ((RealOutput × Option (List Nat)) × List Nat) → List Member → List Bytes32 →
      Except DecoyError (List (Ring × List (PublicKey × EcPoint)))
  | [], _, _ => .ok []
  | ((real, known), order) :: rest, answer, valid => do
      let told := answer.take (asked order).length
      let (ring, valid) ← assembleOuts C ringSize numOuts known order told real valid
      return ring :: (← assembleRings C ringSize numOuts rest
        (answer.drop (asked order).length) valid)

/-- `get_outs`.  An input comes with the ring it was spent with before, if there is one. -/
def getOuts (C : Crypto) {R : Type} (picker : Picker R) (rng : R)
    (reals : List (RealOutput × Option (List Nat))) (ringSize : Nat)
    (fetch : List Nat → Except String (List Member)) :
    Except DecoyError (List (Ring × List (PublicKey × EcPoint))) :=
  if picker.numRctOutputs = 0 then .error .noOutputs
  else do
    let sections ← pickSections picker ringSize reals rng
    let request := sections.flatMap asked
    let answer ← fetchChunks fetch request.length request
    assembleRings C ringSize picker.numRctOutputs (reals.zip sections) answer []

/-! ### What an honest node is asked and answers -/

section

variable {R : Type} {picker : Picker R}

/-- The index of the output is among those asked about whatever the random source does: it is in
    the picker's range, and a ring kept for the key image names it or names nothing in range. -/
def Picker.Asks (picker : Picker R) (real : RealOutput) (known : Option (List Nat)) : Prop :=
  real.globalIndex < picker.numRctOutputs ∧ ∀ ring, known = some ring →
    real.globalIndex ∈ ring ∨ ∀ out ∈ ring, picker.numRctOutputs ≤ out

theorem order_addAll (is : List Nat) (p : Picking R) :
    (is.foldl Picking.add p).order = p.order ++ is := by
  induction is generalizing p with
  | nil => simp
  | cons i is ih => simp [ih, Picking.add]

theorem pickLoop_keeps (requested fuel : Nat) (allow : Bool) (picksLeft : Nat) (p : Picking R)
    {i : Nat} (h : i ∈ p.order) :
    i ∈ (pickLoop picker requested fuel allow picksLeft p).order := by
  induction fuel generalizing allow picksLeft p with
  | zero => exact h
  | succ fuel ih =>
      rw [pickLoop]
      by_cases hfull : requested ≤ p.order.length
      · rwa [if_pos hfull]
      by_cases hall : p.seen.length = picker.numRctOutputs ∧ allow = true
      · rwa [if_neg hfull, if_pos hall]
      rw [if_neg hfull, if_neg hall]
      simp only
      split
      · apply ih
        simp [Picking.add, h]
      · split
        · exact h
        · exact ih _ _ _ h

theorem mem_pickSection {ringSize : Nat} {known : Option (List Nat)} {real : RealOutput} {rng : R}
    {order : List Nat} {rng' : R} (hasks : picker.Asks real known)
    (h : pickSection picker ringSize known real rng = .ok (order, rng')) :
    real.globalIndex ∈ order := by
  obtain ⟨hlt, hknown⟩ := hasks
  simp only [pickSection, if_ok_iff] at h
  obtain ⟨-, h⟩ := h
  split_ifs at h with hfew
  · simp only [Except.ok.injEq, Prod.mk.injEq] at h
    rw [← h.1]
    simp [hlt]
  · simp only [Except.ok.injEq, Prod.mk.injEq] at h
    rw [← h.1, List.mem_append]
    refine .inl (pickLoop_keeps _ _ _ _ _ ?_)
    -- The known ring has put the index there, or has left the list empty for it.
    unfold Picking.startWith Picking.addKnown
    rw [order_addAll]
    simp only [List.nil_append]
    split_ifs with hempty
    · simp [Picking.add]
    · rw [order_addAll]
      cases known with
      | none => simp at hempty
      | some ring =>
          rcases hknown ring rfl with hmem | hnone
          · simp [hmem, hlt]
          · exfalso
            apply hempty
            simp only [Option.getD_some, List.filter_eq_nil_iff, decide_eq_true_eq, not_lt]
            exact hnone

theorem fetchChunks_honest (node : Nat → Member) {fuel : Nat} {request : List Nat}
    (h : request.length ≤ fuel) :
    fetchChunks (fun is => .ok (is.map node)) fuel request = .ok (request.map node) := by
  induction fuel generalizing request with
  | zero =>
      rw [List.eq_nil_of_length_eq_zero (Nat.le_zero.mp h)]
      rfl
  | succ fuel ih =>
      rw [fetchChunks]
      split_ifs with hnil
      · rw [hnil]
        rfl
      · have hpos : 0 < request.length := List.length_pos_of_ne_nil hnil
        have hdrop : (request.drop getOutsChunk).length ≤ fuel := by
          rw [List.length_drop, getOutsChunk]
          omega
        simp only [List.length_map, ne_eq, not_true_eq_false, if_false, ih hdrop]
        show Except.ok (_ ++ _) = _
        rw [← List.map_append, List.take_append_drop]

theorem realOutFound_honest (node : Nat → Member) (is : List Nat) (real : RealOutput) :
    realOutFound is (is.map node) real = true ↔
      real.globalIndex ∈ is ∧ node real.globalIndex = ⟨real.publicKey, real.commitment, true⟩ := by
  have hzip : is.zip (is.map node) = is.map fun i => (i, node i) := by
    rw [List.zip_map_right, List.zip_eq_zipWith, List.zipWith_self, List.map_map]
    rfl
  simp only [realOutFound, hzip, List.any_map, List.any_eq_true, Function.comp_apply,
    Bool.and_eq_true, beq_iff_eq]
  constructor
  · rintro ⟨i, hi, ⟨⟨rfl, hkey⟩, hmask⟩, hunlocked⟩
    refine ⟨hi, ?_⟩
    rw [← hkey, ← hmask, ← hunlocked]
  · rintro ⟨hi, hnode⟩
    exact ⟨_, hi, by rw [hnode]; simp⟩

theorem memberAt_error {is : List Nat} {told : List Member} {index : Nat} {missing e : DecoyError}
    (h : memberAt is told index missing = .error e) : e = missing := by
  unfold memberAt at h
  split at h
  · cases h
  · cases h
    rfl

theorem keepKnown_error {C : Crypto} {numOuts : Nat} {is : List Nat} {told : List Member}
    {real : RealOutput} {ring : List Nat} {d : RingDraft} {e : DecoyError}
    (h : keepKnown C numOuts is told real ring d = .error e) (g : Nat) :
    e ≠ .realOutputNotReturned g := by
  induction ring generalizing d with
  | nil => cases h
  | cons out ring ih =>
      rw [keepKnown] at h
      split_ifs at h with hin
      · rcases bind_eq_error.mp h with hmem | ⟨m, -, hrest⟩
        · rw [memberAt_error hmem]
          simp
        · exact ih hrest
      · exact ih h

theorem takePicked_error {C : Crypto} {ringSize : Nat} {is : List Nat} {told : List Member}
    {real : RealOutput} {order : List Nat} {d : RingDraft} {e : DecoyError}
    (h : takePicked C ringSize is told real order d = .error e) (g : Nat) :
    e ≠ .realOutputNotReturned g := by
  induction order generalizing d with
  | nil => cases h
  | cons picked order ih =>
      rw [takePicked] at h
      split_ifs at h with hfull
      · cases h
      · rcases bind_eq_error.mp h with hmem | ⟨m, -, hrest⟩
        · rw [memberAt_error hmem]
          simp
        · exact ih hrest

theorem finishRing_error {ringSize : Nat} {real : RealOutput} {d : RingDraft} {e : DecoyError}
    (h : finishRing ringSize real d = .error e) (g : Nat) : e ≠ .realOutputNotReturned g := by
  unfold finishRing at h
  split_ifs at h
  · cases h
    simp
  · simp only at h
    split at h
    · cases h
      simp
    · cases h

theorem assembleOuts_error {C : Crypto} {ringSize numOuts : Nat} {known : Option (List Nat)}
    {order : List Nat} {told : List Member} {real : RealOutput} {valid : List Bytes32} {g : Nat}
    (h : assembleOuts C ringSize numOuts known order told real valid =
      .error (.realOutputNotReturned g)) :
    g = real.globalIndex ∧ realOutFound (asked order) told real = false := by
  unfold assembleOuts at h
  split_ifs at h with hnot
  · cases h
    exact ⟨rfl, by simpa using hnot⟩
  · -- Nothing after the guard answers with its error.
    exfalso
    rcases bind_eq_error.mp h with hkeep | ⟨d, -, h⟩
    · exact keepKnown_error hkeep g rfl
    rcases bind_eq_error.mp h with htake | ⟨d', -, h⟩
    · exact takePicked_error htake g rfl
    · exact finishRing_error h g rfl

theorem assembleOuts_ok {C : Crypto} {ringSize numOuts : Nat} {known : Option (List Nat)}
    {order : List Nat} {told : List Member} {real : RealOutput} {valid : List Bytes32}
    {out : (Ring × List (PublicKey × EcPoint)) × List Bytes32}
    (h : assembleOuts C ringSize numOuts known order told real valid = .ok out) :
    realOutFound (asked order) told real = true := by
  unfold assembleOuts at h
  simpa using (if_ok_iff.mp h).1

/-- An input, the ring it was spent with before, and what was picked for it. -/
abbrev PickedInput := (RealOutput × Option (List Nat)) × List Nat

/-- The share of an input in the answer of an honest node shows the output. -/
def Shown (node : Nat → Member) (row : PickedInput) : Prop :=
  row.1.1.globalIndex ∈ row.2 ∧
    node row.1.1.globalIndex = ⟨row.1.1.publicKey, row.1.1.commitment, true⟩

theorem realOutFound_asked (node : Nat → Member) (row : PickedInput) :
    realOutFound (asked row.2) ((asked row.2).map node) row.1.1 = true ↔ Shown node row := by
  rw [realOutFound_honest, Shown, asked, (List.perm_insertionSort _ _).mem_iff]

theorem assembleRings_refused {C : Crypto} {ringSize numOuts : Nat} (node : Nat → Member)
    {rows : List PickedInput} {valid : List Bytes32} {g : Nat}
    (h : assembleRings C ringSize numOuts rows ((rows.flatMap fun row => asked row.2).map node)
      valid = .error (.realOutputNotReturned g)) :
    ∃ row ∈ rows, row.1.1.globalIndex = g ∧ ¬ Shown node row := by
  induction rows generalizing valid with
  | nil => cases h
  | cons row rows ih =>
      obtain ⟨⟨real, known⟩, order⟩ := row
      rw [assembleRings, List.flatMap_cons, List.map_append, List.take_left' (by simp),
        List.drop_left' (by simp)] at h
      rcases bind_eq_error.mp h with hone | ⟨out, -, h⟩
      · obtain ⟨rfl, hnot⟩ := assembleOuts_error hone
        refine ⟨_, List.mem_cons_self, rfl, fun hshown => ?_⟩
        rw [(realOutFound_asked node _).mpr hshown] at hnot
        cases hnot
      · rcases bind_eq_error.mp h with hrest | ⟨_, -, h⟩
        · obtain ⟨row, hrow, hg⟩ := ih hrest
          exact ⟨row, List.mem_cons_of_mem _ hrow, hg⟩
        · cases h

theorem assembleRings_shown {C : Crypto} {ringSize numOuts : Nat} (node : Nat → Member)
    {rows : List PickedInput} {valid : List Bytes32} {rings : List (Ring × List (PublicKey × EcPoint))}
    (h : assembleRings C ringSize numOuts rows ((rows.flatMap fun row => asked row.2).map node)
      valid = .ok rings) :
    ∀ row ∈ rows, Shown node row := by
  induction rows generalizing valid rings with
  | nil => simp
  | cons row rows ih =>
      obtain ⟨⟨real, known⟩, order⟩ := row
      rw [assembleRings, List.flatMap_cons, List.map_append, List.take_left' (by simp),
        List.drop_left' (by simp)] at h
      obtain ⟨out, hone, h⟩ := bind_eq_ok.mp h
      obtain ⟨rest, hrest, -⟩ := bind_eq_ok.mp h
      intro row hrow
      rcases List.mem_cons.mp hrow with rfl | hrow
      · exact (realOutFound_asked node _).mp (assembleOuts_ok hone)
      · exact ih hrest row hrow

theorem pickSection_error {ringSize : Nat} {known : Option (List Nat)} {real : RealOutput} {rng : R}
    {e : DecoyError} (h : pickSection picker ringSize known real rng = .error e) (g : Nat) :
    e ≠ .realOutputNotReturned g := by
  simp only [pickSection] at h
  split_ifs at h
  cases h
  simp

theorem pickSections_error {ringSize : Nat} {reals : List (RealOutput × Option (List Nat))} {rng : R}
    {e : DecoyError} (h : pickSections picker ringSize reals rng = .error e) (g : Nat) :
    e ≠ .realOutputNotReturned g := by
  induction reals generalizing rng with
  | nil => cases h
  | cons pair reals ih =>
      rcases bind_eq_error.mp h with hone | ⟨out, -, h⟩
      · exact pickSection_error hone g
      · rcases bind_eq_error.mp h with hrest | ⟨_, -, h⟩
        · exact ih hrest
        · cases h

theorem pickSections_ok {ringSize : Nat} {reals : List (RealOutput × Option (List Nat))} {rng : R}
    {sections : List (List Nat)} (h : pickSections picker ringSize reals rng = .ok sections) :
    List.Forall₂ (fun pair order => ∃ rng rng',
      pickSection picker ringSize pair.2 pair.1 rng = .ok (order, rng')) reals sections := by
  induction reals generalizing rng sections with
  | nil =>
      cases h
      exact .nil
  | cons pair reals ih =>
      obtain ⟨⟨order, rng'⟩, hone, h⟩ := bind_eq_ok.mp h
      obtain ⟨rest, hrest, h⟩ := bind_eq_ok.mp h
      cases pure_eq_ok.mp h
      exact .cons ⟨rng, rng', hone⟩ (ih hrest)

/-- The steps of a request that an honest node answers. -/
theorem getOuts_honest {C : Crypto} {rng : R} {reals : List (RealOutput × Option (List Nat))}
    {ringSize : Nat} (node : Nat → Member) {sections : List (List Nat)}
    (hnum : picker.numRctOutputs ≠ 0) (hsec : pickSections picker ringSize reals rng = .ok sections) :
    getOuts C picker rng reals ringSize (fun is => .ok (is.map node)) =
      assembleRings C ringSize picker.numRctOutputs (reals.zip sections)
        (((reals.zip sections).flatMap fun row => asked row.2).map node) [] := by
  have hlen : reals.length = sections.length := (pickSections_ok hsec).length_eq
  have hflat : (reals.zip sections).flatMap (fun row => asked row.2) = sections.flatMap asked := by
    have hsnd : (reals.zip sections).map Prod.snd = sections := List.map_snd_zip (by omega)
    rw [← List.flatMap_map Prod.snd asked, hsnd]
  unfold getOuts
  rw [if_neg hnum, hsec, hflat]
  show (fetchChunks _ _ _ >>= _) = _
  rw [fetchChunks_honest node le_rfl]
  rfl

/-- An honest node's answer is refused only for an output it was not asked about, or that the
    wallet and the node describe differently, or that is locked. -/
theorem getOuts_refused {C : Crypto} {rng : R} {reals : List (RealOutput × Option (List Nat))}
    {ringSize : Nat} {node : Nat → Member} {g : Nat}
    (h : getOuts C picker rng reals ringSize (fun is => .ok (is.map node)) =
      .error (.realOutputNotReturned g)) :
    ∃ pair ∈ reals, pair.1.globalIndex = g ∧
      ¬ (picker.Asks pair.1 pair.2 ∧
        node g = ⟨pair.1.publicKey, pair.1.commitment, true⟩) := by
  by_cases hnum : picker.numRctOutputs = 0
  · unfold getOuts at h
    rw [if_pos hnum] at h
    cases h
  cases hsec : pickSections picker ringSize reals rng with
  | error e =>
      exfalso
      unfold getOuts at h
      rw [if_neg hnum, hsec] at h
      cases h
      exact pickSections_error hsec g rfl
  | ok sections =>
      rw [getOuts_honest node hnum hsec] at h
      obtain ⟨⟨pair, order⟩, hrow, hg, hnot⟩ := assembleRings_refused node h
      refine ⟨pair, (List.of_mem_zip hrow).1, hg, fun hboth => hnot ?_⟩
      obtain ⟨rng₁, rng₂, hpick⟩ := List.forall₂_iff_zip.mp (pickSections_ok hsec) |>.2 hrow
      subst hg
      exact ⟨mem_pickSection hboth.1 hpick, hboth.2⟩

/-- Rings come back only when the node describes every output as the wallet does. -/
theorem getOuts_shown {C : Crypto} {rng : R} {reals : List (RealOutput × Option (List Nat))}
    {ringSize : Nat} {node : Nat → Member} {rings : List (Ring × List (PublicKey × EcPoint))}
    (h : getOuts C picker rng reals ringSize (fun is => .ok (is.map node)) = .ok rings) :
    ∀ pair ∈ reals, node pair.1.globalIndex = ⟨pair.1.publicKey, pair.1.commitment, true⟩ := by
  by_cases hnum : picker.numRctOutputs = 0
  · unfold getOuts at h
    rw [if_pos hnum] at h
    cases h
  cases hsec : pickSections picker ringSize reals rng with
  | error e =>
      unfold getOuts at h
      rw [if_neg hnum, hsec] at h
      cases h
  | ok sections =>
      rw [getOuts_honest node hnum hsec] at h
      intro pair hpair
      have hlen : reals.length = sections.length := (pickSections_ok hsec).length_eq
      have hfst : (reals.zip sections).map Prod.fst = reals := List.map_fst_zip (by omega)
      rw [← hfst] at hpair
      obtain ⟨row, hrow, rfl⟩ := List.mem_map.mp hpair
      exact (assembleRings_shown node h row hrow).2

end

end Wownero

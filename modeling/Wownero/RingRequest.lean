import Wownero.GammaPick
/-!
# What a node is asked about rings

Each input of a spend has its share of the request.  A share is meant to be of one length for every
input, whichever ring was known for it, and to be sorted.  It is, but for a chain so young that
there are no more outputs than are asked about: there the members of a known ring are asked about
and every output there is after them.

The node is asked in chunks, and may answer every call as it likes.
-/

namespace Wownero

open Outcome

section

variable {R : Type} {picker : Picker R}

/-! ### The length of a share -/

/-- The members of a known ring that the picker has in its range. -/
def knownInRange (numOuts : Nat) (known : Option (List Nat)) : List Nat :=
  (known.getD []).filter (· < numOuts)

theorem addKnown_order (numOuts : Nat) (known : Option (List Nat)) (rng : R) :
    (({ rng := rng } : Picking R).addKnown numOuts (known.getD [])).order =
      knownInRange numOuts known := by
  rw [Picking.addKnown, order_addAll, List.nil_append, knownInRange]

/-- Where the picking of an input starts. -/
def pickingStart (numOuts : Nat) (known : Option (List Nat)) (real : RealOutput) (rng : R) :
    Picking R :=
  (({ rng := rng } : Picking R).addKnown numOuts (known.getD [])).startWith real

theorem pickingStart_order (numOuts : Nat) (known : Option (List Nat)) (real : RealOutput)
    (rng : R) :
    (pickingStart numOuts known real rng).order =
      if knownInRange numOuts known = [] then [real.globalIndex]
      else knownInRange numOuts known := by
  have horder := addKnown_order numOuts known rng
  unfold pickingStart Picking.startWith
  rw [horder]
  split_ifs with hnone
  · rw [Picking.add, horder, hnone]
    rfl
  · exact horder

theorem pickingStart_length (numOuts : Nat) (known : Option (List Nat)) (real : RealOutput)
    (rng : R) : 0 < (pickingStart numOuts known real rng).order.length := by
  rw [pickingStart_order]
  split_ifs with hnone
  · exact Nat.one_pos
  · exact List.length_pos_of_ne_nil hnone

theorem ringSize_lt_requested (ringSize : Nat) : ringSize < requestedOutputsCount ringSize := by
  unfold requestedOutputsCount walletUnlockWindow spendableAge
  omega

theorem length_knownInRange_le (numOuts : Nat) (known : Option (List Nat)) :
    (knownInRange numOuts known).length ≤ (known.getD []).length :=
  List.length_filter_le _ _

theorem pickingStart_length_le {ringSize numOuts : Nat} {known : Option (List Nat)}
    {real : RealOutput} {rng : R} (hknown : (known.getD []).length ≤ ringSize) :
    (pickingStart numOuts known real rng).order.length ≤ requestedOutputsCount ringSize := by
  have hlt := ringSize_lt_requested ringSize
  have hle := length_knownInRange_le numOuts known
  rw [pickingStart_order]
  split_ifs
  · rw [List.length_singleton]
    omega
  · omega

theorem pickLoop_length_le {requested fuel : Nat} {allow : Bool} {picksLeft : Nat} {p : Picking R}
    (h : p.order.length ≤ requested) :
    (pickLoop picker requested fuel allow picksLeft p).order.length ≤ requested := by
  induction fuel generalizing allow picksLeft p with
  | zero => exact h
  | succ fuel ih =>
      rw [pickLoop]
      by_cases hfull : requested ≤ p.order.length
      · rwa [if_pos hfull]
      by_cases hall : p.seen.length = picker.numRctOutputs ∧ allow = true
      · rwa [if_neg hfull, if_pos hall]
      rw [if_neg hfull, if_neg hall]
      simp only
      split
      · apply ih
        rw [Picking.add, List.length_append, List.length_singleton]
        exact Nat.not_le.mp hfull
      · split
        · exact h
        · exact ih h

/-- The loop picks what is still wanted, uses up the picks left, and is over: turns beyond that
    change nothing. -/
theorem pickLoop_ends {requested fuel : Nat} {allow : Bool} {picksLeft : Nat} {p : Picking R}
    (h : requested - p.order.length + picksLeft < fuel) (more : Nat) :
    pickLoop picker requested (fuel + more) allow picksLeft p =
      pickLoop picker requested fuel allow picksLeft p := by
  induction fuel generalizing allow picksLeft p with
  | zero => exact absurd h (Nat.not_lt_zero _)
  | succ fuel ih =>
      rw [Nat.add_right_comm fuel 1 more, pickLoop, pickLoop]
      by_cases hfull : requested ≤ p.order.length
      · rw [if_pos hfull, if_pos hfull]
      by_cases hall : p.seen.length = picker.numRctOutputs ∧ allow = true
      · rw [if_neg hfull, if_neg hfull, if_pos hall, if_pos hall]
      rw [if_neg hfull, if_neg hfull, if_neg hall, if_neg hall]
      simp only
      split
      · apply ih
        rw [Picking.add, List.length_append, List.length_singleton]
        show requested - (p.order.length + 1) + picksLeft < fuel
        omega
      · split_ifs with hleft
        · rfl
        · apply ih
          show requested - p.order.length + (picksLeft - 1) < fuel
          omega

/-- How many an input's share asks about: in a young chain the members of the known ring come on
    top. -/
theorem pickSection_length {ringSize : Nat} {known : Option (List Nat)} {real : RealOutput}
    {rng rng' : R} {order : List Nat}
    (h : pickSection picker ringSize known real rng = .ok (order, rng')) :
    order.length = requestedOutputsCount ringSize +
      if picker.numRctOutputs ≤ requestedOutputsCount ringSize then
        (knownInRange picker.numRctOutputs known).length
      else 0 := by
  simp only [pickSection, if_ok_iff] at h
  obtain ⟨hknown, h⟩ := h
  have hknown := Nat.not_lt.mp hknown
  split_ifs at h ⊢ with hfew
  · simp only [Except.ok.injEq, Prod.mk.injEq] at h
    rw [← h.1, addKnown_order, List.length_append, List.length_append, List.length_range,
      List.length_replicate]
    omega
  · simp only [Except.ok.injEq, Prod.mk.injEq] at h
    have hle := @pickLoop_length_le R picker (requestedOutputsCount ringSize)
      (requestedOutputsCount ringSize + saturatingMul (requestedOutputsCount ringSize) 1000) false
      (saturatingMul (requestedOutputsCount ringSize) 1000) _
      (@pickingStart_length_le R ringSize picker.numRctOutputs known real rng hknown)
    rw [← h.1, List.length_append, List.length_replicate]
    exact Nat.add_sub_cancel' hle

/-- A share is made unless the known ring is larger than rings are. -/
theorem pickSection_isOk (ringSize : Nat) (known : Option (List Nat)) (real : RealOutput)
    (rng : R) :
    (∃ out, pickSection picker ringSize known real rng = .ok out) ↔
      (known.getD []).length ≤ ringSize := by
  simp only [pickSection]
  split_ifs with hlarge hfew
  · constructor
    · rintro ⟨_, h⟩
      cases h
    · intro hle
      omega
  · exact ⟨fun _ => Nat.not_lt.mp hlarge, fun _ => ⟨_, rfl⟩⟩
  · exact ⟨fun _ => Nat.not_lt.mp hlarge, fun _ => ⟨_, rfl⟩⟩

theorem pickSections_isOk (ringSize : Nat) (reals : List (RealOutput × Option (List Nat)))
    (rng : R) :
    (∃ sections, pickSections picker ringSize reals rng = .ok sections) ↔
      ∀ pair ∈ reals, (pair.2.getD []).length ≤ ringSize := by
  induction reals generalizing rng with
  | nil => exact ⟨fun _ _ h => absurd h List.not_mem_nil, fun _ => ⟨[], rfl⟩⟩
  | cons pair reals ih =>
      obtain ⟨real, known⟩ := pair
      rw [List.forall_mem_cons, ← @pickSection_isOk R picker ringSize known real rng]
      constructor
      · rintro ⟨sections, h⟩
        obtain ⟨⟨order, rng'⟩, hone, h⟩ := bind_eq_ok.mp h
        obtain ⟨rest, hrest, -⟩ := bind_eq_ok.mp h
        exact ⟨⟨_, hone⟩, (ih rng').mp ⟨rest, hrest⟩⟩
      · rintro ⟨⟨⟨order, rng'⟩, hone⟩, hrest⟩
        obtain ⟨rest, hrest⟩ := (ih rng').mpr hrest
        exact ⟨order :: rest, bind_eq_ok.mpr ⟨_, hone, bind_eq_ok.mpr ⟨_, hrest, rfl⟩⟩⟩

theorem mem_pickSection_known {ringSize : Nat} {known : Option (List Nat)} {real : RealOutput}
    {rng rng' : R} {order : List Nat}
    (h : pickSection picker ringSize known real rng = .ok (order, rng')) {i : Nat}
    (hi : i ∈ knownInRange picker.numRctOutputs known) : i ∈ order := by
  simp only [pickSection, if_ok_iff] at h
  obtain ⟨-, h⟩ := h
  split_ifs at h with hfew
  · simp only [Except.ok.injEq, Prod.mk.injEq] at h
    rw [← h.1, addKnown_order]
    exact List.mem_append_left _ (List.mem_append_left _ hi)
  · simp only [Except.ok.injEq, Prod.mk.injEq] at h
    rw [← h.1]
    refine List.mem_append_left _ (pickLoop_keeps _ _ _ _ _ ?_)
    show i ∈ (pickingStart picker.numRctOutputs known real rng).order
    rw [pickingStart_order, if_neg (List.ne_nil_of_mem hi)]
    exact hi

/-! ### The calls -/

/-- The request sent in chunks to a node that answers each call as it likes. -/
def askChunks (fetch : Nat → List Nat → Except String (List Member)) :
    Nat → Nat → List Nat → Except DecoyError (List Member)
  | _, 0, _ => .ok []
  | call, fuel + 1, request =>
      if request = [] then .ok []
      else
        let chunk := request.take getOutsChunk
        match fetch call chunk with
        | .error reason => .error (.fetch reason)
        | .ok got =>
            if got.length ≠ chunk.length then
              .error (.fetch ("daemon returned wrong response for get_outs.bin, wrong amounts " ++
                s!"count = {got.length}, expected {chunk.length}"))
            else do
              return got ++ (← askChunks fetch (call + 1) fuel (request.drop getOutsChunk))

/-- A node that answers every call alike is asked as `fetchChunks` asks it. -/
theorem askChunks_const (fetch : List Nat → Except String (List Member)) (call fuel : Nat)
    (request : List Nat) :
    askChunks (fun _ => fetch) call fuel request = fetchChunks fetch fuel request := by
  induction fuel generalizing call request with
  | zero => rfl
  | succ fuel ih =>
      simp only [askChunks, fetchChunks, ih] <;> rfl

variable {fetch : Nat → List Nat → Except String (List Member)}

/-- As many calls as there are outputs asked about are enough. -/
theorem askChunks_ends {fuel : Nat} {request : List Nat} (h : request.length ≤ fuel)
    (call more : Nat) :
    askChunks fetch call (fuel + more) request = askChunks fetch call fuel request := by
  induction fuel generalizing call request with
  | zero =>
      rw [List.eq_nil_of_length_eq_zero (Nat.le_zero.mp h), Nat.zero_add]
      cases more with
      | zero => rfl
      | succ more => rfl
  | succ fuel ih =>
      rw [Nat.add_right_comm fuel 1 more, askChunks, askChunks]
      by_cases hnil : request = []
      · rw [if_pos hnil, if_pos hnil]
      have hpos : 0 < request.length := List.length_pos_of_ne_nil hnil
      have hdrop : (request.drop getOutsChunk).length ≤ fuel := by
        rw [List.length_drop, getOutsChunk]
        omega
      rw [if_neg hnil, if_neg hnil]
      simp only [ih hdrop]

/-- The node has answered for every output it was asked about, or there is no answer. -/
theorem askChunks_length {call fuel : Nat} {request : List Nat} {answer : List Member}
    (hfuel : request.length ≤ fuel) (h : askChunks fetch call fuel request = .ok answer) :
    answer.length = request.length := by
  induction fuel generalizing call request answer with
  | zero =>
      rw [List.eq_nil_of_length_eq_zero (Nat.le_zero.mp hfuel)]
      cases h
      rfl
  | succ fuel ih =>
      rw [askChunks] at h
      split_ifs at h with hnil
      · rw [hnil]
        cases h
        rfl
      have hpos : 0 < request.length := List.length_pos_of_ne_nil hnil
      have hdrop : (request.drop getOutsChunk).length ≤ fuel := by
        rw [List.length_drop, getOutsChunk]
        omega
      simp only at h
      split at h
      · cases h
      · rename_i got hgot
        obtain ⟨hlen, h⟩ := if_ok_iff.mp h
        obtain ⟨rest, hrest, h⟩ := bind_eq_ok.mp h
        cases pure_eq_ok.mp h
        rw [List.length_append, ih hdrop hrest, not_not.mp hlen, ← List.length_append,
          List.take_append_drop]

/-! ### The answer, input by input -/

/-- An input with its share of the request, in the order it was picked, and of the answer. -/
structure AskedInput where
  real : RealOutput
  known : Option (List Nat)
  order : List Nat
  told : List Member
  deriving DecidableEq, Repr

/-- The answer handed out to the inputs. -/
def askedInputs : List (RealOutput × Option (List Nat)) → List (List Nat) → List Member →
    List AskedInput
  | (real, known) :: reals, order :: sections, answer =>
      ⟨real, known, order, answer.take (asked order).length⟩ ::
        askedInputs reals sections (answer.drop (asked order).length)
  | _, _, _ => []

theorem length_asked (order : List Nat) : (asked order).length = order.length :=
  List.length_insertionSort _ _

/-- The first half of `get_outs`: what the node was asked and what it has answered. -/
def conversation (picker : Picker R) (rng : R) (reals : List (RealOutput × Option (List Nat)))
    (ringSize : Nat) (fetch : Nat → List Nat → Except String (List Member)) :
    Except DecoyError (List AskedInput) :=
  if picker.numRctOutputs = 0 then .error .noOutputs
  else do
    let sections ← pickSections picker ringSize reals rng
    let request := sections.flatMap asked
    let answer ← askChunks fetch 0 request.length request
    return askedInputs reals sections answer

/-- What is true of every input that a node has answered for. -/
structure Answered (ringSize numOuts : Nat) (a : AskedInput) : Prop where
  knownLength : (a.known.getD []).length ≤ ringSize
  known : ∀ i ∈ knownInRange numOuts a.known, i ∈ a.order
  told : a.told.length = (asked a.order).length

theorem askedInputs_answered {ringSize : Nat} {reals : List (RealOutput × Option (List Nat))}
    {rng : R} {sections : List (List Nat)} {answer : List Member}
    (h : pickSections picker ringSize reals rng = .ok sections)
    (hlen : answer.length = (sections.flatMap asked).length) :
    ∀ a ∈ askedInputs reals sections answer, Answered ringSize picker.numRctOutputs a := by
  induction reals generalizing rng sections answer with
  | nil =>
      intro a ha
      simp [askedInputs] at ha
  | cons pair reals ih =>
      obtain ⟨real, known⟩ := pair
      obtain ⟨⟨order, rng'⟩, hone, h⟩ := bind_eq_ok.mp h
      obtain ⟨rest, hrest, h⟩ := bind_eq_ok.mp h
      cases pure_eq_ok.mp h
      rw [List.flatMap_cons, List.length_append] at hlen
      rw [askedInputs, List.forall_mem_cons]
      constructor
      · exact
          { knownLength := (pickSection_isOk ringSize known real rng).mp ⟨_, hone⟩
            known := fun i hi => mem_pickSection_known hone hi
            told := by
              show (answer.take (asked order).length).length = (asked order).length
              rw [List.length_take]
              omega }
      · refine ih hrest ?_
        rw [List.length_drop]
        omega

theorem conversation_answered {ringSize : Nat} {reals : List (RealOutput × Option (List Nat))}
    {rng : R} {rows : List AskedInput}
    (h : conversation picker rng reals ringSize fetch = .ok rows) :
    ∀ a ∈ rows, Answered ringSize picker.numRctOutputs a := by
  obtain ⟨-, h⟩ := if_ok_iff.mp h
  obtain ⟨sections, hsections, h⟩ := bind_eq_ok.mp h
  obtain ⟨answer, hanswer, h⟩ := bind_eq_ok.mp h
  cases pure_eq_ok.mp h
  exact askedInputs_answered hsections (askChunks_length le_rfl hanswer)

/-- `get_outs`, asking a node that answers each call as it likes. -/
def getOutsFrom (C : Crypto) (picker : Picker R) (rng : R)
    (reals : List (RealOutput × Option (List Nat))) (ringSize : Nat)
    (fetch : Nat → List Nat → Except String (List Member)) :
    Except DecoyError (List (Ring × List (PublicKey × EcPoint))) :=
  if picker.numRctOutputs = 0 then .error .noOutputs
  else do
    let sections ← pickSections picker ringSize reals rng
    let request := sections.flatMap asked
    let answer ← askChunks fetch 0 request.length request
    assembleRings C ringSize picker.numRctOutputs (reals.zip sections) answer []

theorem getOutsFrom_const (C : Crypto) (rng : R) (reals : List (RealOutput × Option (List Nat)))
    (ringSize : Nat) (fetch : List Nat → Except String (List Member)) :
    getOutsFrom C picker rng reals ringSize (fun _ => fetch) =
      getOuts C picker rng reals ringSize fetch := by
  simp only [getOutsFrom, getOuts, askChunks_const]

end

end Wownero

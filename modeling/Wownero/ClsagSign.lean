import Mathlib.Data.ZMod.Basic
import Mathlib.GroupTheory.OrderOfElement
import Wownero.Codec
import Wownero.Keys
/-!
# Signing a ring

The signer starts behind its own place, walks once around the ring with made-up scalars, and closes it
at its own place with the one scalar that only its secrets give.  The verifier walks from place zero.
-/

namespace Wownero.Crypto

open Wownero.Archive

variable (C : Crypto)

/-- What signing gives: a `Clsag` with the key image beside it. -/
structure Signed where
  sig : Clsag
  i : KeyImage
  deriving DecidableEq, Repr

/-- The challenge after a ring member, which signing and verifying share. -/
def nextChallenge (pre : Blob) (muP muC : Nat) (image d : C.Point) (c s : Nat) (m : C.DecodedMember) :
    Nat :=
  let cP := muP * c % C.ell
  let cC := muC * c % C.ell
  let l := s • C.basepoint + cP • m.dest + cC • m.maskLessOffset
  let r := s • m.hp + cP • image + cC • d
  C.roundHash pre l r

/-- What the signer reads on its way around the ring. -/
structure Walk where
  decoded : List C.DecodedMember
  index : Nat
  fakeS : List Nat
  muP : Nat
  muC : Nat
  pre : Blob
  image : C.Point
  d : C.Point

/-- The variables of the loop of `sign`. -/
structure SignState where
  c : Nat
  s : List Nat
  c1 : Nat
  i : Nat
  deriving DecidableEq, Repr

/-- The body of the loop of `sign`; `none` where it would index out of range. -/
def Walk.round {C : Crypto} (w : C.Walk) (st : SignState) : Option SignState := do
  let s ← w.fakeS[st.i]?
  let m ← w.decoded[st.i]?
  let c := C.nextChallenge w.pre w.muP w.muC w.image w.d st.c s m
  let i := (st.i + 1) % w.decoded.length
  return ⟨c, st.s.set st.i s, if i = 0 then c else st.c1, i⟩

/-- The loop of `sign`, for at most so many rounds. -/
def Walk.loop {C : Crypto} (w : C.Walk) : Nat → SignState → Option SignState
  | 0, st => if st.i = w.index then some st else none
  | fuel + 1, st => if st.i = w.index then some st else (w.round st).bind (w.loop fuel)

/-- What `sign` works out before the loop. -/
structure SignSetup where
  walk : C.Walk
  start : SignState
  d8 : EcPoint
  keyImage : KeyImage

/-- `sign` up to its loop.  The outer `none` is a panic. -/
def signSetup (message : Hash256) (ring : List RingMember) (index p z : Nat) (cOffset : EcPoint)
    (alpha : Nat) (fakeS : List Nat) : Option (Except ClsagError C.SignSetup) :=
  let n := ring.length
  if n = 0 then some (.error .emptyRing)
  else if index ≥ n then some (.error (.indexOutOfRange index n))
  else if fakeS.length ≠ n then some (.error (.wrongScalarCount fakeS.length n))
  else
    match (C.decodePoint cOffset).bind fun o => C.decodeRing o ring with
    | none => some (.error .badPoint)
    | some decoded => do
        let h := (← decoded[index]?).hp
        let keyImage := C.encodePoint (p • h)
        let d := z • h
        let d8 := C.encodePoint (C.invEight • d)
        let (muP, muC) := C.aggregationHashes ring keyImage d8 cOffset
        let pre := roundPrefix ring cOffset message
        match C.decodePoint keyImage with
        | none => some (.error .badPoint)
        | some image =>
            let c := C.roundHash pre (alpha • C.basepoint) (alpha • h)
            let i := (index + 1) % n
            some (.ok {
              walk := ⟨decoded, index, fakeS, muP, muC, pre, image, d⟩
              start := ⟨c, List.replicate n 0, if i = 0 then c else 0, i⟩
              d8, keyImage })

/-- `alpha - c * (mu_p * p + mu_c * z)`. -/
def closingScalar (alpha c muP muC p z : Nat) : Nat :=
  (alpha + (C.ell - c * (muP * p + muC * z) % C.ell)) % C.ell

/-- `sign`.  The outer `none` is a panic, or a walk that is not over after as many rounds as the ring
    has members. -/
def sign (message : Hash256) (ring : List RingMember) (index p z : Nat) (cOffset : EcPoint)
    (alpha : Nat) (fakeS : List Nat) : Option (Except ClsagError Signed) := do
  match ← C.signSetup message ring index p z cOffset alpha fakeS with
  | .error e => return .error e
  | .ok setup =>
      let w := setup.walk
      let st ← w.loop ring.length setup.start
      let s := st.s.set index (C.closingScalar alpha st.c w.muP w.muC p z)
      return .ok ⟨⟨s.map scalarBytes, scalarBytes st.c1, setup.d8⟩, setup.keyImage⟩

/-- The states the loop of `sign` comes through. -/
def Walk.Reached {C : Crypto} (w : C.Walk) : SignState → SignState → Prop :=
  Relation.ReflTransGen fun st st' => st.i ≠ w.index ∧ w.round st = some st'

/-- The challenges of the loop of `verify`, from the first on. -/
def clsagTrail (pre : Blob) (muP muC : Nat) (image d : C.Point) :
    Nat → List Nat → List C.DecodedMember → List Nat
  | c, s :: ss, m :: ms =>
      c :: clsagTrail pre muP muC image d (C.nextChallenge pre muP muC image d c s m) ss ms
  | c, _, _ => [c]

/-- The challenges that `verify` recomputes, where all decodes. -/
def challenges (message : Hash256) (sig : Clsag) (keyImage : KeyImage) (ring : List RingMember)
    (cOffset : EcPoint) : Option (List Nat) := do
  let s ← sig.s.mapM C.decodeScalar
  let c1 ← C.decodeScalar sig.c1
  let image ← C.decodePoint keyImage
  let d ← (C.decodePoint sig.d).map C.mul8
  let offset ← C.decodePoint cOffset
  let decoded ← C.decodeRing offset ring
  let (muP, muC) := C.aggregationHashes ring keyImage sig.d cOffset
  return C.clsagTrail (roundPrefix ring cOffset message) muP muC image d c1 s decoded

/-- The group has prime order, a scalar fits its bytes, and points decode as they were encoded. -/
structure PrimeOrder : Prop where
  prime : C.ell.Prime
  fits : C.ell < 2 ^ 256
  kills : ∀ x : C.Point, C.ell • x = 0
  invEight : 8 * C.invEight % C.ell = 1
  decode_encode : ∀ x, C.decodePoint (C.encodePoint x) = some x
  encode_decode : ∀ bytes x, C.decodePoint bytes = some x → C.encodePoint x = bytes

/-! ### Places on the ring -/

/-- The place `k` steps behind the place after `index`. -/
def place (n index k : Nat) : Nat := if index + 1 + k < n then index + 1 + k else index + 1 + k - n

/-- The steps it takes to a place; place `n` is place zero. -/
def stepsTo (n index q : Nat) : Nat := if index < q then q - (index + 1) else q + n - (index + 1)

section

variable {n index k q : Nat}

theorem place_lt (hindex : index < n) (hk : k < n) : place n index k < n := by
  unfold place
  split <;> omega

theorem stepsTo_lt (hindex : index < n) (hq : q ≤ n) : stepsTo n index q < n := by
  unfold stepsTo
  split <;> omega

theorem place_stepsTo (hindex : index < n) (hq : q < n) : place n index (stepsTo n index q) = q := by
  unfold place stepsTo
  split_ifs <;> omega

theorem stepsTo_place (hindex : index < n) (hk : k < n) : stepsTo n index (place n index k) = k := by
  unfold place stepsTo
  split_ifs <;> omega

theorem place_zero (hindex : index < n) : (index + 1) % n = place n index 0 := by
  unfold place
  split
  case isTrue hlt => exact Nat.mod_eq_of_lt hlt
  case isFalse hge =>
    obtain rfl : index + 1 = n := by omega
    rw [Nat.mod_self]
    omega

theorem place_succ (hindex : index < n) (hk : k + 1 < n) :
    (place n index k + 1) % n = place n index (k + 1) := by
  by_cases hwrap : index + 1 + k = n - 1
  · unfold place
    rw [if_pos (by omega), if_neg (by omega), show index + 1 + k + 1 = n by omega, Nat.mod_self]
    omega
  · have hroom : place n index k + 1 < n := by
      unfold place
      split <;> omega
    rw [Nat.mod_eq_of_lt hroom]
    unfold place
    split_ifs <;> omega

/-- The walk comes to `index` with its last step and not before. -/
theorem place_eq_index : place n index k = index ↔ k + 1 = n := by
  unfold place
  split <;> omega

theorem place_eq_zero (hindex : index < n) :
    place n index k = 0 ↔ k = stepsTo n index 0 := by
  unfold place stepsTo
  split_ifs <;> omega

theorem stepsTo_last (hindex : index < n) : stepsTo n index n = stepsTo n index 0 := by
  unfold stepsTo
  split_ifs <;> omega

theorem stepsTo_succ (hindex : index < n) (hq : q < n) (hne : q ≠ index) :
    stepsTo n index (q + 1) = stepsTo n index q + 1 := by
  unfold stepsTo
  split_ifs <;> omega

theorem stepsTo_index : stepsTo n index (index + 1) = 0 := by
  unfold stepsTo
  split <;> omega

end

/-! ### The walk -/

section

variable {C} (w : C.Walk)

/-- The body of the loop, where it indexes in range. -/
def Walk.advance (st : SignState) : SignState :=
  let s := w.fakeS.getD st.i 0
  let m := w.decoded.getD st.i ⟨0, 0, 0⟩
  let c := C.nextChallenge w.pre w.muP w.muC w.image w.d st.c s m
  let i := (st.i + 1) % w.decoded.length
  ⟨c, st.s.set st.i s, if i = 0 then c else st.c1, i⟩

/-- The state after so many rounds. -/
def Walk.after (start : SignState) (k : Nat) : SignState := w.advance^[k] start

/-- A scalar and a member for each place, and the signer's own place. -/
structure Walk.Fits (n : Nat) : Prop where
  decoded : w.decoded.length = n
  fakeS : w.fakeS.length = n
  index : w.index < n

/-- The state before the loop. -/
structure Walk.Start (start : SignState) : Prop where
  i : start.i = (w.index + 1) % w.decoded.length
  length : start.s.length = w.decoded.length
  c1 : start.i = 0 → start.c1 = start.c

/-- The challenge on the way into a place. -/
def Walk.challengeAt (start : SignState) (q : Nat) : Nat :=
  (w.after start (stepsTo w.decoded.length w.index q)).c

variable {w} {start : SignState} {n k q : Nat}

theorem Walk.after_succ : w.after start (k + 1) = w.advance (w.after start k) :=
  Function.iterate_succ_apply' _ _ _

theorem Walk.Fits.round (h : w.Fits n) {st : SignState} (hi : st.i < n) :
    w.round st = some (w.advance st) := by
  have hfake : w.fakeS[st.i]? = some (w.fakeS.getD st.i 0) := by
    rw [List.getD_eq_getElem?_getD, List.getElem?_eq_getElem (by rw [h.fakeS]; exact hi)]
    rfl
  have hmember : w.decoded[st.i]? = some (w.decoded.getD st.i ⟨0, 0, 0⟩) := by
    rw [List.getD_eq_getElem?_getD, List.getElem?_eq_getElem (by rw [h.decoded]; exact hi)]
    rfl
  rw [Walk.round, hfake, hmember]
  rfl

/-- What the walk has done after `k` rounds. -/
structure Walk.Walked (w : C.Walk) (start : SignState) (n k : Nat) : Prop where
  i : (w.after start k).i = place n w.index k
  length : (w.after start k).s.length = n
  visited : ∀ j < k, (w.after start k).s[place n w.index j]? = w.fakeS[place n w.index j]?
  c1 : stepsTo n w.index 0 ≤ k → (w.after start k).c1 = (w.after start (stepsTo n w.index 0)).c

theorem Walk.Fits.walked (h : w.Fits n) (hstart : w.Start start) (hk : k < n) :
    w.Walked start n k := by
  induction k with
  | zero =>
      have hi : start.i = place n w.index 0 := by
        rw [hstart.i, h.decoded]
        exact place_zero h.index
      refine ⟨hi, hstart.length.trans h.decoded, fun j hj => absurd hj (Nat.not_lt_zero j), ?_⟩
      intro hfirst
      have hzero : 0 = stepsTo n w.index 0 := (Nat.le_zero.mp hfirst).symm
      rw [← hzero]
      exact hstart.c1 (hi.trans ((place_eq_zero h.index).mpr hzero))
  | succ k ih =>
      have hwalked := ih (by omega)
      have hplace := place_lt h.index (show k < n by omega)
      have hnext : (w.after start (k + 1)).i = place n w.index (k + 1) := by
        rw [Walk.after_succ, Walk.advance, hwalked.i, h.decoded]
        exact place_succ h.index hk
      refine ⟨hnext, ?_, ?_, ?_⟩
      · rw [Walk.after_succ, Walk.advance, List.length_set, hwalked.length]
      · intro j hj
        rw [Walk.after_succ, Walk.advance, hwalked.i, List.getElem?_set]
        split
        case isTrue heq =>
          rw [if_pos (by rw [hwalked.length]; exact hplace), ← heq, List.getD_eq_getElem?_getD,
            List.getElem?_eq_getElem (by rw [h.fakeS]; exact hplace)]
          rfl
        case isFalse hne =>
          have hjk : j ≠ k := fun hjk => hne (by rw [hjk])
          exact hwalked.visited j (by omega)
      · intro hfirst
        have hc1 : (w.after start (k + 1)).c1 =
            if (w.after start (k + 1)).i = 0 then (w.after start (k + 1)).c
            else (w.after start k).c1 := by
          rw [Walk.after_succ]
          rfl
        rw [hc1, hnext]
        by_cases hzero : k + 1 = stepsTo n w.index 0
        · rw [if_pos ((place_eq_zero h.index).mpr hzero), hzero]
        · rw [if_neg fun hplace => hzero ((place_eq_zero h.index).mp hplace)]
          exact hwalked.c1 (by omega)

/-- The walk is over after one round less than the ring has members. -/
theorem Walk.Fits.loop (h : w.Fits n) (hstart : w.Start start) {fuel : Nat} (hk : k < n)
    (hfuel : n ≤ fuel + k + 1) : w.loop fuel (w.after start k) = some (w.after start (n - 1)) := by
  induction fuel generalizing k with
  | zero =>
      obtain rfl : k = n - 1 := by omega
      have hover := (h.walked hstart hk).i.trans (place_eq_index.mpr (by omega))
      rw [Walk.loop, if_pos hover]
  | succ fuel ih =>
      have hi := (h.walked hstart hk).i
      rw [Walk.loop]
      split
      case isTrue hover =>
        rw [hi, place_eq_index] at hover
        obtain rfl : k = n - 1 := by omega
        rfl
      case isFalse hnot =>
        rw [hi, place_eq_index] at hnot
        rw [h.round (by rw [hi]; exact place_lt h.index hk), Option.bind_some, ← Walk.after_succ]
        exact ih (by omega) (by omega)

/-- The states on the way are those after so many rounds. -/
theorem Walk.Fits.reached_iff (h : w.Fits n) (hstart : w.Start start) {st : SignState} :
    w.Reached start st ↔ ∃ k < n, w.after start k = st := by
  constructor
  · intro hreached
    induction hreached with
    | refl => exact ⟨0, Nat.lt_of_le_of_lt (Nat.zero_le _) h.index, rfl⟩
    | tail _ hstep ih =>
        obtain ⟨k, hk, rfl⟩ := ih
        obtain ⟨hne, hround⟩ := hstep
        have hwalked := h.walked hstart hk
        rw [hwalked.i, ne_eq, place_eq_index] at hne
        rw [h.round (by rw [hwalked.i]; exact place_lt h.index hk), Option.some.injEq] at hround
        exact ⟨k + 1, by omega, Walk.after_succ.trans hround⟩
  · rintro ⟨k, hk, rfl⟩
    induction k with
    | zero => exact Relation.ReflTransGen.refl
    | succ k ih =>
        have hwalked := h.walked hstart (show k < n by omega)
        refine Relation.ReflTransGen.tail (ih (by omega)) ⟨?_, ?_⟩
        · rw [hwalked.i, ne_eq, place_eq_index]
          omega
        · rw [h.round (by rw [hwalked.i]; exact place_lt h.index (by omega)), Walk.after_succ]

theorem Walk.Fits.challengeAt_after (h : w.Fits n) (hk : k < n) :
    w.challengeAt start (place n w.index k) = (w.after start k).c := by
  rw [Walk.challengeAt, h.decoded, stepsTo_place h.index hk]

/-- The ring is closed: the way into the last place's next is the way into place zero. -/
theorem Walk.Fits.challengeAt_last (h : w.Fits n) :
    w.challengeAt start n = w.challengeAt start 0 := by
  rw [Walk.challengeAt, Walk.challengeAt, h.decoded, stepsTo_last h.index]

theorem Walk.challengeAt_start : w.challengeAt start (w.index + 1) = start.c := by
  rw [Walk.challengeAt, stepsTo_index]
  rfl

/-- Past a place other than the signer's the challenge is the one the made-up scalar gives. -/
theorem Walk.Fits.challengeAt_succ (h : w.Fits n) (hstart : w.Start start) (hq : q < n)
    (hne : q ≠ w.index) :
    w.challengeAt start (q + 1) = C.nextChallenge w.pre w.muP w.muC w.image w.d
      (w.challengeAt start q) (w.fakeS.getD q 0) (w.decoded.getD q ⟨0, 0, 0⟩) := by
  have hk := stepsTo_lt h.index (Nat.le_of_lt hq)
  have hi := (h.walked hstart hk).i
  rw [place_stepsTo h.index hq] at hi
  rw [Walk.challengeAt, Walk.challengeAt, h.decoded, stepsTo_succ h.index hq hne, Walk.after_succ,
    Walk.advance, hi]

/-- The scalars of the walk when it is over. -/
theorem Walk.Fits.scalars (h : w.Fits n) (hstart : w.Start start) (hq : q < n) (hne : q ≠ w.index) :
    (w.after start (n - 1)).s[q]? = w.fakeS[q]? := by
  have hk := stepsTo_lt h.index (Nat.le_of_lt hq)
  have hplace := place_stepsTo h.index hq
  have hlast : stepsTo n w.index q + 1 ≠ n := by
    rw [ne_eq, ← place_eq_index, hplace]
    exact hne
  have hvisited := (h.walked hstart (show n - 1 < n by omega)).visited (stepsTo n w.index q) (by omega)
  rwa [hplace] at hvisited

end

/-! ### The verifier's walk -/

section

variable {C} {pre : Blob} {muP muC : Nat} {image d : C.Point}

/-- The loop of `verify` is turned away by a zero among the challenges it works out, and gives the
    last one. -/
theorem clsagRounds_eq (c : Nat) (ss : List Nat) (ms : List C.DecodedMember) :
    C.clsagRounds pre muP muC image d c ss ms =
      if 0 ∈ (C.clsagTrail pre muP muC image d c ss ms).tail then none
      else (C.clsagTrail pre muP muC image d c ss ms).getLast? := by
  induction ss generalizing c ms with
  | nil => rfl
  | cons s ss ih =>
      cases ms with
      | nil => rfl
      | cons m ms =>
          obtain ⟨next, hnext⟩ : ∃ next, C.nextChallenge pre muP muC image d c s m = next := ⟨_, rfl⟩
          have hround : C.clsagRounds pre muP muC image d c (s :: ss) (m :: ms) =
              if next = 0 then none else C.clsagRounds pre muP muC image d next ss ms := by
            rw [← hnext]
            rfl
          have htrail : ∃ rest, C.clsagTrail pre muP muC image d next ss ms = next :: rest := by
            cases ss <;> cases ms <;> exact ⟨_, rfl⟩
          obtain ⟨rest, hrest⟩ := htrail
          rw [hround, ih, clsagTrail, hnext, hrest, List.tail_cons, List.tail_cons,
            List.getLast?_cons_cons]
          by_cases hzero : next = 0
          · rw [if_pos hzero, hzero, if_pos (List.mem_cons_self ..)]
          · have hmem : 0 ∈ next :: rest ↔ 0 ∈ rest := by
              rw [List.mem_cons]
              exact or_iff_right (Ne.symm hzero)
            simp only [if_neg hzero, hmem]

/-- Challenges that come one after another are the ones the loop works out. -/
theorem clsagTrail_eq {chal : Nat → Nat} {n : Nat} {ss : List Nat} {ms : List C.DecodedMember}
    (hs : ss.length = n) (hm : ms.length = n)
    (h : ∀ q < n, C.nextChallenge pre muP muC image d (chal q) (ss.getD q 0) (ms.getD q ⟨0, 0, 0⟩) =
      chal (q + 1)) :
    C.clsagTrail pre muP muC image d (chal 0) ss ms = (List.range (n + 1)).map chal := by
  induction ss generalizing chal n ms with
  | nil =>
      obtain rfl : n = 0 := hs.symm
      cases ms <;> rfl
  | cons s ss ih =>
      cases ms with
      | nil => exact absurd (hs.trans hm.symm) (Nat.succ_ne_zero _)
      | cons m ms =>
          obtain ⟨n, rfl⟩ : ∃ n', n = n' + 1 := ⟨ss.length, hs.symm⟩
          have hfirst := h 0 (Nat.succ_pos n)
          rw [List.getD_cons_zero, List.getD_cons_zero] at hfirst
          rw [clsagTrail, hfirst, List.range_succ_eq_map, List.map_cons, List.map_map]
          have hrest := @ih (fun q => chal (q + 1)) n ms (Nat.succ.inj hs) (Nat.succ.inj hm)
            fun q hq => h (q + 1) (Nat.succ_lt_succ hq)
          exact congrArg (chal 0 :: ·) hrest

end

/-! ### Scalars of the prime group -/

section

variable {C} {x : C.Point} {alpha c muP muC p z : Nat}

theorem PrimeOrder.pos (h : C.PrimeOrder) : 0 < C.ell := h.prime.pos

theorem PrimeOrder.mod_nsmul (h : C.PrimeOrder) (k : Nat) (x : C.Point) : (k % C.ell) • x = k • x :=
  (nsmul_eq_mod_nsmul k (h.kills x)).symm

theorem PrimeOrder.mul8_invEight (h : C.PrimeOrder) (x : C.Point) : C.mul8 (C.invEight • x) = x := by
  rw [mul8, smul_smul, ← h.mod_nsmul, h.invEight, one_nsmul]

/-- A scalar other than zero takes no point but zero to zero. -/
theorem PrimeOrder.nsmul_ne_zero (h : C.PrimeOrder) (hz : z ≠ 0) (hlt : z < C.ell) (hx : x ≠ 0) :
    z • x ≠ 0 := by
  intro hzero
  have hcoprime : Nat.Coprime z C.ell := (Nat.coprime_of_lt_prime hz hlt h.prime).symm
  have hdvd : addOrderOf x ∣ Nat.gcd z C.ell :=
    Nat.dvd_gcd (addOrderOf_dvd_of_nsmul_eq_zero hzero) (addOrderOf_dvd_of_nsmul_eq_zero (h.kills x))
  rw [hcoprime, Nat.dvd_one, AddMonoid.addOrderOf_eq_one_iff] at hdvd
  exact hx hdvd

/-- The closing scalar brings the round back to the commitment to `alpha`. -/
theorem PrimeOrder.closing (h : C.PrimeOrder) (x : C.Point) :
    C.closingScalar alpha c muP muC p z • x + (muP * c % C.ell) • p • x +
      (muC * c % C.ell) • z • x = alpha • x := by
  obtain ⟨t, ht⟩ : ∃ t, c * (muP * p + muC * z) = t := ⟨_, rfl⟩
  have hdiv := Nat.div_add_mod t C.ell
  have hmod := Nat.mod_lt t h.pos
  have hsum : alpha + (C.ell - t % C.ell) + muP * c * p + muC * c * z =
      alpha + (t / C.ell + 1) * C.ell := by
    have hsplit : muP * c * p + muC * c * z = t := by rw [← ht]; ring
    rw [Nat.add_mul, Nat.mul_comm (t / C.ell)]
    omega
  rw [closingScalar, ht, h.mod_nsmul, h.mod_nsmul, h.mod_nsmul, smul_smul, smul_smul, ← add_nsmul,
    ← add_nsmul, hsum, add_nsmul, mul_nsmul', h.kills, nsmul_zero, add_zero]

theorem PrimeOrder.hash_lt (h : C.PrimeOrder) (pre : Blob) (l r : C.Point) :
    C.roundHash pre l r < C.ell :=
  Nat.mod_lt _ h.pos

theorem PrimeOrder.decode_scalarBytes (h : C.PrimeOrder) {k : Nat} (hk : k < C.ell) :
    C.decodeScalar (scalarBytes k) = some k := by
  have hvalue : leNat (Bytes32.toBytes (scalarBytes k)) = k := by
    rw [scalarBytes, toBytes_ofBytes (length_leBytes 32 k), leNat_leBytes]
    exact Nat.mod_eq_of_lt (Nat.lt_trans hk h.fits)
  rw [decodeScalar, hvalue, if_pos hk]

theorem PrimeOrder.decode_scalars (h : C.PrimeOrder) {ss : List Nat} (hss : ∀ k ∈ ss, k < C.ell) :
    (ss.map scalarBytes).mapM C.decodeScalar = some ss := by
  induction ss with
  | nil => rfl
  | cons k ss ih =>
      rw [List.map_cons, List.mapM_cons, h.decode_scalarBytes (hss k (List.mem_cons_self ..)),
        ih fun k hk => hss k (List.mem_cons_of_mem _ hk)]
      rfl

end

/-! ### Signing and verifying -/

/-- All members of the ring decode, and `p` and `z` are the secrets of the one at `index`. -/
structure Opens (ring : List RingMember) (index p z : Nat) (cOffset : EcPoint) (offset : C.Point)
    (decoded : List C.DecodedMember) (own : C.DecodedMember) : Prop where
  decodes_offset : C.decodePoint cOffset = some offset
  decodes_ring : C.decodeRing offset ring = some decoded
  at_index : decoded[index]? = some own
  key : own.dest = p • C.basepoint
  commitment : own.maskLessOffset = z • C.basepoint
  z_pos : z ≠ 0
  z_lt : z < C.ell
  image : p • own.hp ≠ 0

section

variable {C} {message : Hash256} {ring : List RingMember} {index p z alpha : Nat} {cOffset : EcPoint}
  {offset : C.Point} {decoded : List C.DecodedMember} {own : C.DecodedMember} {fakeS : List Nat}

/-- The hash of a member's key depends on the key alone. -/
theorem decodeRing_spec (h : C.decodeRing offset ring = some decoded) :
    decoded.length = ring.length ∧ ∀ (q : Nat) (m : C.DecodedMember), decoded[q]? = some m →
      ∃ key : RingMember, ring[q]? = some key ∧ C.hashToEcPoint key.dest = some m.hp := by
  induction ring generalizing decoded with
  | nil =>
      obtain rfl := Option.some.inj h
      exact ⟨rfl, fun q m hm => absurd hm (by rw [List.getElem?_nil]; exact (Option.some_ne_none m).symm)⟩
  | cons key ring ih =>
      simp only [decodeRing, Option.bind_eq_bind, Option.bind_eq_some_iff, Option.pure_def] at h
      obtain ⟨dest, hdest, mask, hmask, hp, hhp, rest, hrest, heq⟩ := h
      obtain rfl := Option.some.inj heq
      obtain ⟨hlen, hall⟩ := ih hrest
      refine ⟨by rw [List.length_cons, List.length_cons, hlen], fun q m hm => ?_⟩
      cases q with
      | zero =>
          rw [List.getElem?_cons_zero, Option.some.injEq] at hm
          exact ⟨key, rfl, hm ▸ hhp⟩
      | succ q => exact hall q m hm

/-- What signing sets up. -/
def openedSetup (C : Crypto) (message : Hash256) (ring : List RingMember) (index p z : Nat)
    (cOffset : EcPoint) (decoded : List C.DecodedMember) (own : C.DecodedMember) (alpha : Nat)
    (fakeS : List Nat) : C.SignSetup :=
  let keyImage := C.encodePoint (p • own.hp)
  let d8 := C.encodePoint (C.invEight • z • own.hp)
  let mu := C.aggregationHashes ring keyImage d8 cOffset
  let pre := roundPrefix ring cOffset message
  let c := C.roundHash pre (alpha • C.basepoint) (alpha • own.hp)
  let i := (index + 1) % ring.length
  ⟨⟨decoded, index, fakeS, mu.1, mu.2, pre, p • own.hp, z • own.hp⟩,
    ⟨c, List.replicate ring.length 0, if i = 0 then c else 0, i⟩, d8, keyImage⟩

theorem Opens.index_lt (h : C.Opens ring index p z cOffset offset decoded own) :
    index < ring.length := by
  rw [← (decodeRing_spec h.decodes_ring).1]
  exact (List.getElem?_eq_some_iff.mp h.at_index).1

theorem Opens.signSetup (hC : C.PrimeOrder) (h : C.Opens ring index p z cOffset offset decoded own)
    (hfake : fakeS.length = ring.length) :
    C.signSetup message ring index p z cOffset alpha fakeS =
      some (.ok (openedSetup C message ring index p z cOffset decoded own alpha fakeS)) := by
  have hindex := h.index_lt
  rw [Crypto.signSetup]
  dsimp only
  rw [if_neg (by omega), if_neg (by omega), if_neg (not_not_intro hfake), h.decodes_offset,
    Option.bind_some, h.decodes_ring]
  dsimp only
  rw [h.at_index, Option.bind_eq_bind, Option.bind_some, hC.decode_encode]
  rfl

theorem Opens.fits (h : C.Opens ring index p z cOffset offset decoded own)
    (hfake : fakeS.length = ring.length) :
    (openedSetup C message ring index p z cOffset decoded own alpha fakeS).walk.Fits ring.length :=
  ⟨(decodeRing_spec h.decodes_ring).1, hfake, h.index_lt⟩

theorem Opens.start (h : C.Opens ring index p z cOffset offset decoded own) :
    (openedSetup C message ring index p z cOffset decoded own alpha fakeS).walk.Start
      (openedSetup C message ring index p z cOffset decoded own alpha fakeS).start := by
  have hlen := (decodeRing_spec h.decodes_ring).1
  refine ⟨?_, ?_, fun hzero => if_pos hzero⟩
  · show (index + 1) % ring.length = (index + 1) % decoded.length
    rw [hlen]
  · show (List.replicate ring.length 0).length = decoded.length
    rw [List.length_replicate, hlen]

/-- The scalars that signing gives. -/
def openedScalars (C : Crypto) (setup : C.SignSetup) (p z alpha : Nat) : List Nat :=
  let w := setup.walk
  let st := w.after setup.start (w.decoded.length - 1)
  st.s.set w.index (C.closingScalar alpha st.c w.muP w.muC p z)

/-- What signing gives. -/
def openedSigned (C : Crypto) (setup : C.SignSetup) (p z alpha : Nat) : Signed :=
  ⟨⟨(openedScalars C setup p z alpha).map scalarBytes,
    scalarBytes (setup.walk.challengeAt setup.start 0), setup.d8⟩, setup.keyImage⟩

theorem Opens.sign (hC : C.PrimeOrder) (h : C.Opens ring index p z cOffset offset decoded own)
    (hfake : fakeS.length = ring.length) :
    C.sign message ring index p z cOffset alpha fakeS = some (.ok (openedSigned C
      (openedSetup C message ring index p z cOffset decoded own alpha fakeS) p z alpha)) := by
  obtain ⟨setup, hsetup⟩ : ∃ setup,
      openedSetup C message ring index p z cOffset decoded own alpha fakeS = setup := ⟨_, rfl⟩
  have hfits : setup.walk.Fits ring.length := hsetup ▸ h.fits hfake
  have hstart : setup.walk.Start setup.start := hsetup ▸ h.start
  have hindex : index = setup.walk.index := by rw [← hsetup]; rfl
  have hpos : 0 < ring.length := Nat.lt_of_le_of_lt (Nat.zero_le _) h.index_lt
  have hloop := hfits.loop hstart hpos (Nat.le_add_right ring.length 1)
  have hlast := hfits.walked hstart (show ring.length - 1 < ring.length by omega)
  have hc1 := hlast.c1 (Nat.le_sub_one_of_lt (stepsTo_lt hfits.index (Nat.zero_le _)))
  rw [Crypto.sign, h.signSetup hC hfake, hsetup, Option.bind_eq_bind, Option.bind_some]
  dsimp only
  rw [show setup.start = setup.walk.after setup.start 0 from rfl, hloop, Option.bind_eq_bind,
    Option.bind_some, hc1, hindex, openedSigned, openedScalars, Walk.challengeAt, hfits.decoded]
  rfl

theorem length_openedScalars {setup : C.SignSetup} {n : Nat} (hfits : setup.walk.Fits n)
    (hstart : setup.walk.Start setup.start) : (openedScalars C setup p z alpha).length = n := by
  have hlast := hfits.walked hstart (Nat.sub_lt (Nat.zero_lt_of_lt hfits.index) Nat.one_pos)
  rw [openedScalars, List.length_set, hfits.decoded, hlast.length]

theorem openedScalars_getElem? {setup : C.SignSetup} {n q : Nat} (hfits : setup.walk.Fits n)
    (hstart : setup.walk.Start setup.start) (hq : q < n) :
    (openedScalars C setup p z alpha)[q]? =
      if q = setup.walk.index then
        some (C.closingScalar alpha (setup.walk.challengeAt setup.start q) setup.walk.muP
          setup.walk.muC p z)
      else setup.walk.fakeS[q]? := by
  have hpos := Nat.zero_lt_of_lt hfits.index
  have hlast := hfits.walked hstart (Nat.sub_lt hpos Nat.one_pos)
  rw [openedScalars, hfits.decoded, List.getElem?_set]
  split
  case isTrue heq =>
    have hplace : place n setup.walk.index (n - 1) = q := (place_eq_index.mpr (by omega)).trans heq
    rw [if_pos (by rw [hlast.length]; exact hfits.index), if_pos heq.symm, ← hplace,
      hfits.challengeAt_after (Nat.sub_lt hpos Nat.one_pos)]
  case isFalse hne =>
    rw [if_neg (Ne.symm hne)]
    exact hfits.scalars hstart hq (Ne.symm hne)

/-- Every round of the verifier gives the challenge that the signer had at the next place. -/
theorem Opens.nextChallenge (hC : C.PrimeOrder)
    (h : C.Opens ring index p z cOffset offset decoded own) (hfake : fakeS.length = ring.length)
    {setup : C.SignSetup}
    (hsetup : openedSetup C message ring index p z cOffset decoded own alpha fakeS = setup) {q : Nat}
    (hq : q < ring.length) :
    C.nextChallenge setup.walk.pre setup.walk.muP setup.walk.muC setup.walk.image setup.walk.d
        (setup.walk.challengeAt setup.start q) ((openedScalars C setup p z alpha).getD q 0)
        (setup.walk.decoded.getD q ⟨0, 0, 0⟩) =
      setup.walk.challengeAt setup.start (q + 1) := by
  have hfits : setup.walk.Fits ring.length := hsetup ▸ h.fits hfake
  have hstart : setup.walk.Start setup.start := hsetup ▸ h.start
  have hscalar := @openedScalars_getElem? C p z alpha setup ring.length q hfits hstart hq
  by_cases hown : q = setup.walk.index
  · subst hown
    have hmember : setup.walk.decoded.getD setup.walk.index ⟨0, 0, 0⟩ = own := by
      rw [List.getD_eq_getElem?_getD, ← hsetup]
      show (decoded[index]?).getD _ = own
      rw [h.at_index]
      rfl
    rw [if_pos rfl] at hscalar
    rw [List.getD_eq_getElem?_getD, hscalar, Option.getD_some, hmember, Walk.challengeAt_start,
      Crypto.nextChallenge, h.key, h.commitment]
    obtain ⟨c, hc⟩ : ∃ c, setup.walk.challengeAt setup.start setup.walk.index = c := ⟨_, rfl⟩
    have himage : setup.walk.image = p • own.hp := by rw [← hsetup]; rfl
    have hd : setup.walk.d = z • own.hp := by rw [← hsetup]; rfl
    rw [hc, himage, hd, hC.closing, hC.closing, ← hsetup]
    rfl
  · rw [if_neg hown] at hscalar
    have hsame : (openedScalars C setup p z alpha).getD q 0 = setup.walk.fakeS.getD q 0 := by
      rw [List.getD_eq_getElem?_getD, List.getD_eq_getElem?_getD, hscalar]
    rw [hfits.challengeAt_succ hstart hq hown, hsame]

/-- The verifier's challenges are the signer's, place by place, and the last is the first again. -/
theorem Opens.trail (hC : C.PrimeOrder) (h : C.Opens ring index p z cOffset offset decoded own)
    (hfake : fakeS.length = ring.length) {setup : C.SignSetup}
    (hsetup : openedSetup C message ring index p z cOffset decoded own alpha fakeS = setup) :
    C.clsagTrail setup.walk.pre setup.walk.muP setup.walk.muC setup.walk.image setup.walk.d
        (setup.walk.challengeAt setup.start 0) (openedScalars C setup p z alpha) setup.walk.decoded =
      (List.range (ring.length + 1)).map (setup.walk.challengeAt setup.start) := by
  have hfits : setup.walk.Fits ring.length := hsetup ▸ h.fits hfake
  have hstart : setup.walk.Start setup.start := hsetup ▸ h.start
  exact clsagTrail_eq (length_openedScalars hfits hstart) hfits.decoded
    fun q hq => h.nextChallenge hC hfake hsetup hq

theorem Opens.decode_scalars (hC : C.PrimeOrder)
    (h : C.Opens ring index p z cOffset offset decoded own) (hfake : fakeS.length = ring.length)
    (hcanonical : ∀ k ∈ fakeS, k < C.ell) {setup : C.SignSetup}
    (hsetup : openedSetup C message ring index p z cOffset decoded own alpha fakeS = setup) :
    ((openedScalars C setup p z alpha).map scalarBytes).mapM C.decodeScalar =
      some (openedScalars C setup p z alpha) := by
  have hfits : setup.walk.Fits ring.length := hsetup ▸ h.fits hfake
  have hstart : setup.walk.Start setup.start := hsetup ▸ h.start
  apply hC.decode_scalars
  intro k hk
  obtain ⟨q, hq⟩ := List.mem_iff_getElem?.mp hk
  have hlt : q < ring.length := by
    rw [← @length_openedScalars C p z alpha setup ring.length hfits hstart]
    exact (List.getElem?_eq_some_iff.mp hq).1
  rw [openedScalars_getElem? hfits hstart hlt] at hq
  split at hq
  · obtain rfl := Option.some.inj hq
    exact Nat.mod_lt _ hC.pos
  · have hfakeS : setup.walk.fakeS = fakeS := by rw [← hsetup]; rfl
    rw [hfakeS] at hq
    exact hcanonical k (List.mem_of_getElem? hq)

/-- Every challenge of the walk is a hash. -/
theorem Opens.challengeAt_lt (hC : C.PrimeOrder)
    (h : C.Opens ring index p z cOffset offset decoded own) (hfake : fakeS.length = ring.length)
    {setup : C.SignSetup}
    (hsetup : openedSetup C message ring index p z cOffset decoded own alpha fakeS = setup) {q : Nat}
    (hq : q < ring.length) : setup.walk.challengeAt setup.start (q + 1) < C.ell := by
  rw [← h.nextChallenge hC hfake hsetup hq]
  exact hC.hash_lt _ _ _

/-- What the verifier reads in the signature is what the signer worked with. -/
structure ReadsBack (C : Crypto) (message : Hash256) (ring : List RingMember) (cOffset : EcPoint)
    (setup : C.SignSetup) (p z alpha : Nat) : Prop where
  scalars : ((openedScalars C setup p z alpha).map scalarBytes).mapM C.decodeScalar =
    some (openedScalars C setup p z alpha)
  c1 : C.decodeScalar (scalarBytes (setup.walk.challengeAt setup.start 0)) =
    some (setup.walk.challengeAt setup.start 0)
  image : C.decodePoint setup.keyImage = some setup.walk.image
  d : (C.decodePoint setup.d8).map C.mul8 = some setup.walk.d
  mu : C.aggregationHashes ring setup.keyImage setup.d8 cOffset = (setup.walk.muP, setup.walk.muC)
  pre : roundPrefix ring cOffset message = setup.walk.pre

theorem Opens.reads (hC : C.PrimeOrder)
    (h : C.Opens ring index p z cOffset offset decoded own) (hfake : fakeS.length = ring.length)
    (hcanonical : ∀ k ∈ fakeS, k < C.ell) {setup : C.SignSetup}
    (hsetup : openedSetup C message ring index p z cOffset decoded own alpha fakeS = setup) :
    ReadsBack C message ring cOffset setup p z alpha := by
  have hfits : setup.walk.Fits ring.length := hsetup ▸ h.fits hfake
  have hpos := Nat.zero_lt_of_lt hfits.index
  have hlast := h.challengeAt_lt hC hfake hsetup (Nat.sub_lt hpos Nat.one_pos)
  rw [Nat.sub_add_cancel hpos, hfits.challengeAt_last] at hlast
  refine ⟨h.decode_scalars hC hfake hcanonical hsetup, hC.decode_scalarBytes hlast, ?_, ?_, ?_, ?_⟩
  · rw [← hsetup]
    exact hC.decode_encode _
  · rw [← hsetup]
    show (C.decodePoint (C.encodePoint (C.invEight • z • own.hp))).map C.mul8 = some (z • own.hp)
    rw [hC.decode_encode, Option.map_some, hC.mul8_invEight]
  · rw [← hsetup]
    rfl
  · rw [← hsetup]
    rfl

theorem Opens.challenges (hC : C.PrimeOrder)
    (h : C.Opens ring index p z cOffset offset decoded own) (hfake : fakeS.length = ring.length)
    (hcanonical : ∀ k ∈ fakeS, k < C.ell) {setup : C.SignSetup}
    (hsetup : openedSetup C message ring index p z cOffset decoded own alpha fakeS = setup) :
    C.challenges message (openedSigned C setup p z alpha).sig (openedSigned C setup p z alpha).i ring
        cOffset = some ((List.range (ring.length + 1)).map (setup.walk.challengeAt setup.start)) := by
  have hreads := h.reads hC hfake hcanonical hsetup
  have hdecoded : setup.walk.decoded = decoded := by rw [← hsetup]; rfl
  rw [Crypto.challenges, openedSigned]
  simp only [Option.bind_eq_bind, Option.bind_some, Option.pure_def, hreads.scalars, hreads.c1,
    hreads.image, hreads.d, hreads.mu, hreads.pre, h.decodes_offset, h.decodes_ring]
  rw [← h.trail hC hfake hsetup, hdecoded]

/-- Where no challenge is zero the loop of `verify` comes back to the first. -/
theorem Opens.clsagRounds (hC : C.PrimeOrder)
    (h : C.Opens ring index p z cOffset offset decoded own) (hfake : fakeS.length = ring.length)
    {setup : C.SignSetup}
    (hsetup : openedSetup C message ring index p z cOffset decoded own alpha fakeS = setup)
    (hnonzero : ∀ q < ring.length, setup.walk.challengeAt setup.start (q + 1) ≠ 0) :
    C.clsagRounds setup.walk.pre setup.walk.muP setup.walk.muC setup.walk.image setup.walk.d
      (setup.walk.challengeAt setup.start 0) (openedScalars C setup p z alpha) setup.walk.decoded =
      some (setup.walk.challengeAt setup.start 0) := by
  have hfits : setup.walk.Fits ring.length := hsetup ▸ h.fits hfake
  have htail : 0 ∉ ((List.range (ring.length + 1)).map
      (setup.walk.challengeAt setup.start)).tail := by
    rw [List.range_succ_eq_map, List.map_cons, List.tail_cons, List.map_map, List.mem_map]
    rintro ⟨q, hq, hzero⟩
    exact hnonzero q (List.mem_range.mp hq) hzero
  rw [clsagRounds_eq, h.trail hC hfake hsetup, if_neg htail, List.range_succ, List.map_append,
    List.map_singleton, List.getLast?_concat, hfits.challengeAt_last]

theorem Opens.clsagVerify (hC : C.PrimeOrder)
    (h : C.Opens ring index p z cOffset offset decoded own) (hfake : fakeS.length = ring.length)
    (hcanonical : ∀ k ∈ fakeS, k < C.ell) {setup : C.SignSetup}
    (hsetup : openedSetup C message ring index p z cOffset decoded own alpha fakeS = setup)
    (hnonzero : ∀ q < ring.length, setup.walk.challengeAt setup.start (q + 1) ≠ 0) :
    C.clsagVerify message (openedSigned C setup p z alpha).sig (openedSigned C setup p z alpha).i ring
      cOffset = .ok () := by
  have hfits : setup.walk.Fits ring.length := hsetup ▸ h.fits hfake
  have hstart : setup.walk.Start setup.start := hsetup ▸ h.start
  have hreads := h.reads hC hfake hcanonical hsetup
  have hdecoded : setup.walk.decoded = decoded := by rw [← hsetup]; rfl
  have himage : setup.walk.image ≠ 0 := by
    rw [← hsetup]
    exact h.image
  have hd : setup.walk.d ≠ 0 := by
    rw [← hsetup]
    refine hC.nsmul_ne_zero h.z_pos h.z_lt fun hzero => h.image ?_
    rw [hzero, nsmul_zero]
  have hlen : (openedSigned C setup p z alpha).sig.s.length = ring.length := by
    rw [openedSigned, List.length_map, length_openedScalars hfits hstart]
  have hring : ¬ ring.isEmpty = true := by
    rw [List.isEmpty_iff_length_eq_zero]
    have := hfits.index
    omega
  rw [Crypto.clsagVerify, if_neg hring, if_neg (not_not_intro hlen), openedSigned]
  dsimp only
  rw [hreads.scalars, hreads.c1]
  dsimp only
  rw [hreads.image]
  dsimp only
  rw [if_neg himage, hreads.d]
  dsimp only
  rw [if_neg hd, h.decodes_offset, Option.bind_some, h.decodes_ring, hreads.mu, hreads.pre]
  dsimp only
  rw [← hdecoded, h.clsagRounds hC hfake hsetup hnonzero]
  dsimp only
  rw [if_pos rfl]

theorem signSetup_image {setup : C.SignSetup}
    (h : C.signSetup message ring index p z cOffset alpha fakeS = some (.ok setup)) :
    ∃ (key : RingMember) (hp : C.Point), ring[index]? = some key ∧
      C.hashToEcPoint key.dest = some hp ∧ setup.keyImage = C.encodePoint (p • hp) := by
  unfold Crypto.signSetup at h
  dsimp only at h
  split at h
  case isTrue => exact absurd (Option.some.inj h) (by simp)
  case isFalse =>
    split at h
    case isTrue => exact absurd (Option.some.inj h) (by simp)
    case isFalse =>
      split at h
      case isTrue => exact absurd (Option.some.inj h) (by simp)
      case isFalse =>
        split at h
        case h_1 => exact absurd (Option.some.inj h) (by simp)
        case h_2 decoded hdecoded =>
          rw [Option.bind_eq_bind, Option.bind_eq_some_iff] at h
          obtain ⟨own, hown, h⟩ := h
          obtain ⟨offset, -, hring⟩ := Option.bind_eq_some_iff.mp hdecoded
          obtain ⟨key, hkey, hhp⟩ := (decodeRing_spec hring).2 index own hown
          refine ⟨key, own.hp, hkey, hhp, ?_⟩
          split at h
          case h_1 => exact absurd (Option.some.inj h) (by simp)
          case h_2 =>
            rw [Option.some.injEq, Except.ok.injEq] at h
            rw [← h]

/-- A signer's key image comes from its secret and its key on the ring and from nothing else. -/
theorem sign_image {out : Signed}
    (h : C.sign message ring index p z cOffset alpha fakeS = some (.ok out)) :
    ∃ (key : RingMember) (hp : C.Point), ring[index]? = some key ∧
      C.hashToEcPoint key.dest = some hp ∧ out.i = C.encodePoint (p • hp) := by
  rw [Crypto.sign, Option.bind_eq_bind, Option.bind_eq_some_iff] at h
  obtain ⟨result, hresult, h⟩ := h
  cases result with
  | error e => exact absurd (Option.some.inj h) (by simp)
  | ok setup =>
      dsimp only at h
      rw [Option.bind_eq_bind, Option.bind_eq_some_iff] at h
      obtain ⟨st, -, h⟩ := h
      rw [Option.pure_def, Option.some.injEq, Except.ok.injEq] at h
      rw [← h]
      exact signSetup_image hresult

/-- Two signers of one secret and one key give one key image. -/
theorem sign_image_unique {message' : Hash256} {ring' : List RingMember} {index' z' alpha' : Nat}
    {cOffset' : EcPoint} {fakeS' : List Nat} {out out' : Signed}
    (h : C.sign message ring index p z cOffset alpha fakeS = some (.ok out))
    (h' : C.sign message' ring' index' p z' cOffset' alpha' fakeS' = some (.ok out'))
    (hkey : (ring'[index']?).map (·.dest) = (ring[index]?).map (·.dest)) : out'.i = out.i := by
  obtain ⟨key, hp, hat, hhp, heq⟩ := sign_image h
  obtain ⟨key', hp', hat', hhp', heq'⟩ := sign_image h'
  rw [hat, hat', Option.map_some, Option.map_some, Option.some.injEq] at hkey
  rw [hkey, hhp, Option.some.injEq] at hhp'
  rw [heq, heq', hhp']

/-- What a signer who knows the secrets of its place signs is accepted: the walk around the ring comes
    to an end, with one scalar for each member; the verifier recomputes, place by place, the challenges
    that the signer came through, and comes back to the first, so that it accepts unless one of them is
    zero; and the key image comes from `p` and the signer's key alone. -/
theorem clsag_complete (hC : C.PrimeOrder)
    (h : C.Opens ring index p z cOffset offset decoded own) (hfake : fakeS.length = ring.length)
    (hcanonical : ∀ k ∈ fakeS, k < C.ell) :
    ∃ (setup : C.SignSetup) (out : Signed) (trail : List Nat),
      C.signSetup message ring index p z cOffset alpha fakeS = some (.ok setup) ∧
      C.sign message ring index p z cOffset alpha fakeS = some (.ok out) ∧
      out.sig.s.length = ring.length ∧
      C.challenges message out.sig out.i ring cOffset = some trail ∧
      (∀ st, setup.walk.Reached setup.start st → trail[st.i]? = some st.c) ∧
      (∀ q < ring.length, ∃ st, setup.walk.Reached setup.start st ∧ st.i = q) ∧
      trail.length = ring.length + 1 ∧ trail[ring.length]? = trail[0]? ∧
      ((∀ st, setup.walk.Reached setup.start st → st.c ≠ 0) →
        C.clsagVerify message out.sig out.i ring cOffset = .ok ()) ∧
      (∀ message' ring' index' z' cOffset' alpha' fakeS' out',
        C.sign message' ring' index' p z' cOffset' alpha' fakeS' = some (.ok out') →
        (ring'[index']?).map (·.dest) = (ring[index]?).map (·.dest) → out'.i = out.i) := by
  obtain ⟨setup, hsetup⟩ : ∃ setup,
      openedSetup C message ring index p z cOffset decoded own alpha fakeS = setup := ⟨_, rfl⟩
  have hfits : setup.walk.Fits ring.length := hsetup ▸ h.fits hfake
  have hstart : setup.walk.Start setup.start := hsetup ▸ h.start
  have hsign := @Opens.sign C message ring index p z alpha cOffset offset decoded own fakeS hC h hfake
  rw [hsetup] at hsign
  have hat {q : Nat} (hq : q ≤ ring.length) :
      ((List.range (ring.length + 1)).map (setup.walk.challengeAt setup.start))[q]? =
        some (setup.walk.challengeAt setup.start q) := by
    rw [List.getElem?_map, List.getElem?_range (Nat.lt_succ_of_le hq), Option.map_some]
  refine ⟨setup, openedSigned C setup p z alpha, _, hsetup ▸ h.signSetup hC hfake, hsign, ?_,
    h.challenges hC hfake hcanonical hsetup, ?_, ?_, ?_, ?_, ?_, ?_⟩
  · rw [openedSigned, List.length_map, length_openedScalars hfits hstart]
  · intro st hst
    obtain ⟨k, hk, rfl⟩ := (hfits.reached_iff hstart).mp hst
    have hi := (hfits.walked hstart hk).i
    rw [hi, hat (Nat.le_of_lt (place_lt hfits.index hk)), hfits.challengeAt_after hk]
  · intro q hq
    have hk := stepsTo_lt hfits.index (Nat.le_of_lt hq)
    refine ⟨_, (hfits.reached_iff hstart).mpr ⟨_, hk, rfl⟩, ?_⟩
    rw [(hfits.walked hstart hk).i, place_stepsTo hfits.index hq]
  · rw [List.length_map, List.length_range]
  · rw [hat (Nat.le_refl _), hat (Nat.zero_le _), hfits.challengeAt_last]
  · intro hnonzero
    refine h.clsagVerify hC hfake hcanonical hsetup fun q hq => ?_
    have hk := stepsTo_lt hfits.index (show q + 1 ≤ ring.length from hq)
    rw [Walk.challengeAt, hfits.decoded]
    exact hnonzero _ ((hfits.reached_iff hstart).mpr ⟨_, hk, rfl⟩)
  · intro message' ring' index' z' cOffset' alpha' fakeS' out' hsign' hkey
    exact sign_image_unique hsign hsign' hkey

end

/-- Seven points, each spelled as its number, under hashes that are all one scalar. -/
def seven : Crypto where
  Point := ZMod 7
  decEq := inferInstance
  ell := 7
  invEight := 1
  basepoint := 1
  hPoint := 2
  decodePoint b := if b.toNat < 7 then some (b.toNat : ZMod 7) else none
  encodePoint x := BitVec.ofNat 256 x.val
  cnFastHash _ := BitVec.ofNat 256 (2 ^ 248)
  geFromfeFrombytes _ := 3
  checkSignature _ _ _ := true
  bppVerify _ := .ok ()

theorem seven_prime : seven.PrimeOrder where
  prime := by decide
  fits := by decide
  kills := by
    show ∀ x : ZMod 7, 7 • x = 0
    decide
  invEight := rfl
  decode_encode := by
    show ∀ x : ZMod 7, (if (BitVec.ofNat 256 x.val).toNat < 7 then
      some (((BitVec.ofNat 256 x.val).toNat : Nat) : ZMod 7) else none) = some x
    decide
  encode_decode bytes := by
    show ∀ x : ZMod 7, (if bytes.toNat < 7 then some (bytes.toNat : ZMod 7) else none) = some x →
      BitVec.ofNat 256 x.val = bytes
    intro x h
    by_cases hlt : bytes.toNat < 7
    · rw [if_pos hlt] at h
      rw [← Option.some.inj h, ZMod.val_natCast_of_lt hlt, BitVec.ofNat_toNat, BitVec.setWidth_eq]
    · rw [if_neg hlt] at h
      exact absurd h.symm (Option.some_ne_none x)

theorem seven_opens : seven.Opens [⟨5, 6⟩, ⟨2, 3⟩] 1 2 3 0 (0 : ZMod 7)
    [⟨(5 : ZMod 7), (6 : ZMod 7), (3 : ZMod 7)⟩, ⟨(2 : ZMod 7), (3 : ZMod 7), (3 : ZMod 7)⟩]
    ⟨(2 : ZMod 7), (3 : ZMod 7), (3 : ZMod 7)⟩ where
  decodes_offset := rfl
  decodes_ring := rfl
  at_index := rfl
  key := by
    show (2 : ZMod 7) = 2 • 1
    decide
  commitment := by
    show (3 : ZMod 7) = 3 • 1
    decide
  z_pos := by decide
  z_lt := by decide
  image := by
    show (2 : Nat) • (3 : ZMod 7) ≠ 0
    decide

/-- The signer at the last place of two. -/
theorem clsag_complete_two : ∃ out, seven.sign 0 [⟨5, 6⟩, ⟨2, 3⟩] 1 2 3 0 4 [1, 0] = some (.ok out) ∧
    out.sig.s.length = 2 := by
  obtain ⟨setup, out, trail, -, hsign, hlen, -⟩ :=
    @clsag_complete seven 0 [⟨5, 6⟩, ⟨2, 3⟩] 1 2 3 4 0 (0 : ZMod 7) _ _ [1, 0] seven_prime seven_opens
      rfl (by decide)
  exact ⟨out, hsign, hlen⟩

end Wownero.Crypto

import Mathlib.Data.Finset.Card
import Mathlib.Data.Finset.Union
import Wownero.RingRequest
import Wownero.Sample
/-!
# The shape of the rings

A ring is to have a fixed number of members, in ascending order, the real output among them with the
key and the commitment that the wallet holds for it, and every other member as the node described it,
unlocked and with its key and its commitment in the prime-order subgroup.

A ring that an output was spent with before is kept whole.  After a reorganisation it need not
contain the output any more.  Where all of its members are still good, the output is one more than
there is room for.
-/

namespace Wownero

open Outcome

section

variable (C : Crypto)

/-! ### Which outputs can go in -/

/-- The node describes an output that can go in a ring. -/
def Member.usable (m : Member) : Bool :=
  m.unlocked && inMainSubgroup C m.key && inMainSubgroup C m.mask

/-- What the node says of an output where it is first asked about it. -/
def AskedInput.answer (a : AskedInput) (i : Nat) : Option Member :=
  (((asked a.order).zip a.told).find? fun (j, _) => j == i).map (·.2)

/-- The node lets an output other than the real one into the ring. -/
def AskedInput.usable (a : AskedInput) (i : Nat) : Bool :=
  i != a.real.globalIndex && (a.answer i).any (Member.usable C)

/-- The members of the known ring that stay. -/
def AskedInput.kept (a : AskedInput) (numOuts : Nat) : Finset Nat :=
  (knownInRange numOuts a.known).toFinset.filter fun i => a.usable C i

/-- All there is to make the ring of, but for the real output. -/
def AskedInput.candidates (a : AskedInput) : Finset Nat :=
  a.order.toFinset.filter fun i => a.usable C i

/-- The node has shown the real output and described enough others. -/
def AskedInput.Suffices (a : AskedInput) (ringSize : Nat) : Prop :=
  realOutFound (asked a.order) a.told a.real = true ∧ ringSize ≤ (a.candidates C).card + 1

/-- A ring of this many members, as it should be. -/
structure RingFor (size : Nat) (a : AskedInput) (out : Ring × List (PublicKey × EcPoint)) :
    Prop where
  size : out.1.indices.length = size
  ascending : out.1.indices.Pairwise (· < ·)
  keys : out.2.length = out.1.indices.length
  realIndex : out.1.indices[out.1.realIndex]? = some a.real.globalIndex
  own : out.2[out.1.realIndex]? = some (a.real.publicKey, a.real.commitment)
  shown : (a.real.globalIndex, ⟨a.real.publicKey, a.real.commitment, true⟩) ∈
    (asked a.order).zip a.told
  others : ∀ j i k, out.1.indices[j]? = some i → out.2[j]? = some k → j ≠ out.1.realIndex →
    ∃ m, a.answer i = some m ∧ m.unlocked = true ∧ inMainSubgroup C m.key = true ∧
      inMainSubgroup C m.mask = true ∧ k = (m.key, m.mask)

end

section

variable {C : Crypto} {a : AskedInput} {ringSize numOuts : Nat}

theorem memberAt_answer (a : AskedInput) (i : Nat) (missing : DecoyError) :
    memberAt (asked a.order) a.told i missing =
      match a.answer i with
      | some m => .ok m
      | none => .error missing := by
  unfold memberAt AskedInput.answer
  cases ((asked a.order).zip a.told).find? fun (j, _) => j == i with
  | none => rfl
  | some found => rfl

/-- An output asked about has an answer. -/
theorem answer_of_mem (h : a.told.length = (asked a.order).length) {i : Nat} (hi : i ∈ a.order) :
    ∃ m, a.answer i = some m := by
  have hasked : i ∈ asked a.order := (List.perm_insertionSort _ _).mem_iff.mpr hi
  have hfst : ((asked a.order).zip a.told).map Prod.fst = asked a.order :=
    List.map_fst_zip (by omega)
  rw [← hfst] at hasked
  obtain ⟨pair, hpair, rfl⟩ := List.mem_map.mp hasked
  cases hfind : ((asked a.order).zip a.told).find? fun (j, _) => j == pair.1 with
  | none => exact absurd (List.find?_eq_none.mp hfind pair hpair) (by simp)
  | some found => exact ⟨found.2, by rw [AskedInput.answer, hfind]; rfl⟩

theorem usable_of_answer {i : Nat} {m : Member} (h : a.answer i = some m) :
    a.usable C i = (i != a.real.globalIndex && m.usable C) := by
  rw [AskedInput.usable, h, Option.any_some]

theorem realOutFound_iff :
    realOutFound (asked a.order) a.told a.real = true ↔
      (a.real.globalIndex, ⟨a.real.publicKey, a.real.commitment, true⟩) ∈
        (asked a.order).zip a.told := by
  simp only [realOutFound, List.any_eq_true, Bool.and_eq_true, beq_iff_eq]
  constructor
  · rintro ⟨⟨i, m⟩, hmem, ⟨⟨rfl, hkey⟩, hmask⟩, hunlocked⟩
    rwa [← hkey, ← hmask, ← hunlocked]
  · intro hmem
    exact ⟨_, hmem, ⟨⟨rfl, rfl⟩, rfl⟩, rfl⟩

/-! ### A ring in the making -/

/-- The outputs in it. -/
def RingDraft.indices (d : RingDraft) : Finset Nat := (d.outs.map (·.1)).toFinset

/-- What stays true of a ring while members are added. -/
structure Draft (C : Crypto) (a : AskedInput) (d : RingDraft) : Prop where
  real : (a.real.globalIndex, a.real.publicKey, a.real.commitment) ∈ d.outs
  others : ∀ o ∈ d.outs, o.1 ≠ a.real.globalIndex →
    ∃ m, a.answer o.1 = some m ∧ m.usable C = true ∧ o.2 = (m.key, m.mask)
  nodup : (d.outs.map (·.1)).Nodup
  valid : ∀ k ∈ d.valid, inMainSubgroup C k = true

theorem Draft.card {d : RingDraft} (h : Draft C a d) : d.indices.card = d.outs.length := by
  rw [RingDraft.indices, List.toFinset_card_of_nodup h.nodup, List.length_map]

/-- A point already found good is good. -/
theorem Draft.contains_or {d : RingDraft} (h : Draft C a d) (k : Bytes32) :
    (!d.valid.contains k && !inMainSubgroup C k) = !inMainSubgroup C k := by
  cases hk : inMainSubgroup C k with
  | true => rw [Bool.not_true, Bool.and_false]
  | false =>
      have hnot : k ∉ d.valid := fun hmem => by
        rw [h.valid k hmem] at hk
        cases hk
      simp [hnot]

/-- A member is in the ring with what the node says of it, or not at all. -/
theorem Draft.mem_iff {d : RingDraft} (h : Draft C a d) {i : Nat} {m : Member}
    (hm : a.answer i = some m) (hi : i ≠ a.real.globalIndex) :
    (i, m.key, m.mask) ∈ d.outs ↔ i ∈ d.indices := by
  rw [RingDraft.indices, List.mem_toFinset, List.mem_map]
  constructor
  · intro hmem
    exact ⟨_, hmem, rfl⟩
  · rintro ⟨⟨j, k⟩, hmem, rfl⟩
    obtain ⟨m', hm', -, hk⟩ := h.others _ hmem hi
    rw [Option.some.inj (hm.symm.trans hm')]
    exact hk ▸ hmem

theorem Draft.usable_of_mem {d : RingDraft} (h : Draft C a d) {i : Nat} (hi : i ∈ d.indices)
    (hne : i ≠ a.real.globalIndex) : a.usable C i = true := by
  rw [RingDraft.indices, List.mem_toFinset, List.mem_map] at hi
  obtain ⟨o, hmem, rfl⟩ := hi
  obtain ⟨m, hm, husable, -⟩ := h.others o hmem hne
  rw [usable_of_answer hm, husable, Bool.and_true, bne_iff_ne]
  exact hne

/-- A usable output is added once, and no other. -/
theorem Draft.add {d : RingDraft} (h : Draft C a d) {i : Nat} {m : Member}
    (hm : a.answer i = some m) :
    Draft C a (addFakeOutput C i m a.real d) ∧
      (addFakeOutput C i m a.real d).indices =
        if a.usable C i then insert i d.indices else d.indices := by
  rw [usable_of_answer hm]
  unfold addFakeOutput
  by_cases hreal : i = a.real.globalIndex
  · simp [hreal, h]
  by_cases hin : i ∈ d.indices
  · have hcontains := (h.mem_iff hm hreal).mpr hin
    have hskip : (!m.unlocked || i == a.real.globalIndex || d.outs.contains (i, m.key, m.mask)) =
        true := by simp [hcontains]
    rw [if_pos hskip, Finset.insert_eq_of_mem hin, ite_self]
    exact ⟨h, rfl⟩
  have hcontains : (i, m.key, m.mask) ∉ d.outs := fun hmem => hin ((h.mem_iff hm hreal).mp hmem)
  have hskip : (!m.unlocked || i == a.real.globalIndex || d.outs.contains (i, m.key, m.mask)) =
      !m.unlocked := by simp [hcontains, hreal]
  rw [hskip, h.contains_or]
  cases hunlocked : m.unlocked with
  | false => simp [Member.usable, hunlocked, h]
  | true =>
      cases hkey : inMainSubgroup C m.key with
      | false => simp [Member.usable, hkey, h]
      | true =>
          -- The key is noted as good even where the commitment is not.
          have hnoted : Draft C a { d with valid := m.key :: d.valid } :=
            { h with valid := List.forall_mem_cons.mpr ⟨hkey, h.valid⟩ }
          have hmask := hnoted.contains_or m.mask
          simp only [Bool.not_true, Bool.false_eq_true, if_false]
          rw [hmask]
          cases hmask : inMainSubgroup C m.mask with
          | false =>
              rw [Bool.not_false, if_pos rfl]
              exact ⟨hnoted, by simp [Member.usable, hmask, RingDraft.indices]⟩
          | true =>
              have husable : m.usable C = true := by simp [Member.usable, hunlocked, hkey, hmask]
              rw [Bool.not_true, if_neg Bool.false_ne_true]
              constructor
              · exact
                  { real := List.mem_append_left _ h.real
                    others := fun o ho hne => by
                      rcases List.mem_append.mp ho with ho | ho
                      · exact h.others o ho hne
                      · rw [List.mem_singleton.mp ho]
                        exact ⟨m, hm, husable, rfl⟩
                    nodup := by
                      rw [RingDraft.indices, List.mem_toFinset] at hin
                      rw [List.map_append, List.nodup_append]
                      refine ⟨h.nodup, by simp, fun x hx y hy hxy => hin ?_⟩
                      simp only [List.map_cons, List.map_nil, List.mem_singleton] at hy
                      rwa [← hy, ← hxy]
                    valid := List.forall_mem_cons.mpr ⟨hmask, hnoted.valid⟩ }
              · have hbne : (i != a.real.globalIndex) = true := bne_iff_ne.mpr hreal
                rw [husable, hbne, Bool.and_true, if_pos rfl]
                ext j
                simp [RingDraft.indices]

/-- All good members of a known ring stay, however many there are. -/
theorem Draft.keepKnown {ring : List Nat}
    (hring : ∀ i ∈ ring, i < numOuts → ∃ m, a.answer i = some m) {d : RingDraft}
    (h : Draft C a d) :
    ∃ d', Wownero.keepKnown C numOuts (asked a.order) a.told a.real ring d = .ok d' ∧
      Draft C a d' ∧
      d'.indices = d.indices ∪
        (ring.filter (· < numOuts)).toFinset.filter fun i => a.usable C i := by
  induction ring generalizing d with
  | nil => exact ⟨d, rfl, h, by simp⟩
  | cons i ring ih =>
      have hrest := fun j hj => hring j (List.mem_cons_of_mem i hj)
      rw [Wownero.keepKnown]
      split_ifs with hin
      · obtain ⟨m, hm⟩ := hring i List.mem_cons_self hin.1
        obtain ⟨hadd, hindices⟩ := h.add hm
        obtain ⟨d', hd', hdraft, hall⟩ := ih hrest hadd
        refine ⟨d', ?_, hdraft, ?_⟩
        · rw [memberAt_answer, hm]
          exact hd'
        · rw [hall, hindices, List.filter_cons_of_pos (by simpa using hin.1), List.toFinset_cons,
            Finset.filter_insert]
          split_ifs
          · rw [Finset.insert_union, Finset.union_insert]
          · rfl
      · obtain ⟨d', hd', hdraft, hall⟩ := ih hrest h
        refine ⟨d', hd', hdraft, ?_⟩
        rw [hall]
        by_cases hlt : i < numOuts
        · -- The real output is in the ring already.
          have hreal : a.usable C i = false := by
            have heq : i = a.real.globalIndex := by
              by_contra hne
              exact hin ⟨hlt, hne⟩
            rw [AskedInput.usable, heq, bne_self_eq_false, Bool.false_and]
          rw [List.filter_cons_of_pos (by simpa using hlt), List.toFinset_cons,
            Finset.filter_insert, hreal]
          rfl
        · rw [List.filter_cons_of_neg (by simpa using hlt)]

/-- The rest of a ring is filled up to its size from what was picked. -/
theorem Draft.takePicked {order : List Nat} (horder : ∀ i ∈ order, ∃ m, a.answer i = some m)
    {d : RingDraft} (h : Draft C a d) :
    ∃ d', Wownero.takePicked C ringSize (asked a.order) a.told a.real order d = .ok d' ∧
      Draft C a d' ∧ d.indices ⊆ d'.indices ∧
      d'.indices ⊆ d.indices ∪ (order.toFinset.filter fun i => a.usable C i) ∧
      d'.indices.card ≤ max ringSize d.indices.card ∧
      (d'.indices.card < ringSize →
        d'.indices = d.indices ∪ (order.toFinset.filter fun i => a.usable C i)) := by
  induction order generalizing d with
  | nil =>
      exact ⟨d, rfl, h, subset_rfl, by simp, le_max_right _ _, fun _ => by simp⟩
  | cons i order ih =>
      rw [Wownero.takePicked, ← h.card]
      split_ifs with hfull
      · exact ⟨d, rfl, h, subset_rfl, Finset.subset_union_left, le_max_right _ _,
          fun hlt => absurd hlt (Nat.not_lt.mpr hfull)⟩
      obtain ⟨m, hm⟩ := horder i List.mem_cons_self
      obtain ⟨hadd, hindices⟩ := h.add hm
      obtain ⟨d', hd', hdraft, hsub, hsup, hcard, hall⟩ :=
        ih (fun j hj => horder j (List.mem_cons_of_mem i hj)) hadd
      have hunion : (addFakeOutput C i m a.real d).indices ∪
            (order.toFinset.filter fun i => a.usable C i) =
          d.indices ∪ ((i :: order).toFinset.filter fun i => a.usable C i) := by
        rw [hindices, List.toFinset_cons, Finset.filter_insert]
        split_ifs
        · rw [Finset.insert_union, Finset.union_insert]
        · rfl
      rw [hunion] at hsup hall
      refine ⟨d', ?_, hdraft, ?_, hsup, ?_, hall⟩
      · rw [memberAt_answer, hm]
        exact hd'
      · refine subset_trans ?_ hsub
        rw [hindices]
        split_ifs
        · exact Finset.subset_insert _ _
        · exact subset_rfl
      · -- There was room for one more.
        have hone : (addFakeOutput C i m a.real d).indices.card ≤ d.indices.card + 1 := by
          rw [hindices]
          split_ifs
          · exact Finset.card_insert_le _ _
          · exact Nat.le_succ _
        omega

/-- The real output stands in the ring once, with what the wallet holds for it. -/
theorem Draft.own {d : RingDraft} (h : Draft C a d) {o : Nat × PublicKey × EcPoint}
    (ho : o ∈ d.outs) (hreal : o.1 = a.real.globalIndex) :
    o.2 = (a.real.publicKey, a.real.commitment) := by
  have hsame := List.inj_on_of_nodup_map h.nodup ho h.real hreal
  rw [hsame]

/-- A ring that is large enough is put in order, whatever its size. -/
theorem Draft.finishRing {d : RingDraft} (h : Draft C a d) (hsize : ringSize ≤ d.indices.card)
    (hshown : realOutFound (asked a.order) a.told a.real = true) :
    ∃ out, Wownero.finishRing ringSize a.real d = .ok (out, d.valid) ∧
      RingFor C d.indices.card a out := by
  unfold Wownero.finishRing
  rw [if_neg (by rw [← h.card]; exact Nat.not_lt.mpr hsize)]
  have hperm := List.perm_insertionSort (fun x y : Nat × PublicKey × EcPoint => x.1 ≤ y.1) d.outs
  have hsorted := List.pairwise_insertionSort
    (fun x y : Nat × PublicKey × EcPoint => x.1 ≤ y.1) d.outs
  generalize List.insertionSort (fun x y : Nat × PublicKey × EcPoint => x.1 ≤ y.1) d.outs = outs
    at hperm hsorted
  have hnodup : (outs.map (·.1)).Nodup := (hperm.map _).nodup_iff.mpr h.nodup
  have hmem : a.real.globalIndex ∈ outs.map (·.1) :=
    List.mem_map.mpr ⟨_, hperm.mem_iff.mpr h.real, rfl⟩
  cases hfind : (outs.map (·.1)).findIdx? (· == a.real.globalIndex) with
  | none =>
      exact absurd (List.findIdx?_eq_none_iff.mp hfind _ hmem) (by simp)
  | some realIndex =>
      obtain ⟨hlt, hat, -⟩ := List.findIdx?_eq_some_iff_getElem.mp hfind
      rw [List.length_map] at hlt
      rw [List.getElem_map, beq_iff_eq] at hat
      simp only [hfind]
      refine ⟨_, rfl, ?_⟩
      exact
        { size := by rw [List.length_map, hperm.length_eq, h.card]
          ascending := by
            rw [List.pairwise_map]
            refine (hsorted.and (List.pairwise_map.mp hnodup)).imp ?_
            exact fun ⟨hle, hne⟩ => Nat.lt_of_le_of_ne hle hne
          keys := by rw [List.length_map, List.length_map]
          realIndex := by rw [List.getElem?_map, List.getElem?_eq_getElem hlt, Option.map_some, hat]
          own := by
            rw [List.getElem?_map, List.getElem?_eq_getElem hlt, Option.map_some,
              h.own (hperm.mem_iff.mp (List.getElem_mem hlt)) hat]
          shown := realOutFound_iff.mp hshown
          others := fun j i k hi hk hne => by
            rw [List.getElem?_map, Option.map_eq_some_iff] at hi hk
            obtain ⟨o, ho, rfl⟩ := hi
            obtain ⟨o', ho', rfl⟩ := hk
            obtain rfl := Option.some.inj (ho.symm.trans ho')
            obtain ⟨hj, rfl⟩ := List.getElem?_eq_some_iff.mp ho
            -- Another place is another index.
            have hother : (outs[j]).1 ≠ a.real.globalIndex := by
              intro heq
              have hj' : j < (outs.map (·.1)).length := by rwa [List.length_map]
              have hreal' : realIndex < (outs.map (·.1)).length := by rwa [List.length_map]
              refine hne ((@List.Nodup.getElem_inj_iff _ _ hnodup j hj' realIndex hreal').mp ?_)
              rw [List.getElem_map, List.getElem_map, heq, hat]
            obtain ⟨m, hm, husable, hkeys⟩ :=
              h.others _ (hperm.mem_iff.mp (List.getElem_mem hj)) hother
            simp only [Member.usable, Bool.and_eq_true] at husable
            exact ⟨m, hm, husable.1.1, husable.1.2, husable.2, hkeys⟩ }

theorem Draft.finishRing_few {d : RingDraft} (h : Draft C a d) (hsize : d.indices.card < ringSize) :
    ∃ e, Wownero.finishRing ringSize a.real d = .error e := by
  rw [h.card] at hsize
  exact ⟨_, by rw [Wownero.finishRing, if_pos hsize]⟩

/-! ### One ring -/

theorem Draft.start {valid : List Bytes32} (hvalid : ∀ k ∈ valid, inMainSubgroup C k = true) :
    Draft C a ⟨[(a.real.globalIndex, a.real.publicKey, a.real.commitment)], valid⟩ where
  real := List.mem_singleton_self _
  others := fun o ho hne => absurd (by rw [List.mem_singleton.mp ho]) hne
  nodup := List.nodup_singleton _
  valid := hvalid

theorem realIndex_not_mem_kept : a.real.globalIndex ∉ a.kept C numOuts := by
  simp [AskedInput.kept, AskedInput.usable]

theorem realIndex_not_mem_candidates : a.real.globalIndex ∉ a.candidates C := by
  simp [AskedInput.candidates, AskedInput.usable]

theorem kept_subset_candidates (h : Answered ringSize numOuts a) :
    a.kept C numOuts ⊆ a.candidates C := by
  intro i hi
  rw [AskedInput.kept, Finset.mem_filter, List.mem_toFinset] at hi
  rw [AskedInput.candidates, Finset.mem_filter, List.mem_toFinset]
  exact ⟨h.known i hi.1, hi.2⟩

/-- The ring an input gets before it is judged: all of the known ring that is still good, and what
    was picked as far as there is room. -/
theorem assembleOuts_draft (h : Answered ringSize numOuts a) {valid : List Bytes32}
    (hvalid : ∀ k ∈ valid, inMainSubgroup C k = true)
    (hshown : realOutFound (asked a.order) a.told a.real = true) :
    ∃ d, assembleOuts C ringSize numOuts a.known a.order a.told a.real valid =
        Wownero.finishRing ringSize a.real d ∧ Draft C a d ∧
      d.indices.card ≤ max ringSize ((a.kept C numOuts).card + 1) ∧
      (a.kept C numOuts).card + 1 ≤ d.indices.card ∧
      d.indices.card ≤ (a.candidates C).card + 1 ∧
      (d.indices.card < ringSize → d.indices.card = (a.candidates C).card + 1) := by
  have hanswers : ∀ i ∈ a.order, ∃ m, a.answer i = some m := fun i hi => answer_of_mem h.told hi
  have hknown : ∀ i ∈ a.known.getD [], i < numOuts → ∃ m, a.answer i = some m := by
    intro i hi hlt
    refine hanswers i (h.known i ?_)
    rw [knownInRange, List.mem_filter]
    exact ⟨hi, by simpa using hlt⟩
  obtain ⟨d₁, hd₁, hdraft₁, hkept⟩ := (Draft.start hvalid).keepKnown hknown
  obtain ⟨d, hd, hdraft, hsub, hsup, hcard, hall⟩ := @Draft.takePicked C a ringSize a.order hanswers d₁ hdraft₁
  have hstart : RingDraft.indices
      ⟨[(a.real.globalIndex, a.real.publicKey, a.real.commitment)], valid⟩ =
        {a.real.globalIndex} := by simp [RingDraft.indices]
  have hkept : d₁.indices = insert a.real.globalIndex (a.kept C numOuts) := by
    rw [hkept, hstart, ← Finset.insert_eq]
    rfl
  have hfull : d₁.indices ∪ (a.order.toFinset.filter fun i => a.usable C i) =
      insert a.real.globalIndex (a.candidates C) := by
    rw [hkept, Finset.insert_union]
    exact congrArg _ (Finset.union_eq_right.mpr (kept_subset_candidates h))
  have hkeptCard : d₁.indices.card = (a.kept C numOuts).card + 1 := by
    rw [hkept, Finset.card_insert_of_notMem realIndex_not_mem_kept]
  have hfullCard := Finset.card_insert_of_notMem (realIndex_not_mem_candidates (C := C) (a := a))
  rw [hfull] at hsup hall
  refine ⟨d, ?_, hdraft, ?_, ?_, ?_, ?_⟩
  · rw [assembleOuts, if_neg (by simp [hshown])]
    show (Wownero.keepKnown C numOuts _ _ _ _ _ >>= _) = _
    rw [hd₁]
    show (Wownero.takePicked C ringSize _ _ _ _ _ >>= _) = _
    rw [hd]
    rfl
  · rwa [← hkeptCard]
  · rw [← hkeptCard]
    exact Finset.card_le_card hsub
  · rw [← hfullCard]
    exact Finset.card_le_card hsup
  · intro hlt
    rw [hall hlt, hfullCard]

/-- A ring comes back exactly where the node has shown the output and described enough others.  Its
    size is that of the known ring with the output, where that is more than was asked for. -/
theorem assembleOuts_suffices (h : Answered ringSize numOuts a) (hsuf : a.Suffices C ringSize)
    {valid : List Bytes32} (hvalid : ∀ k ∈ valid, inMainSubgroup C k = true) :
    ∃ out valid', assembleOuts C ringSize numOuts a.known a.order a.told a.real valid =
        .ok (out, valid') ∧
      RingFor C (max ringSize ((a.kept C numOuts).card + 1)) a out ∧
      ∀ k ∈ valid', inMainSubgroup C k = true := by
  obtain ⟨d, heq, hdraft, hmax, hkept, -, hfew⟩ := assembleOuts_draft h hvalid hsuf.1
  have hsize : ringSize ≤ d.indices.card := by
    by_contra hlt
    have hlt := Nat.not_le.mp hlt
    have hcard := hfew hlt
    have henough := hsuf.2
    omega
  obtain ⟨out, hout, hring⟩ := hdraft.finishRing hsize hsuf.1
  have hexact : d.indices.card = max ringSize ((a.kept C numOuts).card + 1) := by omega
  rw [hexact] at hring
  exact ⟨out, d.valid, heq.trans hout, hring, hdraft.valid⟩

theorem suffices_of_assembleOuts (h : Answered ringSize numOuts a) {valid : List Bytes32}
    (hvalid : ∀ k ∈ valid, inMainSubgroup C k = true)
    {out : (Ring × List (PublicKey × EcPoint)) × List Bytes32}
    (hok : assembleOuts C ringSize numOuts a.known a.order a.told a.real valid = .ok out) :
    a.Suffices C ringSize := by
  have hshown := assembleOuts_ok hok
  refine ⟨hshown, ?_⟩
  obtain ⟨d, heq, hdraft, -, -, hall, -⟩ := assembleOuts_draft h hvalid hshown
  by_contra hfew
  obtain ⟨e, he⟩ := @Draft.finishRing_few C a ringSize d hdraft (by omega)
  rw [heq, he] at hok
  cases hok

/-! ### All rings -/

/-- Everything but its size that a ring is to have, and the size it does have. -/
def RingKept (C : Crypto) (ringSize numOuts : Nat) (a : AskedInput)
    (out : Ring × List (PublicKey × EcPoint)) : Prop :=
  RingFor C (max ringSize ((a.kept C numOuts).card + 1)) a out

theorem assembleRings_suffices {reals : List (RealOutput × Option (List Nat))}
    {sections : List (List Nat)} {answer : List Member} {valid : List Bytes32}
    (hans : ∀ a ∈ askedInputs reals sections answer, Answered ringSize numOuts a)
    (hvalid : ∀ k ∈ valid, inMainSubgroup C k = true)
    (hsuf : ∀ a ∈ askedInputs reals sections answer, a.Suffices C ringSize) :
    ∃ rings, assembleRings C ringSize numOuts (reals.zip sections) answer valid = .ok rings ∧
      List.Forall₂ (RingKept C ringSize numOuts) (askedInputs reals sections answer) rings := by
  induction reals generalizing sections answer valid with
  | nil => exact ⟨[], rfl, by rw [askedInputs]; exact .nil; simp⟩
  | cons pair reals ih =>
      obtain ⟨real, known⟩ := pair
      cases sections with
      | nil => exact ⟨[], rfl, by rw [askedInputs]; exact .nil; simp⟩
      | cons order sections =>
          rw [askedInputs] at hans hsuf ⊢
          rw [List.forall_mem_cons] at hans hsuf
          obtain ⟨out, valid', hout, hring, hvalid'⟩ :=
            assembleOuts_suffices hans.1 hsuf.1 hvalid
          obtain ⟨rings, hrings, hall⟩ := ih hans.2 hvalid' hsuf.2
          refine ⟨out :: rings, ?_, .cons hring hall⟩
          rw [List.zip_cons_cons, assembleRings]
          exact bind_eq_ok.mpr ⟨_, hout, bind_eq_ok.mpr ⟨_, hrings, rfl⟩⟩

theorem suffices_of_assembleRings {reals : List (RealOutput × Option (List Nat))}
    {sections : List (List Nat)} {answer : List Member} {valid : List Bytes32}
    {rings : List (Ring × List (PublicKey × EcPoint))}
    (hans : ∀ a ∈ askedInputs reals sections answer, Answered ringSize numOuts a)
    (hvalid : ∀ k ∈ valid, inMainSubgroup C k = true)
    (hok : assembleRings C ringSize numOuts (reals.zip sections) answer valid = .ok rings) :
    ∀ a ∈ askedInputs reals sections answer, a.Suffices C ringSize := by
  induction reals generalizing sections answer valid rings with
  | nil =>
      intro a ha
      simp [askedInputs] at ha
  | cons pair reals ih =>
      obtain ⟨real, known⟩ := pair
      cases sections with
      | nil =>
          intro a ha
          simp [askedInputs] at ha
      | cons order sections =>
          rw [askedInputs] at hans ⊢
          rw [List.forall_mem_cons] at hans ⊢
          rw [List.zip_cons_cons, assembleRings] at hok
          obtain ⟨⟨out, valid'⟩, hout, hok⟩ := bind_eq_ok.mp hok
          obtain ⟨rest, hrest, -⟩ := bind_eq_ok.mp hok
          have hsuf := suffices_of_assembleOuts hans.1 hvalid hout
          obtain ⟨out₁, valid₁, hout₁, -, hvalid₁⟩ := assembleOuts_suffices hans.1 hsuf hvalid
          have hsame := Except.ok.inj (hout₁.symm.trans hout)
          rw [Prod.mk.injEq] at hsame
          exact ⟨hsuf, ih hans.2 (hsame.2 ▸ hvalid₁) hrest⟩

variable {R : Type} {picker : Picker R} {rng : R} {reals : List (RealOutput × Option (List Nat))}
  {fetch : Nat → List Nat → Except String (List Member)}

/-- Rings come back exactly where the node answers the whole request and has shown every output
    and described enough others for each. -/
theorem getOutsFrom_isOk :
    (∃ rings, getOutsFrom C picker rng reals ringSize fetch = .ok rings) ↔
      ∃ rows, conversation picker rng reals ringSize fetch = .ok rows ∧
        ∀ a ∈ rows, a.Suffices C ringSize := by
  constructor
  · rintro ⟨rings, h⟩
    obtain ⟨hnum, h⟩ := if_ok_iff.mp h
    obtain ⟨sections, hsections, h⟩ := bind_eq_ok.mp h
    obtain ⟨answer, hanswer, h⟩ := bind_eq_ok.mp h
    have hrows : conversation picker rng reals ringSize fetch =
        .ok (askedInputs reals sections answer) :=
      if_ok_iff.mpr ⟨hnum, bind_eq_ok.mpr ⟨_, hsections, bind_eq_ok.mpr ⟨_, hanswer, rfl⟩⟩⟩
    exact ⟨_, hrows, suffices_of_assembleRings (conversation_answered hrows)
      (fun k hk => absurd hk List.not_mem_nil) h⟩
  · rintro ⟨rows, hrows, hsuf⟩
    have hans := conversation_answered hrows
    obtain ⟨hnum, h⟩ := if_ok_iff.mp hrows
    obtain ⟨sections, hsections, h⟩ := bind_eq_ok.mp h
    obtain ⟨answer, hanswer, h⟩ := bind_eq_ok.mp h
    cases pure_eq_ok.mp h
    obtain ⟨rings, hrings, -⟩ := assembleRings_suffices hans
      (fun k hk => absurd hk List.not_mem_nil) hsuf
    exact ⟨rings, if_ok_iff.mpr
      ⟨hnum, bind_eq_ok.mpr ⟨_, hsections, bind_eq_ok.mpr ⟨_, hanswer, hrings⟩⟩⟩⟩

theorem getOutsFrom_rings {rows : List AskedInput}
    {rings : List (Ring × List (PublicKey × EcPoint))}
    (hrows : conversation picker rng reals ringSize fetch = .ok rows)
    (h : getOutsFrom C picker rng reals ringSize fetch = .ok rings) :
    List.Forall₂ (RingKept C ringSize picker.numRctOutputs) rows rings := by
  obtain ⟨rows', hrows', hsuf⟩ := getOutsFrom_isOk.mp ⟨rings, h⟩
  obtain rfl := Except.ok.inj (hrows.symm.trans hrows')
  have hans := conversation_answered hrows
  obtain ⟨hnum, hconv⟩ := if_ok_iff.mp hrows
  obtain ⟨sections, hsections, hconv⟩ := bind_eq_ok.mp hconv
  obtain ⟨answer, hanswer, hconv⟩ := bind_eq_ok.mp hconv
  cases pure_eq_ok.mp hconv
  obtain ⟨rings', hrings', hall⟩ := assembleRings_suffices hans
    (fun k hk => absurd hk List.not_mem_nil) hsuf
  have hget : getOutsFrom C picker rng reals ringSize fetch = .ok rings' :=
    if_ok_iff.mpr ⟨hnum, bind_eq_ok.mpr ⟨_, hsections, bind_eq_ok.mpr ⟨_, hanswer, hrings'⟩⟩⟩
  rwa [Except.ok.inj (h.symm.trans hget)]

/-- A ring has its size where the known ring leaves room for the output. -/
theorem RingKept.ringFor_iff {out : Ring × List (PublicKey × EcPoint)}
    (h : RingKept C ringSize numOuts a out) :
    RingFor C ringSize a out ↔ (a.kept C numOuts).card < ringSize := by
  have hsize := RingFor.size h
  constructor
  · intro hring
    have := hring.size
    omega
  · intro hlt
    rw [RingKept, max_eq_left (Nat.succ_le_of_lt hlt)] at h
    exact h

/-! ### The whole of it -/

/-- What is expected of the requests and the rings for one distribution, one random source, one list
    of outputs with the rings known for them, and one node. -/
structure WellShaped (C : Crypto) (checks : Bool) (src : RandomSource R) (offsets : List UInt64)
    (rng : R) (reals : List (RealOutput × Option (List Nat))) (ringSize : Nat)
    (fetch : Nat → List Nat → Except String (List Member)) : Prop where
  /-- The picker is built or refused, and picks, without a panic. -/
  builds : GammaPicker.withParameters checks offsets ≠ none
  picks : ∀ g, GammaPicker.withParameters checks offsets = some (.ok g) →
    ∀ rng', (g.pick checks src rng').isSome
  /-- The picking is over after the turns it is given, and the calls after those they are. -/
  ends : ∀ g, GammaPicker.withParameters checks offsets = some (.ok g) →
    let requested := requestedOutputsCount ringSize
    let picksLeft := saturatingMul requested 1000
    ∀ pair ∈ reals, ∀ rng' more,
      let start := pickingStart g.numRctOutputs.toNat pair.2 pair.1 rng'
      pickLoop (g.toPicker checks src) requested (requested + picksLeft + more) false picksLeft
          start =
        pickLoop (g.toPicker checks src) requested (requested + picksLeft) false picksLeft start
  calls : ∀ request more,
    askChunks fetch 0 (request.length + more) request = askChunks fetch 0 request.length request
  /-- Every share has an answer of its length. -/
  answers : ∀ g, GammaPicker.withParameters checks offsets = some (.ok g) →
    ∀ rows, conversation (g.toPicker checks src) rng reals ringSize fetch = .ok rows →
      ∀ a ∈ rows, a.told.length = (asked a.order).length
  shares : ∀ g, GammaPicker.withParameters checks offsets = some (.ok g) →
    ∀ sections, pickSections (g.toPicker checks src) ringSize reals rng = .ok sections →
      ∀ order ∈ sections, (asked order).length = requestedOutputsCount ringSize ∧
        (asked order).Pairwise (· ≤ ·)
  rings : ∀ g, GammaPicker.withParameters checks offsets = some (.ok g) →
    ∀ rings, getOutsFrom C (g.toPicker checks src) rng reals ringSize fetch = .ok rings →
      ∃ rows, conversation (g.toPicker checks src) rng reals ringSize fetch = .ok rows ∧
        List.Forall₂ (RingFor C ringSize) rows rings

/-- The build does not check for overflow or the totals have not fallen within a year; a chain with
    no more outputs than are asked about has none of a known ring in its range, unless a known ring
    is too large to be used; and where the node shows every output and describes enough others,
    fewer of a known ring's members than a ring has are still good and not the output. -/
structure LeavesRoom (C : Crypto) (checks : Bool) (src : RandomSource R) (offsets : List UInt64)
    (rng : R) (reals : List (RealOutput × Option (List Nat))) (ringSize : Nat)
    (fetch : Nat → List Nat → Except String (List Member)) : Prop where
  totals : checks = true → ¬ ShrankInAYear offsets
  young : ∀ g, GammaPicker.withParameters checks offsets = some (.ok g) →
    (∀ pair ∈ reals, (pair.2.getD []).length ≤ ringSize) →
      g.numRctOutputs.toNat ≤ requestedOutputsCount ringSize →
        ∀ pair ∈ reals, ∀ i ∈ pair.2.getD [], g.numRctOutputs.toNat ≤ i
  known : ∀ g, GammaPicker.withParameters checks offsets = some (.ok g) →
    ∀ rows, conversation (g.toPicker checks src) rng reals ringSize fetch = .ok rows →
      (∀ a ∈ rows, a.Suffices C ringSize) →
        ∀ a ∈ rows, (a.kept C g.numRctOutputs.toNat).card < ringSize

theorem shares_iff :
    (∀ sections, pickSections picker ringSize reals rng = .ok sections →
      ∀ order ∈ sections, (asked order).length = requestedOutputsCount ringSize ∧
        (asked order).Pairwise (· ≤ ·)) ↔
      ((∀ pair ∈ reals, (pair.2.getD []).length ≤ ringSize) →
        picker.numRctOutputs ≤ requestedOutputsCount ringSize →
          ∀ pair ∈ reals, ∀ i ∈ pair.2.getD [], picker.numRctOutputs ≤ i) := by
  constructor
  · intro h hknown hyoung pair hpair i hi
    by_contra hlt
    obtain ⟨sections, hsections⟩ := (pickSections_isOk ringSize reals rng).mpr hknown
    -- The share of this input has the member on top.
    have hall := pickSections_ok hsections
    obtain ⟨order, horder, rng₁, rng₂, hpick⟩ : ∃ order ∈ sections, ∃ rng₁ rng₂,
        pickSection picker ringSize pair.2 pair.1 rng₁ = .ok (order, rng₂) := by
      obtain ⟨n, hn, rfl⟩ := List.mem_iff_getElem.mp hpair
      have hlen := hall.length_eq
      exact ⟨sections[n], List.getElem_mem _, List.Forall₂.get hall hn (by omega)⟩
    have hlength := pickSection_length hpick
    rw [if_pos hyoung, ← length_asked, (h sections hsections order horder).1] at hlength
    have hin : i ∈ knownInRange picker.numRctOutputs pair.2 := by
      rw [knownInRange, List.mem_filter]
      exact ⟨hi, by simpa using hlt⟩
    have := List.length_pos_of_mem hin
    omega
  · intro h sections hsections order horder
    refine ⟨?_, List.pairwise_insertionSort _ _⟩
    have hall := pickSections_ok hsections
    obtain ⟨n, hn, rfl⟩ := List.mem_iff_getElem.mp horder
    have hlen := hall.length_eq
    obtain ⟨rng₁, rng₂, hpick⟩ := List.Forall₂.get hall (by omega : n < reals.length) hn
    have hknown := (pickSections_isOk ringSize reals rng).mp ⟨_, hsections⟩
    have hlength := pickSection_length hpick
    rw [length_asked]
    change sections[n].length = _ at hlength
    rw [hlength]
    split_ifs with hyoung
    · have hnone : knownInRange picker.numRctOutputs (reals[n]).2 = [] := by
        rw [knownInRange, List.filter_eq_nil_iff]
        intro i hi
        have := h hknown hyoung _ (List.getElem_mem _) i hi
        simpa using this
      change _ + (knownInRange picker.numRctOutputs (reals[n]).2).length = _
      rw [hnone]
      rfl
    · rfl

theorem rings_iff :
    (∀ rings, getOutsFrom C picker rng reals ringSize fetch = .ok rings →
      ∃ rows, conversation picker rng reals ringSize fetch = .ok rows ∧
        List.Forall₂ (RingFor C ringSize) rows rings) ↔
      (∀ rows, conversation picker rng reals ringSize fetch = .ok rows →
        (∀ a ∈ rows, a.Suffices C ringSize) →
          ∀ a ∈ rows, (a.kept C picker.numRctOutputs).card < ringSize) := by
  constructor
  · intro h rows hrows hsuf a ha
    obtain ⟨rings, hrings⟩ := getOutsFrom_isOk.mpr ⟨rows, hrows, hsuf⟩
    obtain ⟨rows', hrows', hall⟩ := h rings hrings
    obtain rfl := Except.ok.inj (hrows.symm.trans hrows')
    have hkept := getOutsFrom_rings hrows hrings
    obtain ⟨n, hn, rfl⟩ := List.mem_iff_getElem.mp ha
    have hlen := hall.length_eq
    exact (List.Forall₂.get hkept hn (by omega)).ringFor_iff.mp
      (List.Forall₂.get hall hn (by omega))
  · intro h rings hrings
    obtain ⟨rows, hrows, hsuf⟩ := getOutsFrom_isOk.mp ⟨rings, hrings⟩
    have hkept := getOutsFrom_rings hrows hrings
    refine ⟨rows, hrows, List.forall₂_iff_get.mpr ⟨hkept.length_eq, fun n hn hn' => ?_⟩⟩
    exact (List.Forall₂.get hkept hn hn').ringFor_iff.mpr
      (h rows hrows hsuf _ (List.get_mem rows ⟨n, hn⟩))

/-- Requests and rings have their shape exactly where the known rings leave room for it. -/
theorem rings_well_shaped_iff (C : Crypto) (checks : Bool) (src : RandomSource R)
    (offsets : List UInt64) (rng : R) (reals : List (RealOutput × Option (List Nat)))
    (ringSize : Nat) (fetch : Nat → List Nat → Except String (List Member)) :
    WellShaped C checks src offsets rng reals ringSize fetch ↔
      LeavesRoom C checks src offsets rng reals ringSize fetch := by
  constructor
  · intro h
    exact
      { totals := fun hchecks hshrank =>
          h.builds ((withParameters_eq_none_iff checks offsets).mpr ⟨hchecks, hshrank⟩)
        young := fun g hg => shares_iff.mp (h.shares g hg)
        known := fun g hg => rings_iff.mp (h.rings g hg) }
  · intro h
    exact
      { builds := fun hnone => by
          obtain ⟨hchecks, hshrank⟩ := (withParameters_eq_none_iff checks offsets).mp hnone
          exact h.totals hchecks hshrank
        picks := fun g _ rng' => g.pick_isSome checks src rng'
        ends := by
          intro g _ requested picksLeft pair _ rng' more start
          have hpos : 0 < start.order.length := pickingStart_length _ _ _ _
          have hrequested : 0 < requested := Nat.zero_lt_of_lt (ringSize_lt_requested ringSize)
          refine pickLoop_ends ?_ more
          omega
        calls := fun request more => askChunks_ends le_rfl 0 more
        answers := fun g _ rows hrows a ha => (conversation_answered hrows a ha).told
        shares := fun g hg => shares_iff.mpr (h.young g hg)
        rings := fun g hg => rings_iff.mpr (h.known g hg) }

/-- A chain of four outputs, all in its first block. -/
def fourOutputs : List UInt64 := [4, 4, 4, 4, 4]

/-- The third of them, spent before with a ring that after a reorganisation is of the first two. -/
def movedOutput : RealOutput × Option (List Nat) := (⟨2, 8, 16, 24⟩, some [0, 1])

/-- A node that describes every output alike, unlocked. -/
def alikeMembers (_ : Nat) (request : List Nat) : Except String (List Member) :=
  .ok (request.map fun _ => ⟨8, 16, true⟩)

/-- A source that always draws the same. -/
def constantSource : RandomSource Unit := ⟨fun _ => (0, ()), fun _ _ _ => (0, ())⟩

/-- The picker over it. -/
def fourPicker : GammaPicker where
  offsets := fourOutputs
  endBlock := 2
  numRctOutputs := 4
  seconds := 1500
  outputs := 4
  endBlock_le := by decide
  numRctOutputs_pos := by decide

theorem fourPicker_built : GammaPicker.withParameters true fourOutputs = some (.ok fourPicker) :=
  rfl

/-- The whole known ring stays and the output comes on top: three members where two are wanted. -/
theorem fourOutputs_ring_too_large :
    ¬ WellShaped Sample.crypto true constantSource fourOutputs () [movedOutput] 2 alikeMembers := by
  intro h
  have hrings : getOutsFrom Sample.crypto (fourPicker.toPicker true constantSource) ()
      [movedOutput] 2 alikeMembers = .ok [(⟨[0, 1, 2], 2⟩, [(8, 16), (8, 16), (8, 16)])] := by
    decide +kernel
  obtain ⟨rows, -, hall⟩ := h.rings fourPicker fourPicker_built _ hrings
  cases hall with
  | cons hring _ =>
      have hsize : 3 = 2 := hring.size
      exact absurd hsize (by decide)

end

end Wownero

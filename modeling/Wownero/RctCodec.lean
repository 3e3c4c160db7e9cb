import Wownero.Codec
/-!
# Reading back a whole transaction

Whatever was read as a transaction, cut short or not, is written as bytes it is read from again:
its prefix, its signatures and its RingCT data come back as they were.  Only where its two regions
end may differ, since a varint that the input ends in takes fewer bytes than it is written with.
-/

namespace Wownero.Archive

open Outcome

variable {α β : Type}

/-- Whatever is read is read again from some bytes, and `Q` relates them to it. -/
def Rereads (p : Parse α) (Q : α → Blob → Prop) : Prop :=
  ∀ r a r', p r = .ok (a, r') → ∃ bs, Reads p bs a ∧ Q a bs

variable {p : Parse α} {f : α → Parse β} {Q : α → Blob → Prop} {R : β → Blob → Prop}

theorem Rereads.imp {Q' : α → Blob → Prop} (h : Rereads p Q) (himp : ∀ a bs, Q a bs → Q' a bs) :
    Rereads p Q' := by
  intro r a r' hp
  obtain ⟨bs, hreads, hq⟩ := h r a r' hp
  exact ⟨bs, hreads, himp a bs hq⟩

theorem run_pos (r : Reader) : pos r = .ok (r.pos, r) := rfl

theorem rereads_pure {a : α} (h : Q a []) : Rereads (pure a) Q := by
  intro r b r' hp
  cases hp
  exact ⟨[], reads_pure a, h⟩

theorem rereads_throw (e : Error) : Rereads (throw e : Parse α) Q := by
  intro r a r' hp
  cases hp

theorem rereads_guard {c : Prop} [Decidable c] {e : Error} (h : ¬c → Rereads p Q) :
    Rereads (if c then throw e else p) Q := by
  split_ifs with hc
  · exact rereads_throw e
  · exact h hc

/-- One reader after another.  What the second reads is related to bytes over whatever the first was
    read from. -/
theorem Rereads.bind (hp : Rereads p Q)
    (hf : ∀ a, Rereads (f a) fun b cs => ∀ bs, Q a bs → R b (bs ++ cs)) : Rereads (p >>= f) R := by
  intro r b r' h
  obtain ⟨a, r₁, ha, hb⟩ := run_bind_eq_ok.mp h
  obtain ⟨cs, hreadsF, hr⟩ := hf a r₁ b r' hb
  obtain ⟨bs, hreadsP, hq⟩ := hp r a r₁ ha
  exact ⟨bs ++ cs, hreadsP.bind hreadsF, hr bs hq⟩

theorem Rereads.map {g : α → β} (hp : Rereads p Q) (hq : ∀ a bs, Q a bs → R (g a) bs) :
    Rereads (p >>= fun a => pure (g a)) R := by
  refine hp.bind fun a => rereads_pure fun bs h => ?_
  rw [List.append_nil]
  exact hq a bs h

/-- What is found has room, and what has room is read back as written. -/
theorem Finds.rereads {P : α → Prop} {write : α → Blob} (hfinds : Finds p P)
    (hreads : ∀ a, P a → Reads p (write a) a) : Rereads p fun a bs => bs = write a :=
  fun r a r' hp => ⟨write a, hreads a (hfinds r a r' hp), rfl⟩

theorem rereads_take (n : Nat) : Rereads (take n) fun a bs => bs = a ∧ a.length = n := by
  intro r bs r' h
  have hlen := finds_take n r bs r' h
  refine ⟨bs, ?_, rfl, hlen⟩
  rw [← hlen]
  exact reads_take bs

theorem rereads_u8 : Rereads readU8 fun b bs => bs = [b] :=
  fun _ b _ _ => ⟨[b], reads_u8 b, rfl⟩

theorem rereads_array32 : Rereads readArray32 fun b bs => bs = writeArray32 b :=
  fun _ b _ _ => ⟨writeArray32 b, reads_array32 b, rfl⟩

theorem rereads_signature : Rereads readSignature fun s bs => bs = s.toBytes := by
  refine (rereads_take 64).map ?_
  rintro bs _ ⟨rfl, hlen⟩
  rw [Signature.ofBytes, Signature.toBytes, toBytes_ofBytes (by rw [List.length_take]; omega),
    toBytes_ofBytes (by rw [List.length_drop]; omega), List.take_append_drop]

theorem rereads_le (n : Nat) : Rereads (readLe n) fun v bs => bs = leBytes n v := by
  refine (rereads_take n).map ?_
  rintro bs _ ⟨rfl, hlen⟩
  rw [← hlen, leBytes_leNat]

theorem rereads_varintN (bits : Nat) (hbits : 0 < bits) :
    Rereads (readVarintN bits) fun v bs => bs = writeVarint v :=
  (finds_varintN bits).rereads fun _ h => reads_varintN hbits h

theorem rereads_many {item : Parse α} {write : α → Blob} (h : Rereads item fun a bs => bs = write a)
    (n : Nat) : Rereads (readMany item n) fun l bs => bs = l.flatMap write ∧ l.length = n := by
  induction n with
  | zero => exact rereads_pure ⟨rfl, rfl⟩
  | succ n ih =>
      rw [readMany]
      refine h.bind fun a => ih.map ?_
      rintro l _ ⟨rfl, hlen⟩ _ rfl
      exact ⟨rfl, by rw [List.length_cons, hlen]⟩

theorem rereads_arrays (n : Nat) :
    Rereads (readMany readArray32 n) fun l bs => bs = writeArrays l ∧ l.length = n :=
  rereads_many rereads_array32 n

/-- A reader for each element of a list, as rows without lengths are read. -/
theorem rereads_mapM {ι : Type} {item : ι → Parse α} (write : α → Blob)
    (h : ∀ i, Rereads (item i) fun a bs => bs = write a) (l : List ι) :
    Rereads (l.mapM item) fun out bs => bs = out.flatMap write := by
  induction l with
  | nil =>
      rw [List.mapM_nil]
      exact rereads_pure rfl
  | cons i l ih =>
      rw [List.mapM_cons]
      refine (h i).bind fun a => ih.map ?_
      rintro out _ rfl _ rfl
      rfl

end Wownero.Archive

namespace Wownero

open Outcome Wownero.Archive

/-! ### Proofs -/

theorem rereads_pointVec (what : String) : Rereads (readPointVec what) fun v bs => bs = writePointVec v := by
  have hfinds : Finds (readPointVec what) fun v => v.length < 2 ^ 64 := by
    unfold readPointVec
    refine (finds_any _).bind fun left _ => (finds_length _ _).bind fun n hn => ?_
    intro r l r' h
    rw [(finds_many (finds_any _) n r l r' h).1]
    exact hn
  apply hfinds.rereads
  intro v hv
  unfold readPointVec
  have hlen := length_writeArrays v
  refine Reads.remaining fun n hn => ?_
  rw [writePointVec, List.length_append, hlen] at hn
  exact Reads.length hv (by omega) (by rw [hlen]; omega) (reads_many fun key _ => reads_array32 key)

theorem rereads_bulletproof : Rereads readBulletproof fun b bs => bs = writeBulletproof b := by
  unfold readBulletproof
  refine rereads_array32.bind fun a => rereads_array32.bind fun s => rereads_array32.bind fun t1 =>
    rereads_array32.bind fun t2 => rereads_array32.bind fun taux => rereads_array32.bind fun mu => ?_
  refine (rereads_pointVec _).bind fun l => (rereads_pointVec _).bind fun r => ?_
  refine rereads_array32.bind fun aScalar => rereads_array32.bind fun b => rereads_array32.map ?_
  rintro t _ rfl _ rfl _ rfl _ rfl _ rfl _ rfl _ rfl _ rfl _ rfl _ rfl _ rfl
  simp [writeBulletproof, writeArrays, writeArray32]

theorem rereads_bulletproofPlus : Rereads readBulletproofPlus fun b bs => bs = writeBulletproofPlus b := by
  unfold readBulletproofPlus
  refine rereads_array32.bind fun a => rereads_array32.bind fun a1 => rereads_array32.bind fun b =>
    rereads_array32.bind fun r1 => rereads_array32.bind fun s1 => rereads_array32.bind fun d1 => ?_
  refine (rereads_pointVec _).bind fun l => (rereads_pointVec _).map ?_
  rintro r _ rfl _ rfl _ rfl _ rfl _ rfl _ rfl _ rfl _ rfl
  simp [writeBulletproofPlus, writeArrays, writeArray32]

theorem rereads_rangeSig : Rereads readRangeSig fun rs bs => bs = writeRangeSig rs := by
  unfold readRangeSig
  refine (rereads_arrays 64).bind fun s0 => (rereads_arrays 64).bind fun s1 => ?_
  refine rereads_array32.bind fun ee => (rereads_arrays 64).map ?_
  rintro ci _ ⟨rfl, -⟩ _ rfl _ ⟨rfl, -⟩ _ ⟨rfl, -⟩
  simp [writeRangeSig]

theorem rereads_ecdhInfo (ty : RctType) : Rereads (readEcdhInfo ty) fun e bs => bs = writeEcdhInfo ty e := by
  unfold readEcdhInfo writeEcdhInfo
  split_ifs
  · refine (rereads_take 8).map ?_
    rintro amount _ ⟨rfl, hlen⟩
    rw [toBytes_ofBytes (by simp [hlen]), ← hlen, List.take_left]
  · refine rereads_array32.bind fun mask => rereads_array32.map ?_
    rintro amount _ rfl _ rfl
    rfl

theorem rereads_clsag (mixin : Nat) : Rereads (readClsag mixin) fun c bs => bs = writeClsag c := by
  unfold readClsag
  refine (rereads_arrays _).bind fun s => rereads_array32.bind fun c1 => rereads_array32.map ?_
  rintro d _ rfl _ rfl _ ⟨rfl, -⟩
  simp [writeClsag]

theorem rereads_mgSig (ss2 mixin : Nat) : Rereads (readMgSig ss2 mixin) fun m bs => bs = writeMgSig m := by
  unfold readMgSig
  have hrow : Rereads (readMany readArray32 ss2) fun l bs => bs = writeArrays l :=
    (rereads_arrays ss2).imp fun _ _ h => h.1
  refine (rereads_many hrow _).bind fun ss => rereads_array32.map ?_
  rintro cc _ rfl _ ⟨rfl, -⟩
  rfl

/-! ### The base and the prunable half -/

theorem rereads_type (v : UInt8) : Rereads (RctType.fromU8 v) fun ty bs => bs = [] ∧ ty.toU8 = v := by
  have hfinds : Finds (RctType.fromU8 v) fun ty => ty.toU8 = v := by
    unfold RctType.fromU8
    split
    all_goals first
      | exact finds_throw _
      | rename_i hv
        exact finds_pure (UInt8.toNat_inj.mp (by rw [hv]; rfl))
  intro r ty r' h
  have hty := hfinds r ty r' h
  have hback : RctType.fromU8 ty.toU8 = pure ty := by cases ty <;> rfl
  rw [← hty, hback]
  exact ⟨[], reads_pure ty, rfl, rfl⟩

/-- The base, which has nothing of the prunable half. -/
theorem rereads_base (inputs outputs : Nat) :
    Rereads (RctSignatures.readBase inputs outputs) fun rv bs => bs = rv.writeBase := by
  unfold RctSignatures.readBase
  refine rereads_u8.bind fun v => (rereads_type v).bind fun ty => ?_
  split_ifs with hnull hsimple
  · refine rereads_pure ?_
    rintro _ ⟨rfl, hty⟩ _ rfl
    simp [RctSignatures.writeBase, hnull, hty]
  · refine (rereads_varintN 64 (by norm_num)).bind fun fee => ?_
    refine (rereads_arrays inputs).bind fun pseudo => ?_
    refine (rereads_many (rereads_ecdhInfo ty) outputs).bind fun ecdh => (rereads_arrays outputs).map ?_
    rintro outPk _ ⟨rfl, -⟩ _ ⟨rfl, -⟩ _ ⟨rfl, -⟩ _ rfl _ ⟨rfl, rfl⟩ _ rfl
    subst hsimple
    simp [RctSignatures.writeBase, RctType.isNull]
  · refine (rereads_varintN 64 (by norm_num)).bind fun fee => ?_
    refine Rereads.bind (Q := fun pseudo bs => bs = [] ∧ pseudo = []) (rereads_pure ⟨rfl, rfl⟩)
      fun pseudo => ?_
    refine (rereads_many (rereads_ecdhInfo ty) outputs).bind fun ecdh => (rereads_arrays outputs).map ?_
    rintro outPk _ ⟨rfl, -⟩ _ ⟨rfl, -⟩ _ ⟨rfl, rfl⟩ _ rfl _ ⟨rfl, hty⟩ _ rfl
    simp [RctSignatures.writeBase, hnull, hty, hsimple]

theorem rereads_proofCount (ty : RctType) (outputs : Nat) : Rereads (readProofCount ty outputs) fun n bs =>
    bs = if ty = .bulletproof then leBytes 4 n else writeVarint n := by
  unfold readProofCount
  split_ifs with hty
  · refine (rereads_le 4).bind fun n => rereads_guard fun _ => rereads_pure ?_
    rintro _ rfl
    rw [List.append_nil]
  · refine (rereads_varintN 32 (by norm_num)).bind fun n => rereads_guard fun _ => rereads_pure ?_
    rintro _ rfl
    rw [List.append_nil]

/-- The range proofs fill in their own fields. -/
theorem rereads_rangeProofs (rv : RctSignatures) (outputs : Nat) :
    Rereads (rv.readRangeProofs outputs) fun rv' bs => bs = rv'.writeRangeProofs ∧ rv'.ty = rv.ty ∧
      rv'.writeBase = rv.writeBase := by
  unfold RctSignatures.readRangeProofs
  have hproofs (hwrite : ∀ proofs, ({ rv with bulletproofs := proofs } : RctSignatures).writeRangeProofs =
        (if rv.ty = .bulletproof then leBytes 4 proofs.length else writeVarint proofs.length) ++
          proofs.flatMap writeBulletproof) :
      Rereads (readProofCount rv.ty outputs >>= fun nbp => readMany readBulletproof nbp >>= fun proofs =>
        if totalMaxAmounts (proofs.map (·.l)) < outputs then
          throw (.limitExceeded "n_bulletproof_max_amounts < outputs")
        else pure { rv with bulletproofs := proofs }) fun rv' bs =>
          bs = rv'.writeRangeProofs ∧ rv'.ty = rv.ty ∧ rv'.writeBase = rv.writeBase := by
    refine (rereads_proofCount rv.ty outputs).bind fun nbp => ?_
    refine (rereads_many rereads_bulletproof nbp).bind fun proofs => rereads_guard fun _ => rereads_pure ?_
    rintro _ ⟨rfl, rfl⟩ _ rfl
    exact ⟨by rw [hwrite, List.append_nil], rfl, rfl⟩
  have hplus (hwrite : ∀ proofs, ({ rv with bulletproofsPlus := proofs } : RctSignatures).writeRangeProofs =
        (if rv.ty = .bulletproof then leBytes 4 proofs.length else writeVarint proofs.length) ++
          proofs.flatMap writeBulletproofPlus) :
      Rereads (readProofCount rv.ty outputs >>= fun nbp => readMany readBulletproofPlus nbp >>= fun proofs =>
        if totalMaxAmounts (proofs.map (·.l)) < outputs then
          throw (.limitExceeded "n_bulletproof_plus_max_amounts < outputs")
        else pure { rv with bulletproofsPlus := proofs }) fun rv' bs =>
          bs = rv'.writeRangeProofs ∧ rv'.ty = rv.ty ∧ rv'.writeBase = rv.writeBase := by
    refine (rereads_proofCount rv.ty outputs).bind fun nbp => ?_
    refine (rereads_many rereads_bulletproofPlus nbp).bind fun proofs => rereads_guard fun _ => rereads_pure ?_
    rintro _ ⟨rfl, rfl⟩ _ rfl
    exact ⟨by rw [hwrite, List.append_nil], rfl, rfl⟩
  obtain ⟨ty, fee, pseudo, ecdh, outPk, sigs, bps, bpps, mgs, clsags, pseudoOuts⟩ := rv
  cases ty with
  | null => exact rereads_pure ⟨rfl, rfl, rfl⟩
  | full | simple =>
      refine (rereads_many rereads_rangeSig outputs).map ?_
      rintro sigs _ ⟨rfl, -⟩
      exact ⟨rfl, rfl, rfl⟩
  | fullBulletproof | simpleBulletproof =>
      refine (rereads_many rereads_bulletproof outputs).map ?_
      rintro proofs _ ⟨rfl, -⟩
      exact ⟨rfl, rfl, rfl⟩
  | bulletproof | bulletproof2 | clsag => exact hproofs fun _ => rfl
  | bulletproofPlus | bulletproofPlusFullCommit => exact hplus fun _ => rfl

/-- The ring signatures fill in their own fields. -/
theorem rereads_ringSigs (rv : RctSignatures) (inputs mixin : Nat) :
    Rereads (rv.readRingSigs inputs mixin) fun rv' bs =>
      (rv.ty.isNull = false →
        bs = if rv'.ty.isClsag then rv'.clsags.flatMap writeClsag else rv'.mgs.flatMap writeMgSig) ∧
      rv'.ty = rv.ty ∧ rv'.writeBase = rv.writeBase ∧ rv'.writeRangeProofs = rv.writeRangeProofs := by
  unfold RctSignatures.readRingSigs
  split_ifs with hclsag hnull
  · refine (rereads_many (rereads_clsag mixin) inputs).map ?_
    rintro clsags _ ⟨rfl, -⟩
    exact ⟨fun _ => (if_pos hclsag).symm, rfl, rfl, rfl⟩
  · refine rereads_pure ⟨?_, rfl, rfl, rfl⟩
    intro h
    simp [h] at hnull
  · refine (rereads_many (rereads_mgSig _ mixin) _).map ?_
    rintro mgs _ ⟨rfl, -⟩
    exact ⟨fun _ => (if_neg hclsag).symm, rfl, rfl, rfl⟩

/-- The inputs' commitments stand behind everything else in the prunable half. -/
theorem RctSignatures.writePrunable_of (rv : RctSignatures) (hnull : rv.ty.isNull = false) :
    rv.writePrunable = rv.writeRangeProofs ++
      ((if rv.ty.isClsag then rv.clsags.flatMap writeClsag else rv.mgs.flatMap writeMgSig) ++
        if rv.ty.hasPrunablePseudoOuts then writeArrays rv.pseudoOuts else []) := by
  simp [RctSignatures.writePrunable, hnull]

theorem RctSignatures.writeRangeProofs_pseudoOuts (rv : RctSignatures) (pseudoOuts : List EcPoint) :
    ({ rv with pseudoOuts := pseudoOuts } : RctSignatures).writeRangeProofs = rv.writeRangeProofs := by
  obtain ⟨ty, fee, pseudo, ecdh, outPk, sigs, bps, bpps, mgs, clsags, outs⟩ := rv
  cases ty <;> rfl

theorem rereads_prunable (rv : RctSignatures) (hnull : rv.ty.isNull = false) (inputs outputs mixin : Nat) :
    Rereads (rv.readPrunable inputs outputs mixin) fun rv' bs =>
      bs = rv'.writePrunable ∧ rv'.ty = rv.ty ∧ rv'.writeBase = rv.writeBase := by
  unfold RctSignatures.readPrunable
  refine (rereads_rangeProofs rv outputs).bind fun rv₁ => ?_
  refine (rereads_ringSigs rv₁ inputs mixin).bind fun rv₂ => ?_
  by_cases hpseudo : rv₂.ty.hasPrunablePseudoOuts = true
  · rw [if_pos hpseudo]
    refine (rereads_arrays inputs).map ?_
    rintro pseudoOuts _ ⟨rfl, -⟩ sigs ⟨hsigs, hty₂, hbase₂, hproofs₂⟩ _ ⟨rfl, hty₁, hbase₁⟩
    refine ⟨?_, hty₂.trans hty₁, hbase₂.trans hbase₁⟩
    have hty : rv₂.ty.isNull = false := by rw [hty₂, hty₁, hnull]
    have hwritten := RctSignatures.writePrunable_of { rv₂ with pseudoOuts := pseudoOuts } hty
    rw [RctSignatures.writeRangeProofs_pseudoOuts, hproofs₂, if_pos hpseudo,
      ← hsigs (by rw [hty₁, hnull])] at hwritten
    exact hwritten.symm
  · rw [if_neg hpseudo]
    refine rereads_pure ?_
    rintro sigs ⟨hsigs, hty₂, hbase₂, hproofs₂⟩ _ ⟨rfl, hty₁, hbase₁⟩
    refine ⟨?_, hty₂.trans hty₁, hbase₂.trans hbase₁⟩
    have hty : rv₂.ty.isNull = false := by rw [hty₂, hty₁, hnull]
    rw [RctSignatures.writePrunable_of rv₂ hty, if_neg hpseudo, hproofs₂, hsigs (by rw [hty₁, hnull])]

/-! ### The transaction -/

/-- The transaction with its two regions measured on the bytes it is written as. -/
def Transaction.measured (tx : Transaction) : Transaction :=
  { tx with
    prefixSize := tx.txPrefix.write.length
    unprunableSize := tx.txPrefix.write.length +
      if tx.txPrefix.version = 1 ∨ tx.txPrefix.vin.isEmpty then 0
      else tx.rctSignatures.writeBase.length }

/-- **A transaction reads back**, whatever it was read from. -/
theorem Transaction.reread {r r' : Reader} {tx : Transaction} (h : Transaction.read r = .ok (tx, r')) :
    Reads Transaction.read tx.write tx.measured := by
  unfold Transaction.read at h
  obtain ⟨start, r₀, hpos, h⟩ := run_bind_eq_ok.mp h
  cases hpos
  obtain ⟨p, r₁, hpre, h⟩ := run_bind_eq_ok.mp h
  have hreads := TransactionPrefix.reads (TransactionPrefix.finds _ _ _ hpre)
  obtain ⟨here, r₂, hpos, h⟩ := run_bind_eq_ok.mp h
  cases hpos
  have hat (cs rest : Blob) (start : Nat) :
      TransactionPrefix.read ⟨p.write ++ cs ++ rest, start⟩ =
        .ok (p, ⟨cs ++ rest, start + p.write.length⟩) := by
    rw [List.append_assoc]
    exact hreads (cs ++ rest) start
  intro rest start
  unfold Transaction.read
  rw [run_bind (run_pos _)]
  by_cases hone : p.version = 1
  · rw [if_pos hone] at h
    obtain ⟨signatures, r₃, hsigs, h⟩ := run_bind_eq_ok.mp h
    cases h
    obtain ⟨_, hreadsSigs, rfl⟩ := rereads_mapM (fun row => row.flatMap Signature.toBytes)
      (fun input : TxIn => (rereads_many rereads_signature input.signatureSize).imp fun _ _ h => h.1)
      p.vin _ _ _ hsigs
    simp only [Transaction.write, if_pos hone]
    rw [run_bind (hat _ rest start), run_bind (run_pos _), if_pos hone,
      run_bind (hreadsSigs rest (start + p.write.length))]
    simp [run_pure, Transaction.measured, hone, Nat.add_assoc]
  by_cases hempty : p.vin.isEmpty = true
  · rw [if_neg hone, if_pos hempty] at h
    cases h
    simp only [Transaction.write, if_neg hone, if_pos hempty]
    rw [run_bind (hat _ rest start), run_bind (run_pos _), if_neg hone, if_pos hempty]
    simp [run_pure, Transaction.measured, hempty]
  · rw [if_neg hone, if_neg hempty] at h
    simp only at h
    split_ifs at h with hdim
    · cases h
    obtain ⟨base, r₃, hbase, h⟩ := run_bind_eq_ok.mp h
    obtain ⟨_, hreadsBase, rfl⟩ := rereads_base _ _ _ _ _ hbase
    obtain ⟨here, r₄, hpos, h⟩ := run_bind_eq_ok.mp h
    cases hpos
    by_cases hnull : base.ty.isNull = true
    · rw [if_pos hnull] at h
      cases h
      simp only [Transaction.write, if_neg hone, if_neg hempty, if_pos hnull, List.append_nil]
      rw [run_bind (hat _ rest start), run_bind (run_pos _), if_neg hone, if_neg hempty]
      simp only
      rw [if_neg hdim, run_bind (hreadsBase rest (start + p.write.length)), run_bind (run_pos _), if_pos hnull]
      simp [run_pure, Transaction.measured, hone, hempty, Nat.add_assoc]
    · rw [if_neg hnull] at h
      obtain ⟨rv, r₅, hrv, h⟩ := run_bind_eq_ok.mp h
      cases h
      have hnull' : base.ty.isNull = false := by simpa using hnull
      obtain ⟨_, hreadsRv, rfl, hty, hbase'⟩ := rereads_prunable base hnull' _ _ _ _ _ _ hrv
      have hnullRv : ¬rv.ty.isNull = true := by rw [hty]; exact hnull
      simp only [Transaction.write, if_neg hone, if_neg hempty, if_neg hnullRv, hbase']
      rw [run_bind (hat _ rest start), run_bind (run_pos _), if_neg hone, if_neg hempty]
      simp only
      rw [if_neg hdim, List.append_assoc, run_bind (hreadsBase _ (start + p.write.length)),
        run_bind (run_pos _), if_neg hnull, run_bind (hreadsRv rest _)]
      simp [run_pure, Transaction.measured, hone, hempty, hbase', Nat.add_assoc]

end Wownero

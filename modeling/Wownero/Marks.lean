import Wownero.Framed
/-!
# Marks of spending

Every operation that marks an output spent, or takes the mark back, finds the output by its key
image.  Where the index is right, each is a map over the wallet's outputs: what it does to one is
decided by that output alone.
-/

namespace Wownero

/-- Whether the image of an output is among these. -/
def Transfer.namedIn (t : Transfer) (images : List KeyImage) : Bool := t.keyImage.any images.contains

theorem Transfer.namedIn_iff {t : Transfer} {images : List KeyImage} :
    t.namedIn images = true ↔ ∃ k, t.keyImage = some k ∧ k ∈ images := by
  rw [namedIn, Option.any_eq_true]
  simp only [List.contains_iff_mem]

/-- An output changed if its image is among these. -/
def Transfer.markIn (f : Transfer → Transfer) (images : List KeyImage) (t : Transfer) : Transfer :=
  if t.namedIn images = true then f t else t

theorem Transfer.markIn_of_named {f : Transfer → Transfer} {images : List KeyImage} {t : Transfer}
    (h : t.namedIn images = true) : t.markIn f images = f t := if_pos h

theorem Transfer.markIn_of_not {f : Transfer → Transfer} {images : List KeyImage} {t : Transfer}
    (h : ¬ t.namedIn images = true) : t.markIn f images = t := if_neg h

namespace WalletState

/-! ### The indexes -/

/-- Every key has one image, and no two keys share theirs. -/
def Apart (image : PublicKey → Option KeyImage) : Prop :=
  ∀ p q k, image p = some k → image q = some k → p = q

/-- The wallet holds one output for a key, under the image of that key, and its indexes say where. -/
structure Indexed (image : PublicKey → Option KeyImage) (w : WalletState) : Prop where
  images : ∀ t ∈ w.transfers, t.keyImage = image t.publicKey
  distinct : (w.transfers.map (·.publicKey)).Nodup
  byImage : ∀ k i, w.byKeyImage.lookup k = some i ↔
    ∃ t, w.transfers[i]? = some t ∧ t.keyImage = some k
  byKey : ∀ p i, w.byPublicKey.lookup p = some i ↔
    ∃ t, w.transfers[i]? = some t ∧ t.publicKey = p

/-- A change of an output that leaves its key and its image. -/
structure Keeps (f : Transfer → Transfer) : Prop where
  keyImage : ∀ t, (f t).keyImage = t.keyImage
  publicKey : ∀ t, (f t).publicKey = t.publicKey

theorem keeps_setSpent (spent : Bool) : Keeps (setSpent spent) := by
  constructor <;> intro t <;> unfold setSpent <;> repeat' split
  all_goals rfl

theorem keeps_spendAt (height : Nat) : Keeps (spendAt height) := by
  constructor <;> intro t <;> unfold spendAt <;> split <;> rfl

theorem Keeps.markIn {f : Transfer → Transfer} (h : Keeps f) (images : List KeyImage) :
    Keeps (Transfer.markIn f images) := by
  constructor <;> intro t <;> unfold Transfer.markIn <;> split
  · exact h.keyImage t
  · rfl
  · exact h.publicKey t
  · rfl

variable {image : PublicKey → Option KeyImage}

/-- What the indexes are about. -/
def keysOf (t : Transfer) : PublicKey × Option KeyImage := (t.publicKey, t.keyImage)

/-- Outputs with the same keys at the same places are indexed the same way. -/
theorem Indexed.of_keys {w w' : WalletState} (h : w.Indexed image)
    (hkeys : w'.transfers.map keysOf = w.transfers.map keysOf)
    (hbyImage : w'.byKeyImage = w.byKeyImage) (hbyKey : w'.byPublicKey = w.byPublicKey) :
    w'.Indexed image := by
  have hat (i : Nat) : (w'.transfers[i]?).map keysOf = (w.transfers[i]?).map keysOf := by
    rw [← List.getElem?_map, hkeys, List.getElem?_map]
  have hto {i : Nat} {t : Transfer} (hget : w.transfers[i]? = some t) :
      ∃ t', w'.transfers[i]? = some t' ∧ keysOf t' = keysOf t := by
    have := hat i
    rw [hget, Option.map_some, Option.map_eq_some_iff] at this
    exact this
  have hfrom {i : Nat} {t' : Transfer} (hget : w'.transfers[i]? = some t') :
      ∃ t, w.transfers[i]? = some t ∧ keysOf t = keysOf t' := by
    have := (hat i).symm
    rw [hget, Option.map_some, Option.map_eq_some_iff] at this
    exact this
  refine ⟨?_, ?_, ?_, ?_⟩
  · intro t ht
    obtain ⟨i, hget⟩ := List.mem_iff_getElem?.mp ht
    obtain ⟨t₀, hget₀, hsame⟩ := hfrom hget
    obtain ⟨hpub, himg⟩ := Prod.mk.inj hsame
    rw [← hpub, ← himg]
    exact h.images t₀ (List.mem_of_getElem? hget₀)
  · have hpub : w'.transfers.map (·.publicKey) = w.transfers.map (·.publicKey) := by
      have := congrArg (List.map Prod.fst) hkeys
      rwa [List.map_map, List.map_map] at this
    rw [hpub]
    exact h.distinct
  · intro k i
    rw [hbyImage, h.byImage]
    constructor
    · rintro ⟨t, hget, hkey⟩
      obtain ⟨t', hget', hsame⟩ := hto hget
      exact ⟨t', hget', (Prod.mk.inj hsame).2.trans hkey⟩
    · rintro ⟨t', hget', hkey⟩
      obtain ⟨t, hget, hsame⟩ := hfrom hget'
      exact ⟨t, hget, (Prod.mk.inj hsame).2.trans hkey⟩
  · intro p i
    rw [hbyKey, h.byKey]
    constructor
    · rintro ⟨t, hget, hkey⟩
      obtain ⟨t', hget', hsame⟩ := hto hget
      exact ⟨t', hget', (Prod.mk.inj hsame).1.trans hkey⟩
    · rintro ⟨t', hget', hkey⟩
      obtain ⟨t, hget, hsame⟩ := hfrom hget'
      exact ⟨t, hget, (Prod.mk.inj hsame).1.trans hkey⟩

theorem Indexed.map {w w' : WalletState} (h : w.Indexed image) {f : Transfer → Transfer}
    (hf : Keeps f) (htransfers : w'.transfers = w.transfers.map f)
    (hbyImage : w'.byKeyImage = w.byKeyImage) (hbyKey : w'.byPublicKey = w.byPublicKey) :
    w'.Indexed image := by
  refine h.of_keys ?_ hbyImage hbyKey
  rw [htransfers, List.map_map]
  apply List.map_congr_left
  intro t _
  rw [Function.comp_apply, keysOf, keysOf, hf.publicKey, hf.keyImage]

/-- No two places hold the same key. -/
theorem Indexed.eq_of_publicKey {w : WalletState} (h : w.Indexed image) {i j : Nat} {t t' : Transfer}
    (hi : w.transfers[i]? = some t) (hj : w.transfers[j]? = some t')
    (hsame : t.publicKey = t'.publicKey) : i = j := by
  have hfirst := (h.byKey t.publicKey i).mpr ⟨t, hi, rfl⟩
  have hsecond := (h.byKey t.publicKey j).mpr ⟨t', hj, hsame.symm⟩
  rw [hfirst, Option.some.injEq] at hsecond
  exact hsecond

/-- The output an image names, changed in place. -/
theorem Indexed.modify_eq_map {w : WalletState} (h : w.Indexed image) {k : KeyImage} {i : Nat}
    (hi : w.byKeyImage.lookup k = some i) (f : Transfer → Transfer) :
    w.transfers.modify i f = w.transfers.map (Transfer.markIn f [k]) := by
  apply List.ext_getElem?
  intro j
  rw [List.getElem?_modify, List.getElem?_map]
  cases hget : w.transfers[j]? with
  | none => rfl
  | some t =>
      have hiff : i = j ↔ t.namedIn [k] = true := by
        rw [Transfer.namedIn_iff]
        constructor
        · rintro rfl
          obtain ⟨t', hget', hkey⟩ := (h.byImage k i).mp hi
          rw [hget', Option.some.injEq] at hget
          exact ⟨k, hget ▸ hkey, List.mem_singleton_self k⟩
        · rintro ⟨k', hkey, hmem⟩
          obtain rfl := List.mem_singleton.mp hmem
          have := (h.byImage k' j).mpr ⟨t, hget, hkey⟩
          rw [hi, Option.some.injEq] at this
          exact this
      simp only [Option.map_eq_map, Option.map_some, Transfer.markIn]
      by_cases hij : i = j
      · rw [if_pos hij, if_pos (hiff.mp hij)]
      · rw [if_neg hij, if_neg (fun hn => hij (hiff.mpr hn))]

/-- One image looked up and the output it names changed. -/
def markImage (f : Transfer → Transfer) (w : WalletState) (k : KeyImage) : WalletState :=
  match w.byKeyImage.lookup k with
  | none => w
  | some i => w.modifyTransfer i f

theorem Indexed.markImage_eq {w : WalletState} (h : w.Indexed image) (f : Transfer → Transfer)
    (k : KeyImage) :
    markImage f w k = { w with transfers := w.transfers.map (Transfer.markIn f [k]) } := by
  unfold markImage
  split
  · rename_i hnone
    have hid : w.transfers.map (Transfer.markIn f [k]) = w.transfers := by
      conv_rhs => rw [← List.map_id w.transfers]
      apply List.map_congr_left
      intro t ht
      rw [Transfer.markIn, if_neg, id]
      intro hnamed
      obtain ⟨k', hkey, hmem⟩ := Transfer.namedIn_iff.mp hnamed
      obtain rfl := List.mem_singleton.mp hmem
      obtain ⟨i, hget⟩ := List.mem_iff_getElem?.mp ht
      rw [(h.byImage k' i).mpr ⟨t, hget, hkey⟩] at hnone
      cases hnone
    rw [hid]
  · rename_i i hi
    unfold modifyTransfer
    rw [h.modify_eq_map hi]

/-- Images looked up one after another: a map over the outputs they name. -/
theorem Indexed.foldl_markImage {w : WalletState} (h : w.Indexed image) {f : Transfer → Transfer}
    (hf : Keeps f) (hidem : ∀ t, f (f t) = f t) (images : List KeyImage) :
    images.foldl (markImage f) w =
      { w with transfers := w.transfers.map (Transfer.markIn f images) } := by
  induction images generalizing w with
  | nil =>
      have hid : w.transfers.map (Transfer.markIn f []) = w.transfers := by
        conv_rhs => rw [← List.map_id w.transfers]
        apply List.map_congr_left
        intro t _
        rw [Transfer.markIn, if_neg, id]
        intro hnamed
        obtain ⟨k, -, hmem⟩ := Transfer.namedIn_iff.mp hnamed
        cases hmem
      rw [List.foldl_nil, hid]
  | cons k images ih =>
      have hnext : Indexed image { w with transfers := w.transfers.map (Transfer.markIn f [k]) } :=
        h.map (hf.markIn [k]) rfl rfl rfl
      rw [List.foldl_cons, h.markImage_eq, ih hnext]
      simp only [List.map_map]
      congr 1
      apply List.map_congr_left
      intro t _
      have hcons : t.namedIn (k :: images) = (t.namedIn [k] || t.namedIn images) := by
        rw [Bool.eq_iff_iff, Bool.or_eq_true]
        simp only [Transfer.namedIn_iff, List.mem_cons, List.not_mem_nil, or_false]
        constructor
        · rintro ⟨k', hkey, rfl | hmem⟩
          · exact .inl ⟨_, hkey, rfl⟩
          · exact .inr ⟨k', hkey, hmem⟩
        · rintro (⟨k', hkey, rfl⟩ | ⟨k', hkey, hmem⟩)
          · exact ⟨_, hkey, .inl rfl⟩
          · exact ⟨k', hkey, .inr hmem⟩
      have hsame : (f t).namedIn images = t.namedIn images := by
        rw [Transfer.namedIn, hf.keyImage, Transfer.namedIn]
      rw [Function.comp_apply]
      by_cases hk : t.namedIn [k] = true
      · have hall : t.namedIn (k :: images) = true := by rw [hcons, hk, Bool.true_or]
        rw [Transfer.markIn_of_named hk, Transfer.markIn_of_named hall]
        by_cases himages : t.namedIn images = true
        · rw [Transfer.markIn_of_named (by rw [hsame, himages]), hidem]
        · rw [Transfer.markIn_of_not (by rwa [hsame])]
      · rw [Transfer.markIn_of_not hk, Transfer.markIn, Transfer.markIn, hcons,
          Bool.eq_false_iff.mpr hk, Bool.false_or]

theorem setSpent_idem (spent : Bool) (t : Transfer) :
    setSpent spent (setSpent spent t) = setSpent spent t := by
  unfold setSpent
  cases spent <;> cases hspent : t.spent <;> cases hheight : t.spentHeight == 0 <;>
    simp [hspent, hheight]

theorem spendAt_idem (height : Nat) (t : Transfer) :
    spendAt height (spendAt height t) = spendAt height t := by
  unfold spendAt
  by_cases hopen : (!t.spent || t.spentHeight == 0) = true
  · simp [hopen]
  · rw [if_neg hopen, if_neg hopen]

theorem Indexed.setInputsSpent_eq {w : WalletState} (h : w.Indexed image) (images : List KeyImage)
    (spent : Bool) : w.setInputsSpent images spent =
      { w with transfers := w.transfers.map (Transfer.markIn (setSpent spent) images) } :=
  h.foldl_markImage (keeps_setSpent spent) (setSpent_idem spent) images

theorem Indexed.spendInputs_eq {w : WalletState} (h : w.Indexed image) (images : List KeyImage)
    (height : Nat) : w.spendInputs height images =
      { w with transfers := w.transfers.map (Transfer.markIn (spendAt height) images) } :=
  h.foldl_markImage (keeps_spendAt height) (spendAt_idem height) images

/-! ### Rebuilding the indexes -/

theorem lookup_eq_some_iff_mem {l : List (Bytes32 × Nat)} {k : Bytes32} {i : Nat}
    (h : ∀ j, (k, j) ∈ l → j = i) : l.lookup k = some i ↔ (k, i) ∈ l := by
  induction l with
  | nil => simp
  | cons p l ih =>
      obtain ⟨k', j⟩ := p
      rw [List.lookup_cons]
      by_cases hk : k = k'
      · subst hk
        have hj := h j List.mem_cons_self
        simp [hj]
      · have hbeq : (k == k') = false := beq_false_of_ne hk
        rw [hbeq]
        simp only [List.mem_cons, Prod.mk.injEq, hk, false_and, false_or]
        exact ih fun j hj => h j (List.mem_cons_of_mem _ hj)

/-- An index built output by output holds every one of them. -/
theorem mem_foldl_index {g : Transfer → Option Bytes32} (l : List (Transfer × Nat))
    (acc : List (Bytes32 × Nat)) (row : Bytes32 × Nat) :
    row ∈ l.foldl (fun index p => match g p.1 with
        | some k => (k, p.2) :: index
        | none => index) acc ↔
      row ∈ acc ∨ ∃ p ∈ l, g p.1 = some row.1 ∧ p.2 = row.2 := by
  induction l generalizing acc with
  | nil => simp
  | cons p l ih =>
      rw [List.foldl_cons, ih]
      cases hg : g p.1 with
      | none => simp [hg]
      | some k =>
          obtain ⟨k', i⟩ := row
          simp only [List.mem_cons, Prod.mk.injEq, exists_eq_or_imp, hg, Option.some.injEq]
          constructor
          · rintro ((⟨rfl, rfl⟩ | hacc) | hrest)
            · exact .inr (.inl ⟨rfl, rfl⟩)
            · exact .inl hacc
            · exact .inr (.inr hrest)
          · rintro (hacc | ⟨rfl, rfl⟩ | hrest)
            · exact .inl (.inr hacc)
            · exact .inl (.inl ⟨rfl, rfl⟩)
            · exact .inr hrest

theorem lookup_foldl_index (g : Transfer → Option Bytes32) {transfers : List Transfer}
    (hg : ∀ (i j : Nat) t t' k, transfers[i]? = some t → transfers[j]? = some t' → g t = some k →
      g t' = some k → i = j) (k : Bytes32) (i : Nat) :
    (transfers.zipIdx.foldl (fun index p => match g p.1 with
        | some k => (k, p.2) :: index
        | none => index) []).lookup k = some i ↔ ∃ t, transfers[i]? = some t ∧ g t = some k := by
  have hmem (j : Nat) : (k, j) ∈ transfers.zipIdx.foldl (fun index p => match g p.1 with
        | some k => (k, p.2) :: index
        | none => index) [] ↔ ∃ t, transfers[j]? = some t ∧ g t = some k := by
    rw [mem_foldl_index]
    simp only [List.not_mem_nil, false_or, Prod.exists, List.mem_zipIdx_iff_getElem?]
    constructor
    · rintro ⟨t, n, hget, hkey, rfl⟩
      exact ⟨t, hget, hkey⟩
    · rintro ⟨t, hget, hkey⟩
      exact ⟨t, j, hget, hkey, rfl⟩
  constructor
  · intro h
    obtain ⟨l₁, l₂, heq, -⟩ := List.lookup_eq_some_iff.mp h
    rw [← hmem i, heq]
    simp
  · rintro ⟨t, hget, hkey⟩
    rw [lookup_eq_some_iff_mem, hmem]
    · exact ⟨t, hget, hkey⟩
    · intro j hj
      obtain ⟨t', hget', hkey'⟩ := (hmem j).mp hj
      exact hg j i t' t k hget' hget hkey' hkey

/-- Indexes built from outputs with distinct keys are right. -/
theorem indexed_reindex (hapart : Apart image) {w : WalletState}
    (himages : ∀ t ∈ w.transfers, t.keyImage = image t.publicKey)
    (hdistinct : (w.transfers.map (·.publicKey)).Nodup) : w.reindex.Indexed image := by
  have hplace (i j : Nat) (t t' : Transfer) (hi : w.transfers[i]? = some t)
      (hj : w.transfers[j]? = some t') (hsame : t.publicKey = t'.publicKey) : i = j := by
    have hlt := (List.getElem?_eq_some_iff.mp hi).1
    refine (List.getElem?_inj (by rwa [List.length_map]) hdistinct).mp ?_
    rw [List.getElem?_map, List.getElem?_map, hi, hj, Option.map_some, Option.map_some, hsame]
  refine ⟨himages, hdistinct, ?_, ?_⟩
  · intro k i
    refine lookup_foldl_index (fun t => t.keyImage) ?_ k i
    intro i j t t' k hi hj hk hk'
    apply hplace i j t t' hi hj
    apply hapart _ _ k
    · rw [← himages t (List.mem_of_getElem? hi), hk]
    · rw [← himages t' (List.mem_of_getElem? hj), hk']
  · intro p i
    have hkey : (w.transfers.zipIdx.foldl (fun index p => (p.1.publicKey, p.2) :: index) []).lookup
        p = some i ↔ ∃ t, w.transfers[i]? = some t ∧ some t.publicKey = some p := by
      refine lookup_foldl_index (fun t => some t.publicKey) ?_ p i
      intro i j t t' k hi hj hk hk'
      exact hplace i j t t' hi hj (by rw [Option.some.inj hk, Option.some.inj hk'])
    simp only [Option.some.injEq] at hkey
    exact hkey

/-! ### An output added -/

/-- The key of an output is looked up where an output with it is held, and in vain where none is. -/
structure KeysFound (w : WalletState) : Prop where
  found : ∀ p i, w.byPublicKey.lookup p = some i → ∃ t, w.transfers[i]? = some t ∧ t.publicKey = p
  missing : ∀ p, w.byPublicKey.lookup p = none → ∀ t ∈ w.transfers, t.publicKey ≠ p

theorem Indexed.keysFound {w : WalletState} (h : w.Indexed image) : w.KeysFound where
  found p i hlook := (h.byKey p i).mp hlook
  missing p hlook := by
    intro t ht hkey
    rcases List.mem_iff_getElem?.mp ht with ⟨i, hget⟩
    have := (h.byKey p i).mpr ⟨t, hget, hkey⟩
    simp [hlook] at this

end WalletState

/-- What an output that gives way to a larger one with its key leaves to it. -/
def Transfer.giveWay (held t : Transfer) : Transfer :=
  { t with
    keyImage := held.keyImage.orElse fun _ => t.keyImage
    keyImageRequest := (held.keyImage.orElse fun _ => t.keyImage).isNone
    frozen := held.frozen }

namespace WalletState

/-- One more output on the end. -/
def fileTransfer (w : WalletState) (t : Transfer) : WalletState :=
  { w with
    transfers := w.transfers ++ [t]
    byKeyImage := match t.keyImage with
      | some k => (k, w.transfers.length) :: w.byKeyImage
      | none => w.byKeyImage
    byPublicKey := (t.publicKey, w.transfers.length) :: w.byPublicKey }

/-- What recording an output does to the outputs held: nothing, a smaller one with its key replaced,
    or one more. -/
theorem addTransfer_cases {w : WalletState} (h : w.KeysFound) (t : Transfer) :
    (∃ (i : Nat) (held : Transfer), w.transfers[i]? = some held ∧ held.publicKey = t.publicKey ∧
      (held.spent = true ∨ t.amount ≤ held.amount) ∧ w.addTransfer t = (.ignored, w)) ∨
    (∃ (i : Nat) (held : Transfer), w.transfers[i]? = some held ∧
      w.byPublicKey.lookup t.publicKey = some i ∧ held.publicKey = t.publicKey ∧
      (held.spent = false ∧ held.amount < t.amount) ∧
      w.addTransfer t = (.replaced held.amount, w.modifyTransfer i fun _ => held.giveWay t)) ∨
    ((∀ held ∈ w.transfers, held.publicKey ≠ t.publicKey) ∧
      w.addTransfer t = (.new, w.fileTransfer t)) := by
  unfold addTransfer
  cases hlook : w.byPublicKey.lookup t.publicKey with
  | none => exact .inr (.inr ⟨h.missing _ hlook, rfl⟩)
  | some i =>
      obtain ⟨held, hget, hsame⟩ := h.found _ _ hlook
      simp only [Option.bind_some, hget, Option.map_some]
      by_cases hno : (held.spent || decide (held.amount ≥ t.amount)) = true
      · exact .inl ⟨i, held, hget, hsame, by simpa using hno, if_pos hno⟩
      · exact .inr (.inl ⟨i, held, hget, rfl, hsame, by simpa using hno, if_neg hno⟩)

/-- What recording an output does to the wallet: nothing, an output replaced by a larger one of the
    same key, or one more. -/
theorem Indexed.addTransfer_cases {w : WalletState} (h : w.Indexed image) (t : Transfer) :
    (∃ i held, w.transfers[i]? = some held ∧ held.publicKey = t.publicKey ∧
      ((held.spent = true ∨ t.amount ≤ held.amount) ∧ w.addTransfer t = (.ignored, w) ∨
        held.spent = false ∧ held.amount < t.amount ∧ w.addTransfer t = (.replaced held.amount,
          w.modifyTransfer i fun _ => { t with
            keyImage := held.keyImage.orElse fun _ => t.keyImage
            keyImageRequest := (held.keyImage.orElse fun _ => t.keyImage).isNone
            frozen := held.frozen }))) ∨
    (∀ held ∈ w.transfers, held.publicKey ≠ t.publicKey) ∧ w.addTransfer t = (.new,
      { w with
        transfers := w.transfers ++ [t]
        byKeyImage := match t.keyImage with
          | some k => (k, w.transfers.length) :: w.byKeyImage
          | none => w.byKeyImage
        byPublicKey := (t.publicKey, w.transfers.length) :: w.byPublicKey }) := by
  rcases WalletState.addTransfer_cases h.keysFound t with
    ⟨i, held, hget, hsame, hno, heq⟩ | ⟨i, held, hget, -, hsame, ⟨hspent, hless⟩, heq⟩ | ⟨hnew, heq⟩
  · exact .inl ⟨i, held, hget, hsame, .inl ⟨hno, heq⟩⟩
  · exact .inl ⟨i, held, hget, hsame, .inr ⟨hspent, hless, heq⟩⟩
  · exact .inr ⟨hnew, heq⟩

/-- The indexes stay right when an output is recorded under the image of its key. -/
theorem Indexed.addTransfer (hapart : Apart image) {w : WalletState} (h : w.Indexed image)
    {t : Transfer} (ht : t.keyImage = image t.publicKey) : (w.addTransfer t).2.Indexed image := by
  rcases h.addTransfer_cases t with ⟨i, held, hget, hsame, ⟨-, heq⟩ | ⟨-, -, heq⟩⟩ | ⟨hnew, heq⟩
  · rw [heq]
    exact h
  · rw [heq]
    refine h.of_keys ?_ rfl rfl
    apply List.ext_getElem?
    intro j
    simp only [modifyTransfer, List.getElem?_map, List.getElem?_modify]
    by_cases hij : i = j
    · subst hij
      have himage : held.keyImage.orElse (fun _ => t.keyImage) = held.keyImage := by
        have hheld := h.images held (List.mem_of_getElem? hget)
        rw [hheld, hsame, ← ht]
        cases t.keyImage <;> rfl
      simp only [if_true, hget, Option.map_eq_map, Option.map_some, keysOf, himage, hsame]
    · simp only [hij, if_false, Option.map_eq_map, Option.map_id_fun', id_eq]
  · rw [heq]
    have hpast (j : Nat) (t' : Transfer) : (w.transfers ++ [t])[j]? = some t' ↔
        w.transfers[j]? = some t' ∨ j = w.transfers.length ∧ t' = t := by
      rcases Nat.lt_trichotomy j w.transfers.length with hlt | rfl | hgt
      · rw [List.getElem?_append_left hlt]
        constructor
        · exact .inl
        · rintro (hold | ⟨rfl, -⟩)
          · exact hold
          · omega
      · rw [List.getElem?_append_right (Nat.le_refl _), Nat.sub_self, List.getElem?_cons_zero,
          List.getElem?_eq_none (Nat.le_refl _)]
        simp [eq_comm]
      · rw [List.getElem?_append_right (by omega), List.getElem?_eq_none (by simp; omega),
          List.getElem?_eq_none (by omega)]
        simp
        omega
    refine ⟨?_, ?_, ?_, ?_⟩
    · intro t' ht'
      rcases List.mem_append.mp ht' with hold | hone
      · exact h.images t' hold
      · rw [List.mem_singleton.mp hone, ht]
    · rw [List.map_append, List.nodup_append]
      refine ⟨h.distinct, by simp, ?_⟩
      intro p hp q hq
      obtain ⟨held, hmem, rfl⟩ := List.mem_map.mp hp
      obtain rfl : q = t.publicKey := by simpa using hq
      exact hnew held hmem
    · intro k i
      simp only [hpast, or_and_right, exists_or]
      rw [← h.byImage k i]
      cases himage : t.keyImage with
      | none =>
          constructor
          · exact .inl
          · rintro (hold | ⟨t', ⟨rfl, rfl⟩, hk⟩)
            · exact hold
            · rw [himage] at hk
              cases hk
      | some k' =>
          simp only [List.lookup_cons]
          by_cases hk : k = k'
          · subst hk
            -- No output held before has this image: it would have the same key.
            have hfree : w.byKeyImage.lookup k = none := by
              rw [Option.eq_none_iff_forall_ne_some]
              intro j hj
              obtain ⟨held, hget, hkey⟩ := (h.byImage k j).mp hj
              have hmem := List.mem_of_getElem? hget
              refine hnew held hmem (hapart _ _ k ?_ ?_)
              · rw [← h.images held hmem, hkey]
              · rw [← ht, himage]
            rw [beq_self_eq_true, hfree]
            simp only [Option.some.injEq, reduceCtorEq, false_or]
            constructor
            · rintro rfl
              exact ⟨t, ⟨rfl, rfl⟩, himage⟩
            · rintro ⟨t', ⟨rfl, -⟩, -⟩
              rfl
          · rw [beq_false_of_ne hk]
            constructor
            · exact .inl
            · rintro (hold | ⟨t', ⟨rfl, rfl⟩, hkey⟩)
              · exact hold
              · rw [himage, Option.some.injEq] at hkey
                exact absurd hkey.symm hk
    · intro p i
      simp only [hpast, or_and_right, exists_or]
      rw [← h.byKey p i, List.lookup_cons]
      by_cases hp : p = t.publicKey
      · subst hp
        have hfree : w.byPublicKey.lookup t.publicKey = none := by
          rw [Option.eq_none_iff_forall_ne_some]
          intro j hj
          obtain ⟨held, hget, hkey⟩ := (h.byKey t.publicKey j).mp hj
          exact hnew held (List.mem_of_getElem? hget) hkey
        rw [beq_self_eq_true, hfree]
        simp only [Option.some.injEq, reduceCtorEq, false_or]
        constructor
        · rintro rfl
          exact ⟨t, ⟨rfl, rfl⟩, rfl⟩
        · rintro ⟨t', ⟨rfl, -⟩, -⟩
          rfl
      · rw [beq_false_of_ne hp]
        constructor
        · exact .inl
        · rintro (hold | ⟨t', ⟨rfl, rfl⟩, hkey⟩)
          · exact hold
          · exact absurd hkey.symm hp

end WalletState

end Wownero

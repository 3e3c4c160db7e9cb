import Wownero.Replay
/-!
# The lookups of a wallet

A wallet finds its outputs by their keys and by their images.  The lookup of keys is right after
every output recorded.  The lookup of images goes wrong in two ways: a larger output takes the place
of one without an image and brings one, or a new output has the image of another key.
-/

namespace Wownero

open Wownero.Archive

namespace WalletState

/-! ### The lookups -/

/-- Keys are filed where the outputs with them are held. -/
def KeysListed (w : WalletState) : Prop :=
  ∀ p i, w.byPublicKey.lookup p = some i ↔ ∃ t, w.transfers[i]? = some t ∧ t.publicKey = p

/-- Images are filed where the outputs with them are held. -/
def ImagesListed (w : WalletState) : Prop :=
  ∀ k i, w.byKeyImage.lookup k = some i ↔ ∃ t, w.transfers[i]? = some t ∧ t.keyImage = some k

/-- An image that is looked up leads to an output that has it. -/
def ImagesLead (w : WalletState) : Prop :=
  ∀ k i, w.byKeyImage.lookup k = some i → ∃ t, w.transfers[i]? = some t ∧ t.keyImage = some k

/-- An output is held that a lookup of its image does not lead to. -/
def Misfiled (w : WalletState) : Prop :=
  ∃ (i : Nat) (t : Transfer) (k : KeyImage), w.transfers[i]? = some t ∧ t.keyImage = some k ∧
    w.byKeyImage.lookup k ≠ some i

/-- Recording an output would file an image wrongly: the larger output that takes the place of one
    without an image has one, or a new output has the image of another key. -/
def Misfiles (w : WalletState) (t : Transfer) : Prop :=
  (∃ held ∈ w.transfers, held.publicKey = t.publicKey ∧ held.spent = false ∧ held.amount < t.amount ∧
    held.keyImage = none ∧ t.keyImage ≠ none) ∨
  (∀ held ∈ w.transfers, held.publicKey ≠ t.publicKey) ∧
    ∃ held ∈ w.transfers, ∃ k, held.keyImage = some k ∧ t.keyImage = some k

theorem imagesListed_iff {w : WalletState} : w.ImagesListed ↔ w.ImagesLead ∧ ¬ w.Misfiled := by
  constructor
  · intro h
    refine ⟨fun k i => (h k i).mp, ?_⟩
    rintro ⟨i, t, k, hget, hkey, hlook⟩
    exact hlook ((h k i).mpr ⟨t, hget, hkey⟩)
  · rintro ⟨hlead, hfiled⟩ k i
    refine ⟨hlead k i, ?_⟩
    rintro ⟨t, hget, hkey⟩
    by_contra hlook
    exact hfiled ⟨i, t, k, hget, hkey, hlook⟩

theorem KeysListed.keysFound {w : WalletState} (h : w.KeysListed) : w.KeysFound where
  found p i := (h p i).mp
  missing p hlook := by
    intro t ht hkey
    rcases List.mem_iff_getElem?.mp ht with ⟨i, hget⟩
    have hfiled := (h p i).mpr ⟨t, hget, hkey⟩
    simp [hlook] at hfiled

/-- No two outputs held have one key. -/
theorem KeysListed.distinct {w : WalletState} (h : w.KeysListed) :
    (w.transfers.map (·.publicKey)).Nodup := by
  apply List.nodup_iff_getElem?_ne_getElem?.mpr
  intro i j hij hj hsame
  rw [List.length_map] at hj
  have hi : i < w.transfers.length := by omega
  simp only [List.getElem?_map, List.getElem?_eq_getElem hi, List.getElem?_eq_getElem hj,
    Option.map_some, Option.some.injEq] at hsame
  have hfirst := (h _ i).mpr ⟨_, List.getElem?_eq_getElem hi, hsame⟩
  have hsecond := (h _ j).mpr ⟨_, List.getElem?_eq_getElem hj, rfl⟩
  rw [hfirst, Option.some.injEq] at hsecond
  omega

/-- Outputs with the same keys at the same places are looked up alike. -/
theorem exists_at_of_map {β : Type} {g : Transfer → β} {l l' : List Transfer} (h : l'.map g = l.map g)
    (i : Nat) (b : β) : (∃ t, l'[i]? = some t ∧ g t = b) ↔ ∃ t, l[i]? = some t ∧ g t = b := by
  have hat : (l'[i]?).map g = (l[i]?).map g := by
    rw [← List.getElem?_map, h, List.getElem?_map]
  rw [← Option.map_eq_some_iff, ← Option.map_eq_some_iff, hat]

theorem map_modify_of_same {β : Type} {g : Transfer → β} {l : List Transfer} {i : Nat}
    {f : Transfer → Transfer} (h : ∀ t, l[i]? = some t → g (f t) = g t) :
    (l.modify i f).map g = l.map g := by
  apply List.ext_getElem?
  intro j
  simp only [List.getElem?_map, List.getElem?_modify]
  cases hget : l[j]? with
  | none => rfl
  | some t =>
      by_cases hij : i = j
      · subst hij
        simp [h t hget]
      · simp [hij]

theorem KeysListed.of_map {w w' : WalletState} (h : w.KeysListed)
    (hkeys : w'.transfers.map (·.publicKey) = w.transfers.map (·.publicKey))
    (hindex : w'.byPublicKey = w.byPublicKey) : w'.KeysListed := by
  intro p i
  rw [hindex, h p i]
  exact (exists_at_of_map hkeys i p).symm

theorem ImagesLead.of_map {w w' : WalletState} (h : w.ImagesLead)
    (himages : w'.transfers.map (·.keyImage) = w.transfers.map (·.keyImage))
    (hindex : w'.byKeyImage = w.byKeyImage) : w'.ImagesLead := by
  intro k i hlook
  rw [hindex] at hlook
  exact (exists_at_of_map himages i (some k)).mpr (h k i hlook)

theorem misfiled_iff_of_map {w w' : WalletState}
    (himages : w'.transfers.map (·.keyImage) = w.transfers.map (·.keyImage))
    (hindex : w'.byKeyImage = w.byKeyImage) : w'.Misfiled ↔ w.Misfiled := by
  have hat (i : Nat) (k : KeyImage) := exists_at_of_map himages i (some k)
  simp only [Misfiled, hindex]
  constructor
  · rintro ⟨i, t, k, hget, hkey, hlook⟩
    rcases (hat i k).mp ⟨t, hget, hkey⟩ with ⟨t', hget', hkey'⟩
    exact ⟨i, t', k, hget', hkey', hlook⟩
  · rintro ⟨i, t, k, hget, hkey, hlook⟩
    rcases (hat i k).mpr ⟨t, hget, hkey⟩ with ⟨t', hget', hkey'⟩
    exact ⟨i, t', k, hget', hkey', hlook⟩

/-! ### An output recorded -/

theorem getElem?_append_singleton {l : List Transfer} {t t' : Transfer} {i : Nat} :
    (l ++ [t])[i]? = some t' ↔ l[i]? = some t' ∨ i = l.length ∧ t = t' := by
  rcases Nat.lt_trichotomy i l.length with hlt | rfl | hgt
  · rw [List.getElem?_append_left hlt]
    simp [Nat.ne_of_lt hlt]
  · simp
  · have hnone : l[i]? = none := List.getElem?_eq_none (by omega)
    rw [List.getElem?_append_right (by omega), hnone, List.getElem?_eq_none (by simp; omega)]
    simp
    omega

theorem KeysListed.file {w : WalletState} (h : w.KeysListed) {t : Transfer}
    (hnew : ∀ held ∈ w.transfers, held.publicKey ≠ t.publicKey) : (w.fileTransfer t).KeysListed := by
  intro p i
  simp only [fileTransfer, List.lookup_cons, getElem?_append_singleton]
  by_cases hp : p = t.publicKey
  · subst hp
    simp only [beq_self_eq_true, Option.some.injEq]
    constructor
    · intro hi
      exact ⟨t, .inr ⟨hi.symm, rfl⟩, rfl⟩
    · rintro ⟨t', hget | ⟨hi, -⟩, hkey⟩
      · exact absurd hkey (hnew t' (List.mem_of_getElem? hget))
      · exact hi.symm
  · simp only [beq_false_of_ne hp, h p i]
    constructor
    · rintro ⟨t', hget, hkey⟩
      exact ⟨t', .inl hget, hkey⟩
    · rintro ⟨t', hget | ⟨-, rfl⟩, hkey⟩
      · exact ⟨t', hget, hkey⟩
      · exact absurd hkey.symm hp

/-- Recording an output keeps the keys listed. -/
theorem KeysListed.addTransfer {w : WalletState} (h : w.KeysListed) (t : Transfer) :
    (w.addTransfer t).2.KeysListed := by
  rcases addTransfer_cases h.keysFound t with ⟨i, held, -, -, -, heq⟩ |
    ⟨i, held, hget, -, hsame, -, heq⟩ | ⟨hnew, heq⟩
  · rw [heq]
    exact h
  · rw [heq]
    refine h.of_map (map_modify_of_same ?_) rfl
    intro t' hget'
    obtain rfl : held = t' := Option.some.inj (hget.symm.trans hget')
    exact hsame.symm
  · rw [heq]
    exact h.file hnew

theorem lookup_fileTransfer (w : WalletState) (t : Transfer) (k : KeyImage) :
    (w.fileTransfer t).byKeyImage.lookup k =
      if t.keyImage = some k then some w.transfers.length else w.byKeyImage.lookup k := by
  unfold fileTransfer
  cases himage : t.keyImage with
  | none => simp
  | some k' =>
      simp only [List.lookup_cons, Option.some.injEq]
      by_cases hk : k = k'
      · simp [hk]
      · simp [beq_false_of_ne hk, Ne.symm hk]

theorem giveWay_keyImage (held t : Transfer) :
    (held.giveWay t).keyImage = held.keyImage.orElse fun _ => t.keyImage := rfl

/-- Recording an output leaves every image that is looked up leading to an output that has it. -/
theorem ImagesLead.addTransfer {w : WalletState} (hkeys : w.KeysFound) (h : w.ImagesLead)
    (t : Transfer) : (w.addTransfer t).2.ImagesLead := by
  intro k i
  rcases addTransfer_cases hkeys t with ⟨j, held, -, -, -, heq⟩ |
    ⟨j, held, hget, -, hsame, -, heq⟩ | ⟨hnew, heq⟩
  · rw [heq]
    exact h k i
  · rw [heq]
    intro hlook
    rcases h k i hlook with ⟨t', hget', hkey⟩
    simp only [modifyTransfer, List.getElem?_modify, hget', Option.map_eq_map, Option.map_some,
      Option.some.injEq, exists_eq_left']
    split
    · rename_i hij
      obtain rfl : held = t' := Option.some.inj (hget.symm.trans (hij ▸ hget'))
      simp [giveWay_keyImage, hkey]
    · exact hkey
  · rw [heq]
    intro hlook
    rw [lookup_fileTransfer] at hlook
    simp only [fileTransfer, getElem?_append_singleton]
    split at hlook
    · rename_i himage
      exact ⟨t, .inr ⟨(Option.some.inj hlook).symm, rfl⟩, himage⟩
    · rcases h k i hlook with ⟨t', hget', hkey⟩
      exact ⟨t', .inl hget', hkey⟩

/-- Two outputs held with one key are one. -/
theorem KeysListed.held_unique {w : WalletState} (h : w.KeysListed) {t t' : Transfer}
    (ht : t ∈ w.transfers) (ht' : t' ∈ w.transfers) (hkey : t.publicKey = t'.publicKey) : t = t' := by
  rcases List.mem_iff_getElem?.mp ht with ⟨i, hget⟩
  rcases List.mem_iff_getElem?.mp ht' with ⟨j, hget'⟩
  have hfirst := (h t'.publicKey i).mpr ⟨t, hget, hkey⟩
  have hsecond := (h t'.publicKey j).mpr ⟨t', hget', rfl⟩
  obtain rfl : i = j := Option.some.inj (hfirst.symm.trans hsecond)
  exact Option.some.inj (hget.symm.trans hget')

theorem misfiled_replace {w : WalletState} (hkeys : w.KeysListed) (h : w.ImagesLead) {t held : Transfer}
    {i : Nat} (hget : w.transfers[i]? = some held) (hsame : held.publicKey = t.publicKey)
    (hless : held.spent = false ∧ held.amount < t.amount) :
    (w.modifyTransfer i fun _ => held.giveWay t).Misfiled ↔ w.Misfiled ∨ w.Misfiles t := by
  have hmem := List.mem_of_getElem? hget
  by_cases himage : held.keyImage = none ∧ t.keyImage ≠ none
  · -- The output that gives way had no image, and the one in its place has one.
    rcases himage with ⟨hnone, hsome⟩
    rcases Option.ne_none_iff_exists'.mp hsome with ⟨k, hk⟩
    refine iff_of_true ?_ (.inr (.inl ⟨held, hmem, hsame, hless.1, hless.2, hnone, hsome⟩))
    refine ⟨i, held.giveWay t, k, ?_, ?_, ?_⟩
    · simp [modifyTransfer, hget]
    · simp [giveWay_keyImage, hnone, hk]
    · intro hlook
      rcases h k i hlook with ⟨t', hget', hkey⟩
      obtain rfl : held = t' := Option.some.inj (hget.symm.trans hget')
      simp [hnone] at hkey
  · have hno : ¬ w.Misfiles t := by
      rintro (⟨held', hmem', hkey', -, -, hnone, hsome⟩ | ⟨hnew, -⟩)
      · obtain rfl := hkeys.held_unique hmem hmem' (hsame.trans hkey'.symm)
        exact himage ⟨hnone, hsome⟩
      · exact hnew held hmem hsame
    have hkept : (held.giveWay t).keyImage = held.keyImage := by
      rw [giveWay_keyImage]
      cases hheld : held.keyImage with
      | some k => rfl
      | none =>
          have ht : t.keyImage = none := by
            by_contra hsome
            exact himage ⟨hheld, hsome⟩
          simp [ht]
    rw [or_iff_left hno]
    refine misfiled_iff_of_map (map_modify_of_same ?_) rfl
    intro t' hget'
    obtain rfl : held = t' := Option.some.inj (hget.symm.trans hget')
    exact hkept

theorem misfiled_file {w : WalletState} {t : Transfer}
    (hnew : ∀ held ∈ w.transfers, held.publicKey ≠ t.publicKey) :
    (w.fileTransfer t).Misfiled ↔ w.Misfiled ∨ w.Misfiles t := by
  unfold Misfiled
  simp only [lookup_fileTransfer]
  simp only [fileTransfer, getElem?_append_singleton]
  constructor
  · rintro ⟨i, t', k, hget | ⟨rfl, rfl⟩, hkey, hlook⟩
    · by_cases himage : t.keyImage = some k
      · exact .inr (.inr ⟨hnew, t', List.mem_of_getElem? hget, k, hkey, himage⟩)
      · rw [if_neg himage] at hlook
        exact .inl ⟨i, t', k, hget, hkey, hlook⟩
    · exact absurd (if_pos hkey) hlook
  · have hlater {i : Nat} {t' : Transfer} {k : KeyImage} (hget : w.transfers[i]? = some t')
        (hlook : t.keyImage ≠ some k → w.byKeyImage.lookup k ≠ some i) :
        (if t.keyImage = some k then some w.transfers.length else w.byKeyImage.lookup k) ≠ some i := by
      have hlt := (List.getElem?_eq_some_iff.mp hget).1
      split
      · intro heq
        have := Option.some.inj heq
        omega
      · rename_i himage
        exact hlook himage
    rintro (⟨i, t', k, hget, hkey, hlook⟩ | ⟨held, hmem, hkey, -⟩ | ⟨-, held, hmem, k, hkey, himage⟩)
    · exact ⟨i, t', k, .inl hget, hkey, hlater hget fun _ => hlook⟩
    · exact absurd hkey (hnew held hmem)
    · rcases List.mem_iff_getElem?.mp hmem with ⟨i, hget⟩
      exact ⟨i, held, k, .inl hget, hkey, hlater hget fun hno => absurd himage hno⟩

/-- An image is misfiled after an output is recorded if one was before, or if recording it does. -/
theorem misfiled_addTransfer {w : WalletState} (hkeys : w.KeysListed) (h : w.ImagesLead)
    (t : Transfer) : (w.addTransfer t).2.Misfiled ↔ w.Misfiled ∨ w.Misfiles t := by
  rcases addTransfer_cases hkeys.keysFound t with ⟨i, held, hget, hsame, hkept, heq⟩ |
    ⟨i, held, hget, -, hsame, hless, heq⟩ | ⟨hnew, heq⟩
  · rw [heq]
    have hmem := List.mem_of_getElem? hget
    refine (or_iff_left ?_).symm
    rintro (⟨held', hmem', hkey', hspent, hless, -⟩ | ⟨hnew, -⟩)
    · obtain rfl := hkeys.held_unique hmem hmem' (hsame.trans hkey'.symm)
      rcases hkept with hkept | hkept
      · simp [hspent] at hkept
      · omega
    · exact hnew held hmem hsame
  · rw [heq]
    exact misfiled_replace hkeys h hget hsame hless
  · rw [heq]
    exact misfiled_file hnew

end WalletState

end Wownero

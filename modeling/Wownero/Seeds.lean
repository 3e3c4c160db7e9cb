import Mathlib.Data.List.Nodup
import Mathlib.Data.List.Forall2
import Wownero.Codec
import Wownero.Keys
/-!
# Seed phrases

A key as twenty-five words: three for each four bytes, in a code of running sums, and one of them
again as a checksum.  A word is known by its first letters, and a phrase by the first language that
has all its words.
-/

namespace Wownero.Mnemonic

open Wownero Wownero.Archive

abbrev Word := List Char

def seedDataWords : Nat := 24

def seedWords : Nat := 25

/-- `WORDLIST_LEN`. -/
def wordlistLen : Nat := 1626

inductive Language where
  | english
  | englishOld
  | chineseSimplified
  | dutch
  | esperanto
  | french
  | german
  | italian
  | japanese
  | lojban
  | portuguese
  | russian
  | spanish
  deriving DecidableEq, Repr

/-- `WordList`, as far as seeds read it: the letters a word is known by, and the words. -/
structure WordList where
  language : Language
  uniquePrefixLength : Nat
  words : List Word
  deriving DecidableEq

inductive MnemonicError where
  | wrongWordCount (n : Nat)
  | unknownLanguage
  | badChecksum
  | unknownWord (word : Word)
  | inconsistent
  deriving DecidableEq, Repr

/-! ### Text -/

/-- The characters of the property `White_Space`. -/
def isWhitespace (c : Char) : Bool :=
  let n := c.toNat
  (9 ≤ n && n ≤ 13) || n == 32 || n == 133 || n == 160 || n == 5760 || (8192 ≤ n && n ≤ 8202) ||
    n == 8232 || n == 8233 || n == 8239 || n == 8287 || n == 12288

/-- `split_whitespace`, within a word whose first letters are read. -/
def splitFrom : List Char → Word → List Word
  | [], w => if w = [] then [] else [w]
  | c :: cs, w =>
      if isWhitespace c then if w = [] then splitFrom cs [] else w :: splitFrom cs []
      else splitFrom cs (w ++ [c])

/-- `split`. -/
def split (phrase : List Char) : List Word := splitFrom phrase []

/-- One bit of `crc32`. -/
def crcBit (crc : UInt32) : UInt32 := (crc >>> 1) ^^^ (0xedb88320 &&& (0 - (crc &&& 1)))

/-- `crc32`. -/
def crc32 (data : Blob) : UInt32 :=
  ~~~ data.foldl (fun crc b => Nat.iterate crcBit 8 (crc ^^^ b.toUInt32)) 0xffffffff

def wrap32 (n : Nat) : Nat := n % 4294967296

/-! ### Word lists -/

section

variable (lower : Word → Word)

/-- `prefix_map`: the last word with these first letters, and the letters as the list has them. -/
def WordList.prefixEntry (L : WordList) (key : Word) : Option (Nat × Word) :=
  (L.words.zipIdx.reverse.find? fun e => lower (e.1.take L.uniquePrefixLength) = key).map fun e =>
    (e.2, e.1.take L.uniquePrefixLength)

/-- `index_of`. -/
def WordList.indexOf (L : WordList) (word : Word) (trimmed : Bool) : Option Nat :=
  if trimmed then
    (L.prefixEntry lower (lower (word.take L.uniquePrefixLength))).map (·.1)
  else (L.words.zipIdx.reverse.find? fun e => lower e.1 = lower word).map (·.2)

/-- `trimmed_key`. -/
def WordList.trimmedKey (L : WordList) (word : Word) : Option Word :=
  (L.prefixEntry lower (lower (word.take L.uniquePrefixLength))).map (·.2)

/-- The loop of `checksum_index`. -/
def trimmedWords (L : WordList) : List Word → Except MnemonicError Word
  | [] => .ok []
  | w :: ws => do
      match L.trimmedKey lower w with
      | none => .error (.unknownWord w)
      | some key =>
          let rest ← trimmedWords L ws
          return key ++ rest

/-- `checksum_index`. -/
def checksumIndex (words : List Word) (L : WordList) : Except MnemonicError Nat := do
  let trimmed ← trimmedWords lower L words
  return (crc32 (trimmed.flatMap String.utf8EncodeChar)).toNat % words.length

/-! ### Keys as words -/

/-- The three words of a `u32`. -/
def groupWords (x : Nat) : List Nat :=
  let n := wordlistLen
  let w1 := x % n
  let w2 := (x / n + w1) % n
  let w3 := (x / n / n + w2) % n
  [w1, w2, w3]

/-- `as_chunks::<4>`, so many of them. -/
def chunks4 : Nat → Blob → List Blob
  | 0, _ => []
  | n + 1, bs => bs.take 4 :: chunks4 n (bs.drop 4)

/-- The `u32`s of a key. -/
def keyNumbers (key : SecretKey) : List Nat := (chunks4 8 (Bytes32.toBytes key)).map leNat

/-- `key_to_words`.  There is no outcome where an index is outside the list, or one of the words
    written is not found in it. -/
def keyToWords (key : SecretKey) (L : WordList) : Option (List Char) := do
  let out ← ((keyNumbers key).flatMap groupWords).mapM fun i => L.words[i]?
  let idx ← (checksumIndex lower out L).toOption
  let last ← out[idx]?
  return List.intercalate [' '] (out ++ [last])

/-! ### Words as keys -/

/-- The `u32` of three words, in wrapping arithmetic, where the check on it holds. -/
def groupNumber (w1 w2 w3 : Nat) : Option Nat :=
  let n := wordlistLen
  let second := wrap32 (n * (wrap32 (n + 4294967296 - w1 + w2) % n))
  let third := wrap32 (wrap32 (n * n) * (wrap32 (n + 4294967296 - w2 + w3) % n))
  let x := wrap32 (wrap32 (w1 + second) + third)
  if x % n = w1 then some x else none

/-- The loop of `words_to_key` over groups of three words. -/
def groupBytes (L : WordList) (trimmed : Bool) : List Word → Except MnemonicError Blob
  | g₁ :: g₂ :: g₃ :: rest =>
      match L.indexOf lower g₁ trimmed with
      | none => .error (.unknownWord g₁)
      | some w1 =>
          match L.indexOf lower g₂ trimmed with
          | none => .error (.unknownWord g₂)
          | some w2 =>
              match L.indexOf lower g₃ trimmed with
              | none => .error (.unknownWord g₃)
              | some w3 =>
                  match groupNumber w1 w2 w3 with
                  | none => .error .inconsistent
                  | some x => do
                      let others ← groupBytes L trimmed rest
                      return leBytes 4 x ++ others
  | _ => .ok []

/-- `checksum_ok`. -/
def checksumOk (seed : List Word) (L : WordList) : Bool :=
  match seed.getLast? with
  | none => false
  | some last =>
      match checksumIndex lower seed.dropLast L with
      | .error _ => false
      | .ok idx =>
          match seed.dropLast[idx]? with
          | none => false
          | some expect =>
              lower (expect.take L.uniquePrefixLength) = lower (last.take L.uniquePrefixLength)

/-- The languages of `find_language` from one on, with the fallback found so far. -/
def findLanguageFrom (seed : List Word) (hasChecksum : Bool) :
    List WordList → Option WordList → Option WordList
  | [], fallback => fallback
  | L :: Ls, fallback =>
      if seed.all fun w => (L.indexOf lower w hasChecksum).isSome then
        if hasChecksum && !checksumOk lower seed L then
          findLanguageFrom seed hasChecksum Ls (fallback <|> some L)
        else some L
      else findLanguageFrom seed hasChecksum Ls fallback

/-- `find_language`. -/
def findLanguage (languages : List WordList) (seed : List Word) (hasChecksum : Bool) :
    Option WordList :=
  findLanguageFrom lower seed hasChecksum languages none

/-- `words_to_key`. -/
def wordsToKey (languages : List WordList) (phrase : List Char) :
    Except MnemonicError (SecretKey × WordList) :=
  let seed := split phrase
  if seed.length ≠ seedWords ∧ seed.length ≠ seedDataWords then .error (.wrongWordCount seed.length)
  else
    let hasChecksum := seed.length = seedWords
    match findLanguage lower languages seed hasChecksum with
    | none => .error .unknownLanguage
    | some L =>
        if hasChecksum ∧ checksumOk lower seed L = false then .error .badChecksum
        else do
          let bytes ← groupBytes lower L hasChecksum (if hasChecksum then seed.dropLast else seed)
          return (Bytes32.ofBytes bytes, L)

end

/-! ### Three words and a number -/

/-- A running sum gives its digit back, whatever the sum before it. -/
theorem wrap32_digit {w d : Nat} (hw : w < 1626) (hd : d < 1626) :
    wrap32 (1626 + 4294967296 - w + (d + w) % 1626) % 1626 = d := by
  have hsum : (d + w) % 1626 = d + w ∨ (d + w) % 1626 + 1626 = d + w := by omega
  unfold wrap32
  rcases hsum with hsum | hsum <;> omega

/-- The digit of two words makes the second of the first. -/
theorem digit_of_words {w w' : Nat} (hw : w < 1626) (hw' : w' < 1626) :
    (wrap32 (1626 + 4294967296 - w + w') % 1626 + w) % 1626 = w' := by
  unfold wrap32
  have hfits : (1626 + 4294967296 - w + w') % 4294967296 = 1626 - w + w' := by omega
  rw [hfits]
  by_cases hle : w ≤ w'
  · have hdigit : (1626 - w + w') % 1626 = w' - w := by omega
    rw [hdigit, Nat.sub_add_cancel hle]
    exact Nat.mod_eq_of_lt hw'
  · have hdigit : (1626 - w + w') % 1626 = 1626 - w + w' := Nat.mod_eq_of_lt (by omega)
    rw [hdigit, show 1626 - w + w' + w = 1626 + w' by omega, Nat.add_mod_left]
    exact Nat.mod_eq_of_lt hw'

/-- The number of three digits, wrapped. -/
theorem groupNumber_eq (w1 w2 w3 : Nat) :
    groupNumber w1 w2 w3 =
      let a := wrap32 (1626 + 4294967296 - w1 + w2) % 1626
      let b := wrap32 (1626 + 4294967296 - w2 + w3) % 1626
      let x := (w1 + 1626 * a + 2643876 * b) % 4294967296
      if x % 1626 = w1 then some x else none := by
  unfold groupNumber wordlistLen
  simp only
  generalize wrap32 (1626 + 4294967296 - w1 + w2) % 1626 = a
  generalize wrap32 (1626 + 4294967296 - w2 + w3) % 1626 = b
  have hvalue : wrap32 (wrap32 (w1 + wrap32 (1626 * a)) + wrap32 (wrap32 (1626 * 1626) * b)) =
      (w1 + 1626 * a + 2643876 * b) % 4294967296 := by
    unfold wrap32
    omega
  rw [hvalue]

/-- A number that fits four bytes is its three words'. -/
theorem groupNumber_groupWords {x : Nat} (hx : x < 2 ^ 32) {w1 w2 w3 : Nat}
    (h : groupWords x = [w1, w2, w3]) : groupNumber w1 w2 w3 = some x := by
  unfold groupWords wordlistLen at h
  simp only [List.cons.injEq, and_true] at h
  obtain ⟨h₁, h₂, h₃⟩ := h
  have hsecond : wrap32 (1626 + 4294967296 - w1 + w2) % 1626 = x / 1626 % 1626 := by
    rw [← h₂, h₁, Nat.add_mod, Nat.mod_eq_of_lt (by omega : w1 < 1626)]
    exact wrap32_digit (by omega) (Nat.mod_lt _ (by decide))
  have hthird : wrap32 (1626 + 4294967296 - w2 + w3) % 1626 = x / 1626 / 1626 := by
    rw [← h₃, h₂]
    exact wrap32_digit (by omega) (by omega)
  rw [groupNumber_eq]
  simp only
  rw [hsecond, hthird]
  have hvalue : (w1 + 1626 * (x / 1626 % 1626) + 2643876 * (x / 1626 / 1626)) % 4294967296 = x := by
    omega
  rw [hvalue, if_pos h₁]

/-- A wrapped number is short of `2 ^ 32`, which is no multiple of the base. -/
theorem eq_of_check {w c x : Nat} (hw : w < 1626) (hc : c < 2643876)
    (hx : (w + 1626 * c) % 4294967296 = x) (hcheck : x % 1626 = w) : x = w + 1626 * c := by
  omega

/-- The words of three digits. -/
theorem groupWords_digits {w a b : Nat} (hw : w < 1626) (ha : a < 1626) :
    groupWords (w + 1626 * (a + 1626 * b)) =
      [w, (a + w) % 1626, (b + (a + w) % 1626) % 1626] := by
  have hfirst : (w + 1626 * (a + 1626 * b)) % 1626 = w := by omega
  have hnext : (w + 1626 * (a + 1626 * b)) / 1626 = a + 1626 * b := by omega
  have hlast : (a + 1626 * b) / 1626 = b := by omega
  have hmiddle : (a + 1626 * b + w) % 1626 = (a + w) % 1626 := by omega
  unfold groupWords wordlistLen
  simp only
  rw [hfirst, hnext, hlast, hmiddle]

/-- **The check finds every wrap**: a number that three words give has these three words. -/
theorem groupWords_of_groupNumber {w1 w2 w3 x : Nat} (h₁ : w1 < 1626) (h₂ : w2 < 1626)
    (h₃ : w3 < 1626) (h : groupNumber w1 w2 w3 = some x) :
    x < 2 ^ 32 ∧ groupWords x = [w1, w2, w3] := by
  rw [groupNumber_eq] at h
  have hsecond := digit_of_words h₁ h₂
  have hthird := digit_of_words h₂ h₃
  have ha : wrap32 (1626 + 4294967296 - w1 + w2) % 1626 < 1626 := Nat.mod_lt _ (by decide)
  have hb : wrap32 (1626 + 4294967296 - w2 + w3) % 1626 < 1626 := Nat.mod_lt _ (by decide)
  generalize wrap32 (1626 + 4294967296 - w1 + w2) % 1626 = a at h hsecond ha
  generalize wrap32 (1626 + 4294967296 - w2 + w3) % 1626 = b at h hthird hb
  simp only at h
  split_ifs at h with hcheck
  have hx := Option.some.inj h
  rw [hx] at hcheck
  rw [show w1 + 1626 * a + 2643876 * b = w1 + 1626 * (a + 1626 * b) by ring] at hx
  have hexact := eq_of_check h₁ (by omega) hx hcheck
  refine ⟨?_, ?_⟩
  · rw [← hx]
    exact Nat.mod_lt _ (by decide)
  · rw [hexact, groupWords_digits h₁ ha, hsecond, hthird]

/-! ### Phrases and words -/

/-- A word as a list writes it: not empty, and with no white space. -/
def IsWord (w : Word) : Prop := w ≠ [] ∧ ∀ c ∈ w, isWhitespace c = false

theorem splitFrom_append {v : Word} (hv : ∀ c ∈ v, isWhitespace c = false) (rest : List Char)
    (w : Word) : splitFrom (v ++ rest) w = splitFrom rest (w ++ v) := by
  induction v generalizing w with
  | nil => rw [List.nil_append, List.append_nil]
  | cons c v ih =>
      obtain ⟨hc, hrest⟩ := List.forall_mem_cons.mp hv
      rw [List.cons_append, splitFrom, if_neg (by simp [hc]), ih hrest, List.append_assoc]
      rfl

/-- Words written with a blank between them are split again. -/
theorem split_intercalate {ws : List Word} (h : ∀ w ∈ ws, IsWord w) :
    split (List.intercalate [' '] ws) = ws := by
  induction ws with
  | nil => rfl
  | cons w ws ih =>
      obtain ⟨⟨hne, hw⟩, hrest⟩ := List.forall_mem_cons.mp h
      cases ws with
      | nil =>
          have hone : split (w ++ []) = [w] := by
            rw [split, splitFrom_append hw, List.nil_append, splitFrom, if_neg hne]
          rw [List.append_nil] at hone
          simpa [List.intercalate] using hone
      | cons w' ws =>
          have hjoin : List.intercalate [' '] (w :: w' :: ws) =
              w ++ ' ' :: List.intercalate [' '] (w' :: ws) := by
            simp [List.intercalate]
          have hblank : isWhitespace ' ' = true := by decide
          rw [hjoin, split, splitFrom_append hw, List.nil_append, splitFrom, if_pos hblank, if_neg hne]
          exact congrArg (w :: ·) (ih hrest)

/-! ### Lists of words -/

section

variable {lower : Word → Word} {L : WordList}

/-- What the prefix map finds is a word of the list with these first letters. -/
theorem WordList.of_prefixEntry {key known : Word} {i : Nat}
    (h : L.prefixEntry lower key = some (i, known)) :
    ∃ w, L.words[i]? = some w ∧ known = w.take L.uniquePrefixLength ∧ lower known = key := by
  unfold WordList.prefixEntry at h
  obtain ⟨⟨w, j⟩, hfound, heq⟩ := Option.map_eq_some_iff.mp h
  cases heq
  have hmem : (w, j) ∈ L.words.zipIdx := List.mem_reverse.mp (List.mem_of_find?_eq_some hfound)
  refine ⟨w, (List.mem_zipIdx_iff_getElem?.mp hmem), rfl, ?_⟩
  simpa using List.find?_some hfound

/-- A list as the twelve without double prefixes are. -/
structure WordList.Proper (lower : Word → Word) (L : WordList) : Prop where
  length : L.words.length = 1626
  prefixes : (L.words.map fun w => lower (w.take L.uniquePrefixLength)).Nodup
  words : ∀ w ∈ L.words, IsWord w

/-- The prefix map of a proper list finds each word. -/
theorem WordList.Proper.prefixEntry_eq (h : L.Proper lower) {i : Nat} {w : Word}
    (hw : L.words[i]? = some w) :
    L.prefixEntry lower (lower (w.take L.uniquePrefixLength)) =
      some (i, w.take L.uniquePrefixLength) := by
  have hmem : (w, i) ∈ L.words.zipIdx.reverse :=
    List.mem_reverse.mpr (List.mem_zipIdx_iff_getElem?.mpr hw)
  cases hfound : L.prefixEntry lower (lower (w.take L.uniquePrefixLength)) with
  | none =>
      unfold WordList.prefixEntry at hfound
      rw [Option.map_eq_none_iff, List.find?_eq_none] at hfound
      exact absurd (by simp) (hfound _ hmem)
  | some entry =>
      obtain ⟨j, known⟩ := entry
      obtain ⟨w', hw', rfl, hsame⟩ := of_prefixEntry hfound
      obtain ⟨hi, rfl⟩ := List.getElem?_eq_some_iff.mp hw
      obtain ⟨hj, rfl⟩ := List.getElem?_eq_some_iff.mp hw'
      have hindex : j = i := by
        refine (@List.Nodup.getElem_inj_iff _ _ h.prefixes j (by rwa [List.length_map]) i
          (by rwa [List.length_map])).mp ?_
        rw [List.getElem_map, List.getElem_map]
        exact hsame
      subst hindex
      rfl

theorem WordList.indexOf_of_entry {v known : Word} {i : Nat}
    (h : L.prefixEntry lower (lower (v.take L.uniquePrefixLength)) = some (i, known)) :
    L.indexOf lower v true = some i ∧ L.trimmedKey lower v = some known := by
  rw [WordList.indexOf, if_pos rfl, WordList.trimmedKey, h]
  exact ⟨rfl, rfl⟩

/-- Two words that a list does not tell apart. -/
def WordList.Same (lower : Word → Word) (L : WordList) (v w : Word) : Prop :=
  lower (v.take L.uniquePrefixLength) = lower (w.take L.uniquePrefixLength)

/-- A word that is found is, to the list, the word it is found as. -/
theorem WordList.of_indexOf {v : Word} {i : Nat} (h : L.indexOf lower v true = some i) :
    ∃ w, L.words[i]? = some w ∧ L.Same lower v w ∧
      L.trimmedKey lower v = some (w.take L.uniquePrefixLength) := by
  rw [WordList.indexOf, if_pos rfl] at h
  obtain ⟨⟨j, known⟩, hentry, rfl⟩ := Option.map_eq_some_iff.mp h
  obtain ⟨w, hw, rfl, hsame⟩ := of_prefixEntry hentry
  exact ⟨w, hw, hsame.symm, (indexOf_of_entry hentry).2⟩

theorem WordList.Proper.indexOf_eq (h : L.Proper lower) {i : Nat} {w : Word}
    (hw : L.words[i]? = some w) :
    L.indexOf lower w true = some i ∧ L.trimmedKey lower w = some (w.take L.uniquePrefixLength) :=
  indexOf_of_entry (h.prefixEntry_eq hw)

/-- The checksum of words is that of the letters the list has for them. -/
theorem checksumIndex_eq {vs keys : List Word}
    (h : List.Forall₂ (fun v key => L.trimmedKey lower v = some key) vs keys) :
    checksumIndex lower vs L =
      .ok ((crc32 (keys.flatten.flatMap String.utf8EncodeChar)).toNat % vs.length) := by
  have htrimmed : trimmedWords lower L vs = .ok keys.flatten := by
    induction h with
    | nil => rfl
    | cons hkey _ ih =>
        rw [trimmedWords, hkey]
        simp only
        rw [ih]
        rfl
  rw [checksumIndex, htrimmed]
  rfl

/-! ### Bytes and words -/

theorem length_groupWords (x : Nat) : (groupWords x).length = 3 := rfl

theorem groupWords_lt {x i : Nat} (h : i ∈ groupWords x) : i < 1626 := by
  simp only [groupWords, wordlistLen, List.mem_cons, List.not_mem_nil, or_false] at h
  rcases h with rfl | rfl | rfl <;> exact Nat.mod_lt _ (by decide)

theorem chunks4_bytes {n : Nat} {bs : Blob} (h : bs.length = 4 * n) :
    ((chunks4 n bs).map leNat).flatMap (leBytes 4) = bs ∧ (chunks4 n bs).length = n ∧
      ∀ x ∈ (chunks4 n bs).map leNat, x < 2 ^ 32 := by
  induction n generalizing bs with
  | zero => exact ⟨(List.eq_nil_of_length_eq_zero h).symm, rfl, by simp [chunks4]⟩
  | succ n ih =>
      have hfour : (bs.take 4).length = 4 := by
        rw [List.length_take]
        omega
      obtain ⟨hbytes, hlength, hsmall⟩ := @ih (bs.drop 4) (by rw [List.length_drop]; omega)
      have hback := leBytes_leNat (bs.take 4)
      have hvalue := leNat_leBytes 4 (leNat (bs.take 4))
      rw [hfour] at hback
      rw [hback] at hvalue
      refine ⟨?_, congrArg (· + 1) hlength, ?_⟩
      · rw [chunks4, List.map_cons, List.flatMap_cons, hback, hbytes, List.take_append_drop]
      · refine List.forall_mem_cons.mpr ⟨?_, hsmall⟩
        rw [hvalue]
        exact Nat.mod_lt _ (by decide)

theorem chunks4_flatMap {xs : List Nat} (h : ∀ x ∈ xs, x < 2 ^ 32) :
    (chunks4 xs.length (xs.flatMap (leBytes 4))).map leNat = xs := by
  induction xs with
  | nil => rfl
  | cons x xs ih =>
      obtain ⟨hx, hrest⟩ := List.forall_mem_cons.mp h
      rw [List.length_cons, chunks4, List.flatMap_cons, List.take_left' (length_leBytes 4 x),
        List.drop_left' (length_leBytes 4 x), List.map_cons, ih hrest, leNat_leBytes,
        Nat.mod_eq_of_lt (show x < 256 ^ 4 from hx)]

theorem length_flatMap_leBytes (xs : List Nat) : (xs.flatMap (leBytes 4)).length = 4 * xs.length := by
  induction xs with
  | nil => rfl
  | cons x xs ih =>
      rw [List.flatMap_cons, List.length_append, length_leBytes, ih, List.length_cons]
      omega

/-- The numbers of a key are its bytes. -/
theorem keyNumbers_spec (key : SecretKey) :
    Bytes32.ofBytes ((keyNumbers key).flatMap (leBytes 4)) = key ∧ (keyNumbers key).length = 8 ∧
      ∀ x ∈ keyNumbers key, x < 2 ^ 32 := by
  obtain ⟨hbytes, hlength, hsmall⟩ := chunks4_bytes (n := 8) (length_toBytes key)
  refine ⟨?_, ?_, hsmall⟩
  · rw [keyNumbers, hbytes, ofBytes_toBytes]
  · rw [keyNumbers, List.length_map, hlength]

theorem keyNumbers_ofBytes {xs : List Nat} (hlength : xs.length = 8) (h : ∀ x ∈ xs, x < 2 ^ 32) :
    keyNumbers (Bytes32.ofBytes (xs.flatMap (leBytes 4))) = xs := by
  rw [keyNumbers, toBytes_ofBytes (by rw [length_flatMap_leBytes, hlength])]
  have hchunks := chunks4_flatMap h
  rwa [hlength] at hchunks

/-- Words that are found as those of some numbers are read as these. -/
theorem groupBytes_eq {xs : List Nat} {ws : List Word} (hxs : ∀ x ∈ xs, x < 2 ^ 32)
    (h : List.Forall₂ (fun i w => L.indexOf lower w true = some i) (xs.flatMap groupWords) ws) :
    groupBytes lower L true ws = .ok (xs.flatMap (leBytes 4)) := by
  induction xs generalizing ws with
  | nil =>
      cases h
      rfl
  | cons x xs ih =>
      obtain ⟨hx, hrest⟩ := List.forall_mem_cons.mp hxs
      obtain ⟨w1, w2, w3, hwords⟩ : ∃ w1 w2 w3, groupWords x = [w1, w2, w3] := ⟨_, _, _, rfl⟩
      rw [List.flatMap_cons, hwords] at h
      match ws, h with
      | v1 :: v2 :: v3 :: vs, .cons h₁ (.cons h₂ (.cons h₃ h)) =>
          rw [groupBytes, h₁]
          simp only
          rw [h₂]
          simp only
          rw [h₃]
          simp only
          rw [groupNumber_groupWords hx hwords]
          simp only
          rw [ih hrest h]
          rfl

/-- Whatever words are read are found as those of some numbers. -/
theorem of_groupBytes (hL : L.words.length = 1626) {m : Nat} {ws : List Word} {bytes : Blob}
    (hlength : ws.length = 3 * m) (h : groupBytes lower L true ws = .ok bytes) :
    ∃ xs : List Nat, xs.length = m ∧ (∀ x ∈ xs, x < 2 ^ 32) ∧ bytes = xs.flatMap (leBytes 4) ∧
      List.Forall₂ (fun i w => L.indexOf lower w true = some i) (xs.flatMap groupWords) ws := by
  have hindex {v : Word} {i : Nat} (hv : L.indexOf lower v true = some i) : i < 1626 := by
    obtain ⟨w, hw, -⟩ := WordList.of_indexOf hv
    obtain ⟨hlt, -⟩ := List.getElem?_eq_some_iff.mp hw
    omega
  induction m generalizing ws bytes with
  | zero =>
      obtain rfl := List.eq_nil_of_length_eq_zero hlength
      cases h
      exact ⟨[], rfl, by simp, rfl, .nil⟩
  | succ m ih =>
      match ws, hlength with
      | v1 :: v2 :: v3 :: vs, hlength =>
          rw [groupBytes] at h
          split at h
          · cases h
          rename_i w1 h₁
          split at h
          · cases h
          rename_i w2 h₂
          split at h
          · cases h
          rename_i w3 h₃
          split at h
          · cases h
          rename_i x hx
          obtain ⟨others, hothers, hbytes⟩ := Outcome.bind_eq_ok.mp h
          cases hbytes
          obtain ⟨xs, hxsLength, hxs, rfl, hforall⟩ := ih (by simpa [Nat.mul_add] using hlength) hothers
          obtain ⟨hfits, hwords⟩ :=
            groupWords_of_groupNumber (hindex h₁) (hindex h₂) (hindex h₃) hx
          refine ⟨x :: xs, by rw [List.length_cons, hxsLength], List.forall_mem_cons.mpr ⟨hfits, hxs⟩,
            rfl, ?_⟩
          rw [List.flatMap_cons, hwords]
          exact .cons h₁ (.cons h₂ (.cons h₃ hforall))

/-! ### Phrases of a list -/

theorem exists_words {words : List Word} {is : List Nat} (h : ∀ i ∈ is, i < words.length) :
    ∃ out, List.Forall₂ (fun i w => words[i]? = some w) is out := by
  induction is with
  | nil => exact ⟨[], .nil⟩
  | cons i is ih =>
      obtain ⟨hi, hrest⟩ := List.forall_mem_cons.mp h
      obtain ⟨out, hforall⟩ := ih hrest
      exact ⟨words[i] :: out, .cons (List.getElem?_eq_getElem hi) hforall⟩

theorem mapM_eq_some {words : List Word} {is : List Nat} {out : List Word}
    (h : List.Forall₂ (fun i w => words[i]? = some w) is out) :
    (is.mapM fun i => words[i]?) = some out := by
  induction h with
  | nil => rfl
  | cons hw _ ih =>
      rw [List.mapM_cons, hw, ih]
      rfl

/-- What a key is written as: the words of its numbers, and one of them again. -/
structure Written (lower : Word → Word) (L : WordList) (key : SecretKey) (out : List Word)
    (idx : Nat) (last : Word) : Prop where
  words : List.Forall₂ (fun i w => L.words[i]? = some w) ((keyNumbers key).flatMap groupWords) out
  checksum : checksumIndex lower out L = .ok idx
  last : out[idx]? = some last

namespace Written

variable {key : SecretKey} {out : List Word} {idx : Nat} {last : Word}

theorem length (h : Written lower L key out idx last) : out.length = 24 := by
  obtain ⟨-, hnumbers, -⟩ := keyNumbers_spec key
  rw [← h.words.length_eq, List.length_flatMap]
  simp [length_groupWords, hnumbers]

/-- The words written are words of the list. -/
theorem mem (h : Written lower L key out idx last) : ∀ w ∈ out ++ [last], w ∈ L.words := by
  have hout : ∀ w ∈ out, w ∈ L.words := fun w hw => by
    obtain ⟨j, hj, rfl⟩ := List.getElem_of_mem hw
    have hi := (List.forall₂_iff_get.mp h.words).2 j (by rw [h.words.length_eq]; exact hj) hj
    exact List.mem_of_getElem? hi
  intro w hw
  rcases List.mem_append.mp hw with hw | hw
  · exact hout w hw
  · rw [List.mem_singleton.mp hw]
    exact hout last (List.mem_of_getElem? h.last)

theorem split_phrase (hL : L.Proper lower) (h : Written lower L key out idx last) :
    split (List.intercalate [' '] (out ++ [last])) = out ++ [last] :=
  split_intercalate fun w hw => hL.words w (h.mem w hw)

theorem indexOf (hL : L.Proper lower) (h : Written lower L key out idx last) :
    List.Forall₂ (fun i w => L.indexOf lower w true = some i) ((keyNumbers key).flatMap groupWords) out :=
  h.words.imp fun _ _ hw => (hL.indexOf_eq hw).1

theorem keyToWords_eq (h : Written lower L key out idx last) :
    keyToWords lower key L = some (List.intercalate [' '] (out ++ [last])) := by
  rw [keyToWords, mapM_eq_some h.words, Option.bind_eq_bind, Option.bind_some, h.checksum]
  show (out[idx]?).bind _ = _
  rw [h.last]
  rfl

/-- The checksum word is the one its own check wants. -/
theorem checksumOk (h : Written lower L key out idx last) :
    Mnemonic.checksumOk lower (out ++ [last]) L = true := by
  unfold Mnemonic.checksumOk
  rw [List.getLast?_concat, List.dropLast_concat, h.checksum]
  simp only
  rw [h.last]
  simp

end Written

/-- Every key is written in the words of a proper list. -/
theorem exists_written (hL : L.Proper lower) (key : SecretKey) :
    ∃ out idx last, Written lower L key out idx last := by
  have hindices : ∀ i ∈ (keyNumbers key).flatMap groupWords, i < L.words.length := fun i hi => by
    obtain ⟨x, -, hx⟩ := List.mem_flatMap.mp hi
    rw [hL.length]
    exact groupWords_lt hx
  obtain ⟨out, hforall⟩ := exists_words hindices
  have hkeys : List.Forall₂ (fun v known => L.trimmedKey lower v = some known) out
      (out.map (List.take L.uniquePrefixLength)) := by
    rw [List.forall₂_map_right_iff, List.forall₂_same]
    intro w hw
    obtain ⟨j, hj, rfl⟩ := List.getElem_of_mem hw
    have hi := (List.forall₂_iff_get.mp hforall).2 j (by rw [hforall.length_eq]; exact hj) hj
    exact (hL.indexOf_eq hi).2
  have hlength : 0 < out.length := by
    obtain ⟨-, hnumbers, -⟩ := keyNumbers_spec key
    rw [← hforall.length_eq, List.length_flatMap]
    simp [length_groupWords, hnumbers]
  exact ⟨out, _, _, hforall, checksumIndex_eq hkeys,
    List.getElem?_eq_getElem (Nat.mod_lt _ hlength)⟩

/-- The language a phrase is answered in. -/
theorem findLanguageFrom_head {seed : List Word} (hall : ∀ w ∈ seed, (L.indexOf lower w true).isSome)
    (hsum : checksumOk lower seed L = true) (Ls : List WordList) (fallback : Option WordList) :
    findLanguageFrom lower seed true (L :: Ls) fallback = some L := by
  rw [findLanguageFrom, if_pos (List.all_eq_true.mpr hall), hsum]
  rfl

theorem findLanguageFrom_skip {seed : List Word} {w : Word} (hw : w ∈ seed)
    (hnone : L.indexOf lower w true = none) (Ls : List WordList) (fallback : Option WordList) :
    findLanguageFrom lower seed true (L :: Ls) fallback = findLanguageFrom lower seed true Ls fallback := by
  rw [findLanguageFrom, if_neg]
  intro hall
  have := List.all_eq_true.mp hall w hw
  rw [hnone] at this
  cases this

/-- What an answer to twenty-five words says. -/
theorem of_wordsToKey {languages : List WordList} {phrase : List Char} {key : SecretKey}
    (hlength : (split phrase).length = 25)
    (h : wordsToKey lower languages phrase = .ok (key, L)) :
    checksumOk lower (split phrase) L = true ∧
      ∃ bytes, groupBytes lower L true (split phrase).dropLast = .ok bytes ∧
        key = Bytes32.ofBytes bytes := by
  have hc : (split phrase).length = seedWords := hlength
  unfold wordsToKey at h
  simp only at h
  rw [if_neg (fun hne => hne.1 hc)] at h
  simp only [hc, true_and, if_true, decide_true] at h
  split at h
  · cases h
  · rename_i found _
    split_ifs at h with hsum
    obtain ⟨bytes, hbytes, hanswer⟩ := Outcome.bind_eq_ok.mp h
    cases hanswer
    exact ⟨Bool.not_eq_false _ ▸ hsum, bytes, hbytes, rfl⟩

/-- Twenty-five words that a language has, and whose checksum holds in it, are its key. -/
theorem wordsToKey_eq {languages : List WordList} {phrase : List Char} {bytes : Blob}
    (hlength : (split phrase).length = 25)
    (hfound : findLanguage lower languages (split phrase) true = some L)
    (hsum : checksumOk lower (split phrase) L = true)
    (hbytes : groupBytes lower L true (split phrase).dropLast = .ok bytes) :
    wordsToKey lower languages phrase = .ok (Bytes32.ofBytes bytes, L) := by
  have hc : (split phrase).length = seedWords := hlength
  unfold wordsToKey
  simp only
  rw [if_neg (fun hne => hne.1 hc)]
  simp only [hc, true_and, if_true, decide_true]
  rw [hfound]
  simp only
  rw [hsum, if_neg (by decide), hbytes]
  rfl

/-- **What is read of a key's words is the key**, in whatever order the languages are tried. -/
theorem Written.key_eq (hL : L.Proper lower) {key key' : SecretKey} {out : List Word} {idx : Nat}
    {last : Word} (h : Written lower L key out idx last) {languages : List WordList}
    (hread : wordsToKey lower languages (List.intercalate [' '] (out ++ [last])) = .ok (key', L)) :
    key' = key := by
  obtain ⟨hkey, -, hsmall⟩ := keyNumbers_spec key
  have hsplit := h.split_phrase hL
  obtain ⟨-, bytes, hbytes, rfl⟩ :=
    of_wordsToKey (by rw [hsplit, List.length_append, h.length]; rfl) hread
  rw [hsplit, List.dropLast_concat, groupBytes_eq hsmall (h.indexOf hL)] at hbytes
  cases hbytes
  exact hkey

/-- The words that are found at some places are, to the list, the words at these. -/
theorem same_of_indices {is : List Nat} {data out : List Word}
    (hdata : List.Forall₂ (fun i w => L.indexOf lower w true = some i) is data)
    (hout : List.Forall₂ (fun i w => L.words[i]? = some w) is out) :
    List.Forall₂ (L.Same lower) data out ∧
      List.Forall₂ (fun v known => L.trimmedKey lower v = some known) data
        (out.map (List.take L.uniquePrefixLength)) := by
  induction hdata generalizing out with
  | nil =>
      cases hout
      exact ⟨.nil, .nil⟩
  | cons hv _ ih =>
      cases hout with
      | cons hw hout =>
          obtain ⟨w, hword, hsame, hknown⟩ := WordList.of_indexOf hv
          obtain rfl := Option.some.inj (hword.symm.trans hw)
          obtain ⟨hsames, hknowns⟩ := ih hout
          exact ⟨.cons hsame hsames, .cons hknown hknowns⟩

/-- **Whatever is accepted is, to its language, what its key is written as.** -/
theorem same_of_wordsToKey (hL : L.Proper lower) {languages : List WordList} {phrase : List Char}
    {key : SecretKey} (hlength : (split phrase).length = 25)
    (hread : wordsToKey lower languages phrase = .ok (key, L)) :
    ∃ phrase', keyToWords lower key L = some phrase' ∧
      List.Forall₂ (L.Same lower) (split phrase) (split phrase') := by
  obtain ⟨hsum, bytes, hbytes, rfl⟩ := of_wordsToKey hlength hread
  obtain ⟨data, last', hseed⟩ : ∃ data last', split phrase = data ++ [last'] := by
    have hne : split phrase ≠ [] := fun hnil => by
      rw [hnil] at hlength
      cases hlength
    exact ⟨_, _, (List.dropLast_append_getLast hne).symm⟩
  rw [hseed] at hsum hbytes hlength ⊢
  rw [List.dropLast_concat] at hbytes
  have hdata : data.length = 3 * 8 := by
    rw [List.length_append] at hlength
    exact Nat.succ.inj hlength
  obtain ⟨xs, hxsLength, hxs, rfl, hindices⟩ := of_groupBytes hL.length hdata hbytes
  obtain ⟨out, idx, last, hwritten⟩ := exists_written hL (Bytes32.ofBytes (xs.flatMap (leBytes 4)))
  have hwords := hwritten.words
  rw [keyNumbers_ofBytes hxsLength hxs] at hwords
  obtain ⟨hsame, hknown⟩ := same_of_indices hindices hwords
  have hown := (same_of_indices (hwords.imp fun _ _ hw => (hL.indexOf_eq hw).1) hwords).2
  have hchecksum : checksumIndex lower data L = .ok idx := by
    rw [checksumIndex_eq hknown, hsame.length_eq, ← checksumIndex_eq hown]
    exact hwritten.checksum
  refine ⟨_, hwritten.keyToWords_eq, ?_⟩
  rw [hwritten.split_phrase hL]
  refine List.rel_append hsame (.cons ?_ .nil)
  -- The word repeated by the phrase is the one at the same place.
  unfold checksumOk at hsum
  rw [List.getLast?_concat, List.dropLast_concat, hchecksum] at hsum
  simp only at hsum
  have hidx : idx < data.length := by
    rw [hsame.length_eq]
    exact (List.getElem?_eq_some_iff.mp hwritten.last).1
  rw [List.getElem?_eq_getElem hidx] at hsum
  simp only [decide_eq_true_eq] at hsum
  obtain ⟨hidx', hlast⟩ := List.getElem?_eq_some_iff.mp hwritten.last
  have hplace := (List.forall₂_iff_get.mp hsame).2 idx hidx hidx'
  rw [List.get_eq_getElem, List.get_eq_getElem, hlast] at hplace
  exact hsum.symm.trans hplace

end

end Wownero.Mnemonic

import Mathlib
/-!
# JSON text

Values and their compact text: no blanks, members in the order of their names, and of the characters
of a string only those escaped that have to be.  The text of a value is read back as that value, and
two values never have one text.
-/

namespace Json

/-- A number is an integer, or digits with an exponent. -/
inductive Value where
  | null
  | bool (b : Bool)
  | int (n : Int)
  | real (digits exponent : Int)
  | string (s : String)
  | array (items : List Value)
  | object (members : List (String × Value))

/-- The members of an object. -/
abbrev Members := List (String × Value)

/-! ### Members -/

/-- A member put in its place; one of the same name gives way. -/
def insert (name : String) (value : Value) : Members → Members
  | [] => [(name, value)]
  | m :: ms =>
      if name < m.1 then (name, value) :: m :: ms
      else if name = m.1 then (name, value) :: ms
      else m :: insert name value ms

def remove (name : String) (ms : Members) : Members := ms.filter (·.1 ≠ name)

def get (name : String) (ms : Members) : Option Value := ms.lookup name

/-- Members put one after the other. -/
def ofList (ms : Members) : Members := ms.foldl (fun out m => insert m.1 m.2 out) []

/-- Members as an ordered map has them. -/
def Ascending (ms : Members) : Prop := ms.Pairwise fun a b => a.1 < b.1

mutual

/-- Something holds of a value and of every value in it. -/
def Value.Each (p : Value → Prop) : Value → Prop
  | .array items => p (.array items) ∧ EachItem p items
  | .object members => p (.object members) ∧ EachMember p members
  | .null => p .null
  | .bool b => p (.bool b)
  | .int n => p (.int n)
  | .real digits exponent => p (.real digits exponent)
  | .string s => p (.string s)

def EachItem (p : Value → Prop) : List Value → Prop
  | [] => True
  | v :: vs => v.Each p ∧ EachItem p vs

def EachMember (p : Value → Prop) : List (String × Value) → Prop
  | [] => True
  | (_, v) :: ms => v.Each p ∧ EachMember p ms

end

/-- The members are in order, should it be an object. -/
def Value.Ordered : Value → Prop
  | .object members => Ascending members
  | _ => True

/-- Every object in it is an ordered map. -/
def Value.Canonical (v : Value) : Prop := v.Each Value.Ordered

/-- The characters a value has of its own. -/
def Value.chars : Value → List Char
  | .string s => s.toList
  | .object members => members.flatMap fun m => m.1.toList
  | _ => []

/-- Something holds of every character in it. -/
def Value.All (p : Char → Prop) (v : Value) : Prop := v.Each fun v => ∀ c ∈ v.chars, p c

/-! ### Writing -/

/-- A character of a string. -/
def escape (c : Char) : List Char :=
  if c = '"' then ['\\', '"']
  else if c = '\\' then ['\\', '\\']
  else if c.toNat = 8 then ['\\', 'b']
  else if c.toNat = 9 then ['\\', 't']
  else if c.toNat = 10 then ['\\', 'n']
  else if c.toNat = 12 then ['\\', 'f']
  else if c.toNat = 13 then ['\\', 'r']
  else if c.toNat < 32 then ['\\', 'u', '0', '0', (c.toNat / 16).digitChar, (c.toNat % 16).digitChar]
  else [c]

def writeString (s : String) : List Char := '"' :: (s.toList.flatMap escape ++ ['"'])

def writeInt (n : Int) : List Char :=
  if n < 0 then '-' :: Nat.toDigits 10 n.natAbs else Nat.toDigits 10 n.natAbs

/-- Texts with commas between them. -/
def commas : List (List Char) → List Char
  | [] => []
  | [text] => text
  | text :: texts => text ++ ',' :: commas texts

mutual

/-- The compact text of a value. -/
def write : Value → List Char
  | .null => "null".toList
  | .bool true => "true".toList
  | .bool false => "false".toList
  | .int n => writeInt n
  | .real digits exponent => writeInt digits ++ 'e' :: writeInt exponent
  | .string s => writeString s
  | .array items => '[' :: (commas (writeItems items) ++ [']'])
  | .object members => '{' :: (commas (writeMembers members) ++ ['}'])

def writeItems : List Value → List (List Char)
  | [] => []
  | v :: vs => write v :: writeItems vs

def writeMembers : List (String × Value) → List (List Char)
  | [] => []
  | (name, v) :: ms => (writeString name ++ ':' :: write v) :: writeMembers ms

end

theorem write_null : write .null = "null".toList := rfl

theorem write_true : write (.bool true) = "true".toList := rfl

theorem write_false : write (.bool false) = "false".toList := rfl

theorem write_int (n : Int) : write (.int n) = writeInt n := rfl

theorem write_real (digits exponent : Int) :
    write (.real digits exponent) = writeInt digits ++ 'e' :: writeInt exponent := rfl

theorem write_string (s : String) : write (.string s) = writeString s := rfl

theorem write_array (items : List Value) :
    write (.array items) = '[' :: (commas (writeItems items) ++ [']']) := rfl

theorem write_object (members : List (String × Value)) :
    write (.object members) = '{' :: (commas (writeMembers members) ++ ['}']) := rfl

/-! ### Other characters -/

def mapString (f : Char → Char) (s : String) : String := String.ofList (s.toList.map f)

mutual

/-- Every character of every string and name put through a function. -/
def Value.mapChars (f : Char → Char) : Value → Value
  | .string s => .string (mapString f s)
  | .array items => .array (mapItems f items)
  | .object members => .object (mapMembers f members)
  | .null => .null
  | .bool b => .bool b
  | .int n => .int n
  | .real digits exponent => .real digits exponent

def mapItems (f : Char → Char) : List Value → List Value
  | [] => []
  | v :: vs => v.mapChars f :: mapItems f vs

def mapMembers (f : Char → Char) : List (String × Value) → List (String × Value)
  | [] => []
  | (name, v) :: ms => (mapString f name, v.mapChars f) :: mapMembers f ms

end

/-! ### Reading -/

/-- The value of a hexadecimal digit. -/
def hexDigit (c : Char) : Option Nat :=
  if '0' ≤ c ∧ c ≤ '9' then some (c.toNat - 48)
  else if 'a' ≤ c ∧ c ≤ 'f' then some (c.toNat - 87)
  else if 'A' ≤ c ∧ c ≤ 'F' then some (c.toNat - 55)
  else none

/-- A character by its number, four digits; halves of a pair are not characters. -/
def hexChar (a b c d : Char) : Option Char := do
  let n := 4096 * (← hexDigit a) + 256 * (← hexDigit b) + 16 * (← hexDigit c) + (← hexDigit d)
  if n.isValidChar then some (Char.ofNat n) else none

/-- What an escape of one character stands for. -/
def unescape (c : Char) : Option Char :=
  if c = '"' ∨ c = '\\' ∨ c = '/' then some c
  else if c = 'b' then some (Char.ofNat 8)
  else if c = 't' then some (Char.ofNat 9)
  else if c = 'n' then some (Char.ofNat 10)
  else if c = 'f' then some (Char.ofNat 12)
  else if c = 'r' then some (Char.ofNat 13)
  else none

/-- The characters of a string up to its closing quote, and what follows it. -/
def readChars : List Char → Option (List Char × List Char)
  | [] => none
  | c :: text =>
      if c = '"' then some ([], text)
      else if c = '\\' then
        match text with
        | 'u' :: x :: y :: z :: w :: text => do
            let c ← hexChar x y z w
            (readChars text).map fun found => (c :: found.1, found.2)
        | x :: text => do
            let c ← unescape x
            (readChars text).map fun found => (c :: found.1, found.2)
        | [] => none
      else if c.toNat < 32 then none
      else (readChars text).map fun found => (c :: found.1, found.2)

def readDigits (text : List Char) : Option (Nat × List Char) :=
  let digits := text.takeWhile Char.isDigit
  if digits.isEmpty then none
  else some (Nat.ofDigitChars 10 digits 0, text.drop digits.length)

def readInt : List Char → Option (Int × List Char)
  | '-' :: text => (readDigits text).map fun found => (-(found.1 : Int), found.2)
  | text => (readDigits text).map fun found => ((found.1 : Int), found.2)

def readNumber (text : List Char) : Option (Value × List Char) := do
  let (digits, text) ← readInt text
  match text with
  | 'e' :: text =>
      let (exponent, text) ← readInt text
      return (.real digits exponent, text)
  | text => return (.int digits, text)

/-- A word that stands for a value. -/
def readWord (word : List Char) (v : Value) (text : List Char) : Option (Value × List Char) :=
  if word.isPrefixOf text then some (v, text.drop word.length) else none

mutual

/-- A value and what follows it. -/
def readValue : Nat → List Char → Option (Value × List Char)
  | 0, _ => none
  | _, [] => none
  | fuel + 1, c :: text =>
      if c = '"' then (readChars text).map fun found => (.string (String.ofList found.1), found.2)
      else if c = '[' then
        if text.head? = some ']' then some (.array [], text.tail)
        else (readItems fuel text).map fun found => (.array found.1, found.2)
      else if c = '{' then
        if text.head? = some '}' then some (.object [], text.tail)
        else (readMembers fuel [] text).map fun found => (.object found.1, found.2)
      else if c = 'n' then readWord "ull".toList .null text
      else if c = 't' then readWord "rue".toList (.bool true) text
      else if c = 'f' then readWord "alse".toList (.bool false) text
      else readNumber (c :: text)

/-- The items of an array behind its bracket. -/
def readItems : Nat → List Char → Option (List Value × List Char)
  | 0, _ => none
  | fuel + 1, text => do
      let (v, text) ← readValue fuel text
      match text with
      | ',' :: text => (readItems fuel text).map fun found => (v :: found.1, found.2)
      | ']' :: text => some ([v], text)
      | _ => none

/-- The members of an object behind its brace, put among those before them. -/
def readMembers : Nat → Members → List Char → Option (Members × List Char)
  | 0, _, _ => none
  | fuel + 1, out, text => do
      match text with
      | '"' :: text =>
          let (name, text) ← readChars text
          match text with
          | ':' :: text =>
              let (v, text) ← readValue fuel text
              match text with
              | ',' :: text => readMembers fuel (insert (String.ofList name) v out) text
              | '}' :: text => some (insert (String.ofList name) v out, text)
              | _ => none
          | _ => none
      | _ => none

end

/-- A whole text. -/
def read (text : List Char) : Option Value := do
  let (v, rest) ← readValue text.length text
  if rest.isEmpty then some v else none

/-! ### Every value in a value -/

mutual

/-- Items and members come before what holds them. -/
theorem Value.induct {motive : Value → Prop} (null : motive .null) (bool : ∀ b, motive (.bool b))
    (int : ∀ n, motive (.int n)) (real : ∀ digits exponent, motive (.real digits exponent))
    (string : ∀ s, motive (.string s)) (array : ∀ items, (∀ v ∈ items, motive v) → motive (.array items))
    (object : ∀ members : Members, (∀ m ∈ members, motive m.2) → motive (.object members)) :
    ∀ v, motive v
  | .null => null
  | .bool b => bool b
  | .int n => int n
  | .real digits exponent => real digits exponent
  | .string s => string s
  | .array items => array items (Value.inductItems null bool int real string array object items)
  | .object members =>
      object members (Value.inductMembers null bool int real string array object members)

theorem Value.inductItems {motive : Value → Prop} (null : motive .null) (bool : ∀ b, motive (.bool b))
    (int : ∀ n, motive (.int n)) (real : ∀ digits exponent, motive (.real digits exponent))
    (string : ∀ s, motive (.string s)) (array : ∀ items, (∀ v ∈ items, motive v) → motive (.array items))
    (object : ∀ members : Members, (∀ m ∈ members, motive m.2) → motive (.object members)) :
    ∀ items : List Value, ∀ v ∈ items, motive v
  | [] => List.forall_mem_nil _
  | v :: items => List.forall_mem_cons.mpr
      ⟨Value.induct null bool int real string array object v,
        Value.inductItems null bool int real string array object items⟩

theorem Value.inductMembers {motive : Value → Prop} (null : motive .null) (bool : ∀ b, motive (.bool b))
    (int : ∀ n, motive (.int n)) (real : ∀ digits exponent, motive (.real digits exponent))
    (string : ∀ s, motive (.string s)) (array : ∀ items, (∀ v ∈ items, motive v) → motive (.array items))
    (object : ∀ members : Members, (∀ m ∈ members, motive m.2) → motive (.object members)) :
    ∀ members : Members, ∀ m ∈ members, motive m.2
  | [] => List.forall_mem_nil _
  | (_, v) :: members => List.forall_mem_cons.mpr
      ⟨Value.induct null bool int real string array object v,
        Value.inductMembers null bool int real string array object members⟩

end

theorem eachItem_iff {p : Value → Prop} {items : List Value} :
    EachItem p items ↔ ∀ v ∈ items, v.Each p := by
  induction items with
  | nil => exact iff_of_true trivial (List.forall_mem_nil _)
  | cons v items ih => rw [EachItem, ih, List.forall_mem_cons]

theorem eachMember_iff {p : Value → Prop} {members : Members} :
    EachMember p members ↔ ∀ m ∈ members, m.2.Each p := by
  induction members with
  | nil => exact iff_of_true trivial (List.forall_mem_nil _)
  | cons m members ih => rw [EachMember, ih, List.forall_mem_cons]

theorem each_array {p : Value → Prop} {items : List Value} :
    (Value.array items).Each p ↔ p (.array items) ∧ ∀ v ∈ items, v.Each p := by
  rw [Value.Each, eachItem_iff]

theorem each_object {p : Value → Prop} {members : Members} :
    (Value.object members).Each p ↔ p (.object members) ∧ ∀ m ∈ members, m.2.Each p := by
  rw [Value.Each, eachMember_iff]

theorem each_of_forall {p : Value → Prop} (h : ∀ v, p v) (v : Value) : v.Each p := by
  induction v using Value.induct with
  | null | bool | int | real | string => exact h _
  | array items ih => exact each_array.mpr ⟨h _, ih⟩
  | object members ih => exact each_object.mpr ⟨h _, ih⟩

theorem all_object {p : Char → Prop} {members : Members} :
    (Value.object members).All p ↔ ∀ m ∈ members, (∀ c ∈ m.1.toList, p c) ∧ m.2.All p := by
  rw [Value.All, each_object]
  constructor
  · rintro ⟨hnames, hmembers⟩ m hm
    exact ⟨fun c hc => hnames c (List.mem_flatMap.mpr ⟨m, hm, hc⟩), hmembers m hm⟩
  · intro h
    refine ⟨fun c hc => ?_, fun m hm => (h m hm).2⟩
    obtain ⟨m, hm, hc⟩ := List.mem_flatMap.mp hc
    exact (h m hm).1 c hc

/-- What follows for one value follows for all in it. -/
theorem Value.Each.mono {p q : Value → Prop} (h : ∀ v, p v → q v) {v : Value} (hv : v.Each p) :
    v.Each q := by
  induction v using Value.induct with
  | null | bool | int | real | string => exact h _ hv
  | array items ih =>
      obtain ⟨hself, hitems⟩ := each_array.mp hv
      exact each_array.mpr ⟨h _ hself, fun v hv => ih v hv (hitems v hv)⟩
  | object members ih =>
      obtain ⟨hself, hmembers⟩ := each_object.mp hv
      exact each_object.mpr ⟨h _ hself, fun m hm => ih m hm (hmembers m hm)⟩

/-! ### Strings -/

theorem hexDigit_digitChar {d : Nat} (h : d < 16) : hexDigit d.digitChar = some d := by
  revert d
  decide

theorem hexChar_of_lt {n : Nat} (h : n < 32) :
    hexChar '0' '0' (n / 16).digitChar (n % 16).digitChar = some (Char.ofNat n) := by
  revert n
  decide

theorem readChars_cons (c : Char) (text : List Char) :
    readChars (c :: text) =
      if c = '"' then some ([], text)
      else if c = '\\' then
        match text with
        | 'u' :: x :: y :: z :: w :: text => do
            let c ← hexChar x y z w
            (readChars text).map fun found => (c :: found.1, found.2)
        | x :: text => do
            let c ← unescape x
            (readChars text).map fun found => (c :: found.1, found.2)
        | [] => none
      else if c.toNat < 32 then none
      else (readChars text).map fun found => (c :: found.1, found.2) := by
  rw [readChars.eq_def]

theorem readChars_quote (text : List Char) : readChars ('"' :: text) = some ([], text) := by
  rw [readChars_cons]
  exact if_pos rfl

theorem readChars_plain {c : Char} (hquote : c ≠ '"') (hslash : c ≠ '\\') (hlong : ¬c.toNat < 32)
    (text : List Char) :
    readChars (c :: text) = (readChars text).map fun found => (c :: found.1, found.2) := by
  rw [readChars_cons]
  rw [if_neg hquote, if_neg hslash, if_neg hlong]

/-- An escape of one character. -/
theorem readChars_short {x c : Char} (hu : x ≠ 'u') (hx : unescape x = some c) (text : List Char) :
    readChars ('\\' :: x :: text) = (readChars text).map fun found => (c :: found.1, found.2) := by
  rw [readChars_cons]
  rw [if_neg (by decide), if_pos rfl]
  split
  · next heq => exact absurd (List.cons.inj heq).1 hu
  · next heq =>
      obtain ⟨rfl, rfl⟩ := List.cons.inj heq
      rw [hx]
      rfl
  · next heq => nomatch heq

theorem readChars_number {n : Nat} (h : n < 32) (text : List Char) :
    readChars ('\\' :: 'u' :: '0' :: '0' :: (n / 16).digitChar :: (n % 16).digitChar :: text) =
      (readChars text).map fun found => (Char.ofNat n :: found.1, found.2) := by
  rw [readChars_cons]
  rw [if_neg (by decide), if_pos rfl]
  show (hexChar '0' '0' (n / 16).digitChar (n % 16).digitChar >>= fun c =>
    (readChars text).map fun found => (c :: found.1, found.2)) = _
  rw [hexChar_of_lt h]
  rfl

/-- What an escape looks like: a backslash and a letter, a number, or the character itself. -/
theorem escape_spec (c : Char) :
    (∃ x ∈ ['"', '\\', 'b', 't', 'n', 'f', 'r'], escape c = ['\\', x] ∧ unescape x = some c) ∨
      (c.toNat < 32 ∧ escape c =
        ['\\', 'u', '0', '0', (c.toNat / 16).digitChar, (c.toNat % 16).digitChar]) ∨
      (c ≠ '"' ∧ c ≠ '\\' ∧ ¬c.toNat < 32 ∧ escape c = [c]) := by
  have hback {n : Nat} (h : c.toNat = n) : Char.ofNat n = c := by rw [← h, Char.ofNat_toNat]
  unfold escape
  by_cases hquote : c = '"'
  · rw [if_pos hquote, hquote]
    exact .inl ⟨'"', by simp, rfl, rfl⟩
  rw [if_neg hquote]
  by_cases hslash : c = '\\'
  · rw [if_pos hslash, hslash]
    exact .inl ⟨'\\', by simp, rfl, rfl⟩
  rw [if_neg hslash]
  by_cases h8 : c.toNat = 8
  · rw [if_pos h8, ← hback h8]
    exact .inl ⟨'b', by simp, rfl, rfl⟩
  rw [if_neg h8]
  by_cases h9 : c.toNat = 9
  · rw [if_pos h9, ← hback h9]
    exact .inl ⟨'t', by simp, rfl, rfl⟩
  rw [if_neg h9]
  by_cases h10 : c.toNat = 10
  · rw [if_pos h10, ← hback h10]
    exact .inl ⟨'n', by simp, rfl, rfl⟩
  rw [if_neg h10]
  by_cases h12 : c.toNat = 12
  · rw [if_pos h12, ← hback h12]
    exact .inl ⟨'f', by simp, rfl, rfl⟩
  rw [if_neg h12]
  by_cases h13 : c.toNat = 13
  · rw [if_pos h13, ← hback h13]
    exact .inl ⟨'r', by simp, rfl, rfl⟩
  rw [if_neg h13]
  by_cases hlow : c.toNat < 32
  · rw [if_pos hlow]
    exact .inr (.inl ⟨hlow, rfl⟩)
  · rw [if_neg hlow]
    exact .inr (.inr ⟨hquote, hslash, hlow, rfl⟩)

theorem readChars_escape (c : Char) (text : List Char) :
    readChars (escape c ++ text) = (readChars text).map fun found => (c :: found.1, found.2) := by
  rcases escape_spec c with ⟨x, hmem, heq, hx⟩ | ⟨hlow, heq⟩ | ⟨hquote, hslash, hlow, heq⟩
  · have hu : x ≠ 'u' := by
      rintro rfl
      simp at hmem
    rw [heq]
    exact readChars_short hu hx text
  · have hread := readChars_number hlow text
    rw [Char.ofNat_toNat] at hread
    rw [heq]
    exact hread
  · rw [heq]
    exact readChars_plain hquote hslash hlow text

theorem readChars_string (cs : List Char) (text : List Char) :
    readChars (cs.flatMap escape ++ '"' :: text) = some (cs, text) := by
  induction cs with
  | nil => exact readChars_quote text
  | cons c cs ih => rw [List.flatMap_cons, List.append_assoc, readChars_escape, ih, Option.map_some]

/-! ### Numbers -/

/-- What may follow a number: nothing that could belong to it. -/
def EndsNumber (text : List Char) : Prop := ∀ c ∈ text.head?, c.isDigit = false ∧ c ≠ 'e'

theorem endsNumber_cons {c : Char} {text : List Char} (hdigit : c.isDigit = false) (he : c ≠ 'e') :
    EndsNumber (c :: text) := by
  rintro x ⟨⟩
  exact ⟨hdigit, he⟩

theorem readDigits_toDigits (n : Nat) {text : List Char} (h : ∀ c ∈ text.head?, c.isDigit = false) :
    readDigits (Nat.toDigits 10 n ++ text) = some (n, text) := by
  have hall : ∀ c ∈ Nat.toDigits 10 n, c.isDigit = true := fun c hc =>
    Nat.isDigit_of_mem_toDigits (by decide) (by decide) hc
  have hwhile : (Nat.toDigits 10 n ++ text).takeWhile Char.isDigit = Nat.toDigits 10 n := by
    rw [List.takeWhile_append_of_pos hall]
    cases text with
    | nil => rw [List.takeWhile_nil, List.append_nil]
    | cons c text =>
        have hc : ¬c.isDigit = true := by rw [h c rfl]; decide
        rw [List.takeWhile_cons_of_neg hc, List.append_nil]
  have hne : (Nat.toDigits 10 n).isEmpty = false := by
    rw [List.isEmpty_eq_false_iff]
    exact Nat.toDigits_ne_nil
  unfold readDigits
  simp only [hwhile, hne, List.drop_left, Nat.ofDigitChars_toDigits (b := 10) (by decide) (by decide)]
  rfl

theorem readInt_of_ne {c : Char} (h : c ≠ '-') (text : List Char) :
    readInt (c :: text) = (readDigits (c :: text)).map fun found => ((found.1 : Int), found.2) := by
  rw [readInt.eq_def]
  split
  · next heq => exact absurd (List.cons.inj heq).1 h
  · rfl

/-- The first digit of a number that is not negative. -/
theorem exists_toDigits_cons (n : Nat) : ∃ c ds, Nat.toDigits 10 n = c :: ds ∧ c.isDigit = true := by
  obtain ⟨c, ds, hcons⟩ := List.exists_cons_of_ne_nil (Nat.toDigits_ne_nil (n := n) (b := 10))
  refine ⟨c, ds, hcons, Nat.isDigit_of_mem_toDigits (b := 10) (n := n) (by decide) (by decide) ?_⟩
  rw [hcons]
  exact List.mem_cons_self

theorem readInt_writeInt (n : Int) {text : List Char} (h : ∀ c ∈ text.head?, c.isDigit = false) :
    readInt (writeInt n ++ text) = some (n, text) := by
  unfold writeInt
  split
  · next hneg =>
      rw [List.cons_append, readInt, readDigits_toDigits n.natAbs h, Option.map_some]
      congr 2
      omega
  · next hpos =>
      have hread := readDigits_toDigits n.natAbs h
      obtain ⟨c, ds, hcons, hdigit⟩ := exists_toDigits_cons n.natAbs
      have hne : c ≠ '-' := by
        rintro rfl
        exact absurd hdigit (by decide)
      rw [hcons, List.cons_append] at hread ⊢
      rw [readInt_of_ne hne, hread, Option.map_some]
      congr 2
      omega

theorem readNumber_int (n : Int) {text : List Char} (h : EndsNumber text) :
    readNumber (writeInt n ++ text) = some (.int n, text) := by
  rw [readNumber, readInt_writeInt n fun c hc => (h c hc).1]
  dsimp only [Option.bind_eq_bind, Option.bind_some]
  split
  · exact absurd rfl (h 'e' rfl).2
  · rfl

theorem readNumber_real (digits exponent : Int) {text : List Char} (h : EndsNumber text) :
    readNumber (writeInt digits ++ 'e' :: writeInt exponent ++ text) = some (.real digits exponent, text) := by
  have he : ∀ c ∈ ('e' :: (writeInt exponent ++ text)).head?, c.isDigit = false := by
    rintro c ⟨⟩
    rfl
  rw [List.append_assoc, List.cons_append, readNumber, readInt_writeInt digits he]
  show (readInt (writeInt exponent ++ text) >>= fun found => pure (Value.real digits found.1, found.2)) = _
  rw [readInt_writeInt exponent fun c hc => (h c hc).1]
  rfl

theorem readValue_cons (fuel : Nat) (c : Char) (text : List Char) :
    readValue (fuel + 1) (c :: text) =
      if c = '"' then (readChars text).map fun found => (.string (String.ofList found.1), found.2)
      else if c = '[' then
        if text.head? = some ']' then some (.array [], text.tail)
        else (readItems fuel text).map fun found => (.array found.1, found.2)
      else if c = '{' then
        if text.head? = some '}' then some (.object [], text.tail)
        else (readMembers fuel [] text).map fun found => (.object found.1, found.2)
      else if c = 'n' then readWord "ull".toList .null text
      else if c = 't' then readWord "rue".toList (.bool true) text
      else if c = 'f' then readWord "alse".toList (.bool false) text
      else readNumber (c :: text) := by
  rw [readValue]

/-- A number begins like no other value. -/
theorem exists_writeInt_cons (n : Int) : ∃ c ds, writeInt n = c :: ds ∧ (c = '-' ∨ c.isDigit = true) := by
  unfold writeInt
  split
  · exact ⟨_, _, rfl, .inl rfl⟩
  · obtain ⟨c, ds, hcons, hdigit⟩ := exists_toDigits_cons n.natAbs
    exact ⟨c, ds, hcons, .inr hdigit⟩

theorem readValue_number (fuel : Nat) {c : Char} (h : c = '-' ∨ c.isDigit = true) (text : List Char) :
    readValue (fuel + 1) (c :: text) = readNumber (c :: text) := by
  have hne {x : Char} (hx : x ≠ '-' ∧ x.isDigit = false) : c ≠ x := by
    rintro rfl
    rcases h with h | h
    · exact hx.1 h
    · rw [hx.2] at h
      nomatch h
  rw [readValue_cons, if_neg (hne (by decide)), if_neg (hne (by decide)), if_neg (hne (by decide)),
    if_neg (hne (by decide)), if_neg (hne (by decide)), if_neg (hne (by decide))]

/-! ### Values -/

theorem insert_last {name : String} {v : Value} {out : Members} (h : ∀ m ∈ out, m.1 < name) :
    insert name v out = out ++ [(name, v)] := by
  induction out with
  | nil => rfl
  | cons m out ih =>
      obtain ⟨hm, hrest⟩ := List.forall_mem_cons.mp h
      rw [insert, if_neg (lt_asymm hm), if_neg (ne_of_gt hm), ih hrest, List.cons_append]

theorem commas_cons_cons (text text' : List Char) (texts : List (List Char)) :
    commas (text :: text' :: texts) = text ++ ',' :: commas (text' :: texts) := rfl

/-- A value read back from its text, wherever a value may end. -/
def ReadsBack (v : Value) : Prop := ∀ fuel text, (write v).length ≤ fuel → EndsNumber text →
  readValue fuel (write v ++ text) = some (v, text)

theorem endsNumber_comma (text : List Char) : EndsNumber (',' :: text) := endsNumber_cons rfl (by decide)

theorem writeItems_eq (items : List Value) : writeItems items = items.map write := by
  induction items with
  | nil => rfl
  | cons v items ih => rw [writeItems, ih, List.map_cons]

theorem writeMembers_eq (members : Members) :
    writeMembers members = members.map fun m => writeString m.1 ++ ':' :: write m.2 := by
  induction members with
  | nil => rfl
  | cons m members ih => rw [writeMembers, ih, List.map_cons]

/-- No value begins like the end of an array. -/
theorem exists_write_cons (v : Value) : ∃ c text, write v = c :: text ∧ c ≠ ']' := by
  have hnumber {n : Int} {text : List Char} : ∃ c rest, writeInt n ++ text = c :: rest ∧ c ≠ ']' := by
    obtain ⟨c, ds, hcons, hc⟩ := exists_writeInt_cons n
    refine ⟨c, ds ++ text, by rw [hcons]; rfl, ?_⟩
    rintro rfl
    exact absurd hc (by decide)
  cases v with
  | null => exact ⟨_, _, rfl, by decide⟩
  | bool b => cases b <;> exact ⟨_, _, rfl, by decide⟩
  | int n =>
      obtain ⟨c, text, hcons, hc⟩ := @hnumber n []
      exact ⟨c, text, by rw [write_int, ← hcons, List.append_nil], hc⟩
  | real digits exponent => exact hnumber
  | string s => exact ⟨_, _, rfl, by decide⟩
  | array items => exact ⟨_, _, rfl, by decide⟩
  | object members => exact ⟨_, _, rfl, by decide⟩

/-- Items that are read back make an array that is. -/
theorem readItems_commas {items : List Value} (h : ∀ v ∈ items, ReadsBack v) (hne : items ≠ [])
    (fuel : Nat) (text : List Char) (hfuel : (commas (writeItems items)).length < fuel) :
    readItems fuel (commas (writeItems items) ++ ']' :: text) = some (items, text) := by
  induction items generalizing fuel with
  | nil => exact absurd rfl hne
  | cons v items ih =>
      obtain ⟨hv, hitems⟩ := List.forall_mem_cons.mp h
      cases fuel with
      | zero => omega
      | succ fuel =>
          cases items with
          | nil =>
              have hread := hv fuel (']' :: text) (by exact Nat.le_of_lt_succ hfuel)
                (endsNumber_cons rfl (by decide))
              rw [readItems]
              show (readValue fuel (write v ++ ']' :: text) >>= fun found => _) = _
              rw [hread]
              rfl
          | cons v' items =>
              rw [writeItems, writeItems, commas_cons_cons, ← writeItems] at hfuel ⊢
              rw [List.length_append, List.length_cons] at hfuel
              have hread := hv fuel (',' :: (commas (writeItems (v' :: items)) ++ ']' :: text)) (by omega)
                (endsNumber_comma _)
              rw [readItems, List.append_assoc, List.cons_append, hread]
              have hrest := ih hitems (List.cons_ne_nil _ _) fuel (by omega)
              show (readItems fuel (commas (writeItems (v' :: items)) ++ ']' :: text)).map _ = _
              rw [hrest]
              rfl

/-- A member behind which another one comes. -/
theorem readMembers_comma (name : String) {v : Value} {fuel : Nat} {text : List Char}
    (hread : readValue fuel (write v ++ ',' :: text) = some (v, ',' :: text)) (out : Members) :
    readMembers (fuel + 1) out (writeString name ++ ':' :: (write v ++ ',' :: text)) =
      readMembers fuel (insert name v out) text := by
  rw [writeString, List.cons_append, readMembers]
  simp only [List.append_assoc, List.cons_append, List.nil_append, readChars_string, Option.bind_eq_bind,
    Option.bind_some, hread, String.ofList_toList]

/-- The last member. -/
theorem readMembers_brace (name : String) {v : Value} {fuel : Nat} {text : List Char}
    (hread : readValue fuel (write v ++ '}' :: text) = some (v, '}' :: text)) (out : Members) :
    readMembers (fuel + 1) out (writeString name ++ ':' :: (write v ++ '}' :: text)) =
      some (insert name v out, text) := by
  rw [writeString, List.cons_append, readMembers]
  simp only [List.append_assoc, List.cons_append, List.nil_append, readChars_string, Option.bind_eq_bind,
    Option.bind_some, hread, String.ofList_toList]

/-- Members in order are put one behind the other. -/
theorem readMembers_commas {members : Members} (h : ∀ m ∈ members, ReadsBack m.2) (hne : members ≠ [])
    (hascending : Ascending members) (fuel : Nat) (out : Members) (text : List Char)
    (hout : ∀ m ∈ out, ∀ m' ∈ members, m.1 < m'.1)
    (hfuel : (commas (writeMembers members)).length < fuel) :
    readMembers fuel out (commas (writeMembers members) ++ '}' :: text) = some (out ++ members, text) := by
  induction members generalizing fuel out with
  | nil => exact absurd rfl hne
  | cons m members ih =>
      obtain ⟨name, v⟩ := m
      obtain ⟨hv, hmembers⟩ := List.forall_mem_cons.mp h
      obtain ⟨hfirst, hrest⟩ := List.pairwise_cons.mp hascending
      have hlast : insert name v out = out ++ [(name, v)] :=
        insert_last fun m hm => hout m hm (name, v) List.mem_cons_self
      cases fuel with
      | zero => omega
      | succ fuel =>
          cases members with
          | nil =>
              have hshort : (write v).length ≤ fuel := by
                have hlength : (writeString name ++ ':' :: write v).length < fuel + 1 := hfuel
                rw [List.length_append, List.length_cons] at hlength
                omega
              have hread := hv fuel ('}' :: text) hshort (endsNumber_cons rfl (by decide))
              have hmember := readMembers_brace name hread out
              rw [hlast] at hmember
              rw [← hmember, writeMembers, writeMembers, commas, List.append_assoc, List.cons_append]
          | cons m' members =>
              have hlength : (writeString name ++ ':' :: write v ++
                  ',' :: commas (writeMembers (m' :: members))).length < fuel + 1 := hfuel
              rw [List.length_append, List.length_append, List.length_cons, List.length_cons] at hlength
              have hread := hv fuel (',' :: (commas (writeMembers (m' :: members)) ++ '}' :: text))
                (by dsimp only; omega) (endsNumber_comma _)
              have hafter : ∀ m ∈ out ++ [(name, v)], ∀ m'' ∈ m' :: members, m.1 < m''.1 := by
                intro m hm m'' hm''
                rcases List.mem_append.mp hm with hm | hm
                · exact hout m hm m'' (List.mem_cons_of_mem _ hm'')
                · rw [List.mem_singleton.mp hm]
                  exact hfirst m'' hm''
              have hmember := readMembers_comma name hread out
              rw [hlast, ih hmembers (List.cons_ne_nil _ _) hrest fuel _ hafter (by omega),
                List.append_assoc, List.singleton_append] at hmember
              rw [← hmember]
              simp only [writeMembers, commas_cons_cons, List.append_assoc, List.cons_append]

theorem readWord_self (word : List Char) (v : Value) (text : List Char) :
    readWord word v (word ++ text) = some (v, text) := by
  rw [readWord, if_pos (List.isPrefixOf_iff_prefix.mpr (List.prefix_append _ _)), List.drop_left]

theorem readsBack_string (s : String) : ReadsBack (.string s) := by
  rintro (_ | fuel) text hfuel -
  · nomatch hfuel
  · rw [write_string, writeString, List.cons_append, readValue_cons, if_pos rfl, List.append_assoc,
      List.singleton_append, readChars_string, Option.map_some, String.ofList_toList]

theorem readsBack_int (n : Int) : ReadsBack (.int n) := by
  intro fuel text hfuel hends
  obtain ⟨c, ds, hcons, hc⟩ := exists_writeInt_cons n
  have hread := readNumber_int n hends
  rw [write_int] at hfuel ⊢
  rw [hcons] at hfuel hread ⊢
  cases fuel with
  | zero => nomatch hfuel
  | succ fuel => rw [List.cons_append, readValue_number fuel hc, ← List.cons_append, hread]

theorem readsBack_real (digits exponent : Int) : ReadsBack (.real digits exponent) := by
  intro fuel text hfuel hends
  obtain ⟨c, ds, hcons, hc⟩ := exists_writeInt_cons digits
  have hread := readNumber_real digits exponent hends
  rw [write_real] at hfuel ⊢
  rw [hcons] at hfuel hread ⊢
  cases fuel with
  | zero => nomatch hfuel
  | succ fuel => rw [List.cons_append, List.cons_append, readValue_number fuel hc, ← List.cons_append,
      ← List.cons_append, hread]

/-- Texts with commas begin as the first of them does. -/
theorem head?_commas {c : Char} {text : List Char} (texts : List (List Char)) (rest : List Char) :
    (commas ((c :: text) :: texts) ++ rest).head? = some c := by
  cases texts <;> rfl

theorem readsBack_array {items : List Value} (h : ∀ v ∈ items, ReadsBack v) : ReadsBack (.array items) := by
  rintro (_ | fuel) text hfuel -
  · nomatch hfuel
  cases items with
  | nil => rfl
  | cons v items =>
      obtain ⟨c, rest, hcons, hc⟩ := exists_write_cons v
      rw [write_array, List.length_cons, List.length_append, List.length_singleton] at hfuel
      have hread := readItems_commas h (List.cons_ne_nil _ _) fuel text (by omega)
      have hhead : (commas (writeItems (v :: items)) ++ ']' :: text).head? ≠ some ']' := by
        rw [writeItems, hcons, head?_commas]
        exact fun heq => hc (Option.some.inj heq)
      rw [write_array, List.cons_append, List.append_assoc, List.singleton_append, readValue_cons, if_neg (by decide),
        if_pos rfl, if_neg hhead, hread, Option.map_some]

theorem readsBack_object {members : Members} (h : ∀ m ∈ members, ReadsBack m.2)
    (hascending : Ascending members) : ReadsBack (.object members) := by
  rintro (_ | fuel) text hfuel -
  · nomatch hfuel
  cases members with
  | nil => rfl
  | cons m members =>
      rw [write_object, List.length_cons, List.length_append, List.length_singleton] at hfuel
      have hread := readMembers_commas h (List.cons_ne_nil _ _) hascending fuel [] text
        (List.forall_mem_nil _) (by omega)
      have hhead : (commas (writeMembers (m :: members)) ++ '}' :: text).head? ≠ some '}' := by
        rw [writeMembers, writeString, List.cons_append, head?_commas]
        decide
      rw [write_object, List.cons_append, List.append_assoc, List.singleton_append, readValue_cons, if_neg (by decide),
        if_neg (by decide), if_pos rfl, if_neg hhead, hread, Option.map_some, List.nil_append]

/-- Every value whose objects are in order is read back from its text. -/
theorem Value.Canonical.readsBack {v : Value} (h : v.Canonical) : ReadsBack v := by
  induction v using Value.induct with
  | null =>
      rintro (_ | fuel) text hfuel -
      · nomatch hfuel
      · exact readWord_self "ull".toList .null text
  | bool b =>
      rintro (_ | fuel) text hfuel -
      · cases b <;> nomatch hfuel
      · cases b
        · exact readWord_self "alse".toList (.bool false) text
        · exact readWord_self "rue".toList (.bool true) text
  | int n => exact readsBack_int n
  | real digits exponent => exact readsBack_real digits exponent
  | string s => exact readsBack_string s
  | array items ih => exact readsBack_array fun v hv => ih v hv ((each_array.mp h).2 v hv)
  | object members ih =>
      obtain ⟨hascending, hmembers⟩ := each_object.mp h
      exact readsBack_object (fun m hm => ih m hm (hmembers m hm)) hascending

/-- The text of a value is read as that value. -/
theorem read_write {v : Value} (h : v.Canonical) : read (write v) = some v := by
  have hread := h.readsBack (write v).length [] le_rfl (by rintro c ⟨⟩)
  rw [List.append_nil] at hread
  rw [read, hread]
  rfl

/-- Two values have two texts. -/
theorem write_injective {v v' : Value} (h : v.Canonical) (h' : v'.Canonical) (heq : write v = write v') :
    v = v' := by
  have hread := read_write h
  rw [heq, read_write h'] at hread
  exact (Option.some.inj hread).symm

/-! ### The characters of a text -/

theorem digitChar_printable {d : Nat} (h : d < 16) :
    32 ≤ d.digitChar.toNat ∧ d.digitChar.toNat < 128 := by
  revert d
  decide

/-- An escape is a character that needs none, or printable. -/
theorem escape_cases (c : Char) :
    (escape c = [c] ∧ 32 ≤ c.toNat) ∨ (∀ x ∈ escape c, 32 ≤ x.toNat ∧ x.toNat < 128) := by
  rcases escape_spec c with ⟨x, hmem, heq, -⟩ | ⟨hlow, heq⟩ | ⟨-, -, hlow, heq⟩
  · have hletters : ∀ x ∈ ['"', '\\', 'b', 't', 'n', 'f', 'r'],
        32 ≤ Char.toNat x ∧ Char.toNat x < 128 := by
      simp
    rw [heq]
    exact .inr (by simpa using hletters x hmem)
  · have hhigh := @digitChar_printable (c.toNat / 16) (by omega)
    have hlast := @digitChar_printable (c.toNat % 16) (by omega)
    rw [heq]
    refine .inr ?_
    simp only [List.forall_mem_cons]
    exact ⟨by decide, by decide, by decide, by decide, hhigh, hlast, List.forall_mem_nil _⟩
  · exact .inl ⟨heq, Nat.not_lt.mp hlow⟩

section

variable {p : Char → Prop} (hplain : ∀ c : Char, 32 ≤ c.toNat → c.toNat < 128 → p c)

include hplain

theorem forall_mem_writeString {s : String} (h : ∀ c ∈ s.toList, 32 ≤ c.toNat → p c) :
    ∀ c ∈ writeString s, p c := by
  have hquote : p '"' := hplain _ (by decide) (by decide)
  have hchars : ∀ x ∈ s.toList.flatMap escape, p x := by
    intro x hx
    obtain ⟨c, hc, hx⟩ := List.mem_flatMap.mp hx
    rcases escape_cases c with ⟨heq, hlow⟩ | hescaped
    · rw [heq, List.mem_singleton] at hx
      rw [hx]
      exact h c hc hlow
    · exact hplain x (hescaped x hx).1 (hescaped x hx).2
  exact List.forall_mem_cons.mpr ⟨hquote, List.forall_mem_append.mpr ⟨hchars, List.forall_mem_singleton.mpr hquote⟩⟩

theorem forall_mem_writeInt (n : Int) : ∀ c ∈ writeInt n, p c := by
  have hdigits : ∀ c ∈ Nat.toDigits 10 n.natAbs, p c := by
    intro c hc
    have hdigit := Nat.isDigit_of_mem_toDigits (b := 10) (by decide) (by decide) hc
    rw [Char.isDigit, Bool.and_eq_true, decide_eq_true_eq, decide_eq_true_eq] at hdigit
    have hlow : 48 ≤ c.toNat := hdigit.1
    have hhigh : c.toNat ≤ 57 := hdigit.2
    exact hplain c (by omega) (by omega)
  unfold writeInt
  split
  · exact List.forall_mem_cons.mpr ⟨hplain _ (by decide) (by decide), hdigits⟩
  · exact hdigits

theorem forall_mem_commas {texts : List (List Char)} (h : ∀ text ∈ texts, ∀ c ∈ text, p c) :
    ∀ c ∈ commas texts, p c := by
  induction texts with
  | nil => exact List.forall_mem_nil _
  | cons text texts ih =>
      obtain ⟨htext, htexts⟩ := List.forall_mem_cons.mp h
      cases texts with
      | nil => exact htext
      | cons text' texts =>
          rw [commas_cons_cons]
          exact List.forall_mem_append.mpr
            ⟨htext, List.forall_mem_cons.mpr ⟨hplain _ (by decide) (by decide), ih htexts⟩⟩

/-- What holds of the printable characters and of those of a value holds of its text. -/
theorem forall_mem_write {v : Value} (h : v.All fun c => 32 ≤ c.toNat → p c) : ∀ c ∈ write v, p c := by
  have hword {text : List Char} (hall : ∀ c ∈ text, 32 ≤ c.toNat ∧ c.toNat < 128) : ∀ c ∈ text, p c :=
    fun c hc => hplain c (hall c hc).1 (hall c hc).2
  have hbrackets {a b : Char} {text : List Char} (ha : p a) (htext : ∀ c ∈ text, p c) (hb : p b) :
      ∀ c ∈ a :: (text ++ [b]), p c :=
    List.forall_mem_cons.mpr ⟨ha, List.forall_mem_append.mpr ⟨htext, List.forall_mem_singleton.mpr hb⟩⟩
  induction v using Value.induct with
  | null => exact hword (by simp [write_null])
  | bool b => cases b <;> exact hword (by simp [write_true, write_false])
  | int n => exact forall_mem_writeInt hplain n
  | real digits exponent =>
      exact List.forall_mem_append.mpr ⟨forall_mem_writeInt hplain digits,
        List.forall_mem_cons.mpr ⟨hplain _ (by decide) (by decide), forall_mem_writeInt hplain exponent⟩⟩
  | string s => exact forall_mem_writeString hplain h
  | array items ih =>
      have hitems := (each_array.mp h).2
      have htexts : ∀ text ∈ writeItems items, ∀ c ∈ text, p c := by
        intro text htext
        rw [writeItems_eq] at htext
        obtain ⟨v, hv, rfl⟩ := List.mem_map.mp htext
        exact ih v hv (hitems v hv)
      exact hbrackets (hplain _ (by decide) (by decide)) (forall_mem_commas hplain htexts)
        (hplain _ (by decide) (by decide))
  | object members ih =>
      obtain ⟨hnames, hmembers⟩ := each_object.mp h
      have htexts : ∀ text ∈ writeMembers members, ∀ c ∈ text, p c := by
        intro text htext
        rw [writeMembers_eq] at htext
        obtain ⟨m, hm, rfl⟩ := List.mem_map.mp htext
        have hname := forall_mem_writeString hplain fun c hc => hnames c (List.mem_flatMap.mpr ⟨m, hm, hc⟩)
        exact List.forall_mem_append.mpr ⟨hname,
          List.forall_mem_cons.mpr ⟨hplain _ (by decide) (by decide), ih m hm (hmembers m hm)⟩⟩
      exact hbrackets (hplain _ (by decide) (by decide)) (forall_mem_commas hplain htexts)
        (hplain _ (by decide) (by decide))

end

/-- A text has no control character. -/
theorem le_of_mem_write {v : Value} {c : Char} (hc : c ∈ write v) : 32 ≤ c.toNat :=
  forall_mem_write (fun _ h _ => h) (each_of_forall (fun _ _ _ h => h) v) c hc

/-! ### The text of other characters -/

theorem mapItems_eq (f : Char → Char) (items : List Value) :
    mapItems f items = items.map (Value.mapChars f) := by
  induction items with
  | nil => rfl
  | cons v items ih => rw [mapItems, ih, List.map_cons]

theorem mapMembers_eq (f : Char → Char) (members : Members) :
    mapMembers f members = members.map fun m => (mapString f m.1, m.2.mapChars f) := by
  induction members with
  | nil => rfl
  | cons m members ih => rw [mapMembers, ih, List.map_cons]

section

variable {f : Char → Char} (hascii : ∀ c : Char, c.toNat < 128 → f c = c)

include hascii

theorem map_ascii {text : List Char} (h : ∀ c ∈ text, c.toNat < 128) : text.map f = text := by
  have hall : text.map f = text.map id := List.map_congr_left fun c hc => hascii c (h c hc)
  rw [hall, List.map_id]

theorem map_writeInt (n : Int) : (writeInt n).map f = writeInt n :=
  map_ascii hascii (forall_mem_writeInt (fun _ _ h => h) n)

theorem map_writeString {s : String} (h : ∀ c ∈ s.toList, (escape c).map f = escape (f c)) :
    (writeString s).map f = writeString (mapString f s) := by
  have hchars : (s.toList.flatMap escape).map f = (s.toList.map f).flatMap escape := by
    rw [List.map_flatMap, List.flatMap_map]
    exact List.flatMap_congr h
  rw [writeString, writeString, mapString, String.toList_ofList, List.map_cons, List.map_append, hchars,
    hascii '"' (by decide), List.map_singleton, hascii '"' (by decide)]

theorem map_commas (texts : List (List Char)) : (commas texts).map f = commas (texts.map (List.map f)) := by
  induction texts with
  | nil => rfl
  | cons text texts ih =>
      cases texts with
      | nil => rfl
      | cons text' texts =>
          rw [commas_cons_cons, List.map_append, List.map_cons, ih, hascii ',' (by decide)]
          rfl

/-- Other characters in a value are other characters in its text, if they are written as these are. -/
theorem map_write {v : Value} (h : v.All fun c => (escape c).map f = escape (f c)) :
    (write v).map f = write (v.mapChars f) := by
  have hbrackets {a b : Char} {text text' : List Char} (ha : a.toNat < 128) (htext : text.map f = text')
      (hb : b.toNat < 128) : (a :: (text ++ [b])).map f = a :: (text' ++ [b]) := by
    rw [List.map_cons, List.map_append, List.map_singleton, hascii a ha, hascii b hb, htext]
  induction v using Value.induct with
  | null => exact map_ascii hascii (by simp [write_null])
  | bool b => cases b <;> exact map_ascii hascii (by simp [write_true, write_false])
  | int n => exact map_writeInt hascii n
  | real digits exponent =>
      rw [write_real, List.map_append, List.map_cons, map_writeInt hascii, map_writeInt hascii,
        hascii 'e' (by decide), Value.mapChars, write_real]
  | string s => exact map_writeString hascii h
  | array items ih =>
      have hitems := (each_array.mp h).2
      have htexts : (writeItems items).map (List.map f) = writeItems (mapItems f items) := by
        rw [writeItems_eq, writeItems_eq, mapItems_eq, List.map_map, List.map_map]
        exact List.map_congr_left fun v hv => ih v hv (hitems v hv)
      exact hbrackets (by decide) (by rw [map_commas hascii, htexts]) (by decide)
  | object members ih =>
      obtain ⟨hnames, hmembers⟩ := each_object.mp h
      have htexts : (writeMembers members).map (List.map f) = writeMembers (mapMembers f members) := by
        rw [writeMembers_eq, writeMembers_eq, mapMembers_eq, List.map_map, List.map_map]
        refine List.map_congr_left fun m hm => ?_
        have hname := map_writeString hascii fun c hc => hnames c (List.mem_flatMap.mpr ⟨m, hm, hc⟩)
        rw [Function.comp_apply, Function.comp_apply, List.map_append, List.map_cons, hname,
          ih m hm (hmembers m hm), hascii ':' (by decide)]
      exact hbrackets (by decide) (by rw [map_commas hascii, htexts]) (by decide)

end

/-! ### Members that are put and taken -/

theorem get_cons (name : String) (m : String × Value) (ms : Members) :
    get name (m :: ms) = if name = m.1 then some m.2 else get name ms := by
  rw [get, List.lookup_cons]
  split
  · next h => rw [if_pos (beq_iff_eq.mp h)]
  · next h => rw [if_neg (beq_eq_false_iff_ne.mp h), get]

theorem get_insert_self (name : String) (v : Value) (ms : Members) :
    get name (insert name v ms) = some v := by
  induction ms with
  | nil => rw [insert, get_cons, if_pos rfl]
  | cons m ms ih =>
      rw [insert]
      split_ifs with hlt heq
      · rw [get_cons, if_pos rfl]
      · rw [get_cons, if_pos rfl]
      · rw [get_cons, if_neg heq, ih]

theorem get_insert_of_ne {name other : String} (hne : other ≠ name) (v : Value) (ms : Members) :
    get other (insert name v ms) = get other ms := by
  induction ms with
  | nil => rw [insert, get_cons, if_neg hne]
  | cons m ms ih =>
      rw [insert]
      split_ifs with hlt heq
      · rw [get_cons, if_neg hne]
      · rw [get_cons, if_neg hne, get_cons, if_neg (heq ▸ hne)]
      · rw [get_cons, ih, get_cons]

theorem mem_insert {name : String} {v : Value} {ms : Members} {m : String × Value}
    (h : m ∈ insert name v ms) : m = (name, v) ∨ m ∈ ms := by
  induction ms with
  | nil => exact .inl (List.mem_singleton.mp h)
  | cons m' ms ih =>
      rw [insert] at h
      split_ifs at h with hlt heq
      · exact List.mem_cons.mp h
      · exact (List.mem_cons.mp h).imp_right (List.mem_cons_of_mem _)
      · rcases List.mem_cons.mp h with rfl | h
        · exact .inr List.mem_cons_self
        · exact (ih h).imp_right (List.mem_cons_of_mem _)

theorem ascending_insert (name : String) (v : Value) {ms : Members} (h : Ascending ms) :
    Ascending (insert name v ms) := by
  induction ms with
  | nil => exact List.pairwise_singleton _ _
  | cons m ms ih =>
      obtain ⟨hfirst, hrest⟩ := List.pairwise_cons.mp h
      rw [insert]
      split_ifs with hlt heq
      · refine List.pairwise_cons.mpr ⟨List.forall_mem_cons.mpr ⟨hlt, fun m' hm' => ?_⟩, h⟩
        exact hlt.trans (hfirst m' hm')
      · exact List.pairwise_cons.mpr ⟨fun m' hm' => heq ▸ hfirst m' hm', hrest⟩
      · refine List.pairwise_cons.mpr ⟨fun m' hm' => ?_, ih hrest⟩
        rcases mem_insert hm' with rfl | hm'
        · exact lt_of_le_of_ne (not_lt.mp hlt) (Ne.symm heq)
        · exact hfirst m' hm'

theorem mem_of_get {name : String} {v : Value} {ms : Members} (h : get name ms = some v) :
    (name, v) ∈ ms := by
  induction ms with
  | nil => nomatch h
  | cons m ms ih =>
      rw [get_cons] at h
      split at h
      · next heq =>
          rw [heq, ← Option.some.inj h]
          exact List.mem_cons_self
      · exact List.mem_cons_of_mem _ (ih h)

theorem remove_cons_of_ne {name : String} {m : String × Value} (h : m.1 ≠ name) (ms : Members) :
    remove name (m :: ms) = m :: remove name ms := by
  rw [remove, List.filter_cons, if_pos (decide_eq_true h), remove]

theorem remove_cons_self {name : String} {m : String × Value} (h : m.1 = name) (ms : Members) :
    remove name (m :: ms) = remove name ms := by
  rw [remove, List.filter_cons, if_neg (by rw [h]; simp), remove]

/-- A name that is not there is not taken away. -/
theorem remove_of_get {name : String} {ms : Members} (h : get name ms = none) : remove name ms = ms := by
  induction ms with
  | nil => rfl
  | cons m ms ih =>
      rw [get_cons] at h
      split at h
      · nomatch h
      · next hne => rw [remove_cons_of_ne (Ne.symm hne), ih h]

theorem remove_insert_self (name : String) (v : Value) (ms : Members) :
    remove name (insert name v ms) = remove name ms := by
  induction ms with
  | nil => exact remove_cons_self rfl []
  | cons m ms ih =>
      rw [insert]
      split_ifs with hlt heq
      · exact remove_cons_self rfl _
      · exact (remove_cons_self rfl ms).trans (remove_cons_self heq.symm ms).symm
      · rw [remove_cons_of_ne (Ne.symm heq), remove_cons_of_ne (Ne.symm heq), ih]

theorem insert_first {name : String} {v : Value} {ms : Members} (h : ∀ m ∈ ms, name < m.1) :
    insert name v ms = (name, v) :: ms := by
  cases ms with
  | nil => rfl
  | cons m ms => rw [insert, if_pos (h m List.mem_cons_self)]

/-- One name taken away, another one put. -/
theorem remove_insert_of_ne {name other : String} (hne : name ≠ other) (v : Value) {ms : Members}
    (h : Ascending ms) : remove other (insert name v ms) = insert name v (remove other ms) := by
  induction ms with
  | nil => exact remove_cons_of_ne hne []
  | cons m ms ih =>
      obtain ⟨hfirst, hrest⟩ := List.pairwise_cons.mp h
      rw [insert]
      split_ifs with hlt heq
      · have hall : ∀ m' ∈ remove other (m :: ms), name < m'.1 := by
          intro m' hm'
          rcases List.mem_cons.mp (List.mem_of_mem_filter hm') with rfl | hm'
          · exact hlt
          · exact hlt.trans (hfirst m' hm')
        rw [insert_first hall, remove_cons_of_ne hne]
      · rw [remove_cons_of_ne hne, remove_cons_of_ne (heq ▸ hne), insert, if_neg (heq ▸ lt_irrefl _), if_pos heq]
      · by_cases hm : m.1 = other
        · rw [remove_cons_self hm, remove_cons_self hm, ih hrest]
        · rw [remove_cons_of_ne hm, remove_cons_of_ne hm, ih hrest, insert, if_neg hlt, if_neg heq]

theorem get_of_mem {ms : Members} (h : Ascending ms) {name : String} {v : Value} (hmem : (name, v) ∈ ms) :
    get name ms = some v := by
  induction ms with
  | nil => nomatch hmem
  | cons m ms ih =>
      obtain ⟨hfirst, hrest⟩ := List.pairwise_cons.mp h
      rw [get_cons]
      rcases List.mem_cons.mp hmem with rfl | hmem
      · rw [if_pos rfl]
      · rw [if_neg (ne_of_gt (hfirst _ hmem)), ih hrest hmem]

theorem ascending_remove (name : String) {ms : Members} (h : Ascending ms) : Ascending (remove name ms) :=
  List.Pairwise.sublist List.filter_sublist h

/-- A member taken away and put back. -/
theorem insert_remove {name : String} {v : Value} {ms : Members} (h : Ascending ms)
    (hget : get name ms = some v) : insert name v (remove name ms) = ms := by
  induction ms with
  | nil => nomatch hget
  | cons m ms ih =>
      obtain ⟨hfirst, hrest⟩ := List.pairwise_cons.mp h
      rw [get_cons] at hget
      split at hget
      · next heq =>
          have hnone : get name ms = none := by
            rw [Option.eq_none_iff_forall_ne_some]
            intro v' hv'
            exact lt_irrefl _ (heq ▸ hfirst _ (mem_of_get hv'))
          rw [remove_cons_self heq.symm, remove_of_get hnone, insert_first fun m' hm' => heq ▸ hfirst m' hm']
          exact congrArg (· :: ms) (Prod.ext heq (Option.some.inj hget).symm)
      · next hne =>
          have hlt : ¬name < m.1 := fun hlt => lt_asymm hlt (hfirst _ (mem_of_get hget))
          rw [remove_cons_of_ne (Ne.symm hne), insert, if_neg hlt, if_neg hne, ih hrest hget]

theorem ofList_concat (ms : Members) (m : String × Value) :
    ofList (ms ++ [m]) = insert m.1 m.2 (ofList ms) := by
  rw [ofList, List.foldl_append, List.foldl_cons, List.foldl_nil, ofList]

theorem ascending_ofList (ms : Members) : Ascending (ofList ms) := by
  induction ms using List.reverseRecOn with
  | nil => exact List.Pairwise.nil
  | append_singleton ms m ih =>
      rw [ofList_concat]
      exact ascending_insert _ _ ih

theorem mem_ofList {ms : Members} {m : String × Value} (h : m ∈ ofList ms) : m ∈ ms := by
  induction ms using List.reverseRecOn with
  | nil => exact h
  | append_singleton ms m' ih =>
      rw [ofList_concat] at h
      rcases mem_insert h with rfl | h
      · exact List.mem_append_right _ List.mem_cons_self
      · exact List.mem_append_left _ (ih h)

/-- The last member of a name counts. -/
theorem get_ofList (name : String) (ms : Members) : get name (ofList ms) = get name ms.reverse := by
  induction ms using List.reverseRecOn with
  | nil => rfl
  | append_singleton ms m ih =>
      rw [ofList_concat, List.reverse_append, List.reverse_singleton, List.singleton_append, get_cons]
      split
      · next heq => rw [heq, get_insert_self]
      · next hne => rw [get_insert_of_ne hne, ih]

end Json

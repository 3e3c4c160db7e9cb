import Mathlib.Data.List.TakeWhile
import Wownero.Json
/-!
# What JSON text is read as

Whatever the text, the objects of its value are in order, and it is no shorter than the compact text
of that value.  A text that may not have some of the characters of the value is longer, as each of
them takes an escape.
-/

namespace Json

variable (p : Char → Prop) [DecidablePred p]

/-- What a text takes where only some characters may stand: six for each of the others. -/
def cost (text : List Char) : Nat := (text.map fun c => if p c then 1 else 6).sum

variable {p}

theorem cost_cons (c : Char) (text : List Char) :
    cost p (c :: text) = (if p c then 1 else 6) + cost p text := by
  rw [cost, List.map_cons, List.sum_cons, cost]

theorem cost_append (text text' : List Char) : cost p (text ++ text') = cost p text + cost p text' := by
  rw [cost, List.map_append, List.sum_append, cost, cost]

theorem cost_of_forall {text : List Char} (h : ∀ c ∈ text, p c) : cost p text = text.length := by
  induction text with
  | nil => rfl
  | cons c text ih =>
      obtain ⟨hc, htext⟩ := List.forall_mem_cons.mp h
      rw [cost_cons, if_pos hc, ih htext, List.length_cons]
      omega

theorem length_le_cost (text : List Char) : text.length ≤ cost p text := by
  induction text with
  | nil => exact Nat.le_refl 0
  | cons c text ih =>
      rw [cost_cons, List.length_cons]
      split <;> omega

theorem length_lt_cost {text : List Char} (h : ∃ c ∈ text, ¬p c) : text.length < cost p text := by
  obtain ⟨c, hc, hnot⟩ := h
  obtain ⟨before, after, rfl⟩ := List.append_of_mem hc
  have hbefore := length_le_cost (p := p) before
  have hafter := length_le_cost (p := p) after
  rw [cost_append, cost_cons, if_neg hnot, List.length_append, List.length_cons]
  omega

/-- So much at least stands before the rest of a text. -/
def Takes (text : List Char) (n : Nat) (rest : List Char) : Prop :=
  ∃ used, text = used ++ rest ∧ n ≤ used.length

theorem Takes.trans {text text' rest : List Char} {n m : Nat} (h : Takes text n text')
    (h' : Takes text' m rest) : Takes text (n + m) rest := by
  obtain ⟨used, rfl, hn⟩ := h
  obtain ⟨used', rfl, hm⟩ := h'
  exact ⟨used ++ used', (List.append_assoc _ _ _).symm, by rw [List.length_append]; omega⟩

theorem takes_append (used rest : List Char) : Takes (used ++ rest) used.length rest :=
  ⟨used, rfl, Nat.le_refl _⟩

theorem takes_cons (c : Char) (rest : List Char) : Takes (c :: rest) 1 rest := takes_append [c] rest

theorem Takes.mono {text rest : List Char} {n m : Nat} (h : Takes text n rest) (hle : m ≤ n) :
    Takes text m rest := by
  obtain ⟨used, htext, hn⟩ := h
  exact ⟨used, htext, by omega⟩

omit [DecidablePred p] in
theorem Takes.forall_mem {text rest : List Char} {n : Nat} (h : Takes text n rest)
    (hall : ∀ c ∈ text, p c) : ∀ c ∈ rest, p c := by
  obtain ⟨used, rfl, -⟩ := h
  exact fun c hc => hall c (List.mem_append_right _ hc)

/-! ### Strings -/

/-- How a string goes on. -/
theorem readChars_cases {c : Char} {text cs rest : List Char} (h : readChars (c :: text) = some (cs, rest)) :
    (cs = [] ∧ rest = text) ∨
      (∃ x y z w text' d cs', text = 'u' :: x :: y :: z :: w :: text' ∧
        readChars text' = some (cs', rest) ∧ cs = d :: cs') ∨
      (∃ x text' d cs', text = x :: text' ∧ unescape x = some d ∧ readChars text' = some (cs', rest) ∧
        cs = d :: cs') ∨
      (c ≠ '"' ∧ c ≠ '\\' ∧ ¬c.toNat < 32 ∧ ∃ cs', readChars text = some (cs', rest) ∧ cs = c :: cs') := by
  have hmap {d : Char} {text' : List Char}
      (h : (readChars text').map (fun found => (d :: found.1, found.2)) = some (cs, rest)) :
      ∃ cs', readChars text' = some (cs', rest) ∧ cs = d :: cs' := by
    obtain ⟨⟨cs', rest'⟩, hread, heq⟩ := Option.map_eq_some_iff.mp h
    obtain ⟨hcs, hrest⟩ := Prod.mk.inj heq
    exact ⟨cs', hread.trans (congrArg (fun rest => some (cs', rest)) hrest), hcs.symm⟩
  rw [readChars_cons] at h
  split at h
  · obtain ⟨hcs, hrest⟩ := Prod.mk.inj (Option.some.inj h)
    exact .inl ⟨hcs.symm, hrest.symm⟩
  · next hquote =>
      split at h
      · split at h
        · next x y z w text' =>
            obtain ⟨d, -, h⟩ := Option.bind_eq_some_iff.mp h
            obtain ⟨cs', hread, hcs⟩ := hmap h
            exact .inr (.inl ⟨x, y, z, w, text', d, cs', rfl, hread, hcs⟩)
        · next x text' _ =>
            obtain ⟨d, hd, h⟩ := Option.bind_eq_some_iff.mp h
            obtain ⟨cs', hread, hcs⟩ := hmap h
            exact .inr (.inr (.inl ⟨x, text', d, cs', rfl, hd, hread, hcs⟩))
        · nomatch h
      · next hslash =>
          split at h
          · nomatch h
          · next hlow => exact .inr (.inr (.inr ⟨hquote, hslash, hlow, hmap h⟩))

theorem printable_of_all {text : List Char}
    (h : (text.all fun c => decide (32 ≤ c.toNat ∧ c.toNat < 128)) = true) :
    ∀ c ∈ text, 32 ≤ c.toNat ∧ c.toNat < 128 :=
  fun c hc => of_decide_eq_true (List.all_eq_true.mp h c hc)

theorem escape_of_unescape {x d : Char} (h : unescape x = some d) :
    (escape d).length ≤ 2 ∧ ∀ c ∈ escape d, 32 ≤ c.toNat ∧ c.toNat < 128 := by
  unfold unescape at h
  split_ifs at h with hself hb ht hn hf hr
  · rcases hself with rfl | rfl | rfl <;> rw [← Option.some.inj h] <;> exact ⟨by decide, printable_of_all (by decide)⟩
  · rw [← Option.some.inj h]
    exact ⟨by decide, printable_of_all (by decide)⟩
  · rw [← Option.some.inj h]
    exact ⟨by decide, printable_of_all (by decide)⟩
  · rw [← Option.some.inj h]
    exact ⟨by decide, printable_of_all (by decide)⟩
  · rw [← Option.some.inj h]
    exact ⟨by decide, printable_of_all (by decide)⟩
  · rw [← Option.some.inj h]
    exact ⟨by decide, printable_of_all (by decide)⟩

theorem escape_self {c : Char} (hquote : c ≠ '"') (hslash : c ≠ '\\') (hlow : ¬c.toNat < 32) :
    escape c = [c] := by
  rw [escape, if_neg hquote, if_neg hslash, if_neg (by omega), if_neg (by omega), if_neg (by omega),
    if_neg (by omega), if_neg (by omega), if_neg hlow]

theorem length_escape_le (c : Char) : (escape c).length ≤ 6 := by
  unfold escape
  split_ifs <;> simp

section

variable (hplain : ∀ c : Char, 32 ≤ c.toNat → c.toNat < 128 → p c)

include hplain

theorem cost_of_printable {text : List Char} (h : ∀ c ∈ text, 32 ≤ c.toNat ∧ c.toNat < 128) :
    cost p text = text.length :=
  cost_of_forall fun c hc => hplain c (h c hc).1 (h c hc).2

theorem cost_escape_le (c : Char) : cost p (escape c) ≤ 6 := by
  rcases escape_cases c with ⟨heq, -⟩ | hprintable
  · rw [heq, cost, List.map_singleton, List.sum_singleton]
    split <;> omega
  · rw [cost_of_printable hplain hprintable]
    exact length_escape_le c

theorem takes_chars {text cs rest : List Char} (hread : readChars text = some (cs, rest))
    (htext : ∀ c ∈ text, p c) : Takes text (cost p (cs.flatMap escape) + 1) rest := by
  induction hn : text.length using Nat.strong_induction_on generalizing text cs with
  | _ n ih =>
  cases text with
  | nil => nomatch hread
  | cons c text =>
      obtain ⟨hc, htail⟩ := List.forall_mem_cons.mp htext
      rcases readChars_cases hread with ⟨rfl, rfl⟩ | ⟨x, y, z, w, text', d, cs', rfl, hinner, rfl⟩ |
        ⟨x, text', d, cs', rfl, hd, hinner, rfl⟩ | ⟨hquote, hslash, hlow, cs', hinner, rfl⟩
      · exact takes_cons c rest
      · have hrest := takes_append [c, 'u', x, y, z, w] text'
        have htake := ih text'.length (by rw [← hn]; simp only [List.length_cons]; omega) hinner
          (hrest.forall_mem htext) rfl
        have hcost := cost_escape_le hplain d
        rw [List.flatMap_cons, cost_append]
        exact (hrest.trans htake).mono (by simp only [List.length_cons, List.length_nil]; omega)
      · have hrest := takes_append [c, x] text'
        have htake := ih text'.length (by rw [← hn]; simp only [List.length_cons]; omega) hinner
          (hrest.forall_mem htext) rfl
        obtain ⟨hlength, hprintable⟩ := escape_of_unescape hd
        rw [List.flatMap_cons, cost_append, cost_of_printable hplain hprintable]
        exact (hrest.trans htake).mono (by simp only [List.length_cons, List.length_nil]; omega)
      · have htake := ih text.length (by rw [← hn]; exact Nat.lt_succ_self _) hinner htail rfl
        have hcost : cost p (escape c) = 1 := by
          rw [escape_self hquote hslash hlow, cost, List.map_singleton, List.sum_singleton, if_pos hc]
        rw [List.flatMap_cons, cost_append, hcost]
        exact ((takes_cons c text).trans htake).mono (by omega)

theorem cost_writeString (s : String) : cost p (writeString s) = cost p (s.toList.flatMap escape) + 2 := by
  have hquote : p '"' := hplain _ (by decide) (by decide)
  rw [writeString, cost_cons, cost_append, cost_cons, if_pos hquote]
  show 1 + (_ + (1 + 0)) = _
  omega

end

/-! ### Numbers -/

theorem ofDigitChars_lt {digits : List Char} (h : ∀ c ∈ digits, c.isDigit = true) (n : Nat) :
    Nat.ofDigitChars 10 digits n < 10 ^ digits.length * (n + 1) := by
  induction digits generalizing n with
  | nil =>
      rw [Nat.ofDigitChars_nil, List.length_nil]
      omega
  | cons c digits ih =>
      obtain ⟨hc, hdigits⟩ := List.forall_mem_cons.mp h
      rw [Char.isDigit, Bool.and_eq_true, decide_eq_true_eq, decide_eq_true_eq] at hc
      have hhigh : c.toNat ≤ 57 := hc.2
      have hzero : '0'.toNat = 48 := rfl
      have hstep := ih hdigits (10 * n + (c.toNat - '0'.toNat))
      rw [Nat.ofDigitChars_cons, List.length_cons, Nat.pow_succ, Nat.mul_assoc]
      exact Nat.lt_of_lt_of_le hstep (Nat.mul_le_mul_left _ (by omega))

theorem takes_digits {text rest : List Char} {n : Nat} (hread : readDigits text = some (n, rest)) :
    Takes text (Nat.toDigits 10 n).length rest := by
  unfold readDigits at hread
  dsimp only at hread
  split at hread
  · nomatch hread
  · next hne =>
      obtain ⟨hn, hrest⟩ := Prod.mk.inj (Option.some.inj hread)
      have hsplit : text = text.takeWhile Char.isDigit ++ rest := by
        rw [← hrest]
        exact (List.prefix_iff_eq_append.mp (List.takeWhile_prefix _)).symm
      have hpos : 0 < (text.takeWhile Char.isDigit).length :=
        List.length_pos_iff.mpr fun hnil => hne (by rw [hnil]; rfl)
      have hdigits : ∀ c ∈ text.takeWhile Char.isDigit, c.isDigit = true := fun c hc =>
        List.mem_takeWhile_imp hc
      have hlt := ofDigitChars_lt hdigits 0
      refine ⟨_, hsplit, (Nat.length_toDigits_le_iff (by decide) hpos).mpr ?_⟩
      rw [← hn]
      simpa using hlt

theorem length_writeInt_le (n : Int) : (writeInt n).length ≤ 1 + (Nat.toDigits 10 n.natAbs).length := by
  unfold writeInt
  split
  · rw [List.length_cons]
    omega
  · omega

theorem takes_int {text rest : List Char} {n : Int} (hread : readInt text = some (n, rest)) :
    Takes text (writeInt n).length rest := by
  rw [readInt.eq_def] at hread
  split at hread
  · next text =>
      obtain ⟨⟨m, rest'⟩, hdigits, heq⟩ := Option.map_eq_some_iff.mp hread
      obtain ⟨rfl, rfl⟩ := Prod.mk.inj heq
      have hlength := length_writeInt_le (-(m : Int))
      rw [Int.natAbs_neg, Int.natAbs_natCast] at hlength
      exact ((takes_cons '-' text).trans (takes_digits hdigits)).mono hlength
  · obtain ⟨⟨m, rest'⟩, hdigits, heq⟩ := Option.map_eq_some_iff.mp hread
    obtain ⟨rfl, rfl⟩ := Prod.mk.inj heq
    rw [writeInt, if_neg (by dsimp only; omega)]
    exact takes_digits hdigits

theorem printable_writeInt (n : Int) : ∀ c ∈ writeInt n, 32 ≤ c.toNat ∧ c.toNat < 128 :=
  forall_mem_writeInt (fun _ hlow hhigh => ⟨hlow, hhigh⟩) n

theorem readNumber_cases {text rest : List Char} {v : Value} (hread : readNumber text = some (v, rest)) :
    ∃ digits text', readInt text = some (digits, text') ∧
      ((∃ text'' exponent, text' = 'e' :: text'' ∧ readInt text'' = some (exponent, rest) ∧
          v = .real digits exponent) ∨
        (text' = rest ∧ v = .int digits)) := by
  obtain ⟨⟨digits, text'⟩, hint, hread⟩ := Option.bind_eq_some_iff.mp hread
  refine ⟨digits, text', hint, ?_⟩
  dsimp only at hread
  split at hread
  · next text'' =>
      obtain ⟨⟨exponent, rest'⟩, hexponent, heq⟩ := Option.bind_eq_some_iff.mp hread
      obtain ⟨rfl, rfl⟩ := Prod.mk.inj (Option.some.inj heq)
      exact .inl ⟨text'', exponent, rfl, hexponent, rfl⟩
  · obtain ⟨rfl, rfl⟩ := Prod.mk.inj (Option.some.inj hread)
    exact .inr ⟨rfl, rfl⟩

theorem takes_number {text rest : List Char} {v : Value} (hread : readNumber text = some (v, rest)) :
    (∀ c ∈ write v, 32 ≤ c.toNat ∧ c.toNat < 128) ∧ Takes text (write v).length rest := by
  obtain ⟨digits, text', hint, hnext⟩ := readNumber_cases hread
  have hdigits := takes_int hint
  rcases hnext with ⟨text'', exponent, rfl, hexponent, rfl⟩ | ⟨rfl, rfl⟩
  · constructor
    · exact List.forall_mem_append.mpr ⟨printable_writeInt digits,
        List.forall_mem_cons.mpr ⟨by decide, printable_writeInt exponent⟩⟩
    · rw [write_real, List.length_append, List.length_cons]
      exact ((hdigits.trans (takes_cons 'e' text'')).trans (takes_int hexponent)).mono (by omega)
  · exact ⟨printable_writeInt digits, hdigits⟩

/-! ### Values -/

omit [DecidablePred p] in
theorem takes_word {word text rest : List Char} {v v' : Value} (hread : readWord word v text = some (v', rest)) :
    v' = v ∧ Takes text word.length rest := by
  unfold readWord at hread
  split at hread
  · next hprefix =>
      obtain ⟨rfl, rfl⟩ := Prod.mk.inj (Option.some.inj hread)
      refine ⟨rfl, word, ?_, Nat.le_refl _⟩
      exact (List.prefix_iff_eq_append.mp (List.isPrefixOf_iff_prefix.mp hprefix)).symm
  · nomatch hread

theorem readItems_cases {fuel : Nat} {text rest : List Char} {vs : List Value}
    (hread : readItems (fuel + 1) text = some (vs, rest)) : ∃ v text',
      readValue fuel text = some (v, text') ∧
        ((∃ text'' vs', text' = ',' :: text'' ∧ readItems fuel text'' = some (vs', rest) ∧ vs = v :: vs') ∨
          (text' = ']' :: rest ∧ vs = [v])) := by
  rw [readItems] at hread
  obtain ⟨⟨v, text'⟩, hvalue, hread⟩ := Option.bind_eq_some_iff.mp hread
  refine ⟨v, text', hvalue, ?_⟩
  dsimp only at hread
  split at hread
  · next text'' =>
      obtain ⟨⟨vs', rest'⟩, hitems, heq⟩ := Option.map_eq_some_iff.mp hread
      obtain ⟨rfl, rfl⟩ := Prod.mk.inj heq
      exact .inl ⟨text'', vs', rfl, hitems, rfl⟩
  · obtain ⟨rfl, rfl⟩ := Prod.mk.inj (Option.some.inj hread)
    exact .inr ⟨rfl, rfl⟩
  · cases hread

theorem readMembers_cases {fuel : Nat} {out ms : Members} {text rest : List Char}
    (hread : readMembers (fuel + 1) out text = some (ms, rest)) : ∃ name text₁ text₂ v text₃,
      text = '"' :: text₁ ∧ readChars text₁ = some (name, ':' :: text₂) ∧
        readValue fuel text₂ = some (v, text₃) ∧
        ((∃ text₄, text₃ = ',' :: text₄ ∧
            readMembers fuel (insert (String.ofList name) v out) text₄ = some (ms, rest)) ∨
          (text₃ = '}' :: rest ∧ ms = insert (String.ofList name) v out)) := by
  rw [readMembers.eq_def] at hread
  dsimp only at hread
  split at hread
  · next text₁ =>
      obtain ⟨⟨name, text'⟩, hname, hread⟩ := Option.bind_eq_some_iff.mp hread
      dsimp only at hread
      split at hread
      · next text₂ =>
          obtain ⟨⟨v, text₃⟩, hvalue, hread⟩ := Option.bind_eq_some_iff.mp hread
          refine ⟨name, text₁, text₂, v, text₃, rfl, hname, hvalue, ?_⟩
          dsimp only at hread
          split at hread
          · next text₄ => exact .inl ⟨text₄, rfl, hread⟩
          · obtain ⟨rfl, rfl⟩ := Prod.mk.inj (Option.some.inj hread)
            exact .inr ⟨rfl, rfl⟩
          · cases hread
      · cases hread
  · cases hread

section

variable (hplain : ∀ c : Char, 32 ≤ c.toNat → c.toNat < 128 → p c)

/-- What members take, each with the comma or the brace behind it. -/
def costMembers (p : Char → Prop) [DecidablePred p] (ms : Members) : Nat :=
  (ms.map fun m => cost p (writeString m.1) + 1 + cost p (write m.2) + 1).sum

theorem costMembers_insert_le (name : String) (v : Value) (ms : Members) :
    costMembers p (insert name v ms) ≤
      costMembers p ms + (cost p (writeString name) + 1 + cost p (write v) + 1) := by
  induction ms with
  | nil => exact Nat.le_of_eq (Nat.add_comm _ _)
  | cons m ms ih =>
      rw [insert]
      split_ifs <;> simp only [costMembers, List.map_cons, List.sum_cons] at ih ⊢ <;> omega

include hplain

/-- Texts and the commas between them, and what closes them. -/
theorem cost_commas {texts : List (List Char)} (hne : texts ≠ []) :
    cost p (commas texts) + 1 = (texts.map fun text => cost p text + 1).sum := by
  induction texts with
  | nil => exact absurd rfl hne
  | cons text texts ih =>
      cases texts with
      | nil => rfl
      | cons text' texts =>
          have hrest := ih (List.cons_ne_nil _ _)
          rw [commas_cons_cons, cost_append, cost_cons, if_pos (hplain _ (by decide) (by decide)),
            List.map_cons, List.sum_cons, ← hrest]
          omega

theorem cost_commas_cons_le (text : List Char) (texts : List (List Char)) :
    cost p (commas (text :: texts)) ≤ cost p text + 1 + cost p (commas texts) := by
  cases texts with
  | nil => exact Nat.le_trans (Nat.le_succ _) (Nat.le_add_right _ _)
  | cons text' texts =>
      rw [commas_cons_cons, cost_append, cost_cons, if_pos (hplain _ (by decide) (by decide))]
      omega

theorem cost_array (items : List Value) :
    cost p (write (.array items)) = cost p (commas (writeItems items)) + 2 := by
  rw [write_array, cost_cons, cost_append, cost_cons, if_pos (hplain _ (by decide) (by decide)),
    if_pos (hplain _ (by decide) (by decide))]
  show 1 + (_ + (1 + 0)) = _
  omega

theorem cost_object {ms : Members} (hne : ms ≠ []) : cost p (write (.object ms)) = costMembers p ms + 1 := by
  have hcolon : p ':' := hplain _ (by decide) (by decide)
  have htexts : writeMembers ms ≠ [] := by
    rw [writeMembers_eq]
    exact fun h => hne (List.map_eq_nil_iff.mp h)
  have hcommas := cost_commas hplain htexts
  have hsum : ((writeMembers ms).map fun text => cost p text + 1).sum = costMembers p ms := by
    rw [writeMembers_eq, List.map_map, costMembers]
    congr 1
    refine List.map_congr_left fun m _ => ?_
    rw [Function.comp_apply, cost_append, cost_cons, if_pos hcolon]
    omega
  rw [write_object, cost_cons, cost_append, cost_cons, if_pos (hplain _ (by decide) (by decide)),
    if_pos (hplain _ (by decide) (by decide))]
  show 1 + (_ + (1 + 0)) = _
  omega

omit [DecidablePred p] hplain in
theorem insert_ne_nil (name : String) (v : Value) (ms : Members) : insert name v ms ≠ [] := by
  cases ms with
  | nil => exact List.cons_ne_nil _ _
  | cons m ms =>
      rw [insert]
      split_ifs <;> exact List.cons_ne_nil _ _

/-- A value, items and members, by how deep they are read. -/
theorem takes_value (fuel : Nat) :
    (∀ {text v rest}, readValue fuel text = some (v, rest) → (∀ c ∈ text, p c) →
        Takes text (cost p (write v)) rest) ∧
      (∀ {text vs rest}, readItems fuel text = some (vs, rest) → (∀ c ∈ text, p c) →
        Takes text (cost p (commas (writeItems vs)) + 1) rest) ∧
      (∀ {out text ms rest}, readMembers fuel out text = some (ms, rest) → (∀ c ∈ text, p c) →
        ms ≠ [] ∧ ∃ n, costMembers p ms ≤ costMembers p out + n ∧ Takes text n rest) := by
  have hword {text : List Char} (h : ∀ c ∈ text, 32 ≤ c.toNat ∧ c.toNat < 128) : cost p text = text.length :=
    cost_of_printable hplain h
  induction fuel with
  | zero => exact ⟨fun h => (nomatch h), fun h => (nomatch h), fun h => (nomatch h)⟩
  | succ fuel ih =>
      obtain ⟨ihValue, ihItems, ihMembers⟩ := ih
      refine ⟨?_, ?_, ?_⟩
      · intro text v rest hread htext
        cases text with
        | nil => nomatch hread
        | cons c text =>
            have hfirst := takes_cons c text
            have htail := hfirst.forall_mem htext
            -- An array or an object that is closed at once.
            have hempty {a b : Char} (hclosed : text.head? = some b)
                (hab : ∀ x ∈ [a, b], 32 ≤ x.toNat ∧ x.toNat < 128) : Takes (c :: text) (cost p [a, b]) text.tail := by
              obtain ⟨rest, rfl⟩ := List.head?_eq_some_iff.mp hclosed
              rw [hword hab]
              exact takes_append [c, b] rest
            rw [readValue_cons] at hread
            split_ifs at hread with hquote hbracket hnone hbrace hnone hn ht hf
            · obtain ⟨⟨cs, rest'⟩, hchars, heq⟩ := Option.map_eq_some_iff.mp hread
              obtain ⟨rfl, rfl⟩ := Prod.mk.inj heq
              have htake := hfirst.trans (takes_chars hplain hchars htail)
              refine htake.mono ?_
              dsimp only
              rw [write_string, cost_writeString hplain, String.toList_ofList]
              omega
            · obtain ⟨rfl, rfl⟩ := Prod.mk.inj (Option.some.inj hread)
              exact hempty hnone (printable_of_all (by decide))
            · obtain ⟨⟨vs, rest'⟩, hitems, heq⟩ := Option.map_eq_some_iff.mp hread
              obtain ⟨rfl, rfl⟩ := Prod.mk.inj heq
              have htake := hfirst.trans (ihItems hitems htail)
              refine htake.mono ?_
              dsimp only
              rw [cost_array hplain]
              omega
            · obtain ⟨rfl, rfl⟩ := Prod.mk.inj (Option.some.inj hread)
              exact hempty hnone (printable_of_all (by decide))
            · obtain ⟨⟨ms, rest'⟩, hmembers, heq⟩ := Option.map_eq_some_iff.mp hread
              obtain ⟨rfl, rfl⟩ := Prod.mk.inj heq
              obtain ⟨hne, n, hn, hrest⟩ := ihMembers hmembers htail
              have hnil : costMembers p [] = 0 := rfl
              refine (hfirst.trans hrest).mono ?_
              rw [cost_object hplain hne]
              omega
            · obtain ⟨rfl, htake⟩ := takes_word hread
              exact (hfirst.trans htake).mono (by rw [hword (printable_of_all (by decide))]; decide)
            · obtain ⟨rfl, htake⟩ := takes_word hread
              exact (hfirst.trans htake).mono (by rw [hword (printable_of_all (by decide))]; decide)
            · obtain ⟨rfl, htake⟩ := takes_word hread
              exact (hfirst.trans htake).mono (by rw [hword (printable_of_all (by decide))]; decide)
            · obtain ⟨hprintable, htake⟩ := takes_number hread
              rw [hword hprintable]
              exact htake
      · intro text vs rest hread htext
        obtain ⟨v, text', hvalue, hnext⟩ := readItems_cases hread
        rcases hnext with ⟨text'', vs', rfl, hitems, rfl⟩ | ⟨rfl, rfl⟩
        · have hfirst := (ihValue hvalue htext).trans (takes_cons ',' text'')
          have hrest := ihItems hitems (hfirst.forall_mem htext)
          have hcost := cost_commas_cons_le hplain (write v) (writeItems vs')
          exact (hfirst.trans hrest).mono (by rw [writeItems]; omega)
        · exact (ihValue hvalue htext).trans (takes_cons ']' rest)
      · intro out text ms rest hread htext
        obtain ⟨name, text₁, text₂, v, text₃, rfl, hname, hvalue, hnext⟩ := readMembers_cases hread
        have hopen := takes_cons '"' text₁
        have hnamed := hopen.trans (takes_chars hplain hname (hopen.forall_mem htext))
        have hcolon := hnamed.trans (takes_cons ':' text₂)
        have hmember := hcolon.trans (ihValue hvalue (hcolon.forall_mem htext))
        have hcost := costMembers_insert_le (p := p) (String.ofList name) v out
        rw [cost_writeString hplain, String.toList_ofList] at hcost
        rcases hnext with ⟨text₄, rfl, hmembers⟩ | ⟨rfl, rfl⟩
        · have hcomma := hmember.trans (takes_cons ',' text₄)
          obtain ⟨hne, n, hn, hrest⟩ := ihMembers hmembers (hcomma.forall_mem htext)
          exact ⟨hne, _, by omega, hcomma.trans hrest⟩
        · exact ⟨insert_ne_nil _ _ _, _, by omega, hmember.trans (takes_cons '}' rest)⟩

/-- A text is no shorter than the compact one, even where some characters may not stand. -/
theorem cost_write_le {text : List Char} {v : Value} (hread : read text = some v) (htext : ∀ c ∈ text, p c) :
    cost p (write v) ≤ text.length := by
  obtain ⟨⟨v', rest⟩, hvalue, hread⟩ := Option.bind_eq_some_iff.mp hread
  dsimp only at hread
  split at hread
  · obtain rfl := Option.some.inj hread
    obtain ⟨used, rfl, hle⟩ := (takes_value hplain _).1 hvalue htext
    rw [List.length_append]
    omega
  · nomatch hread

end

omit [DecidablePred p] in
theorem mem_commas {c : Char} {text : List Char} {texts : List (List Char)} (htext : text ∈ texts)
    (hc : c ∈ text) : c ∈ commas texts := by
  induction texts with
  | nil => nomatch htext
  | cons text' texts ih =>
      cases texts with
      | nil =>
          rw [List.mem_singleton] at htext
          exact htext ▸ hc
      | cons text'' texts =>
          rw [commas_cons_cons]
          rcases List.mem_cons.mp htext with rfl | htext
          · exact List.mem_append_left _ hc
          · exact List.mem_append_right _ (List.mem_cons_of_mem _ (ih htext))

omit [DecidablePred p] in
/-- What every character of a text has, every one in the value has that needs no escape. -/
theorem all_of_forall_mem_write {v : Value} (h : ∀ c ∈ write v, p c) : v.All fun c => escape c = [c] → p c := by
  have hstring {s : String} (hs : ∀ c ∈ writeString s, p c) : ∀ c ∈ s.toList, escape c = [c] → p c := by
    intro c hc hself
    refine hs c (List.mem_cons_of_mem _ (List.mem_append_left _ (List.mem_flatMap.mpr ⟨c, hc, ?_⟩)))
    rw [hself]
    exact List.mem_cons_self
  have hinner {a b : Char} {texts : List (List Char)} (hall : ∀ c ∈ a :: (commas texts ++ [b]), p c)
      {text : List Char} (htext : text ∈ texts) : ∀ c ∈ text, p c := fun c hc =>
    hall c (List.mem_cons_of_mem _ (List.mem_append_left _ (mem_commas htext hc)))
  induction v using Value.induct with
  | null | bool | int | real => exact fun c hc => nomatch hc
  | string s => exact hstring h
  | array items ih =>
      refine each_array.mpr ⟨fun c hc => (nomatch hc), fun v hv => ih v hv (hinner h ?_)⟩
      rw [writeItems_eq]
      exact List.mem_map_of_mem hv
  | object members ih =>
      have hmember {m : String × Value} (hm : m ∈ members) : ∀ c ∈ writeString m.1 ++ ':' :: write m.2, p c := by
        refine hinner h ?_
        rw [writeMembers_eq]
        exact List.mem_map_of_mem hm
      refine each_object.mpr ⟨fun c hc => ?_, fun m hm => ih m hm fun c hc =>
        hmember hm c (List.mem_append_right _ (List.mem_cons_of_mem _ hc))⟩
      obtain ⟨m, hm, hc⟩ := List.mem_flatMap.mp hc
      exact hstring (fun c hc => hmember hm c (List.mem_append_left _ hc)) c hc

/-- A text that may not have some of the characters of its value is longer than the compact one. -/
theorem length_lt_of_read (hplain : ∀ c : Char, 32 ≤ c.toNat → c.toNat < 128 → p c) {text : List Char}
    {v : Value} (hread : read text = some v) (htext : ∀ c ∈ text, p c)
    (hv : ¬v.All fun c => escape c = [c] → p c) : (write v).length < text.length := by
  have hmissing : ∃ c ∈ write v, ¬p c := by
    by_contra hall
    exact hv (all_of_forall_mem_write fun c hc => by_contra fun hnot => hall ⟨c, hc, hnot⟩)
  exact Nat.lt_of_lt_of_le (length_lt_cost hmissing) (cost_write_le hplain hread htext)

/-! ### Bounds -/

theorem length_writeString_le (s : String) : (writeString s).length ≤ 6 * s.toList.length + 2 := by
  have hchars : (s.toList.flatMap escape).length ≤ 6 * s.toList.length := by
    induction s.toList with
    | nil => exact Nat.le_refl 0
    | cons c cs ih =>
        have hc := length_escape_le c
        rw [List.flatMap_cons, List.length_append, List.length_cons]
        omega
  rw [writeString, List.length_cons, List.length_append, List.length_singleton]
  omega

/-- A member more, and the text is longer by no more than the member. -/
theorem length_write_insert_le (name : String) (v : Value) (ms : Members) :
    (write (.object (insert name v ms))).length ≤
      (write (.object ms)).length + ((writeString name).length + (write v).length + 2) := by
  have hlength (text : List Char) : cost (fun _ => True) text = text.length := cost_of_forall fun _ _ => trivial
  have hput := cost_object (p := fun _ => True) (fun _ _ _ => trivial) (insert_ne_nil name v ms)
  have hle := costMembers_insert_le (p := fun _ => True) name v ms
  have hold : costMembers (fun _ => True) ms + 1 ≤ cost (fun _ => True) (write (.object ms)) := by
    cases ms with
    | nil => exact Nat.le_succ 1
    | cons m ms => exact Nat.le_of_eq (cost_object (fun _ _ _ => trivial) (List.cons_ne_nil _ _)).symm
  rw [hlength] at hput hold
  rw [hlength, hlength] at hle
  omega

theorem length_write_ofList_le (ms : Members) : (write (.object (ofList ms))).length ≤
    2 + (ms.map fun m => (writeString m.1).length + (write m.2).length + 2).sum := by
  induction ms using List.reverseRecOn with
  | nil => exact Nat.le_refl 2
  | append_singleton ms m ih =>
      have hput := length_write_insert_le m.1 m.2 (ofList ms)
      rw [ofList_concat, List.map_append, List.sum_append, List.map_singleton, List.sum_singleton]
      omega

/-! ### Order -/

/-- Values, items and members that are read are in order, by how deep they are read. -/
theorem canonical_of_readValue (fuel : Nat) :
    (∀ {text v rest}, readValue fuel text = some (v, rest) → v.Canonical) ∧
      (∀ {text vs rest}, readItems fuel text = some (vs, rest) → ∀ v ∈ vs, v.Canonical) ∧
      (∀ {out text ms rest}, readMembers fuel out text = some (ms, rest) → Ascending out →
        (∀ m ∈ out, m.2.Canonical) → Ascending ms ∧ ∀ m ∈ ms, m.2.Canonical) := by
  induction fuel with
  | zero => exact ⟨fun h => (nomatch h), fun h => (nomatch h), fun h => (nomatch h)⟩
  | succ fuel ih =>
      obtain ⟨ihValue, ihItems, ihMembers⟩ := ih
      refine ⟨?_, ?_, ?_⟩
      · intro text v rest hread
        cases text with
        | nil => nomatch hread
        | cons c text =>
            rw [readValue_cons] at hread
            split_ifs at hread with hquote hbracket hnone hbrace hnone hn ht hf
            · obtain ⟨found, -, heq⟩ := Option.map_eq_some_iff.mp hread
              obtain ⟨rfl, -⟩ := Prod.mk.inj heq
              exact trivial
            · obtain ⟨rfl, -⟩ := Prod.mk.inj (Option.some.inj hread)
              exact each_array.mpr ⟨trivial, List.forall_mem_nil _⟩
            · obtain ⟨found, hitems, heq⟩ := Option.map_eq_some_iff.mp hread
              obtain ⟨rfl, -⟩ := Prod.mk.inj heq
              exact each_array.mpr ⟨trivial, ihItems hitems⟩
            · obtain ⟨rfl, -⟩ := Prod.mk.inj (Option.some.inj hread)
              exact each_object.mpr ⟨List.Pairwise.nil, List.forall_mem_nil _⟩
            · obtain ⟨found, hmembers, heq⟩ := Option.map_eq_some_iff.mp hread
              obtain ⟨rfl, -⟩ := Prod.mk.inj heq
              exact each_object.mpr (ihMembers hmembers List.Pairwise.nil (List.forall_mem_nil _))
            · rw [(takes_word hread).1]
              exact trivial
            · rw [(takes_word hread).1]
              exact trivial
            · rw [(takes_word hread).1]
              exact trivial
            · obtain ⟨_, _, -, ⟨_, _, -, -, rfl⟩ | ⟨-, rfl⟩⟩ := readNumber_cases hread
              · exact trivial
              · exact trivial
      · intro text vs rest hread
        obtain ⟨v, text', hvalue, hnext⟩ := readItems_cases hread
        rcases hnext with ⟨text'', vs', -, hitems, rfl⟩ | ⟨-, rfl⟩
        · exact List.forall_mem_cons.mpr ⟨ihValue hvalue, ihItems hitems⟩
        · exact List.forall_mem_singleton.mpr (ihValue hvalue)
      · intro out text ms rest hread hout hall
        obtain ⟨name, text₁, text₂, v, text₃, -, -, hvalue, hnext⟩ := readMembers_cases hread
        have hput := ascending_insert (String.ofList name) v hout
        have hputAll : ∀ m ∈ insert (String.ofList name) v out, m.2.Canonical := by
          intro m hm
          rcases mem_insert hm with rfl | hm
          · exact ihValue hvalue
          · exact hall m hm
        rcases hnext with ⟨text₄, -, hmembers⟩ | ⟨-, rfl⟩
        · exact ihMembers hmembers hput hputAll
        · exact ⟨hput, hputAll⟩

/-- What is read is in order. -/
theorem canonical_of_read {text : List Char} {v : Value} (hread : read text = some v) : v.Canonical := by
  obtain ⟨⟨v', rest⟩, hvalue, hread⟩ := Option.bind_eq_some_iff.mp hread
  dsimp only at hread
  split at hread
  · obtain rfl := Option.some.inj hread
    exact (canonical_of_readValue _).1 hvalue
  · nomatch hread

end Json

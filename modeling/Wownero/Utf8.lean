import Mathlib
/-!
# UTF-8, and its repair

The bytes of UTF-8 text, as a machine reads them: between two characters, or within one with bytes
to come.  Bytes that are no text are repaired: what breaks off, and what cannot begin a character,
becomes a replacement character.  What comes out is text, and text comes out as it is.
-/

namespace Utf8

/-- Where in a character a byte is expected: at its beginning, or within it, in a range and with
    more to follow. -/
inductive Place where
  | start
  | within (more : Nat) (low high : UInt8)
  deriving DecidableEq, Repr

/-- The place after the first byte of a character. -/
def lead (b : UInt8) : Option Place :=
  if b < 0x80 then some .start
  else if b < 0xc2 then none
  else if b < 0xe0 then some (.within 0 0x80 0xbf)
  else if b = 0xe0 then some (.within 1 0xa0 0xbf)
  else if b = 0xed then some (.within 1 0x80 0x9f)
  else if b < 0xf0 then some (.within 1 0x80 0xbf)
  else if b = 0xf0 then some (.within 2 0x90 0xbf)
  else if b < 0xf4 then some (.within 2 0x80 0xbf)
  else if b = 0xf4 then some (.within 2 0x80 0x8f)
  else none

/-- The place after a byte, if it can stand here. -/
def step : Place → UInt8 → Option Place
  | .start, b => lead b
  | .within more low high, b =>
      if low ≤ b ∧ b ≤ high then
        match more with
        | 0 => some .start
        | n + 1 => some (.within n 0x80 0xbf)
      else none

/-- Whether these bytes end a text that is at a place. -/
def validFrom : Place → List UInt8 → Bool
  | p, [] => p = .start
  | p, b :: bs =>
      match step p b with
      | some p' => validFrom p' bs
      | none => false

/-- Whether these bytes are text. -/
def valid (bs : List UInt8) : Bool := validFrom .start bs

/-- U+FFFD. -/
def replacement : List UInt8 := [0xef, 0xbf, 0xbd]

/-- What a byte does between two characters: what can be given out, what is kept, and the place. -/
def begin (b : UInt8) : List UInt8 × List UInt8 × Place :=
  match lead b with
  | some .start => ([b], [], .start)
  | some p => ([], [b], p)
  | none => (replacement, [], .start)

/-- What a byte does where some of a character are kept. -/
def feed (kept : List UInt8) : Place → UInt8 → List UInt8 × List UInt8 × Place
  | .start, b => begin b
  | p, b =>
      match step p b with
      | some .start => (kept ++ [b], [], .start)
      | some p' => ([], kept ++ [b], p')
      | none => (replacement ++ (begin b).1, (begin b).2)

/-- The repair of what follows the bytes that are kept. -/
def repairFrom : List UInt8 → Place → List UInt8 → List UInt8
  | _, .start, [] => []
  | _, .within .., [] => replacement
  | kept, p, b :: bs =>
      let next := feed kept p b
      next.1 ++ repairFrom next.2.1 next.2.2 bs

/-- Bytes as text, with what is no text replaced. -/
def repair (bs : List UInt8) : List UInt8 := repairFrom [] .start bs

/-! ### What is repaired is text -/

/-- The kept bytes lead to a place. -/
def Leads (kept : List UInt8) (p : Place) : Prop :=
  ∀ bs, validFrom .start (kept ++ bs) = validFrom p bs

theorem leads_nil : Leads [] .start := fun _ => rfl

theorem Leads.snoc {kept : List UInt8} {p p' : Place} {b : UInt8} (h : Leads kept p)
    (hstep : step p b = some p') : Leads (kept ++ [b]) p' := by
  intro bs
  rw [List.append_assoc, h, List.singleton_append, validFrom, hstep]

theorem leads_lead {b : UInt8} {p : Place} (h : lead b = some p) : Leads [b] p := leads_nil.snoc h

theorem leads_replacement : Leads replacement .start := fun _ => rfl

theorem Leads.append {kept more : List UInt8} {p : Place} (h : Leads kept .start)
    (hmore : Leads more p) : Leads (kept ++ more) p := by
  intro bs
  rw [List.append_assoc, h, hmore]

/-- What is given out and what is kept lead to the place, and what is given out is text. -/
structure Fed (out kept : List UInt8) (p : Place) : Prop where
  out : Leads out .start
  kept : Leads kept p

theorem fed_begin (b : UInt8) : Fed (begin b).1 (begin b).2.1 (begin b).2.2 := by
  unfold begin
  cases hlead : lead b with
  | none => exact ⟨leads_replacement, leads_nil⟩
  | some p =>
      cases p with
      | start => exact ⟨leads_lead hlead, leads_nil⟩
      | within more low high => exact ⟨leads_nil, leads_lead hlead⟩

theorem fed_feed {kept : List UInt8} {p : Place} (h : Leads kept p) (b : UInt8) :
    Fed (feed kept p b).1 (feed kept p b).2.1 (feed kept p b).2.2 := by
  cases p with
  | start => exact fed_begin b
  | within more low high =>
      cases hstep : step (.within more low high) b with
      | none =>
          have hbegin := fed_begin b
          simp only [feed, hstep]
          exact ⟨leads_replacement.append hbegin.out, hbegin.kept⟩
      | some p' =>
          simp only [feed, hstep]
          cases p' with
          | start => exact ⟨h.snoc hstep, leads_nil⟩
          | within more low high => exact ⟨leads_nil, h.snoc hstep⟩

theorem valid_repairFrom {kept : List UInt8} {p : Place} (h : Leads kept p) (bs : List UInt8) :
    valid (repairFrom kept p bs) = true := by
  induction bs generalizing kept p with
  | nil =>
      cases p with
      | start => rfl
      | within more low high => rfl
  | cons b bs ih =>
      have hfed := fed_feed h b
      rw [repairFrom]
      exact (hfed.out _).trans (ih hfed.kept)

/-- **Repaired bytes are text.** -/
theorem valid_repair (bs : List UInt8) : valid (repair bs) = true := valid_repairFrom leads_nil bs

/-! ### Text is not repaired -/

theorem repairFrom_of_valid {kept : List UInt8} {p : Place} {bs : List UInt8}
    (hkept : p = .start → kept = []) (h : validFrom p bs = true) :
    repairFrom kept p bs = kept ++ bs := by
  induction bs generalizing kept p with
  | nil =>
      have hstart : p = .start := of_decide_eq_true h
      subst hstart
      rw [hkept rfl]
      rfl
  | cons b bs ih =>
      rw [validFrom] at h
      rw [repairFrom]
      cases hstep : step p b with
      | none =>
          rw [hstep] at h
          cases h
      | some p' =>
          rw [hstep] at h
          cases p with
          | start =>
              rw [hkept rfl]
              have hlead : lead b = some p' := hstep
              simp only [feed, begin, hlead]
              cases p' with
              | start => exact congrArg (b :: ·) (ih (fun _ => rfl) h)
              | within more low high => exact ih (fun hstart => Place.noConfusion hstart) h
          | within more low high =>
              simp only [feed, hstep]
              cases p' with
              | start =>
                  simp only
                  rw [ih (fun _ => rfl) h, List.append_assoc]
                  rfl
              | within more low high =>
                  simp only
                  rw [ih (fun hstart => Place.noConfusion hstart) h, List.append_assoc]
                  rfl

/-- **Text stays** as it is. -/
theorem repair_of_valid {bs : List UInt8} (h : valid bs = true) : repair bs = bs :=
  repairFrom_of_valid (fun _ => rfl) h

end Utf8

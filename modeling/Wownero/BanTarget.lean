import Wownero.IpText
import Wownero.RankedTable
/-!
# What a ban applies to

A host, or an IPv4 network.  Bans are saved as text and read back from it, so that what matters is
that every target is read back from its own text.
-/

namespace Wownero.Peers

open IpText

/-! ### Text -/

/-- The bytes of the characters that are white space. -/
def whitespace : List (List UInt8) :=
  [[9], [10], [11], [12], [13], [32], [0xc2, 0x85], [0xc2, 0xa0], [0xe1, 0x9a, 0x80],
    [0xe2, 0x80, 0x80], [0xe2, 0x80, 0x81], [0xe2, 0x80, 0x82], [0xe2, 0x80, 0x83],
    [0xe2, 0x80, 0x84], [0xe2, 0x80, 0x85], [0xe2, 0x80, 0x86], [0xe2, 0x80, 0x87],
    [0xe2, 0x80, 0x88], [0xe2, 0x80, 0x89], [0xe2, 0x80, 0x8a], [0xe2, 0x80, 0xa8],
    [0xe2, 0x80, 0xa9], [0xe2, 0x80, 0xaf], [0xe2, 0x81, 0x9f], [0xe3, 0x80, 0x80]]

/-- Text without those of these characters that it begins with; a text has no more characters than
bytes. -/
def stripFrom (spaces : List (List UInt8)) : Nat → List UInt8 → List UInt8
  | 0, bs => bs
  | n + 1, bs =>
      match spaces.find? (·.isPrefixOf bs) with
      | some w => stripFrom spaces n (bs.drop w.length)
      | none => bs

/-- `str::trim`. -/
def trimText (bs : List UInt8) : List UInt8 :=
  let front := stripFrom whitespace bs.length bs
  (stripFrom (whitespace.map List.reverse) front.length front.reverse).reverse

/-- `u8::from_str`. -/
def parseU8 (bs : List UInt8) : Option Nat :=
  let ds := match bs with
    | 43 :: ds => ds
    | ds => ds
  if ds = [] then none
  else if ds.all (isDigit 10) && ofDigits 10 ds < 256 then some (ofDigits 10 ds)
  else none

/-! ### Targets -/

/-- `Subnet::mask`. -/
def mask (bits : Nat) : BitVec 32 := if bits = 0 then 0 else BitVec.allOnes 32 <<< (32 - bits)

/-- `Subnet`: its host bits are clear. -/
structure Subnet where
  base : BitVec 32
  bits : Nat
  short : bits ≤ 32
  masked : base &&& mask bits = base
  deriving DecidableEq

/-- `Subnet::parse`. -/
def Subnet.parse (bs : List UInt8) : Option Subnet := do
  if 47 ∉ bs then none
  let ip ← parseIpv4 (trimText (bs.takeWhile (· != 47)))
  let bits ← parseU8 (trimText ((bs.dropWhile (· != 47)).drop 1))
  if h : bits ≤ 32 then
    some ⟨ip &&& mask bits, bits, h, by rw [BitVec.and_assoc, BitVec.and_self]⟩
  else none

/-- `Subnet::contains`. -/
def Subnet.contains (n : Subnet) : Ip → Bool
  | .v4 ip => ip &&& mask n.bits = n.base
  | .v6 _ => false

/-- `BanTarget`. -/
inductive BanTarget where
  | host (ip : Ip)
  | subnet (n : Subnet)
  deriving DecidableEq

/-- `BanTarget::parse`. -/
def BanTarget.parse (bs : List UInt8) : Option BanTarget :=
  let bs := trimText bs
  if 47 ∈ bs then (Subnet.parse bs).map .subnet else (parseIp bs).map .host

/-- `BanTarget::covers`. -/
def BanTarget.covers : BanTarget → Ip → Bool
  | .host h, ip => h = ip
  | .subnet n, ip => n.contains ip

/-- How a target is displayed. -/
def BanTarget.text : BanTarget → List UInt8
  | .host ip => ip.text
  | .subnet n => ipv4Text n.base ++ 47 :: numeral 10 2 n.bits

instance : Ranked Ip where
  rank
    | .v4 ip => ip.toNat
    | .v6 ip => 2 ^ 32 + ip.toNat
  rank_injective := by
    intro a b h
    cases a with
    | v4 a =>
        have ha := a.isLt
        cases b with
        | v4 b => exact congrArg Ip.v4 (BitVec.eq_of_toNat_eq h)
        | v6 b =>
            simp only at h
            omega
    | v6 a =>
        cases b with
        | v4 b =>
            have hb := b.isLt
            simp only at h
            omega
        | v6 b =>
            simp only at h
            exact congrArg Ip.v6 (BitVec.eq_of_toNat_eq (by omega))

instance : Ranked BanTarget where
  rank
    | .host ip => Nat.pair 0 (Ranked.rank ip)
    | .subnet n => Nat.pair 1 (Nat.pair n.base.toNat n.bits)
  rank_injective := by
    intro a b h
    cases a with
    | host a =>
        cases b with
        | host b => exact congrArg BanTarget.host (Ranked.rank_injective (Nat.pair_eq_pair.mp h).2)
        | subnet b => exact absurd (Nat.pair_eq_pair.mp h).1 (by decide)
    | subnet a =>
        cases b with
        | host b => exact absurd (Nat.pair_eq_pair.mp h).1 (by decide)
        | subnet b =>
            obtain ⟨hbase, hbits⟩ := Nat.pair_eq_pair.mp (Nat.pair_eq_pair.mp h).2
            cases a
            cases b
            cases BitVec.eq_of_toNat_eq hbase
            cases hbits
            rfl

/-! ### A target is read back from its text -/

/-- A byte of an address as it is written. -/
def Plain (b : UInt8) : Prop := isDigit 16 b = true ∨ b = 46 ∨ b = 58

theorem plain_separated {sep : UInt8} (hsep : Plain sep) {ts : List (List UInt8)}
    (hts : ∀ t ∈ ts, ∀ b ∈ t, Plain b) (index : Nat) : ∀ b ∈ separated sep index ts, Plain b := by
  induction ts generalizing index with
  | nil => exact fun b hb => absurd hb List.not_mem_nil
  | cons t ts ih =>
      intro b hb
      rw [separated, List.mem_append] at hb
      rcases hb with hfirst | hrest
      · split at hfirst
        · exact hts t List.mem_cons_self b hfirst
        · rcases List.mem_cons.mp hfirst with rfl | ht
          · exact hsep
          · exact hts t List.mem_cons_self b ht
      · exact ih (fun t' ht' => hts t' (List.mem_cons_of_mem _ ht')) _ b hrest

theorem hex_of_decimal {b : UInt8} (h : isDigit 10 b = true) : isDigit 16 b = true := by
  unfold isDigit at h ⊢
  split at h
  case h_1 d _ => exact decide_eq_true (Nat.lt_trans (of_decide_eq_true h) (by decide))
  case h_2 => cases h

theorem plain_octets (ip : BitVec 32) : ∀ b ∈ ipv4Text ip, Plain b := by
  refine plain_separated (.inr (.inl rfl)) (fun t ht b hb => ?_) 0
  obtain ⟨d, hd, rfl⟩ := List.mem_map.mp ht
  have hlt : d < 10 ^ (2 + 1) := Nat.lt_trans (places_lt (by decide) hd) (by decide)
  exact .inl (hex_of_decimal ((decimal_digits hlt).digits b hb))

theorem plain_segments {ss : List Nat} (hss : ∀ g ∈ ss, g < 65536) :
    ∀ b ∈ segmentsText ss, Plain b := by
  refine plain_separated (.inr (.inr rfl)) (fun t ht b hb => ?_) 0
  obtain ⟨g, hg, rfl⟩ := List.mem_map.mp ht
  have hlt : g < 16 ^ (3 + 1) := hss g hg
  exact .inl ((hex_digits hlt).digits b hb)

theorem plain_ipText (ip : Ip) : ∀ b ∈ ip.text, Plain b := by
  have hcolon : Plain 58 := .inr (.inr rfl)
  cases ip with
  | v4 ip => exact plain_octets ip
  | v6 ip =>
      rw [Ip.text, ipv6Text]
      split
      · intro b hb
        simp only [List.mem_cons, List.mem_append] at hb
        rcases hb with rfl | rfl | hseg | rfl | hv4
        · exact hcolon
        · exact hcolon
        · have hlt : 0xffff < 16 ^ (3 + 1) := by decide
          exact .inl ((hex_digits hlt).digits b hseg)
        · exact hcolon
        · exact plain_octets _ b hv4
      · simp only
        split
        · intro b hb
          simp only [List.mem_cons, List.mem_append] at hb
          rcases hb with hhead | rfl | rfl | htail
          · exact plain_segments (fun g hg => segments_lt (List.mem_of_mem_take hg)) b hhead
          · exact hcolon
          · exact hcolon
          · exact plain_segments (fun g hg => segments_lt (List.mem_of_mem_drop hg)) b htail
        · exact plain_segments fun g hg => segments_lt hg

/-- Everything that a target is written with can be seen. -/
def Visible (b : UInt8) : Prop := 33 ≤ b ∧ b ≤ 126

instance (b : UInt8) : Decidable (Visible b) := inferInstanceAs (Decidable (_ ∧ _))

theorem Plain.visible {b : UInt8} (h : Plain b) : Visible b ∧ b ≠ 47 := by
  have hall : ∀ b : Fin 256, isDigit 16 (UInt8.ofNat b.val) = true ∨ UInt8.ofNat b.val = 46 ∨
      UInt8.ofNat b.val = 58 → Visible (UInt8.ofNat b.val) ∧ UInt8.ofNat b.val ≠ 47 := by
    decide +kernel
  have hself : UInt8.ofNat b.toNat = b := UInt8.ofNat_toNat
  have hb := hall ⟨b.toNat, b.toNat_lt⟩
  rw [hself] at hb
  exact hb h

theorem stripFrom_visible {spaces : List (List UInt8)}
    (hspaces : ∀ w ∈ spaces, ∃ b rest, w = b :: rest ∧ ¬ Visible b) {bs : List UInt8}
    (hbs : ∀ b ∈ bs, Visible b) (n : Nat) : stripFrom spaces n bs = bs := by
  cases n with
  | zero => rfl
  | succ n =>
      have hnone : spaces.find? (·.isPrefixOf bs) = none := by
        rw [List.find?_eq_none]
        intro w hw hprefix
        obtain ⟨b, rest, rfl, hb⟩ := hspaces w hw
        obtain ⟨more, rfl⟩ := List.isPrefixOf_iff_prefix.mp hprefix
        exact hb (hbs b List.mem_cons_self)
      rw [stripFrom, hnone]

theorem trimText_visible {bs : List UInt8} (h : ∀ b ∈ bs, Visible b) : trimText bs = bs := by
  have hspaces : ∀ w ∈ whitespace, ∃ b rest, w = b :: rest ∧ ¬ Visible b := by
    have hall : ∀ w ∈ whitespace, w ≠ [] ∧ ¬ Visible (w.headD 33) := by decide
    intro w hw
    obtain ⟨hne, hhead⟩ := hall w hw
    obtain ⟨b, rest, rfl⟩ := List.exists_cons_of_ne_nil hne
    exact ⟨b, rest, rfl, hhead⟩
  have hreversed : ∀ w ∈ whitespace.map List.reverse, ∃ b rest, w = b :: rest ∧ ¬ Visible b := by
    have hall : ∀ w ∈ whitespace.map List.reverse, w ≠ [] ∧ ¬ Visible (w.headD 33) := by decide
    intro w hw
    obtain ⟨hne, hhead⟩ := hall w hw
    obtain ⟨b, rest, rfl⟩ := List.exists_cons_of_ne_nil hne
    exact ⟨b, rest, rfl, hhead⟩
  unfold trimText
  rw [stripFrom_visible hspaces h]
  simp only
  rw [stripFrom_visible hreversed fun b hb => h b (List.mem_reverse.mp hb), List.reverse_reverse]

theorem isDigit_slash : isDigit 10 47 = false := by decide

theorem parseU8_numeral {v : Nat} (h : v < 256) : parseU8 (numeral 10 2 v) = some v := by
  have hpow : v < 10 ^ (2 + 1) := Nat.lt_trans h (by decide)
  obtain ⟨hne, hds⟩ := decimal_digits hpow
  have hvalue : ofDigits 10 (numeral 10 2 v) = v :=
    ofDigits_numeral (by decide) (by decide) hpow
  have hplus : (match numeral 10 2 v with
      | 43 :: ds => ds
      | ds => ds) = numeral 10 2 v := by
    split
    case h_1 ds heq =>
      have hno : isDigit 10 43 = false := by decide
      have hplusDigit := hds 43 (heq ▸ List.mem_cons_self)
      rw [hno] at hplusDigit
      cases hplusDigit
    case h_2 => rfl
  unfold parseU8
  rw [hplus]
  simp only
  rw [if_neg hne, hvalue, if_pos]
  rw [Bool.and_eq_true]
  exact ⟨List.all_eq_true.mpr hds, decide_eq_true h⟩

theorem length_separated {sep : UInt8} {n : Nat} {ts : List (List UInt8)}
    (hts : ∀ t ∈ ts, t.length ≤ n) (index : Nat) :
    (separated sep (index + 1) ts).length ≤ ts.length * (n + 1) := by
  induction ts generalizing index with
  | nil => exact Nat.zero_le _
  | cons t ts ih =>
      have ht := hts t List.mem_cons_self
      have hrest := ih (fun t' ht' => hts t' (List.mem_cons_of_mem _ ht')) (index + 1)
      rw [separated, if_neg (Nat.succ_ne_zero _), List.length_append, List.length_cons,
        List.length_cons, Nat.succ_mul]
      omega

theorem length_ipv4Text (ip : BitVec 32) : (ipv4Text ip).length ≤ 15 := by
  have hlen : (octets ip).length = 4 := length_places _ _ _
  unfold ipv4Text
  cases hds : octets ip with
  | nil =>
      rw [hds] at hlen
      cases hlen
  | cons d ds =>
      rw [hds] at hlen
      have hfirst := length_numeral 10 2 d
      have hthree : ∀ t ∈ ds.map (numeral 10 2), t.length ≤ 3 := by
        intro t ht
        obtain ⟨d', -, rfl⟩ := List.mem_map.mp ht
        exact length_numeral 10 2 d'
      have hrest : (separated 46 (0 + 1) (ds.map (numeral 10 2))).length ≤ _ :=
        length_separated hthree 0
      rw [List.length_map] at hrest
      rw [List.length_cons] at hlen
      rw [List.map_cons, separated, if_pos rfl, List.length_append]
      omega

theorem parseIpv4_text (ip : BitVec 32) : parseIpv4 (ipv4Text ip) = some ip := by
  have hread : readIpv4 (ipv4Text ip ++ []) = some (ip, []) := readIpv4_text ip stops_nil
  rw [List.append_nil] at hread
  rw [parseIpv4, if_neg (Nat.not_lt.mpr (length_ipv4Text ip)), whole, hread]

theorem Subnet.parse_text (n : Subnet) :
    Subnet.parse (ipv4Text n.base ++ 47 :: numeral 10 2 n.bits) = some n := by
  have hplain := plain_octets n.base
  have hbits : n.bits < 10 ^ (2 + 1) := Nat.lt_of_le_of_lt n.short (by decide)
  have hslash : ∀ b ∈ ipv4Text n.base, (b != 47) = true := fun b hb =>
    bne_iff_ne.mpr (hplain b hb).visible.2
  have hfront : (ipv4Text n.base ++ 47 :: numeral 10 2 n.bits).takeWhile (· != 47)
      = ipv4Text n.base := by
    rw [List.takeWhile_append_of_pos hslash, List.takeWhile_cons_of_neg (by simp), List.append_nil]
  have hback : (ipv4Text n.base ++ 47 :: numeral 10 2 n.bits).dropWhile (· != 47)
      = 47 :: numeral 10 2 n.bits := by
    rw [List.dropWhile_append_of_pos hslash, List.dropWhile_cons_of_neg (by simp)]
  have hdigits := (decimal_digits hbits).digits
  have htrim := trimText_visible fun b hb => (hplain b hb).visible.1
  have htrim' : trimText (numeral 10 2 n.bits) = numeral 10 2 n.bits :=
    trimText_visible fun b hb => Plain.visible (.inl (hex_of_decimal (hdigits b hb))) |>.1
  unfold Subnet.parse
  rw [hfront, hback, htrim, List.drop_one, List.tail_cons, htrim', parseIpv4_text,
    parseU8_numeral (Nat.lt_of_le_of_lt n.short (by decide)), if_neg (by simp)]
  cases n with
  | mk base bits short masked =>
      show (if h : bits ≤ 32 then some (⟨base &&& mask bits, bits, h, _⟩ : Subnet) else none) = _
      rw [dif_pos short]
      simp only [masked]

theorem BanTarget.visible_text (t : BanTarget) : ∀ b ∈ t.text, Visible b := by
  cases t with
  | host ip => exact fun b hb => (plain_ipText ip b hb).visible.1
  | subnet n =>
      have hbits : n.bits < 10 ^ (2 + 1) := Nat.lt_of_le_of_lt n.short (by decide)
      intro b hb
      rw [BanTarget.text, List.mem_append, List.mem_cons] at hb
      rcases hb with hip | rfl | hds
      · exact (plain_octets n.base b hip).visible.1
      · decide
      · exact (Plain.visible (.inl (hex_of_decimal ((decimal_digits hbits).digits b hds)))).1

/-- A target is read back from how it is displayed. -/
theorem BanTarget.parse_text (t : BanTarget) : BanTarget.parse t.text = some t := by
  cases t with
  | host ip =>
      have hplain := plain_ipText ip
      have hslash : 47 ∉ ip.text := fun h => (hplain 47 h).visible.2 rfl
      rw [BanTarget.parse, BanTarget.text, trimText_visible fun b hb => (hplain b hb).visible.1]
      rw [if_neg hslash, parseIp_text]
      rfl
  | subnet n =>
      rw [BanTarget.parse, trimText_visible (BanTarget.visible_text _), BanTarget.text]
      rw [if_pos (List.mem_append_right _ List.mem_cons_self), Subnet.parse_text]
      rfl

/-! ### The length of a text -/

theorem length_segmentsText (ss : List Nat) : (segmentsText ss).length ≤ ss.length * 5 := by
  unfold segmentsText
  cases ss with
  | nil => exact Nat.zero_le _
  | cons s ss =>
      have hfour : ∀ t ∈ ss.map (numeral 16 3), t.length ≤ 4 := by
        intro t ht
        obtain ⟨d, -, rfl⟩ := List.mem_map.mp ht
        exact length_numeral 16 3 d
      have hfirst := length_numeral 16 3 s
      have hrest : (separated 58 (0 + 1) (ss.map (numeral 16 3))).length ≤ _ :=
        length_separated hfour 0
      rw [List.length_map] at hrest
      rw [List.map_cons, separated, if_pos rfl, List.length_append, List.length_cons]
      omega

theorem length_ipText (ip : Ip) : ip.text.length ≤ 82 := by
  cases ip with
  | v4 ip => exact Nat.le_trans (length_ipv4Text ip) (by decide)
  | v6 ip =>
      have hlen : (segments ip).length = 8 := length_places _ _ _
      rw [Ip.text, ipv6Text]
      split
      · have hv4 := length_ipv4Text (BitVec.ofNat 32 ip.toNat)
        have hnum := length_numeral 16 3 0xffff
        simp only [List.length_cons, List.length_append]
        omega
      · simp only
        split
        · set z := longestRun 0 ⟨0, 0⟩ ⟨0, 0⟩ (segments ip)
          have hhead := length_segmentsText ((segments ip).take z.start)
          have htail := length_segmentsText ((segments ip).drop (z.start + z.len))
          have htake : ((segments ip).take z.start).length ≤ 8 := by
            rw [List.length_take, hlen]
            exact Nat.min_le_right _ _
          have hdrop : ((segments ip).drop (z.start + z.len)).length ≤ 8 := by
            rw [List.length_drop, hlen]
            exact Nat.sub_le _ _
          simp only [List.length_cons, List.length_append]
          omega
        · have hall := length_segmentsText (segments ip)
          omega

theorem BanTarget.length_text (t : BanTarget) : t.text.length ≤ 82 := by
  cases t with
  | host ip => exact length_ipText ip
  | subnet n =>
      have hip := length_ipv4Text n.base
      have hbits := length_numeral 10 2 n.bits
      rw [BanTarget.text, List.length_append, List.length_cons]
      omega

theorem valid_of_visible {bs : List UInt8} (h : ∀ b ∈ bs, Visible b) : Utf8.valid bs = true := by
  unfold Utf8.valid
  induction bs with
  | nil => rfl
  | cons b bs ih =>
      have hb : b < 0x80 := by
        have hhigh := (h b List.mem_cons_self).2
        exact Nat.lt_of_le_of_lt (m := 126) hhigh (by decide)
      have hlead : Utf8.step .start b = some .start := by
        rw [Utf8.step, Utf8.lead, if_pos hb]
      rw [Utf8.validFrom, hlead]
      exact ih fun b' hb' => h b' (List.mem_cons_of_mem _ hb')

theorem BanTarget.valid_text (t : BanTarget) : Utf8.valid t.text = true :=
  valid_of_visible t.visible_text

end Wownero.Peers

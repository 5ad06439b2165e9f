import Mathlib.Tactic.FieldSimp
import Mathlib.Data.List.TakeWhile
import BitCash.KeyIo.Base58

/-!
# Amounts as text

`ParseMoney` and `FormatMoney` of `utilmoneystr.cpp`.
-/

variable {c : UInt8}

namespace BitCash
open Nat Checks List UInt8

inductive ParseStop where
  | returnsFalse
  | signedOverflow
  deriving DecidableEq, Repr

def signed64 (x : Nat) : Except ParseStop Nat := if x < 2 ^ 63 then .ok x else .error .signedOverflow

def isdigit (c : UInt8) : Bool := decide (48 ≤ c ∧ c ≤ 57)

def digitValue (c : UInt8) : Nat := c.toNat - 48

/-- the number a text of digits stands for -/
def number (w : Bytes) : Nat := ofDigits 10 (w.map digitValue).reverse

def atoi64 (w : Bytes) : Nat := min (number w) (2 ^ 63 - 1)

def parseUnits : Nat → Nat → Bytes → Except ParseStop (Nat × Bytes)
  | _, nUnits, [] => .ok (nUnits, [])
  | nMult, nUnits, c :: p =>
    if isdigit c ∧ 0 < nMult then do
      let nUnits ← signed64 (nUnits + nMult * digitValue c)
      parseUnits (nMult / 10) nUnits p
    else .ok (nUnits, c :: p)

def parseWhole : Bytes → Bytes → Except ParseStop (Bytes × Nat × Bytes)
  | strWhole, [] => .ok (strWhole, 0, [])
  | strWhole, c :: p =>
    if c = 46 then do
      let r ← parseUnits 100000000 0 p
      .ok (strWhole, r.1, r.2)
    else if isspace c then .ok (strWhole, 0, c :: p)
    else if !isdigit c then .error .returnsFalse
    else parseWhole (strWhole ++ [c]) p

def cstring (s : Bytes) : Bytes := s.takeWhile (· ≠ 0)

def parseMoney (str : Bytes) : Except ParseStop Nat := do
  let (strWhole, nUnits, p) ← parseWhole [] ((cstring str).dropWhile isspace)
  need (p.all isspace) .returnsFalse
  need (decide (strWhole.length ≤ 10)) .returnsFalse
  need (decide (nUnits ≤ COIN.toNat)) .returnsFalse
  let nWhole ← signed64 (atoi64 strWhole * COIN.toNat)
  signed64 (nWhole + nUnits)

def decimalText (n : Nat) : Bytes := if n = 0 then [48] else (digits 10 n).reverse.map fun d => .ofNat (48 + d)

def paddedText (n : Nat) : Bytes := List.replicate (9 - (decimalText n).length) 48 ++ decimalText n

/-- the zeros at the end of the text go, except the first two places; the text is given from its end -/
def trimZeros : Bytes → Bytes
  | c :: d :: e :: l => if c = 48 ∧ isdigit e then trimZeros (d :: e :: l) else c :: d :: e :: l
  | l => l

def formatMoney (n : Int) : Except ParseStop Bytes := do
  let nAbs ← signed64 (if 0 < n then n else -n).toNat
  let str := decimalText (nAbs / COIN.toNat) ++ 46 :: paddedText (nAbs % COIN.toNat)
  let str := (trimZeros str.reverse).reverse
  .ok (if n < 0 then 45 :: str else str)

/-! ## numbers of digits -/

theorem isdigit_iff : isdigit c ↔ 48 ≤ c.toNat ∧ c.toNat ≤ 57 := by
  unfold isdigit
  rw [decide_eq_true_iff, le_iff_toNat_le, le_iff_toNat_le]
  rfl

theorem digitValue_le (h : isdigit c) : digitValue c ≤ 9 := by
  rw [isdigit_iff] at h
  unfold digitValue
  omega

theorem not_isspace_of_isdigit (h : isdigit c) : isspace c = false ∧ c ≠ 46 ∧ c ≠ 0 := by
  rw [isdigit_iff] at h
  simp only [isspace, Bool.or_eq_false_iff, Bool.and_eq_false_iff, decide_eq_false_iff_not, le_iff_toNat_le,
    ← UInt8.toNat_inj, reduceToNat, ne_eq]
  omega

@[simp] theorem number_nil : number [] = 0 := rfl

theorem number_append (a b : Bytes) : number (a ++ b) = number a * 10 ^ b.length + number b := by
  unfold number
  rw [map_append, reverse_append, ofDigits_append, length_reverse, length_map]
  ring

theorem number_cons (c : UInt8) (w : Bytes) : number (c :: w) = digitValue c * 10 ^ w.length + number w := by
  have h := number_append [c] w
  rwa [singleton_append, show number [c] = digitValue c from ofDigits_singleton] at h

theorem number_lt {w : Bytes} (h : ∀ c ∈ w, isdigit c) : number w < 10 ^ w.length := by
  induction w with
  | nil => exact Nat.one_pos
  | cons c w ih =>
    have hw := ih fun x hx => h x (mem_cons_of_mem _ hx)
    have hc := Nat.mul_le_mul_right (10 ^ w.length) (digitValue_le (h c mem_cons_self))
    rw [number_cons, length_cons, pow_succ]
    omega

theorem number_replicate_zero (k : Nat) : number (replicate k 48) = 0 := by
  induction k with
  | zero => rfl
  | succ k ih => rw [replicate_succ, number_cons, ih, show digitValue 48 = 0 from rfl, Nat.zero_mul]

/-! ## what `ParseMoney` returns -/

theorem parseUnits_eq (cs : Bytes) (k u : Nat) (hu : u + 10 ^ k ≤ 2 ^ 63) : parseUnits (10 ^ k / 10) u cs =
      .ok (u + number ((cs.takeWhile isdigit).take k) * 10 ^ (k - ((cs.takeWhile isdigit).take k).length),
        cs.drop ((cs.takeWhile isdigit).take k).length) := by
  induction cs generalizing k u with
  | nil => simp [parseUnits]
  | cons c cs ih =>
    cases k with
    | zero => simp [parseUnits]
    | succ k =>
      have hmult : 10 ^ (k + 1) / 10 = 10 ^ k := by rw [pow_succ, Nat.mul_div_cancel _ (by decide)]
      have hpos : 0 < 10 ^ k := by positivity
      unfold parseUnits
      rw [hmult]
      by_cases hc : isdigit c = true
      · have hle := Nat.mul_le_mul_left (10 ^ k) (digitValue_le hc)
        rw [pow_succ] at hu
        have hfit : u + 10 ^ k * digitValue c < 2 ^ 63 := by omega
        have hlen : ((cs.takeWhile isdigit).take k).length ≤ k := length_take_le ..
        rw [if_pos ⟨hc, hpos⟩, signed64, if_pos hfit, ok_bind, ih k _ (by omega), takeWhile_cons_of_pos hc,
          take_succ_cons, number_cons, length_cons, Nat.add_sub_add_right, drop_succ_cons]
        generalize (cs.takeWhile isdigit).take k = f at hlen
        have hpow : 10 ^ f.length * 10 ^ (k - f.length) = 10 ^ k := by rw [← pow_add, Nat.add_sub_cancel' hlen]
        rw [Nat.add_mul, Nat.mul_assoc (digitValue c), hpow, Nat.mul_comm (10 ^ k), Nat.add_assoc]
      · rw [if_neg (fun h => hc h.1), takeWhile_cons_of_neg hc]
        simp

def unitsOf : Bytes → Bytes × Bytes
  | [] => ([], [])
  | c :: p => if c = 46 then ((p.takeWhile isdigit).take 9,
      p.drop ((p.takeWhile isdigit).take 9).length) else ([], c :: p)

theorem unitsOf_cons (c : UInt8) (p : Bytes) : unitsOf (c :: p) = if c = 46 then
    ((p.takeWhile isdigit).take 9, p.drop ((p.takeWhile isdigit).take 9).length) else ([], c :: p) := rfl

theorem parseWhole_eq (cs w : Bytes) :
    (parseWhole w cs = .error .returnsFalse ∧ (unitsOf (cs.dropWhile isdigit)).2.all isspace = false) ∨
      parseWhole w cs = .ok (w ++ cs.takeWhile isdigit,
        number (unitsOf (cs.dropWhile isdigit)).1 * 10 ^ (9 - (unitsOf (cs.dropWhile isdigit)).1.length),
        (unitsOf (cs.dropWhile isdigit)).2) := by
  induction cs generalizing w with
  | nil => right; simp [parseWhole, unitsOf]
  | cons c cs ih =>
    unfold parseWhole
    by_cases hd : isdigit c = true
    · obtain ⟨hs, hp, -⟩ := not_isspace_of_isdigit hd
      rw [if_neg hp, if_neg (by simp [hs]), if_neg (by simp [hd]), takeWhile_cons_of_pos hd,
        dropWhile_cons_of_pos hd, append_cons w c (cs.takeWhile isdigit)]
      exact ih _
    · rw [takeWhile_cons_of_neg hd, dropWhile_cons_of_neg hd, append_nil]
      by_cases hp : c = 46
      · right
        rw [if_pos hp, show 100000000 = 10 ^ 9 / 10 from rfl, parseUnits_eq cs 9 0 (by decide), unitsOf_cons, if_pos hp]
        simp
      · rw [if_neg hp, unitsOf_cons, if_neg hp]
        by_cases hs : isspace c = true
        · right; simp [hs]
        · left; simp [hs, hd]

def moneyText (str : Bytes) : Bytes := (cstring str).dropWhile isspace

def moneyValue (w f : Bytes) : Nat := number w * 1000000000 + number f * 10 ^ (9 - f.length)

theorem length_unitsOf (p : Bytes) : (unitsOf p).1.length ≤ 9 := by
  cases p with
  | nil => simp [unitsOf]
  | cons c p => rw [unitsOf_cons]; split <;> simp

theorem isdigit_unitsOf (p : Bytes) : ∀ c ∈ (unitsOf p).1, isdigit c := by
  cases p with
  | nil => simp [unitsOf]
  | cons c p =>
    intro x hx
    rw [unitsOf_cons] at hx
    split at hx
    · exact all_eq_true.1 all_takeWhile x (mem_of_mem_take hx)
    · cases hx

theorem isdigit_takeWhile {s : Bytes} : ∀ c ∈ s.takeWhile isdigit, isdigit c := all_eq_true.1 all_takeWhile

theorem coin_toNat : COIN.toNat = 1000000000 := by
  rw [COIN]
  exact Int.toNat_natCast 1000000000

theorem units_lt {f : Bytes} (hlt : number f < 10 ^ f.length) (hlen : f.length ≤ 9) :
    number f * 10 ^ (9 - f.length) < 1000000000 := by
  calc number f * 10 ^ (9 - f.length) < 10 ^ f.length * 10 ^ (9 - f.length) :=
        Nat.mul_lt_mul_of_pos_right hlt (by positivity)
    _ = 10 ^ 9 := by rw [← pow_add, Nat.add_sub_cancel' hlen]
    _ = 1000000000 := by norm_num

theorem parseMoney_eq (str : Bytes) : parseMoney str =
      if (unitsOf ((moneyText str).dropWhile isdigit)).2.all isspace ∧
          ((moneyText str).takeWhile isdigit).length ≤ 10 then
        signed64 (moneyValue ((moneyText str).takeWhile isdigit) (unitsOf ((moneyText str).dropWhile isdigit)).1)
      else .error .returnsFalse := by
  unfold parseMoney
  rcases parseWhole_eq (moneyText str) [] with ⟨h, hall⟩ | h
  · rw [show (cstring str).dropWhile isspace = moneyText str from rfl, h, if_neg (by simp [hall])]
    rfl
  · rw [show (cstring str).dropWhile isspace = moneyText str from rfl, h, ok_bind, nil_append]
    have hlen := length_unitsOf ((moneyText str).dropWhile isdigit)
    have hlt := number_lt (isdigit_unitsOf ((moneyText str).dropWhile isdigit))
    have hw := number_lt (isdigit_takeWhile (s := moneyText str))
    generalize (moneyText str).takeWhile isdigit = w at hw ⊢
    generalize unitsOf ((moneyText str).dropWhile isdigit) = r at hlen hlt ⊢
    have hunits := units_lt hlt hlen
    have hle : number r.1 * 10 ^ (9 - r.1.length) ≤ COIN.toNat := coin_toNat ▸ hunits.le
    dsimp only
    rw [decide_eq_true hle]
    by_cases hall : r.2.all isspace = true
    · by_cases hten : w.length ≤ 10
      · have hnum : number w < 10 ^ 10 := hw.trans_le (Nat.pow_le_pow_right (by decide) hten)
        rw [if_pos ⟨hall, hten⟩, hall, decide_eq_true hten, atoi64, Nat.min_eq_left (by omega)]
        unfold signed64 moneyValue
        rw [coin_toNat]
        by_cases hfit : number w * 1000000000 < 2 ^ 63
        · rw [need_true, ok_bind, ok_bind, ok_bind, if_pos hfit, ok_bind]
        · have hsum : ¬ number w * 1000000000 + number r.1 * 10 ^ (9 - r.1.length) < 2 ^ 63 :=
            fun h => hfit ((Nat.le_add_right _ _).trans_lt h)
          rw [need_true, ok_bind, ok_bind, ok_bind, if_neg hfit, if_neg hsum, error_bind]
      · rw [if_neg (fun h => hten h.2), hall, decide_eq_false hten]
        simp only [need_true, need_false, ok_bind, error_bind]
    · rw [if_neg (fun h => hall h.1), Bool.eq_false_iff.2 hall]
      simp only [need_false, error_bind]

/-! ## the decimal a text stands for -/

structure MoneyText (s w f : Bytes) : Prop where
  form : ∃ lead point trail, s = lead ++ (w ++ (point ++ trail)) ∧ (point = 46 :: f ∨ point = [] ∧ f = []) ∧
    lead.all isspace = true ∧ trail.all isspace = true
  whole : ∀ c ∈ w, isdigit c = true
  units : ∀ c ∈ f, isdigit c = true

def decimal (w f : Bytes) : ℚ := number w + number f / 10 ^ f.length

theorem moneyValue_eq (w : Bytes) {f : Bytes} (h : f.length ≤ 9) : (moneyValue w f : ℚ) = decimal w f * COIN := by
  have hpow : (10 : ℚ) ^ f.length * 10 ^ (9 - f.length) = 1000000000 := by
    rw [← pow_add, Nat.add_sub_cancel' h]
    norm_num
  unfold moneyValue decimal COIN
  push_cast
  rw [← hpow]
  field_simp

theorem takeWhile_digits {w r : Bytes} (hw : ∀ c ∈ w, isdigit c) (hr : ∀ c, r.head? = some c → isdigit c = false) :
    (w ++ r).takeWhile isdigit = w ∧ (w ++ r).dropWhile isdigit = r := by
  rw [takeWhile_append_of_pos hw, dropWhile_append_of_pos hw]
  cases r with
  | nil => simp
  | cons c r => simp [hr c rfl]

theorem head_space {l : Bytes} (h : l.all isspace) : ∀ c, l.head? = some c → isdigit c = false ∧ c ≠ 46 := by
  intro c hc
  have hs := all_eq_true.1 h c (mem_of_mem_head? hc)
  refine ⟨Bool.eq_false_iff.2 fun hd => ?_, fun hp => ?_⟩
  · rw [(not_isspace_of_isdigit hd).1] at hs
    cases hs
  · rw [hp] at hs
    cases hs

theorem parseMoney_text {s w f : Bytes} (h : MoneyText (cstring s) w f) (hw : w.length ≤ 10) (hf : f.length ≤ 9) :
    parseMoney s = signed64 (moneyValue w f) := by
  obtain ⟨lead, point, trail, hs, hpoint, hlead, htrail⟩ := h.form
  have hskip : moneyText s = (w ++ (point ++ trail)).dropWhile isspace := by
    rw [moneyText, hs, dropWhile_append_of_pos (all_eq_true.1 hlead)]
  -- the white space in front ends at the first digit or at the point; a text without either is all white space
  have htext : moneyText s = w ++ (point ++ trail) ∨ w = [] ∧ f = [] ∧ moneyText s = [] := by
    cases w with
    | cons c w =>
      have hc := (not_isspace_of_isdigit (h.whole c mem_cons_self)).1
      rw [cons_append, dropWhile_cons_of_neg (by simp [hc])] at hskip
      exact .inl hskip
    | nil =>
      rcases hpoint with rfl | ⟨rfl, rfl⟩
      · exact .inl (hskip.trans (dropWhile_cons_of_neg (by decide)))
      · exact .inr ⟨rfl, rfl, hskip.trans (dropWhile_eq_nil_iff.2 (all_eq_true.1 htrail))⟩
  rw [parseMoney_eq]
  rcases htext with htext | ⟨rfl, rfl, htext⟩
  · have hrest : ∀ c, (point ++ trail).head? = some c → isdigit c = false := by
      rcases hpoint with rfl | ⟨rfl, rfl⟩
      · intro c hc
        cases hc
        decide
      · exact fun c hc => (head_space htrail c hc).1
    have hunits : unitsOf (point ++ trail) = (f, trail) := by
      rcases hpoint with rfl | ⟨rfl, rfl⟩
      · rw [cons_append, unitsOf_cons, if_pos rfl,
          (takeWhile_digits h.units fun c hc => (head_space htrail c hc).1).1, take_of_length_le hf, drop_left]
      · cases trail with
        | nil => rfl
        | cons c trail => exact if_neg (head_space htrail c rfl).2
    rw [htext, (takeWhile_digits h.whole hrest).1, (takeWhile_digits h.whole hrest).2, hunits, if_pos ⟨htrail, hw⟩]
  · rw [htext]
    rfl

theorem moneyText_of_accepted {s : Bytes} (h : (unitsOf ((moneyText s).dropWhile isdigit)).2.all isspace) :
    MoneyText (cstring s) ((moneyText s).takeWhile isdigit) (unitsOf ((moneyText s).dropWhile isdigit)).1 := by
  refine ⟨?_, isdigit_takeWhile, isdigit_unitsOf _⟩
  have hsplit : (moneyText s).takeWhile isdigit ++ (moneyText s).dropWhile isdigit = moneyText s :=
    takeWhile_append_dropWhile
  have hlead : (cstring s).takeWhile isspace ++ moneyText s = cstring s := takeWhile_append_dropWhile
  have hpoint : ∃ point, (moneyText s).dropWhile isdigit = point ++ (unitsOf ((moneyText s).dropWhile isdigit)).2 ∧
      (point = 46 :: (unitsOf ((moneyText s).dropWhile isdigit)).1 ∨
        point = [] ∧ (unitsOf ((moneyText s).dropWhile isdigit)).1 = []) := by
    generalize (moneyText s).dropWhile isdigit = r
    cases r with
    | nil => exact ⟨[], rfl, .inr ⟨rfl, rfl⟩⟩
    | cons c p =>
      rw [unitsOf_cons]
      split
      · next hc =>
        refine ⟨_, ?_, .inl rfl⟩
        have hdigits : p.takeWhile isdigit <+: p := takeWhile_prefix _
        have hnine : (p.takeWhile isdigit).take 9 <+: p.takeWhile isdigit := take_prefix _ _
        have htake : (p.takeWhile isdigit).take 9 = p.take ((p.takeWhile isdigit).take 9).length :=
          prefix_iff_eq_take.1 (hnine.trans hdigits)
        rw [hc, cons_append]
        conv_rhs => rw [show ((p.takeWhile isdigit).take 9, _).1 = _ from htake, take_append_drop]
      · exact ⟨[], rfl, .inr ⟨rfl, rfl⟩⟩
  obtain ⟨point, hrest, hform⟩ := hpoint
  exact ⟨_, point, _, by rw [← hrest, hsplit, hlead], hform, all_takeWhile, h⟩

/-! ## the way back -/

theorem isdigit_ofNat {d : Nat} (h : d < 10) : isdigit (.ofNat (48 + d)) ∧ digitValue (.ofNat (48 + d)) = d := by
  have hnat : (ofNat (48 + d)).toNat = 48 + d := toNat_ofNat_of_lt' (by change _ < 256; omega)
  rw [isdigit_iff, digitValue, hnat]
  omega

theorem isdigit_decimalText (n : Nat) : ∀ c ∈ decimalText n, isdigit c := by
  unfold decimalText
  split
  · exact forall_mem_singleton.2 (by decide)
  · intro c hc
    obtain ⟨d, hd, rfl⟩ := mem_map.1 hc
    exact (isdigit_ofNat (digits_lt_base (by decide) (mem_reverse.1 hd))).1

theorem number_decimalText (n : Nat) : number (decimalText n) = n := by
  unfold decimalText
  split
  · next h => rw [h]; rfl
  · have hback : ((digits 10 n).reverse.map fun d => ofNat (48 + d)).map digitValue = (digits 10 n).reverse := by
      rw [map_map]
      refine (map_congr_left fun d hd => ?_).trans (map_id _)
      exact (isdigit_ofNat (digits_lt_base (by decide) (mem_reverse.1 hd))).2
    rw [number, hback, reverse_reverse, ofDigits_digits]

theorem length_decimalText {n k : Nat} (hk : 0 < k) (h : n < 10 ^ k) : (decimalText n).length ≤ k := by
  unfold decimalText
  split
  · exact hk
  · rw [length_map, length_reverse]
    exact (digits_length_le_iff (by decide) n).2 h

theorem trimZeros_units (g l : Bytes) :
    ∃ k, g = replicate k 48 ++ g.drop k ∧ trimZeros (g ++ 46 :: l) = g.drop k ++ 46 :: l := by
  induction g with
  | nil =>
    refine ⟨0, rfl, ?_⟩
    rcases l with _ | ⟨d, _ | ⟨e, l⟩⟩ <;> simp [trimZeros]
  | cons c g ih =>
    by_cases h : trimZeros (c :: (g ++ 46 :: l)) = trimZeros (g ++ 46 :: l) ∧ c = 48
    · obtain ⟨k, hg, htrim⟩ := ih
      refine ⟨k + 1, ?_, (h.1.trans htrim)⟩
      rw [replicate_succ, cons_append, drop_succ_cons, ← hg, h.2]
    · refine ⟨0, rfl, ?_⟩
      rw [cons_append, drop_zero, cons_append]
      generalize g ++ 46 :: l = m at h
      rcases m with _ | ⟨d, _ | ⟨e, m⟩⟩
      · rfl
      · rfl
      · exact if_neg fun hc => h ⟨if_pos hc, hc.1⟩

theorem parseMoney_formatMoney {n : Nat} (h : n < 2 ^ 63) : ∃ t, formatMoney n = .ok t ∧ parseMoney t = .ok n := by
  have hr : n % 1000000000 < 10 ^ 9 := mod_lt _ (by decide)
  have hq : n / 1000000000 < 10 ^ 10 := by omega
  have hwhole := isdigit_decimalText (n / 1000000000)
  have hpad : ∀ c ∈ paddedText (n % 1000000000), isdigit c := by
    intro c hc
    rcases mem_append.1 hc with hc | hc
    · rw [eq_of_mem_replicate hc]
      decide
    · exact isdigit_decimalText _ c hc
  have hlen : (paddedText (n % 1000000000)).length = 9 := by
    have hle := length_decimalText (by decide) hr
    rw [paddedText, length_append, length_replicate]
    omega
  have hnum : number (paddedText (n % 1000000000)) = n % 1000000000 := by
    rw [paddedText, number_append, number_replicate_zero, number_decimalText, Nat.zero_mul, Nat.zero_add]
  obtain ⟨k, hzeros, htrim⟩ := trimZeros_units (paddedText (n % 1000000000)).reverse
    (decimalText (n / 1000000000)).reverse
  -- the digits that are kept, in the order of the text
  obtain ⟨f, hf⟩ : ∃ f, f = ((paddedText (n % 1000000000)).reverse.drop k).reverse := ⟨_, rfl⟩
  have hsplit : paddedText (n % 1000000000) = f ++ replicate k 48 := by
    rw [← reverse_inj, reverse_append, reverse_replicate, hf, reverse_reverse]
    exact hzeros
  have hfk : f.length + k = 9 := by rw [← hlen, hsplit, length_append, length_replicate]
  have hfd : ∀ c ∈ f, isdigit c := fun c hc => hpad c (hsplit ▸ mem_append_left _ hc)
  have hvalue : moneyValue (decimalText (n / 1000000000)) f = n := by
    rw [hsplit, number_append, number_replicate_zero, length_replicate, Nat.add_zero] at hnum
    rw [moneyValue, number_decimalText, show 9 - f.length = k by omega, hnum]
    exact div_add_mod' n 1000000000
  refine ⟨decimalText (n / 1000000000) ++ 46 :: f, ?_, ?_⟩
  · have habs : (if 0 < (n : Int) then (n : Int) else -n).toNat = n := by split <;> omega
    unfold formatMoney
    rw [habs, signed64, if_pos h, ok_bind, coin_toNat]
    dsimp only
    rw [reverse_append, reverse_cons, append_assoc,
      singleton_append, htrim, reverse_append, reverse_cons, reverse_reverse, ← hf,
      if_neg (by omega), append_assoc, singleton_append]
  · have hplain : cstring (decimalText (n / 1000000000) ++ 46 :: f) = decimalText (n / 1000000000) ++ 46 :: f := by
      refine takeWhile_eq_self fun c hc => decide_eq_true ?_
      rcases mem_append.1 hc with hc | hc
      · exact (not_isspace_of_isdigit (hwhole c hc)).2.2
      · rcases mem_cons.1 hc with rfl | hc
        · decide
        · exact (not_isspace_of_isdigit (hfd c hc)).2.2
    have htext : MoneyText (cstring (decimalText (n / 1000000000) ++ 46 :: f)) (decimalText (n / 1000000000)) f := by
      refine ⟨⟨[], 46 :: f, [], ?_, .inl rfl, rfl, rfl⟩, hwhole, hfd⟩
      rw [hplain, append_nil]
      rfl
    rw [parseMoney_text htext (length_decimalText (by decide) hq) (by omega), hvalue, signed64, if_pos h]

def ParsesExactly (s : Bytes) : Prop :=
  parseMoney s = .error .returnsFalse ∨
    ∃ w f n, MoneyText (cstring s) w f ∧ parseMoney s = .ok n ∧ n < 2 ^ 63 ∧ (n : ℚ) = decimal w f * COIN

/-- **money strings parse exactly** unless ten whole digits stand for more than 64 bits hold; every amount that
`FormatMoney` writes is read back -/
theorem parseMoney_exact_iff (s : Bytes) :
    (ParsesExactly s ↔ ∀ w f, MoneyText (cstring s) w f → w.length ≤ 10 → f.length ≤ 9 →
      decimal w f * COIN < 2 ^ 63) ∧ ∀ n : Nat, n < 2 ^ 63 → ∃ t, formatMoney n = .ok t ∧ parseMoney t = .ok n := by
  refine ⟨⟨fun h w f ht hw hf => ?_, fun h => ?_⟩, fun n => parseMoney_formatMoney⟩
  · have hparse := parseMoney_text ht hw hf
    unfold signed64 at hparse
    split at hparse
    · next hlt =>
      rw [← moneyValue_eq w hf]
      exact_mod_cast hlt
    · rcases h with h | ⟨w', f', n, -, h, -⟩ <;> rw [hparse] at h <;> cases h
  · have hparse := parseMoney_eq s
    split at hparse
    · next hok =>
      have ht := moneyText_of_accepted hok.1
      have hlen := length_unitsOf ((moneyText s).dropWhile isdigit)
      have hlt := h _ _ ht hok.2 hlen
      rw [← moneyValue_eq _ hlen] at hlt
      have hnat : moneyValue ((moneyText s).takeWhile isdigit) (unitsOf
        ((moneyText s).dropWhile isdigit)).1 < 2 ^ 63 := by
        exact_mod_cast hlt
      rw [signed64, if_pos hnat] at hparse
      exact .inr ⟨_, _, _, ht, hparse, hnat, moneyValue_eq _ hlen⟩
    · exact .inl hparse

theorem parseMoney_overflows : parseMoney (textBytes "9999999999") = .error .signedOverflow ∧
    ¬ ParsesExactly (textBytes "9999999999") := by
  have h : parseMoney (textBytes "9999999999") = .error .signedOverflow := by decide
  refine ⟨h, ?_⟩
  rintro (h' | ⟨w, f, n, -, h', -⟩) <;> rw [h] at h' <;> cases h'

theorem parseMoney_exact_half : formatMoney 1500000000 = .ok (textBytes "1.50") ∧
    ∃ t, formatMoney 1500000000 = .ok t ∧ parseMoney t = .ok 1500000000 :=
  ⟨by decide +kernel, (parseMoney_exact_iff (textBytes "1.50")).2 1500000000 (by decide)⟩

end BitCash

import Mathlib.Algebra.Order.Ring.Abs
import BitCash.Util.MoneyString

/-!
# `ParseFixedPoint`

The amounts of RPC calls (`utilstrencodings.cpp`).
-/

variable {decimals D : Nat} {w : Bytes}

namespace BitCash.FixedPoint
open Checks Machine List Option Int

def UPPER_BOUND : Int := 10 ^ 18 - 1

def checked (x : Int) : Except ParseStop Int := if fits64 x then .ok x else .error .signedOverflow

def scale (tooBig : Int → Bool) : Nat → Int → Except ParseStop Int
  | 0, mantissa => .ok mantissa
  | i + 1, mantissa => do
    need (!tooBig mantissa) .returnsFalse
    let mantissa ← checked (mantissa * 10)
    scale tooBig i mantissa

def processMantissaDigit (s : Int × Nat) (ch : UInt8) : Except ParseStop (Int × Nat) :=
  if ch = 48 then .ok (s.1, s.2 + 1)
  else do
    let mantissa ← scale (fun m => decide (UPPER_BOUND / 10 < m)) (s.2 + 1) s.1
    let mantissa ← checked (mantissa + digitValue ch)
    .ok (mantissa, 0)

def wholePart : Bytes → Except ParseStop ((Int × Nat) × Bytes)
  | [] => .error .returnsFalse
  | c :: p =>
    if c = 48 then .ok ((0, 0), p)
    else if isdigit c then do
      let s ← run processMantissaDigit (0, 0) ((c :: p).takeWhile isdigit)
      .ok (s, (c :: p).dropWhile isdigit)
    else .error .returnsFalse

def fractionPart (s : Int × Nat) : Bytes → Except ParseStop ((Int × Nat) × Nat × Bytes)
  | [] => .ok (s, 0, [])
  | c :: p =>
    if c = 46 then do
      need (!(p.takeWhile isdigit).isEmpty) .returnsFalse
      let s ← run processMantissaDigit s (p.takeWhile isdigit)
      .ok (s, (p.takeWhile isdigit).length, p.dropWhile isdigit)
    else .ok (s, 0, c :: p)

def exponentDigit (exponent : Int) (ch : UInt8) : Except ParseStop Int := do
  need (decide (exponent ≤ UPPER_BOUND / 10)) .returnsFalse
  checked (exponent * 10 + digitValue ch)

def exponentSign : Bytes → Bool × Bytes
  | [] => (false, [])
  | c :: p => if c = 43 then (false, p) else if c = 45 then (true, p) else (false, c :: p)

def exponentPart : Bytes → Except ParseStop (Bool × Int × Bytes)
  | [] => .ok (false, 0, [])
  | c :: p =>
    if c = 101 ∨ c = 69 then do
      let r := exponentSign p
      need (!(r.2.takeWhile isdigit).isEmpty) .returnsFalse
      let exponent ← run exponentDigit 0 (r.2.takeWhile isdigit)
      .ok (r.1, exponent, r.2.dropWhile isdigit)
    else .ok (false, 0, c :: p)

def finalize (mantissaSign : Bool) (s : Int × Nat) (pointOfs : Nat) (exponent : Int) (decimals : Nat) :
    Except ParseStop Int := do
  let exponent ← checked (exponent - pointOfs)
  let exponent ← checked (exponent + s.2)
  let exponent ← checked (exponent + decimals)
  need (decide (0 ≤ exponent)) .returnsFalse
  need (decide (exponent < 18)) .returnsFalse
  let mantissa ← scale (fun m => decide (UPPER_BOUND / 10 < m ∨ m < -(UPPER_BOUND / 10))) exponent.toNat
    (if mantissaSign then -s.1 else s.1)
  need (decide (-UPPER_BOUND ≤ mantissa ∧ mantissa ≤ UPPER_BOUND)) .returnsFalse
  .ok mantissa

def parseFixedPoint (val : Bytes) (decimals : Nat) : Except ParseStop Int := do
  let mantissaSign := decide (val.head? = some 45)
  let (s, p) ← wholePart (if mantissaSign then val.drop 1 else val)
  let (s, pointOfs, p) ← fractionPart s p
  let (exponentSign, exponent, p) ← exponentPart p
  need p.isEmpty .returnsFalse
  finalize mantissaSign s pointOfs (if exponentSign then -exponent else exponent) decimals

/-! ## the mantissa -/

theorem checked_ok {x : Int} (h : |x| < 2 ^ 63) : checked x = .ok x := by
  rw [abs_lt] at h
  exact if_pos (fits64_iff.2 (by omega))

theorem scale_eq {tooBig : Int → Bool} (k : Nat) {m : Int} (hm : |m| < 10 ^ 18)
    (h : ∀ i, tooBig (m * 10 ^ i) = decide (10 ^ 17 ≤ |m * 10 ^ i|)) :
    scale tooBig k m = if |m * 10 ^ k| < 10 ^ 18 then .ok (m * 10 ^ k) else .error .returnsFalse := by
  induction k generalizing m with
  | zero =>
    rw [pow_zero, mul_one, if_pos hm]
    rfl
  | succ k ih =>
    have h0 := h 0
    rw [pow_zero, mul_one] at h0
    have hpow : m * 10 ^ (k + 1) = m * 10 * 10 ^ k := by rw [pow_succ]; ring
    have habs : |m * 10| = |m| * 10 := by rw [abs_mul]; rfl
    unfold scale
    rw [h0, hpow]
    by_cases hbig : 10 ^ 17 ≤ |m|
    · have hge : ¬ |m * 10 * 10 ^ k| < 10 ^ 18 := by
        rw [abs_mul, habs, abs_of_pos (by positivity : (0 : Int) < 10 ^ k)]
        have : (1 : Int) ≤ 10 ^ k := one_le_pow₀ (by norm_num)
        nlinarith
      rw [decide_eq_true hbig, if_neg hge]
      rfl
    · rw [decide_eq_false hbig, Bool.not_false, need_true, ok_bind, checked_ok (by rw [habs]; omega), ok_bind]
      refine ih (by rw [habs]; omega) fun i => ?_
      rw [mul_assoc, ← pow_succ']
      exact h (i + 1)

structure Holds (D k : Nat) (s : Int × Nat) : Prop where
  nonneg : 0 ≤ s.1
  lt : s.1 < 10 ^ 18
  value : s.1 * 10 ^ s.2 = D
  zeros : s.1 = 0 → s.2 = k
  last : s.1 ≠ 0 → s.1 % 10 ≠ 0

def TooLong (D : Nat) : Prop := ∃ E r R, D = E * 10 ^ r + R ∧ R < 10 ^ r ∧ 10 ^ 18 ≤ E ∧ E % 10 ≠ 0

variable {s : Int × Nat} {k : Nat} {f r : Bytes} {e : Int}

theorem processMantissaDigit_spec {c : UInt8} (h : Holds D k s) (hc : isdigit c) :
    (∃ s', processMantissaDigit s c = .ok s' ∧ Holds (D * 10 + digitValue c) (k + 1) s') ∨
      processMantissaDigit s c = .error .returnsFalse ∧ TooLong (D * 10 + digitValue c) := by
  obtain ⟨m, t⟩ := s
  obtain ⟨h0, hlt, hval, hz, hl⟩ := h
  dsimp only at *
  have hd := isdigit_iff.1 hc
  unfold processMantissaDigit
  by_cases hzero : c = 48
  · left
    refine ⟨(m, t + 1), if_pos hzero, h0, hlt, ?_, fun hm => congrArg (· + 1) (hz hm), hl⟩
    rw [hzero, pow_succ, ← mul_assoc, hval]
    rfl
  · have hne : c.toNat ≠ 48 := fun h => hzero (UInt8.toNat_inj.1 h)
    obtain ⟨d, hdig⟩ : ∃ d, d = digitValue c := ⟨_, rfl⟩
    have hdr : 1 ≤ d ∧ d ≤ 9 := by rw [hdig]; unfold digitValue; omega
    have hval' : m * 10 ^ (t + 1) = D * 10 := by rw [pow_succ, ← mul_assoc, hval]
    have habs : |m * 10 ^ (t + 1)| = D * 10 := by rw [hval']; exact abs_of_nonneg (by omega)
    have hbig : ∀ i, decide (UPPER_BOUND / 10 < m * 10 ^ i) = decide (10 ^ 17 ≤ |m * 10 ^ i|) := by
      intro i
      have hp : 0 ≤ m * 10 ^ i := by positivity
      rw [abs_of_nonneg hp, decide_eq_decide, UPPER_BOUND]
      omega
    rw [if_neg hzero, scale_eq (t + 1) (by rw [abs_of_nonneg h0]; exact hlt) hbig, habs, hval', ← hdig]
    by_cases hfit : (D * 10 : Int) < 10 ^ 18
    · left
      refine ⟨(D * 10 + d, 0), ?_, ?_⟩
      · rw [if_pos hfit, ok_bind, checked_ok (by rw [abs_of_nonneg] <;> omega), ok_bind]
      · refine ⟨?_, ?_, ?_, ?_, ?_⟩ <;> dsimp only <;> push_cast <;> omega
    · right
      rw [if_neg hfit]
      exact ⟨rfl, D * 10 + d, 0, 0, by simp, by simp, by omega, by omega⟩

theorem TooLong.append (h : TooLong D) (hw : ∀ c ∈ w, isdigit c) : TooLong (D * 10 ^ w.length + number w) := by
  obtain ⟨E, r, R, rfl, hR, hE, hlast⟩ := h
  refine ⟨E, r + w.length, R * 10 ^ w.length + number w, by rw [pow_add]; ring, ?_, hE, hlast⟩
  have := number_lt hw
  rw [pow_add]
  nlinarith

theorem run_mantissa (hw : ∀ c ∈ w, isdigit c) (h : Holds D k s) :
    (∃ s', run processMantissaDigit s w = .ok s' ∧ Holds (D * 10 ^ w.length + number w) (k + w.length) s') ∨
      run processMantissaDigit s w = .error .returnsFalse ∧ TooLong (D * 10 ^ w.length + number w) := by
  induction w generalizing D k s with
  | nil => exact .inl ⟨s, rfl, by simpa using h⟩
  | cons c w ih =>
    have hrest := fun x hx => hw x (mem_cons_of_mem c hx)
    have hnum : D * 10 ^ (c :: w).length + number (c :: w) = (D * 10 + digitValue c) * 10 ^ w.length + number w := by
      rw [number_cons, length_cons, pow_succ]
      ring
    have hk : k + (c :: w).length = k + 1 + w.length := by rw [length_cons]; omega
    rw [run_cons, hnum, hk]
    rcases processMantissaDigit_spec h (hw c mem_cons_self) with ⟨s', hs, hh⟩ | ⟨hs, hlong⟩
    · rw [hs, ok_bind]
      exact ih hrest hh
    · rw [hs]
      exact .inr ⟨rfl, hlong.append hrest⟩

/-! ## numbers of JSON -/

/-- `0`, or digits of which the first is not a zero -/
def WholeDigits (w : Bytes) : Prop := w = [48] ∨ w.head? ≠ some 48 ∧ w ≠ [] ∧ ∀ c ∈ w, isdigit c = true

def fractionText (f : Bytes) : Bytes := if f = [] then [] else 46 :: f

def exponentText (mark : UInt8) (sign e : Bytes) : Bytes := if e = [] then [] else mark :: (sign ++ e)

structure JsonNumber where
  negative : Bool
  whole : Bytes
  fraction : Bytes
  mark : UInt8
  sign : Bytes
  exponent : Bytes

structure JsonNumber.WellFormed (j : JsonNumber) : Prop where
  whole : WholeDigits j.whole
  fraction : ∀ c ∈ j.fraction, isdigit c = true
  mark : j.mark = 101 ∨ j.mark = 69
  sign : j.sign = [] ∨ j.sign = [43] ∨ j.sign = [45]
  exponent : ∀ c ∈ j.exponent, isdigit c = true

def JsonNumber.text (j : JsonNumber) : Bytes :=
  (if j.negative then [45] else []) ++ (j.whole ++ (fractionText j.fraction ++ exponentText j.mark j.sign j.exponent))

def JsonNumber.value (j : JsonNumber) : ℚ :=
  (if j.negative then -1 else 1) * decimal j.whole j.fraction *
    10 ^ (if j.sign = [45] then -(number j.exponent : Int) else number j.exponent)

def Ends (p : Bytes) : Prop := ∀ c, p.head? = some c → isdigit c = false

theorem ends_dropWhile (p : Bytes) : Ends (p.dropWhile isdigit) := by
  intro c hc
  have h := head?_dropWhile_not isdigit p
  rw [hc] at h
  simpa using h

theorem holds_zero : Holds 0 0 (0, 0) := ⟨le_rfl, by norm_num, by simp, fun _ => rfl, fun h => absurd rfl h⟩

theorem wholePart_spec (hw : WholeDigits w) (hr : w = [48] ∨ Ends r) :
    (∃ s, wholePart (w ++ r) = .ok (s, r) ∧ Holds (number w) 0 s) ∨
      wholePart (w ++ r) = .error .returnsFalse ∧ TooLong (number w) := by
  rcases hw with rfl | ⟨hhead, hne, hdig⟩
  · exact .inl ⟨(0, 0), rfl, holds_zero⟩
  · obtain ⟨c, w, rfl⟩ := exists_cons_of_ne_nil hne
    have hc : c ≠ 48 := fun h => hhead (congrArg some h)
    have hcd := hdig c mem_cons_self
    have hend : Ends r := hr.resolve_left fun h => hc (cons.inj h).1
    have hpos : number (c :: w) ≠ 0 := by
      have hne' : c.toNat ≠ 48 := fun h => hc (UInt8.toNat_inj.1 h)
      have hle := (isdigit_iff.1 hcd).1
      have : 0 < digitValue c * 10 ^ w.length := Nat.mul_pos (by unfold digitValue; omega) (by positivity)
      rw [number_cons]
      omega
    obtain ⟨htake, hdrop⟩ := takeWhile_digits hdig hend
    have heq : wholePart (c :: w ++ r) = (run processMantissaDigit (0, 0) (c :: w) >>= fun s => .ok (s, r)) := by
      rw [cons_append, wholePart, if_neg hc, if_pos hcd, ← cons_append, htake, hdrop]
    rw [heq]
    rcases run_mantissa hdig holds_zero with ⟨s, hs, hh⟩ | ⟨hs, hlong⟩
    · rw [Nat.zero_mul, Nat.zero_add] at hh
      refine .inl ⟨s, by rw [hs]; rfl, hh.nonneg, hh.lt, hh.value, fun h0 => ?_, hh.last⟩
      have hval := hh.value
      rw [h0, zero_mul] at hval
      exact absurd (by exact_mod_cast hval.symm) hpos
    · rw [Nat.zero_mul, Nat.zero_add] at hlong
      exact .inr ⟨by rw [hs]; rfl, hlong⟩

theorem wholePart_split (p : Bytes) : wholePart p = .error .returnsFalse ∨
    ∃ w r, p = w ++ r ∧ WholeDigits w ∧ (w = [48] ∨ Ends r) := by
  cases p with
  | nil => exact .inl rfl
  | cons c p =>
    by_cases hc : c = 48
    · exact .inr ⟨[48], p, by rw [hc]; rfl, .inl rfl, .inl rfl⟩
    · by_cases hd : isdigit c = true
      · refine .inr ⟨_, _, takeWhile_append_dropWhile.symm, .inr ⟨?_, ?_, isdigit_takeWhile⟩,
          .inr (ends_dropWhile _)⟩ <;> rw [takeWhile_cons_of_pos hd]
        · exact fun h => hc (some.inj h)
        · exact cons_ne_nil _ _
      · exact .inl ((if_neg hc).trans (if_neg hd))

theorem fractionPart_spec (h : Holds D 0 s) (hf : ∀ c ∈ f, isdigit c)
    (hr : f = [] ∧ r.head? ≠ some 46 ∨ Ends r ∧ f ≠ []) :
    (∃ s', fractionPart s (fractionText f ++ r) = .ok (s', f.length, r) ∧
        Holds (D * 10 ^ f.length + number f) f.length s') ∨
      fractionPart s (fractionText f ++ r) = .error .returnsFalse ∧ TooLong (D * 10 ^ f.length + number f) := by
  rcases hr with ⟨rfl, hpoint⟩ | ⟨hend, hne⟩
  · refine .inl ⟨s, ?_, by simpa using h⟩
    cases r with
    | nil => rfl
    | cons c r => exact if_neg fun hc => hpoint (congrArg some hc)
  · obtain ⟨htake, hdrop⟩ := takeWhile_digits hf hend
    have heq : fractionPart s (fractionText f ++ r) =
        (run processMantissaDigit s f >>= fun s => .ok (s, f.length, r)) := by
      rw [fractionText, if_neg hne, cons_append, fractionPart, if_pos rfl, htake, hdrop]
      obtain ⟨c, f, rfl⟩ := exists_cons_of_ne_nil hne
      rfl
    rw [heq]
    rcases run_mantissa hf h with ⟨s', hs, hh⟩ | ⟨hs, hlong⟩
    · rw [Nat.zero_add] at hh
      exact .inl ⟨s', by rw [hs]; rfl, hh⟩
    · exact .inr ⟨by rw [hs]; rfl, hlong⟩

theorem fractionPart_split (p : Bytes) : (∀ s, fractionPart s p = .error .returnsFalse) ∨
    ∃ f r, p = fractionText f ++ r ∧ (∀ c ∈ f, isdigit c) ∧ (f = [] ∧ r.head? ≠ some 46 ∨ Ends r ∧ f ≠ []) := by
  cases p with
  | nil => exact .inr ⟨[], [], rfl, forall_mem_nil _, .inl ⟨rfl, by simp⟩⟩
  | cons c p =>
    by_cases hc : c = 46
    · by_cases hf : p.takeWhile isdigit = []
      · refine .inl fun s => ?_
        rw [fractionPart, if_pos hc, hf]
        rfl
      · refine .inr ⟨_, p.dropWhile isdigit, ?_, isdigit_takeWhile, .inr ⟨ends_dropWhile _, hf⟩⟩
        rw [fractionText, if_neg hf, hc, cons_append, takeWhile_append_dropWhile]
    · exact .inr ⟨[], c :: p, rfl, forall_mem_nil _, .inl ⟨rfl, fun h => hc (some.inj h)⟩⟩

theorem run_exponent {e : Bytes} (he : ∀ c ∈ e, isdigit c) {x : Nat} (hx : x < 10 ^ 18) :
    run exponentDigit x e = .error .returnsFalse ∨
      run exponentDigit x e =
        .ok ((x * 10 ^ e.length + number e : Nat) : Int) ∧ x * 10 ^ e.length + number e < 10 ^ 18 := by
  induction e generalizing x with
  | nil => exact .inr ⟨by simp, by simpa using hx⟩
  | cons c e ih =>
    have hd := digitValue_le (he c mem_cons_self)
    have hnum : x * 10 ^ (c :: e).length + number (c :: e) = (x * 10 + digitValue c) * 10 ^ e.length + number e := by
      rw [number_cons, length_cons, pow_succ]
      ring
    rw [run_cons, hnum, exponentDigit]
    by_cases hb : (x : Int) ≤ UPPER_BOUND / 10
    · have hb' : (x : Int) ≤ 99999999999999999 := hb
      rw [decide_eq_true hb, need_true, ok_bind, checked_ok (by rw [abs_of_nonneg] <;> omega), ok_bind]
      exact_mod_cast ih (fun y hy => he y (mem_cons_of_mem _ hy)) (x := x * 10 + digitValue c) (by omega)
    · rw [decide_eq_false hb]
      exact .inl rfl

theorem exponentPart_split (p : Bytes) : exponentPart p = .error .returnsFalse ∨
    ∃ mark sign e r, p = exponentText mark sign e ++ r ∧ (mark = 101 ∨ mark = 69) ∧
      (sign = [] ∨ sign = [43] ∨ sign = [45]) ∧ (∀ c ∈ e, isdigit c) ∧ number e < 10 ^ 18 ∧
      exponentPart p = .ok (decide (sign = [45]), number e, r) := by
  cases p with
  | nil => exact .inr ⟨101, [], [], [], rfl, .inl rfl, .inl rfl, forall_mem_nil _, by decide, rfl⟩
  | cons c p =>
    by_cases hc : c = 101 ∨ c = 69
    · have hsign : ∃ sign, (sign = [] ∨ sign = [43] ∨ sign = [45]) ∧ p = sign ++ (exponentSign p).2 ∧
          (exponentSign p).1 = decide (sign = [45]) := by
        cases p with
        | nil => exact ⟨[], .inl rfl, rfl, rfl⟩
        | cons d p =>
          rw [exponentSign]
          split_ifs with h1 h2
          · exact ⟨[43], by simp, by rw [h1]; rfl, rfl⟩
          · exact ⟨[45], by simp, by rw [h2]; rfl, rfl⟩
          · exact ⟨[], .inl rfl, rfl, rfl⟩
      obtain ⟨sign, hform, hp, hs⟩ := hsign
      have hsplit := takeWhile_append_dropWhile (p := isdigit) (l := (exponentSign p).2)
      rw [exponentPart, if_pos hc]
      dsimp only
      generalize (exponentSign p).2.dropWhile isdigit = r at hsplit ⊢
      have hdig := isdigit_takeWhile (s := (exponentSign p).2)
      generalize (exponentSign p).2.takeWhile isdigit = e at hsplit hdig ⊢
      cases e with
      | nil => exact .inl rfl
      | cons d e =>
        rw [isEmpty_cons, Bool.not_false, need_true, ok_bind]
        have hrun := run_exponent hdig (x := 0) (by norm_num)
        rw [Nat.zero_mul, Nat.zero_add] at hrun
        rcases hrun with hrun | ⟨hrun, hlt⟩
        · rw [show (0 : Int) = ((0 : Nat) : Int) from rfl, hrun]
          exact .inl rfl
        · refine .inr ⟨c, sign, d :: e, r, ?_, hc, hform, hdig, hlt, ?_⟩
          · rw [exponentText, if_neg (cons_ne_nil _ _), cons_append, append_assoc, hsplit, ← hp]
          · rw [show (0 : Int) = ((0 : Nat) : Int) from rfl, hrun, ok_bind, hs]
    · exact .inr ⟨101, [], [], c :: p, rfl, .inl rfl, .inl rfl, forall_mem_nil _, by decide, if_neg hc⟩

/-! ## the end -/

theorem finalize_eq (h : Holds D k s) (neg : Bool) {ofs : Nat}
    (he : |e| < 10 ^ 18) (hofs : ofs < 2 ^ 31) (ht : s.2 < 2 ^ 31) (hdec : decimals ≤ 17) :
    finalize neg s ofs e decimals = if 0 ≤ e - ofs + s.2 + decimals ∧ e - ofs + s.2 + decimals < 18 ∧
          s.1 * 10 ^ (e - ofs + s.2 + decimals).toNat < 10 ^ 18 then
        .ok ((if neg then -1 else 1) * (s.1 * 10 ^ (e - ofs + s.2 + decimals).toNat)) else .error .returnsFalse := by
  obtain ⟨m, t⟩ := s
  have h0 := h.nonneg
  have hlt := h.lt
  dsimp only at *
  rw [abs_lt] at he
  unfold finalize
  rw [checked_ok (by rw [abs_lt]; omega), ok_bind, checked_ok (by rw [abs_lt]; omega), ok_bind,
    checked_ok (by rw [abs_lt]; omega), ok_bind]
  generalize e - ofs + t + decimals = X
  -- the sign is put on before the last loop
  obtain ⟨x, hx⟩ : ∃ x, x = if neg then -m else m := ⟨_, rfl⟩
  have hsign : x = (if neg then -1 else 1) * m := by rw [hx]; cases neg <;> simp
  have habs : ∀ k : Nat, |x * 10 ^ k| = m * 10 ^ k := by
    intro k
    have hxm : |x| = m := by rw [hx]; cases neg <;> simp [h0]
    rw [abs_mul, hxm, abs_of_nonneg (by positivity : (0 : Int) ≤ 10 ^ k)]
  have hm : |x| < 10 ^ 18 := by simpa using (habs 0).trans_lt (by simpa using hlt)
  rw [← hx, ← mul_assoc, ← hsign]
  by_cases hX : 0 ≤ X ∧ X < 18
  · rw [decide_eq_true hX.1, decide_eq_true hX.2, need_true, ok_bind, ok_bind, scale_eq X.toNat hm, habs]
    · by_cases hfit : m * 10 ^ X.toNat < 10 ^ 18
      · have hrange : -UPPER_BOUND ≤ x * 10 ^ X.toNat ∧ x * 10 ^ X.toNat ≤ UPPER_BOUND := by
          rw [← abs_le, habs, UPPER_BOUND]
          omega
        rw [if_pos hfit, if_pos ⟨hX.1, hX.2, hfit⟩, ok_bind, decide_eq_true hrange, need_true, ok_bind]
      · rw [if_neg hfit, if_neg fun h => hfit h.2.2]
        rfl
    · intro i
      rw [decide_eq_decide, le_abs, UPPER_BOUND]
      omega
  · rw [if_neg fun h => hX ⟨h.1, h.2.1⟩]
    by_cases h1 : 0 ≤ X
    · rw [decide_eq_true h1, decide_eq_false fun h2 => hX ⟨h1, h2⟩]
      rfl
    · rw [decide_eq_false h1]
      rfl

def unsigned (val : Bytes) : Bytes := if decide (val.head? = some 45) then val.drop 1 else val

theorem parseFixedPoint_eq (val : Bytes) (decimals : Nat) : parseFixedPoint val decimals =
    (wholePart (unsigned val) >>= fun r => fractionPart r.1 r.2 >>= fun t => exponentPart t.2.2 >>= fun x =>
      need x.2.2.isEmpty .returnsFalse >>= fun _ =>
        finalize (decide (val.head? = some 45)) t.1 t.2.1 (if x.1 then -x.2.1 else x.2.1) decimals) := rfl

theorem parseFixedPoint_digits {p : Bytes} (neg : Bool) (decimals : Nat) (hw : WholeDigits w)
    (hr : w = [48] ∨ Ends (fractionText f ++ p)) (hf : ∀ c ∈ f, isdigit c)
    (hp : f = [] ∧ p.head? ≠ some 46 ∨ Ends p ∧ f ≠ []) : (∃ s, Holds (number (w ++ f)) f.length s ∧
        parseFixedPoint ((if neg then [45] else []) ++ (w ++ (fractionText f ++ p))) decimals = (do
          let (exponentSign, exponent, p) ← exponentPart p
          need p.isEmpty .returnsFalse
          finalize neg s f.length (if exponentSign then -exponent else exponent) decimals)) ∨
      parseFixedPoint ((if neg then [45] else []) ++ (w ++ (fractionText f ++ p))) decimals = .error .returnsFalse ∧
        TooLong (number (w ++ f)) := by
  obtain ⟨c, w', rfl⟩ : ∃ c w', w = c :: w' := by
    rcases hw with rfl | ⟨-, hne, -⟩
    · exact ⟨48, [], rfl⟩
    · exact exists_cons_of_ne_nil hne
  have hc : c ≠ 45 := by
    have hd : isdigit c := by
      rcases hw with h | ⟨-, -, h⟩
      · rw [(cons.inj h).1]
        decide
      · exact h c mem_cons_self
    rintro rfl
    cases hd
  have hstart : ∀ q, unsigned ((if neg then [45] else []) ++ (c :: w' ++ q)) = c :: w' ++ q ∧
      decide (((if neg then [45] else []) ++ (c :: w' ++ q)).head? = some 45) = neg := by
    intro q
    cases neg with
    | true => exact ⟨rfl, rfl⟩
    | false =>
      have hne : decide ((c :: w' ++ q).head? = some 45) = false := decide_eq_false fun h => hc (some.inj h)
      exact ⟨if_neg (Bool.eq_false_iff.1 hne), hne⟩
  rw [parseFixedPoint_eq, (hstart _).1, (hstart _).2, number_append]
  rcases wholePart_spec hw hr with ⟨s, hs, hh⟩ | ⟨hs, hlong⟩
  · rw [hs]
    rcases fractionPart_spec hh hf hp with ⟨s', hs', hh'⟩ | ⟨hs', hlong⟩
    · refine .inl ⟨s', hh', ?_⟩
      show (fractionPart s _ >>= _) = _
      rw [hs']
      rfl
    · refine .inr ⟨?_, hlong⟩
      show (fractionPart s _ >>= _) = _
      rw [hs']
      rfl
  · rw [hs]
    exact .inr ⟨rfl, hlong.append hf⟩

theorem decimal_eq (w f : Bytes) : decimal w f = number (w ++ f) / 10 ^ f.length := by
  rw [decimal, number_append]
  push_cast
  field_simp

theorem Holds.zeros_le {L : Nat} (h : Holds D k s) (hD : D < 10 ^ L) (hk : k ≤ L) : s.2 ≤ L := by
  by_cases h0 : s.1 = 0
  · rw [h.zeros h0]
    exact hk
  · have hval := h.value
    have hm : 1 ≤ s.1 := by have := h.nonneg; omega
    have hle : 10 ^ s.2 ≤ D := by
      have : (10 : Int) ^ s.2 ≤ s.1 * 10 ^ s.2 := le_mul_of_one_le_left (by positivity) hm
      rw [hval] at this
      exact_mod_cast this
    exact ((Nat.pow_lt_pow_iff_right (by norm_num)).1 (hle.trans_lt hD)).le

theorem not_tooLong {N F d : Nat} (h : D * 10 ^ d = N * 10 ^ F) (hN : N < 10 ^ 18) : ¬ TooLong D := by
  rintro ⟨E, r, R, rfl, hR, hE, hlast⟩
  have hpos : ∀ k, 0 < 10 ^ k := fun k => by positivity
  by_cases hF : F ≤ r + d
  · have h1 : 10 ^ 18 * 10 ^ F ≤ (E * 10 ^ r + R) * 10 ^ d :=
      calc 10 ^ 18 * 10 ^ F ≤ E * 10 ^ (r + d) := Nat.mul_le_mul hE (Nat.pow_le_pow_right (by norm_num) hF)
        _ = E * 10 ^ r * 10 ^ d := by rw [pow_add, Nat.mul_assoc]
        _ ≤ _ := Nat.mul_le_mul_right _ (Nat.le_add_right ..)
    rw [h] at h1
    exact absurd (Nat.le_of_mul_le_mul_right h1 (hpos F)) (by omega)
  · obtain ⟨j, rfl⟩ : ∃ j, F = r + d + (j + 1) := ⟨F - (r + d) - 1, by omega⟩
    have h1 : (E * 10 ^ r + R) * 10 ^ d = N * 10 ^ (j + 1) * 10 ^ r * 10 ^ d := by rw [h, pow_add, pow_add]; ring
    have h2 := congrArg (· / 10 ^ r) (Nat.eq_of_mul_eq_mul_right (hpos d) h1)
    rw [Nat.mul_comm E, Nat.mul_add_div (hpos r), Nat.div_eq_of_lt hR,
      Nat.mul_div_cancel _ (hpos r), pow_succ, ← Nat.mul_assoc] at h2
    omega

theorem power_of_fits {F d N : Nat} (h : Holds D F s) (hval : D * 10 ^ d = N * 10 ^ F)
    (hN : N < 10 ^ 18) (hd : d ≤ 17) :
    (0 ≤ (0 : Int) - F + s.2 + d ∧ (0 : Int) - F + s.2 + d < 18) ∧ s.1 * 10 ^ ((0 : Int) - F + s.2 + d).toNat = N := by
  obtain ⟨m, t⟩ := s
  obtain ⟨h0, -, hD, hz, hl⟩ := h
  dsimp only at *
  have hpos : ∀ k : Nat, (10 : Int) ^ k ≠ 0 := fun k => by positivity
  have heq : m * 10 ^ (t + d) = N * 10 ^ F := by
    rw [pow_add, ← mul_assoc, hD]
    exact_mod_cast hval
  by_cases hm : m = 0
  · rw [hm, zero_mul] at heq
    have hN0 : (N : Int) = 0 := (mul_eq_zero.1 heq.symm).resolve_right (hpos F)
    rw [hz hm, hm, hN0, zero_mul]
    exact ⟨by omega, rfl⟩
  · have hF : F ≤ t + d := by
      by_contra hlt
      obtain ⟨j, rfl⟩ : ∃ j, F = j + 1 + (t + d) := ⟨F - (t + d) - 1, by omega⟩
      rw [pow_add _ (j + 1), ← mul_assoc] at heq
      have := mul_right_cancel₀ (hpos _) heq
      rw [pow_succ, ← mul_assoc] at this
      exact hl hm (by omega)
    obtain ⟨k, hk⟩ := Nat.exists_eq_add_of_le' hF
    have hX : (0 : Int) - F + t + d = k := by omega
    rw [hk, pow_add, ← mul_assoc] at heq
    have hmk : m * 10 ^ k = N := mul_right_cancel₀ (hpos _) heq
    have hle : (10 : Int) ^ k ≤ m * 10 ^ k := le_mul_of_one_le_left (by positivity) (by omega)
    have hk18 : k < 18 := (Nat.pow_lt_pow_iff_right (a := 10) (by norm_num)).1 (by
      rw [hmk] at hle
      exact lt_of_le_of_lt (by exact_mod_cast hle) hN)
    rw [hX, toNat_natCast]
    exact ⟨by omega, hmk⟩

theorem finalize_value (h : Holds (number (w ++ f)) f.length s) (hX : 0 ≤ e - f.length + s.2 + decimals) :
    (s.1 * 10 ^ (e - f.length + s.2 + decimals).toNat : ℚ) = decimal w f * 10 ^ e * 10 ^ decimals := by
  have hval : (s.1 * 10 ^ s.2 : ℚ) = number (w ++ f) := by exact_mod_cast h.value
  rw [decimal_eq, ← hval, ← zpow_natCast, toNat_of_nonneg hX, zpow_add₀ (by norm_num), zpow_add₀ (by norm_num),
    zpow_sub₀ (by norm_num), zpow_natCast, zpow_natCast, zpow_natCast]
  field_simp

theorem length_fractionText (f : Bytes) : f.length ≤ (fractionText f).length := by
  unfold fractionText
  split
  · next h => rw [h]
  · exact Nat.le_succ _

theorem digits_append (hw : WholeDigits w) (hf : ∀ c ∈ f, isdigit c) : ∀ c ∈ w ++ f, isdigit c := by
  intro c hc
  rcases mem_append.1 hc with hc | hc
  · rcases hw with rfl | hw
    · rw [mem_singleton.1 hc]
      decide
    · exact hw.2.2 c hc
  · exact hf c hc

theorem parseFixedPoint_sound {val : Bytes} (hlen : val.length < 2 ^ 31) (hdec : decimals ≤ 17) :
    parseFixedPoint val decimals = .error .returnsFalse ∨
      ∃ (j : JsonNumber) (n : Int), j.WellFormed ∧ val = j.text ∧ parseFixedPoint val decimals = .ok n ∧
        (n : ℚ) = j.value * 10 ^ decimals ∧ |n| ≤ 10 ^ 18 - 1 := by
  obtain ⟨neg, hneg⟩ : ∃ neg : Bool, val = (if neg then [45] else []) ++ unsigned val := by
    by_cases hs : val.head? = some 45
    · refine ⟨true, ?_⟩
      cases val with
      | nil => cases hs
      | cons c val => rw [unsigned, decide_eq_true hs, some.inj hs]; rfl
    · exact ⟨false, by rw [unsigned, decide_eq_false hs]; rfl⟩
  have heq := parseFixedPoint_eq val decimals
  rcases wholePart_split (unsigned val) with hfail | ⟨w, r, hwr, hw, hr⟩
  · rw [hfail] at heq
    exact .inl heq
  rcases fractionPart_split r with hfail | ⟨f, p, rfl, hf, hp⟩
  · rw [hwr] at heq
    rcases wholePart_spec hw hr with ⟨s, hs, -⟩ | ⟨hs, -⟩
    · rw [hs, ok_bind, hfail] at heq
      exact .inl heq
    · rw [hs] at heq
      exact .inl heq
  rw [hwr] at hneg
  rcases parseFixedPoint_digits neg decimals hw hr hf hp with ⟨s, hh, hparse⟩ | ⟨hparse, -⟩
  · rw [← hneg] at hparse
    rcases exponentPart_split p with hfail | ⟨mark, sign, e, r, hpr, hmark, hsign, he, helt, hexp⟩
    · rw [hfail] at hparse
      exact .inl hparse
    · rw [hexp] at hparse
      cases r with
      | cons c r => exact .inl hparse
      | nil =>
        have hL : w.length + f.length ≤ val.length := by
          have := length_fractionText f
          rw [hneg, length_append, length_append, length_append]
          omega
        have ht := hh.zeros_le (number_lt (digits_append hw hf)) (by rw [length_append]; omega)
        rw [length_append] at ht
        obtain ⟨x, hx⟩ : ∃ x : Int, x = if sign = [45] then -(number e : Int) else number e := ⟨_, rfl⟩
        have hpow : |x| < 10 ^ 18 := by
          rw [hx, abs_lt]
          split <;> omega
        have hfin : parseFixedPoint val decimals = finalize neg s f.length x decimals := by
          rw [hparse, hx]
          simp only [ok_bind, decide_eq_true_eq]
          rfl
        rw [finalize_eq hh neg hpow (by omega) (by omega) hdec] at hfin
        split at hfin
        · next hX =>
          have hnn : 0 ≤ s.1 * 10 ^ (x - f.length + s.2 + decimals).toNat := mul_nonneg hh.nonneg (by positivity)
          refine .inr ⟨⟨neg, w, f, mark, sign, e⟩, _, ⟨hw, hf, hmark, hsign, he⟩, ?_, hfin, ?_, ?_⟩
          · rw [hneg, hpr, append_nil]
            rfl
          · have hvalue := finalize_value hh hX.1
            rw [JsonNumber.value, ← hx, mul_assoc, mul_assoc, ← mul_assoc (decimal w f), ← hvalue]
            push_cast
            rfl
          · have habs : |(if neg then (-1 : Int) else 1)| = 1 := by cases neg <;> rfl
            rw [abs_mul, habs, one_mul, abs_of_nonneg hnn]
            omega
        · exact .inl hfin
  · rw [← hneg] at hparse
    exact .inl hparse

theorem parseFixedPoint_complete {j : JsonNumber} {n : Int} (hlen : j.text.length < 2 ^ 31)
    (hdec : decimals ≤ 17) (hj : j.WellFormed) (he : j.exponent = []) (hn : j.value * 10 ^ decimals = n)
    (hle : |n| ≤ 10 ^ 18 - 1) : parseFixedPoint j.text decimals = .ok n := by
  obtain ⟨neg, w, f, mark, sign, e⟩ := j
  obtain ⟨hw, hf, -, -, -⟩ := hj
  dsimp only at he hw hf
  subst he
  have htext : JsonNumber.text ⟨neg, w, f, mark, sign,
    []⟩ = (if neg then [45] else []) ++ (w ++ (fractionText f ++ [])) := rfl
  have hend : Ends [] := fun c hc => nomatch hc
  have hr : w = [48] ∨ Ends (fractionText f ++ []) := by
    right
    unfold fractionText
    split
    · exact hend
    · intro c hc
      cases hc
      decide
  have hp : f = [] ∧ ([] : Bytes).head? ≠ some 46 ∨ Ends [] ∧ f ≠ [] := by
    by_cases hf0 : f = []
    · exact .inl ⟨hf0, by simp⟩
    · exact .inr ⟨hend, hf0⟩
  obtain ⟨σ, hσ⟩ : ∃ σ : Int, σ = if neg then -1 else 1 := ⟨_, rfl⟩
  have hunit : σ = 1 ∨ σ = -1 := by rw [hσ]; cases neg <;> simp
  have hvalue : ((σ * number (w ++ f) * 10 ^ decimals : Int) : ℚ) = (n * 10 ^ f.length : Int) := by
    push_cast
    rw [← hn, JsonNumber.value, decimal_eq, hσ]
    cases neg <;> simp <;> field_simp
  have hint : σ * (number (w ++ f) * 10 ^ decimals) = n * 10 ^ f.length := by
    rw [← mul_assoc]
    exact_mod_cast hvalue
  -- the digits times the power of ten, without the sign
  have hpow : (0 : Int) < 10 ^ f.length := by positivity
  have hnn : (0 : Int) ≤ number (w ++ f) * 10 ^ decimals := by positivity
  have hsn : σ * n = n.natAbs := by
    rcases hunit with h | h <;> rw [h] at hint ⊢
    · have : 0 ≤ n := by nlinarith
      omega
    · have : n ≤ 0 := by nlinarith
      omega
  have hsq : σ * σ = 1 := by rcases hunit with h | h <;> rw [h] <;> rfl
  have habs : number (w ++ f) * 10 ^ decimals = n.natAbs * 10 ^ f.length := by
    have : (number (w ++ f) * 10 ^ decimals : Int) = n.natAbs * 10 ^ f.length := by
      rw [← hsn, mul_assoc, ← hint, ← mul_assoc, hsq, one_mul]
    exact_mod_cast this
  have hN : n.natAbs < 10 ^ 18 := by rw [← ofNat_lt, natCast_natAbs]; push_cast; omega
  rw [htext] at hlen ⊢
  rcases parseFixedPoint_digits neg decimals hw hr hf hp with ⟨s, hh, hparse⟩ | ⟨-, hlong⟩
  · have hL : w.length + f.length < 2 ^ 31 := by
      have := length_fractionText f
      rw [length_append, length_append, length_append] at hlen
      omega
    have ht := hh.zeros_le (number_lt (digits_append hw hf)) (by rw [length_append]; omega)
    rw [length_append] at ht
    rw [hparse]
    show finalize neg s f.length 0 decimals = _
    obtain ⟨hX, hm⟩ := power_of_fits hh habs hN hdec
    rw [finalize_eq hh neg (by simp) (by omega) (by omega) hdec, hm, if_pos ⟨hX.1, hX.2,
      by exact_mod_cast hN⟩, ← hσ, ← hsn,
      ← mul_assoc, hsq, one_mul]
  · exact absurd hlong (not_tooLong habs hN)

theorem parseFixedPoint_exact {val : Bytes} {decimals : Nat} (hlen : val.length < 2 ^ 31) (hdec : decimals ≤ 17) :
    (parseFixedPoint val decimals = .error .returnsFalse ∨
      ∃ (j : JsonNumber) (n : Int), j.WellFormed ∧ val = j.text ∧ parseFixedPoint val decimals = .ok n ∧
        (n : ℚ) = j.value * 10 ^ decimals ∧ |n| ≤ 10 ^ 18 - 1) ∧
      ∀ (j : JsonNumber) (n : Int), j.WellFormed → j.exponent = [] → val = j.text → j.value * 10 ^ decimals = n →
        |n| ≤ 10 ^ 18 - 1 → parseFixedPoint val decimals = .ok n := by
  refine ⟨parseFixedPoint_sound hlen hdec, ?_⟩
  rintro j n hj he rfl
  exact parseFixedPoint_complete hlen hdec hj he

theorem parseFixedPoint_exact_tenth :
    JsonNumber.value ⟨true, [48], [49, 48, 48], 101, [], []⟩ * 10 ^ 2 = ((-10 : Int) : ℚ) ∧
      parseFixedPoint (textBytes "-0.100") 2 = .ok (-10) := by
  have hvalue : JsonNumber.value ⟨true, [48], [49, 48, 48], 101, [], []⟩ * 10 ^ 2 = ((-10 : Int) : ℚ) := by
    rw [JsonNumber.value, decimal, show number [48] = 0 from rfl, show number [49, 48, 48] = 100 from rfl]
    norm_num
  exact ⟨hvalue, (parseFixedPoint_exact (by decide) (by decide)).2 _ _
    ⟨.inl rfl, List.all_eq_true.1 rfl, .inl rfl, .inl rfl, forall_mem_nil _⟩ rfl (by decide) hvalue (by decide)⟩

end BitCash.FixedPoint

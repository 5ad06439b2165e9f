import Mathlib.Data.List.GetD
import BitCash.Lib.Radix
import BitCash.Primitives.Amount

/-!
# Base58

`EncodeBase58`, `DecodeBase58` and the forms with a checksum, of `base58.cpp`.
-/

variable {v : Bytes}

namespace BitCash
open Radix Nat List UInt8

def textBytes (s : String) : Bytes := s.toList.map fun c => UInt8.ofNat c.toNat

def pszBase58 : Bytes := textBytes "123456789ABCDEFGHJKLMNPQRSTUVWXYZabcdefghijkmnopqrstuvwxyz"

def mapBase58 : List Int := [
  -1,-1,-1,-1,-1,-1,-1,-1, -1,-1,-1,-1,-1,-1,-1,-1,
  -1,-1,-1,-1,-1,-1,-1,-1, -1,-1,-1,-1,-1,-1,-1,-1,
  -1,-1,-1,-1,-1,-1,-1,-1, -1,-1,-1,-1,-1,-1,-1,-1,
  -1, 0, 1, 2, 3, 4, 5, 6,  7, 8,-1,-1,-1,-1,-1,-1,
  -1, 9,10,11,12,13,14,15, 16,-1,17,18,19,20,21,-1,
  22,23,24,25,26,27,28,29, 30,31,32,-1,-1,-1,-1,-1,
  -1,33,34,35,36,37,38,39, 40,41,42,43,-1,44,45,46,
  47,48,49,50,51,52,53,54, 55,56,57,-1,-1,-1,-1,-1,
  -1,-1,-1,-1,-1,-1,-1,-1, -1,-1,-1,-1,-1,-1,-1,-1,
  -1,-1,-1,-1,-1,-1,-1,-1, -1,-1,-1,-1,-1,-1,-1,-1,
  -1,-1,-1,-1,-1,-1,-1,-1, -1,-1,-1,-1,-1,-1,-1,-1,
  -1,-1,-1,-1,-1,-1,-1,-1, -1,-1,-1,-1,-1,-1,-1,-1,
  -1,-1,-1,-1,-1,-1,-1,-1, -1,-1,-1,-1,-1,-1,-1,-1,
  -1,-1,-1,-1,-1,-1,-1,-1, -1,-1,-1,-1,-1,-1,-1,-1,
  -1,-1,-1,-1,-1,-1,-1,-1, -1,-1,-1,-1,-1,-1,-1,-1,
  -1,-1,-1,-1,-1,-1,-1,-1, -1,-1,-1,-1,-1,-1,-1,-1]

def base58Value (c : UInt8) : Int := mapBase58.getD c.toNat (-1)

def isspace (c : UInt8) : Bool := c = 32 || (9 ≤ c && c ≤ 13)

/-- "Process the characters" of `DecodeBase58`; `some none` is a character that is not allowed -/
def decodeDigits : Bytes → List Nat × Nat → Option (Option (List Nat × Nat))
  | [], buf => some (some buf)
  | c :: cs, buf =>
    if base58Value c = -1 then some none
    else
      let r := mulAdd 256 58 buf.2 0 (base58Value c).toNat buf.1
      if r.2.2 = 0 then decodeDigits cs (r.1, r.2.1) else none

def decodeBase58 (str : Bytes) : Option (Option Bytes) := do
  let psz := (str.takeWhile (· ≠ 0)).dropWhile isspace
  let zeroes := (psz.takeWhile (· = 49)).length
  let psz := psz.dropWhile (· = 49)
  let size := psz.length * 733 / 1000 + 1
  match ← decodeDigits (psz.takeWhile (!isspace ·)) (List.replicate size 0, 0) with
  | none => some none
  | some b256 =>
    if (psz.dropWhile (!isspace ·)).dropWhile isspace ≠ [] then some none
    else some (some (List.replicate zeroes 0 ++ (strip b256).map UInt8.ofNat))

def encodeBase58 (vch : Bytes) : Option Bytes := do
  let zeroes := (vch.takeWhile (· = 0)).length
  let rest := vch.dropWhile (· = 0)
  let size := rest.length * 138 / 100 + 1
  let b58 ← changeBase 58 256 size (rest.map UInt8.toNat)
  some (List.replicate zeroes 49 ++ b58.map (pszBase58.getD · 0))

/-! ## the sizes of the buffers -/

theorem pow_le_of_ratio {b k p q : Nat} (hb : 0 < b) (hq : 0 < q) (h : k ^ q ≤ b ^ p) (n : Nat) :
    k ^ n ≤ b ^ (n * p / q + 1) := by
  have hexp : n * p ≤ q * (n * p / q + 1) := (lt_mul_div_succ (n * p) hq).le
  have hpow : (k ^ n) ^ q ≤ (b ^ (n * p / q + 1)) ^ q :=
    calc (k ^ n) ^ q = (k ^ q) ^ n := by rw [← pow_mul, ← pow_mul, Nat.mul_comm]
      _ ≤ (b ^ p) ^ n := Nat.pow_le_pow_left h n
      _ = b ^ (n * p) := by rw [← pow_mul, Nat.mul_comm]
      _ ≤ b ^ (q * (n * p / q + 1)) := Nat.pow_le_pow_right hb hexp
      _ = (b ^ (n * p / q + 1)) ^ q := by rw [← pow_mul, Nat.mul_comm]
  exact (Nat.pow_le_pow_iff_left hq.ne').1 hpow

theorem size_decodeBase58 (n : Nat) : 58 ^ n ≤ 256 ^ (n * 733 / 1000 + 1) :=
  pow_le_of_ratio (by decide) (by decide) (by decide +kernel) n

theorem size_encodeBase58 (n : Nat) : 256 ^ n ≤ 58 ^ (n * 138 / 100 + 1) :=
  pow_le_of_ratio (by decide) (by decide) (by decide) n

/-! ## the alphabet -/

theorem base58Value_psz : ∀ d < 58, base58Value (pszBase58.getD d 0) = d := by decide

theorem psz_plain : ∀ d < 58, pszBase58.getD d 0 ≠ 0 ∧ isspace (pszBase58.getD d 0) = false ∧
    (pszBase58.getD d 0 = 49 ↔ d = 0) := by decide

theorem base58Value_lt (c : UInt8) : (base58Value c).toNat < 58 := by
  have hall : ∀ x ∈ mapBase58, x.toNat < 58 := by decide +kernel
  unfold base58Value
  by_cases hc : c.toNat < mapBase58.length
  · rw [getD_eq_getElem _ _ hc]
    exact hall _ (getElem_mem hc)
  · rw [getD_eq_default _ _ (Nat.le_of_not_lt hc)]
    decide

/-! ## no assertion fails -/

def base58Digits (cs : Bytes) : List Nat := cs.map fun c => (base58Value c).toNat

def validBase58 (cs : Bytes) : Bool := cs.all fun c => decide (base58Value c ≠ -1)

def numberBytes (n : Nat) : Bytes := (digits 256 n).reverse.map UInt8.ofNat

theorem decodeDigits_of_convert (cs : Bytes) (buf out : List Nat × Nat)
    (h : convert 256 58 (base58Digits cs) buf = some out) :
    decodeDigits cs buf = some (if validBase58 cs then some out else none) := by
  induction cs generalizing buf with
  | nil => exact congrArg some h
  | cons c cs ih =>
    change (if (mulAdd 256 58 buf.2 0 (base58Value c).toNat buf.1).2.2 = 0 then
      convert 256 58 (base58Digits cs) _ else none) = some out at h
    unfold decodeDigits
    by_cases hc : base58Value c = -1
    · have hinvalid : validBase58 (c :: cs) = false := by
        unfold validBase58
        rw [all_cons, decide_eq_false (fun h => h hc), Bool.false_and]
      rw [if_pos hc, hinvalid]
      rfl
    · have hvalid : validBase58 (c :: cs) = validBase58 cs := by
        unfold validBase58
        rw [all_cons, decide_eq_true hc, Bool.true_and]
      rw [if_neg hc, hvalid]
      dsimp only
      split at h
      · next hcarry =>
        rw [if_pos hcarry]
        exact ih _ h
      · cases h

theorem decodeDigits_fresh {cs : Bytes} {n : Nat} (hn : cs.length ≤ n) :
    ∃ b256, decodeDigits cs (replicate (n * 733 / 1000 + 1) 0, 0) =
        some (if validBase58 cs then some b256 else none) ∧
      (strip b256).map ofNat = numberBytes (ofDigits 58 (base58Digits cs).reverse) := by
  have hlt : ∀ d ∈ base58Digits cs, d < 58 := by
    intro d hd
    obtain ⟨c, -, rfl⟩ := mem_map.1 hd
    exact base58Value_lt c
  have hsize : 58 ^ (base58Digits cs).length ≤ 256 ^ (n * 733 / 1000 + 1) := by
    unfold base58Digits
    rw [length_map]
    exact (Nat.pow_le_pow_right (by decide) hn).trans (size_decodeBase58 n)
  have hchange := changeBase_eq (by decide) (by decide) hlt hsize
  obtain ⟨b256, hconvert, hstrip⟩ := Option.map_eq_some_iff.1 hchange
  refine ⟨b256, decodeDigits_of_convert cs _ b256 hconvert, ?_⟩
  rw [hstrip]
  rfl

def base58Body (str : Bytes) : Bytes :=
  ((str.takeWhile (· ≠ 0)).dropWhile isspace).dropWhile (· = 49)

def base58Ones (str : Bytes) : Nat :=
  (((str.takeWhile (· ≠ 0)).dropWhile isspace).takeWhile (· = 49)).length

theorem decodeBase58_eq (str : Bytes) : decodeBase58 str =
      some (if validBase58 ((base58Body str).takeWhile (!isspace ·)) ∧
          ((base58Body str).dropWhile (!isspace ·)).dropWhile isspace = [] then
        some (replicate (base58Ones str) 0 ++
          numberBytes (ofDigits 58 (base58Digits ((base58Body str).takeWhile (!isspace ·))).reverse)) else none) := by
  obtain ⟨b256, hdigits, hstrip⟩ := decodeDigits_fresh
    (takeWhile_sublist (fun c => !isspace c) (l := base58Body str)).length_le
  show (decodeDigits ((base58Body str).takeWhile (!isspace ·))
    (replicate ((base58Body str).length * 733 / 1000 + 1) 0, 0) >>= _) = _
  rw [hdigits]
  cases hvalid : validBase58 ((base58Body str).takeWhile (!isspace ·)) with
  | false =>
    rw [if_neg (by simp)]
    rfl
  | true =>
    show (if ((base58Body str).dropWhile (!isspace ·)).dropWhile isspace ≠ [] then some none
      else some (some (replicate (base58Ones str) 0 ++ (strip b256).map ofNat))) = _
    rw [hstrip]
    by_cases hrest : ((base58Body str).dropWhile (!isspace ·)).dropWhile isspace = []
    · rw [if_neg (fun h => h hrest), if_pos ⟨rfl, hrest⟩]
    · rw [if_pos hrest, if_neg (fun h => hrest h.2)]

theorem encodeBase58_eq (vch : Bytes) : encodeBase58 vch = some (replicate (vch.takeWhile (· = 0)).length 49 ++
      (digits 58 (ofDigits 256 ((vch.dropWhile (· = 0)).map UInt8.toNat).reverse)).reverse.map
        (pszBase58.getD · 0)) := by
  have hlt : ∀ d ∈ (vch.dropWhile (· = 0)).map UInt8.toNat, d < 256 := by
    intro d hd
    obtain ⟨c, -, rfl⟩ := mem_map.1 hd
    exact c.toNat_lt
  have hsize : 256 ^ ((vch.dropWhile (· = 0)).map UInt8.toNat).length ≤
      58 ^ ((vch.dropWhile (· = 0)).length * 138 / 100 + 1) := by
    rw [length_map]
    exact size_encodeBase58 _
  have hchange := changeBase_eq (by decide) (by decide) hlt hsize
  show (changeBase 58 256 ((vch.dropWhile (· = 0)).length * 138 / 100 + 1) _ >>= _) = _
  rw [hchange]
  rfl

/-! ## round trip -/

section leading
variable {α : Type} [DecidableEq α] {l : List α}

theorem takeWhile_leading {a : α} (h : l.head? ≠ some a) (n : Nat) :
    (replicate n a ++ l).takeWhile (· = a) = replicate n a := by
  have hl : l.takeWhile (· = a) = [] := by
    cases l with
    | nil => rfl
    | cons x l =>
      have hx : x ≠ a := fun hx => h (congrArg some hx)
      rw [takeWhile_cons, decide_eq_false hx]
      rfl
  rw [takeWhile_append_of_pos (fun x hx => decide_eq_true (eq_of_mem_replicate hx)), hl, append_nil]

theorem dropWhile_leading {a : α} (h : l.head? ≠ some a) (n : Nat) : (replicate n a ++ l).dropWhile (· = a) = l := by
  have hsplit := takeWhile_append_dropWhile (p := (· = a)) (l := replicate n a ++ l)
  rw [takeWhile_leading h n] at hsplit
  exact append_cancel_left hsplit

theorem leading_append (a : α) (l : List α) :
    replicate (l.takeWhile (· = a)).length a ++ l.dropWhile (· = a) = l := by
  conv_rhs => rw [← takeWhile_append_dropWhile (p := (· = a)) (l := l)]
  congr 1
  symm
  apply eq_replicate_of_mem
  intro x hx
  exact of_decide_eq_true (all_eq_true.1 all_takeWhile x hx)

end leading

def numberText (n : Nat) : Bytes := (digits 58 n).reverse.map (pszBase58.getD · 0)

theorem mem_numberText {n : Nat} {c : UInt8} (hc : c ∈ numberText n) :
    c ≠ 0 ∧ isspace c = false ∧ base58Value c ≠ -1 := by
  obtain ⟨d, hd, rfl⟩ := mem_map.1 hc
  have hlt : d < 58 := digits_lt_base (by decide) (mem_reverse.1 hd)
  obtain ⟨hzero, hspace, -⟩ := psz_plain d hlt
  refine ⟨hzero, hspace, ?_⟩
  rw [base58Value_psz d hlt]
  omega

theorem head_digits_ne_zero {b : Nat} (n : Nat) : (digits b n).reverse.head? ≠ some 0 := by
  rw [head?_reverse]
  by_cases hn : n = 0
  · subst hn
    rw [digits_zero]
    exact Option.some_ne_none 0 |>.symm
  · intro h
    have hne : digits b n ≠ [] := digits_ne_nil_iff_ne_zero.2 hn
    rw [getLast?_eq_some_getLast hne] at h
    exact getLast_digit_ne_zero b hn (Option.some.inj h)

theorem head_numberText (n : Nat) : (numberText n).head? ≠ some 49 := by
  unfold numberText
  rw [head?_map]
  intro h
  obtain ⟨d, hd, hpsz⟩ := Option.map_eq_some_iff.1 h
  have hmem : d ∈ digits 58 n := mem_reverse.1 (mem_of_mem_head? hd)
  have hzero := (psz_plain d (digits_lt_base (by decide) hmem)).2.2.1 hpsz
  rw [hzero] at hd
  exact head_digits_ne_zero n hd

theorem base58Digits_numberText (n : Nat) : base58Digits (numberText n) = (digits 58 n).reverse := by
  unfold base58Digits numberText
  rw [map_map]
  conv_rhs => rw [← map_id (digits 58 n).reverse]
  apply map_congr_left
  intro d hd
  have hlt : d < 58 := digits_lt_base (by decide) (mem_reverse.1 hd)
  show (base58Value (pszBase58.getD d 0)).toNat = d
  rw [base58Value_psz d hlt]
  rfl

theorem takeWhile_eq_self {α : Type} {p : α → Bool} {l : List α} (h : ∀ x ∈ l, p x) : l.takeWhile p = l := by
  have hsplit : (l ++ []).takeWhile p = l ++ [].takeWhile p := takeWhile_append_of_pos h
  simpa using hsplit

theorem dropWhile_eq_self {α : Type} {p : α → Bool} {l : List α} (h : ∀ x ∈ l, p x = false) : l.dropWhile p = l := by
  cases l with
  | nil => rfl
  | cons x l => rw [dropWhile_cons, h x mem_cons_self, if_neg Bool.false_ne_true]

theorem decodeBase58_text (z n : Nat) : decodeBase58 (replicate z 49 ++ numberText n) =
      some (some (replicate z 0 ++ numberBytes n)) := by
  have hmem : ∀ c ∈ replicate z 49 ++ numberText n, c ≠ 0 ∧ isspace c = false := by
    intro c hc
    rcases mem_append.1 hc with hc | hc
    · rw [eq_of_mem_replicate hc]
      decide
    · exact ⟨(mem_numberText hc).1, (mem_numberText hc).2.1⟩
  have hcstr : (replicate z 49 ++ numberText n).takeWhile (· ≠ 0) = replicate z 49 ++ numberText n :=
    takeWhile_eq_self fun c hc => decide_eq_true (hmem c hc).1
  have hskip : (replicate z 49 ++ numberText n).dropWhile isspace =
      replicate z 49 ++ numberText n := dropWhile_eq_self fun c hc => (hmem c hc).2
  have hbody : base58Body (replicate z 49 ++ numberText n) = numberText n := by
    unfold base58Body
    rw [hcstr, hskip, dropWhile_leading (head_numberText n)]
  have hones : base58Ones (replicate z 49 ++ numberText n) = z := by
    unfold base58Ones
    rw [hcstr, hskip, takeWhile_leading (head_numberText n), length_replicate]
  have hnospace : ∀ c ∈ numberText n, (!isspace c) := by
    intro c hc
    rw [(mem_numberText hc).2.1]
    rfl
  have hchars : (numberText n).takeWhile (!isspace ·) = numberText n := takeWhile_eq_self hnospace
  have hrest : (numberText n).dropWhile (!isspace ·) = [] := by
    have hsplit := takeWhile_append_dropWhile (p := (!isspace ·)) (l := numberText n)
    rw [hchars] at hsplit
    exact append_right_eq_self.1 hsplit
  have hvalid : validBase58 (numberText n) = true :=
    all_eq_true.2 fun c hc => decide_eq_true (mem_numberText hc).2.2
  rw [decodeBase58_eq, hbody, hones, hchars, hrest, if_pos ⟨hvalid, rfl⟩, base58Digits_numberText,
    reverse_reverse, ofDigits_digits]

theorem numberBytes_ofDigits (h : v.head? ≠ some 0) : numberBytes (ofDigits 256 (v.map UInt8.toNat).reverse) = v := by
  have hlt : ∀ d ∈ v.map UInt8.toNat, d < 256 := by
    intro d hd
    obtain ⟨c, -, rfl⟩ := mem_map.1 hd
    exact c.toNat_lt
  have hhead : (v.map UInt8.toNat).head? ≠ some 0 := by
    rw [head?_map]
    intro hzero
    obtain ⟨c, hc, hnat⟩ := Option.map_eq_some_iff.1 hzero
    apply h
    rw [hc, ← UInt8.toNat_inj.1 (hnat.trans UInt8.toNat_zero.symm)]
  unfold numberBytes
  rw [reverse_digits (by decide) hlt hhead, map_map]
  conv_rhs => rw [← map_id v]
  apply map_congr_left
  intro c _
  exact UInt8.ofNat_toNat

theorem head_dropWhile_ne {α : Type} [DecidableEq α] (a : α) (l : List α) : (l.dropWhile (· = a)).head? ≠ some a := by
  intro h
  have hnot := head?_dropWhile_not (fun x => decide (x = a)) l
  rw [h] at hnot
  simp at hnot

theorem decodeBase58_encodeBase58 (vch : Bytes) : (encodeBase58 vch).bind decodeBase58 = some (some vch) := by
  rw [encodeBase58_eq]
  show decodeBase58 (replicate _ 49 ++ numberText _) = _
  rw [decodeBase58_text, numberBytes_ofDigits (head_dropWhile_ne 0 vch), leading_append]

theorem psz_base58Value (c : UInt8) (h : base58Value c ≠ -1) :
    pszBase58.getD (base58Value c).toNat 0 = c ∧ ((base58Value c).toNat = 0 → c = 49) := by
  have hall : ∀ n < 256, base58Value (.ofNat n) ≠ -1 → pszBase58.getD (base58Value (.ofNat n)).toNat 0 = .ofNat n ∧
        ((base58Value (.ofNat n)).toNat = 0 → ofNat n = 49) := by decide +kernel
  have hc := hall c.toNat c.toNat_lt
  rw [UInt8.ofNat_toNat] at hc
  exact hc h

theorem ofDigits_numberBytes (n : Nat) : ofDigits 256 ((numberBytes n).map UInt8.toNat).reverse = n := by
  have hback : (numberBytes n).map UInt8.toNat = (digits 256 n).reverse := by
    unfold numberBytes
    rw [map_map]
    refine (map_congr_left fun d hd => ?_).trans (map_id _)
    exact toNat_ofNat_of_lt' (digits_lt_base (by decide) (mem_reverse.1 hd))
  rw [hback, reverse_reverse, ofDigits_digits]

theorem head_numberBytes (n : Nat) : (numberBytes n).head? ≠ some 0 := by
  unfold numberBytes
  rw [head?_map]
  intro h
  obtain ⟨d, hd, hzero⟩ := Option.map_eq_some_iff.1 h
  have hlt : d < 256 := digits_lt_base (by decide) (mem_reverse.1 (mem_of_mem_head? hd))
  have hd0 : d = 0 := by
    rw [← toNat_ofNat_of_lt' hlt, hzero]
    rfl
  exact head_digits_ne_zero n (hd0 ▸ hd)

theorem numberText_ofDigits {cs : Bytes} (hvalid : validBase58 cs) (hhead : cs.head? ≠ some 49) :
    numberText (ofDigits 58 (base58Digits cs).reverse) = cs := by
  have hv : ∀ c ∈ cs, base58Value c ≠ -1 := fun c hc => of_decide_eq_true (all_eq_true.1 hvalid c hc)
  have hlt : ∀ d ∈ base58Digits cs, d < 58 := by
    intro d hd
    obtain ⟨c, -, rfl⟩ := mem_map.1 hd
    exact base58Value_lt c
  have hzero : (base58Digits cs).head? ≠ some 0 := by
    unfold base58Digits
    rw [head?_map]
    intro h
    obtain ⟨c, hc, hd⟩ := Option.map_eq_some_iff.1 h
    exact hhead (hc.trans (congrArg some ((psz_base58Value c (hv c (mem_of_mem_head? hc))).2 hd)))
  unfold numberText
  rw [reverse_digits (by decide) hlt hzero, base58Digits, map_map]
  exact (map_congr_left fun c hc => (psz_base58Value c (hv c hc)).1).trans (map_id _)

theorem encodeBase58_of_decodeBase58 {s : Bytes} (hspace : ∀ c ∈ s.takeWhile (· ≠ 0), isspace c = false)
    (h : decodeBase58 s = some (some v)) : encodeBase58 v = some (s.takeWhile (· ≠ 0)) := by
  have hskip : (s.takeWhile (· ≠ 0)).dropWhile isspace = s.takeWhile (· ≠ 0) := dropWhile_eq_self hspace
  have hbody : (base58Body s).takeWhile (!isspace ·) = base58Body s := by
    refine takeWhile_eq_self fun c hc => ?_
    unfold base58Body at hc
    rw [hskip] at hc
    rw [hspace c ((dropWhile_suffix _).subset hc)]
    rfl
  rw [decodeBase58_eq, hbody] at h
  split at h
  · next hok =>
    have hhead : (base58Body s).head? ≠ some 49 := head_dropWhile_ne 49 _
    rw [← Option.some.inj (Option.some.inj h), encodeBase58_eq, takeWhile_leading (head_numberBytes _),
      dropWhile_leading (head_numberBytes _), ofDigits_numberBytes, length_replicate]
    show some (_ ++ numberText _) = _
    rw [numberText_ofDigits hok.1 hhead]
    unfold base58Ones base58Body
    rw [hskip, leading_append]
  · cases h

theorem decodeBase58_returns (str : Bytes) : ∃ r, decodeBase58 str = some r := ⟨_, decodeBase58_eq str⟩

/-- **Base58 is a bijection** between byte strings and the texts without white space that are accepted. -/
theorem base58_bijection : (∀ v, ∃ s, encodeBase58 v = some s ∧ decodeBase58 s = some (some v)) ∧
      (∀ s v, (∀ c ∈ s.takeWhile (· ≠ 0), isspace c = false) → decodeBase58 s = some (some v) →
        encodeBase58 v = some (s.takeWhile (· ≠ 0))) ∧ ∀ s, ∃ r, decodeBase58 s = some r :=
  ⟨fun v => Option.bind_eq_some_iff.1 (decodeBase58_encodeBase58 v),
    fun _ _ => encodeBase58_of_decodeBase58, decodeBase58_returns⟩

theorem base58_bijection_11z : decodeBase58 (textBytes "11z") = some (some [0, 0, 57]) ∧
    encodeBase58 [0, 0, 57] = some (textBytes "11z") := by
  have h : decodeBase58 (textBytes "11z") = some (some [0, 0, 57]) := by decide
  exact ⟨h, base58_bijection.2.1 _ _ (List.forall_mem_iff_forall_getElem.2 (by decide)) h⟩

/-! ## a short text -/

theorem length_numberBytes {n size : Nat} (h : n < 256 ^ size) : (numberBytes n).length ≤ size := by
  unfold numberBytes
  rw [length_map, length_reverse]
  exact (digits_length_le_iff (by decide) n).2 h

variable {str : Bytes}

theorem length_encodeBase58 (h : encodeBase58 v = some str) : str.length ≤ v.length * 138 / 100 + 1 := by
  rw [encodeBase58_eq] at h
  cases h
  have hsplit : (v.takeWhile (· = 0)).length + (v.dropWhile (· = 0)).length = v.length := by
    rw [← length_append, takeWhile_append_dropWhile]
  have hnumber : ofDigits 256 ((v.dropWhile (· = 0)).map UInt8.toNat).reverse <
      58 ^ ((v.dropWhile (· = 0)).length * 138 / 100 + 1) := by
    refine lt_of_lt_of_le ?_ (size_encodeBase58 _)
    have hlt := ofDigits_lt_base_pow_length (b := 256) (l := ((v.dropWhile (· = 0)).map UInt8.toNat).reverse)
      (by decide) fun d hd => by
        obtain ⟨c, -, rfl⟩ := mem_map.1 (mem_reverse.1 hd)
        exact c.toNat_lt
    rwa [length_reverse, length_map] at hlt
  have hdigits := (digits_length_le_iff (by decide) _).2 hnumber
  rw [length_append, length_replicate, length_map, length_reverse]
  omega

theorem length_decodeBase58 (h : decodeBase58 str = some (some v)) :
    v.length ≤ str.length + str.length * 733 / 1000 + 1 := by
  rw [decodeBase58_eq] at h
  split at h
  · have hv := Option.some.inj (Option.some.inj h)
    have hcstr : (str.takeWhile (· ≠ 0)).length ≤ str.length := (takeWhile_sublist _).length_le
    have hskip := (dropWhile_sublist isspace (l := str.takeWhile (· ≠ 0))).length_le
    have hones : base58Ones str ≤ str.length := (takeWhile_sublist _).length_le.trans (hskip.trans hcstr)
    have hbody : (base58Body str).length ≤ str.length := (dropWhile_sublist _).length_le.trans (hskip.trans hcstr)
    have hchars := (takeWhile_sublist (!isspace ·) (l := base58Body str)).length_le
    have hlt : ∀ d ∈ (base58Digits ((base58Body str).takeWhile (!isspace ·))).reverse, d < 58 := by
      intro d hd
      obtain ⟨c, -, rfl⟩ := mem_map.1 (mem_reverse.1 hd)
      exact base58Value_lt c
    have hnumber : ofDigits 58 (base58Digits ((base58Body str).takeWhile (!isspace ·))).reverse <
        256 ^ (str.length * 733 / 1000 + 1) := by
      refine (ofDigits_lt_base_pow_length (by decide) hlt).trans_le ?_
      refine le_trans (Nat.pow_le_pow_right (by decide) ?_) (size_decodeBase58 str.length)
      rw [length_reverse]
      unfold base58Digits
      rw [length_map]
      exact hchars.trans hbody
    have hbytes := length_numberBytes hnumber
    rw [← hv, length_append, length_replicate]
    omega
  · cases h

/-! ## with a checksum -/

structure AddressHash where
  hash : Bytes → Bytes
  length_hash : ∀ b, (hash b).length = 32
  hash160 : Bytes → Bytes
  length_hash160 : ∀ b, (hash160 b).length = 20

def AddressHash.checksum (A : AddressHash) (b : Bytes) : Bytes := (A.hash b).take 4

theorem AddressHash.length_checksum (A : AddressHash) (b : Bytes) : (A.checksum b).length = 4 := by
  unfold AddressHash.checksum
  rw [length_take, A.length_hash]
  rfl

def encodeBase58Check (A : AddressHash) (vchIn : Bytes) : Option Bytes :=
  encodeBase58 (vchIn ++ A.checksum vchIn)

def decodeBase58Check (A : AddressHash) (str : Bytes) : Option (Option Bytes) := do
  match ← decodeBase58 str with
  | none => some none
  | some vch =>
    if vch.length < 4 then some none
    else if A.checksum (vch.take (vch.length - 4)) ≠ vch.drop (vch.length - 4) then some none
    else some (some (vch.take (vch.length - 4)))

theorem decodeBase58Check_encodeBase58Check (A : AddressHash) (v : Bytes) :
    (encodeBase58Check A v).bind (decodeBase58Check A) = some (some v) := by
  have hback := decodeBase58_encodeBase58 (v ++ A.checksum v)
  have hlen : (v ++ A.checksum v).length - 4 = v.length := by
    rw [length_append, A.length_checksum, Nat.add_sub_cancel]
  unfold encodeBase58Check
  cases htext : encodeBase58 (v ++ A.checksum v) with
  | none =>
    rw [htext] at hback
    cases hback
  | some text =>
    rw [htext] at hback
    change decodeBase58 text = _ at hback
    show decodeBase58Check A text = _
    unfold decodeBase58Check
    rw [hback]
    show (if (v ++ A.checksum v).length < 4 then _ else _) = _
    rw [if_neg, hlen, take_left, drop_left, if_neg (fun h => h rfl)]
    rw [length_append, A.length_checksum]
    omega

theorem length_decodeBase58Check {A : AddressHash} (h : decodeBase58Check A str = some (some v)) :
    v.length + 4 ≤ str.length + str.length * 733 / 1000 + 1 := by
  obtain ⟨r, hr, hcheck⟩ := Option.bind_eq_some_iff.1 h
  cases r with
  | none => cases hcheck
  | some vch =>
    have hlen := length_decodeBase58 hr
    dsimp only at hcheck
    split at hcheck
    · cases hcheck
    · split at hcheck
      · cases hcheck
      · rw [← Option.some.inj (Option.some.inj hcheck), length_take]
        omega

theorem decodeBase58Check_returns (A : AddressHash) (str : Bytes) : ∃ r, decodeBase58Check A str = some r := by
  unfold decodeBase58Check
  obtain ⟨r, hr⟩ := decodeBase58_returns str
  rw [hr]
  cases r with
  | none => exact ⟨none, rfl⟩
  | some vch =>
    dsimp only [bind, Option.bind]
    split
    · exact ⟨_, rfl⟩
    · split <;> exact ⟨_, rfl⟩

end BitCash

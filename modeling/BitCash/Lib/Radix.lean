import Mathlib.Data.Nat.Digits.Lemmas

/-!
# Changing the base of a number in place

A number in base `k` is brought to base `b` digit by digit, most significant first, in a buffer of fixed size: the
buffer is multiplied by `k` and the digit is added, with a carry.
-/

variable {size : Nat}

namespace Radix
open Nat List

/-- the buffer times `k` plus `carry`, from place `i` on; returns the place where the loop stopped and
the carry that is left -/
def mulAdd (b k length : Nat) : Nat → Nat → List Nat → List Nat × Nat × Nat
  | i, carry, [] => ([], i, carry)
  | i, carry, d :: ds =>
    if carry ≠ 0 ∨ i < length then
      let r := mulAdd b k length (i + 1) ((carry + k * d) / b) ds
      ((carry + k * d) % b :: r.1, r.2)
    else (d :: ds, i, carry)

/-- the loop over the digits; the second part of the state is the number of places in use -/
def convert (b k : Nat) : List Nat → List Nat × Nat → Option (List Nat × Nat)
  | [], buf => some buf
  | c :: cs, buf =>
    let r := mulAdd b k buf.2 0 c buf.1
    if r.2.2 = 0 then convert b k cs (r.1, r.2.1) else none

/-- the places in use, most significant first, without leading zeros -/
def strip (buf : List Nat × Nat) : List Nat := (buf.1.take buf.2).reverse.dropWhile (· = 0)

def changeBase (b k size : Nat) (cs : List Nat) : Option (List Nat) :=
  (convert b k cs (List.replicate size 0, 0)).map strip

variable {b k length : Nat} {buf : List Nat × Nat} {ds cs : List Nat}

/-! ## one pass -/

theorem length_mulAdd (i carry : Nat) (ds : List Nat) : (mulAdd b k length i carry ds).1.length = ds.length := by
  induction ds generalizing i carry with
  | nil => rfl
  | cons d ds ih =>
    unfold mulAdd
    split
    · exact congrArg (· + 1) (ih ..)
    · rfl

theorem mulAdd_lt (hb : 0 < b) (i carry : Nat) (ds : List Nat) (hds : ∀ d ∈ ds, d < b) :
    ∀ d ∈ (mulAdd b k length i carry ds).1, d < b := by
  induction ds generalizing i carry with
  | nil => exact hds
  | cons d ds ih =>
    unfold mulAdd
    split
    · intro x hx
      rcases mem_cons.1 hx with rfl | hx
      · exact mod_lt _ hb
      · exact ih _ _ (fun y hy => hds y (mem_cons_of_mem _ hy)) x hx
    · exact hds

theorem unused_tail {i d : Nat} (h : ∀ x ∈ (d :: ds).drop (length - i), x = 0) :
    ∀ x ∈ ds.drop (length - (i + 1)), x = 0 := by
  intro x hx
  by_cases hi : i < length
  · apply h
    have hsub : length - i = length - (i + 1) + 1 := by omega
    rw [hsub, drop_succ_cons]
    exact hx
  · apply h
    have hsub : length - i = 0 := by omega
    rw [hsub]
    exact mem_cons_of_mem _ (mem_of_mem_drop hx)

theorem le_mulAdd (i carry : Nat) (ds : List Nat) : i ≤ (mulAdd b k length i carry ds).2.1 := by
  induction ds generalizing i carry with
  | nil => exact le_rfl
  | cons d ds ih =>
    unfold mulAdd
    split
    · exact (le_succ i).trans (ih ..)
    · exact le_rfl

theorem mulAdd_unused (i carry : Nat) (ds : List Nat) (h : ∀ x ∈ ds.drop (length - i), x = 0) :
    ∀ x ∈ (mulAdd b k length i carry ds).1.drop ((mulAdd b k length i carry ds).2.1 - i), x = 0 := by
  induction ds generalizing i carry with
  | nil =>
    intro x hx
    exact absurd (mem_of_mem_drop hx) not_mem_nil
  | cons d ds ih =>
    unfold mulAdd
    split
    · have hle : i + 1 ≤ (mulAdd b k length (i + 1) ((carry + k * d) / b) ds).2.1 := le_mulAdd ..
      dsimp only
      have hsub : (mulAdd b k length (i + 1) ((carry + k * d) / b) ds).2.1 - i =
          (mulAdd b k length (i + 1) ((carry + k * d) / b) ds).2.1 - (i + 1) + 1 := by omega
      rw [hsub, drop_succ_cons]
      exact ih _ _ (unused_tail h)
    · next hstop =>
      have hsub : length - i = 0 := by omega
      rw [hsub] at h
      dsimp only
      rw [Nat.sub_self]
      exact h

theorem ofDigits_eq_zero (h : ∀ x ∈ ds, x = 0) : ofDigits b ds = 0 := by
  rw [eq_replicate_of_mem h]
  exact ofDigits_replicate_zero

/-- **one pass multiplies and adds**; what does not fit is the carry -/
theorem ofDigits_mulAdd (i carry : Nat) (ds : List Nat) (h : ∀ x ∈ ds.drop (length - i), x = 0) :
    ofDigits b (mulAdd b k length i carry ds).1 + b ^ ds.length * (mulAdd b k length i carry ds).2.2 =
      carry + k * ofDigits b ds := by
  induction ds generalizing i carry with
  | nil =>
    show 0 + b ^ 0 * carry = carry + k * 0
    simp
  | cons d ds ih =>
    unfold mulAdd
    split
    · have hrest := ih (i + 1) ((carry + k * d) / b) (unused_tail h)
      have hdiv := mod_add_div (carry + k * d) b
      dsimp only
      rw [ofDigits_cons, ofDigits_cons, length_cons, pow_succ]
      generalize ofDigits b (mulAdd b k length (i + 1) ((carry + k * d) / b) ds).1 = v at hrest ⊢
      generalize (mulAdd b k length (i + 1) ((carry + k * d) / b) ds).2.2 = c at hrest ⊢
      calc (carry + k * d) % b + b * v + b ^ ds.length * b * c
          = (carry + k * d) % b + b * (v + b ^ ds.length * c) := by ring
        _ = (carry + k * d) % b + b * ((carry + k * d) / b) + b * (k * ofDigits b ds) := by
          rw [hrest]
          ring
        _ = carry + k * (d + b * ofDigits b ds) := by
          rw [hdiv]
          ring
    · next hstop =>
      have hsub : length - i = 0 := by omega
      have hcarry : carry = 0 := by omega
      rw [hsub] at h
      have hzero : ofDigits b (d :: ds) = 0 := ofDigits_eq_zero h
      dsimp only
      rw [hzero, hcarry, Nat.mul_zero, Nat.mul_zero]

/-! ## all digits -/

/-- a buffer with proper digits and zeros behind the places in use -/
structure Proper (b size : Nat) (buf : List Nat × Nat) : Prop where
  size : buf.1.length = size
  lt : ∀ d ∈ buf.1, d < b
  unused : ∀ d ∈ buf.1.drop buf.2, d = 0

/-- the number with the digits `cs` behind `n` -/
def horner (k n : Nat) (cs : List Nat) : Nat := cs.foldl (fun n c => c + k * n) n

theorem horner_eq_ofDigits (cs : List Nat) : horner k 0 cs = ofDigits k cs.reverse := by
  unfold horner
  rw [ofDigits_eq_foldr, foldr_reverse]
  rfl

theorem le_horner (hk : 0 < k) (n : Nat) (cs : List Nat) : n ≤ horner k n cs := by
  induction cs generalizing n with
  | nil => exact le_rfl
  | cons c cs ih =>
    calc n ≤ k * n := Nat.le_mul_of_pos_left n hk
      _ ≤ c + k * n := Nat.le_add_left ..
      _ ≤ horner k (c + k * n) cs := ih _

theorem Proper.mulAdd (hb : 0 < b) (h : Proper b size buf) (c : Nat) :
    Proper b size ((Radix.mulAdd b k buf.2 0 c buf.1).1, (Radix.mulAdd b k buf.2 0 c buf.1).2.1) where
  size := (length_mulAdd ..).trans h.size
  lt := mulAdd_lt hb _ _ _ h.lt
  unused := mulAdd_unused 0 c buf.1 h.unused

theorem convert_eq (hb : 0 < b) (hk : 0 < k) (cs : List Nat) (buf : List Nat × Nat)
    (h : Proper b size buf) (hfit : horner k (ofDigits b buf.1) cs < b ^ size) :
    ∃ out, convert b k cs buf = some out ∧ Proper b size out ∧ ofDigits b out.1 = horner k (ofDigits b buf.1) cs := by
  induction cs generalizing buf with
  | nil => exact ⟨buf, rfl, h, rfl⟩
  | cons c cs ih =>
    have hpass := ofDigits_mulAdd (b := b) (k := k) 0 c buf.1 h.unused
    rw [h.size] at hpass
    have hlt : c + k * ofDigits b buf.1 < b ^ size := (le_horner hk _ cs).trans_lt hfit
    -- a carry would make the number too large for the buffer
    have hcarry : (mulAdd b k buf.2 0 c buf.1).2.2 = 0 := by
      by_contra hne
      have hmul := Nat.le_mul_of_pos_right (b ^ size) (Nat.pos_of_ne_zero hne)
      have hle := hmul.trans ((Nat.le_add_left _ _).trans hpass.le)
      exact absurd hlt (Nat.not_lt.2 hle)
    rw [hcarry, Nat.mul_zero, Nat.add_zero] at hpass
    have hrest := ih _ (h.mulAdd hb c) (by
      dsimp only
      rw [hpass]
      exact hfit)
    dsimp only at hrest
    rw [hpass] at hrest
    unfold convert
    dsimp only
    rw [if_pos hcarry]
    exact hrest

/-! ## the digits that are returned -/

theorem reverse_digits (hb : 1 < b) (hlt : ∀ c ∈ cs, c < b) (hhead : cs.head? ≠ some 0) :
    (digits b (ofDigits b cs.reverse)).reverse = cs := by
  rw [digits_ofDigits b hb cs.reverse, reverse_reverse]
  · intro c hc
    exact hlt c (mem_reverse.1 hc)
  · intro hne hlast
    apply hhead
    rw [← getLast?_reverse, getLast?_eq_some_getLast hne, hlast]

theorem head_dropWhile_zero (l : List Nat) : (l.dropWhile (· = 0)).head? ≠ some 0 := by
  intro h
  have hnot := head?_dropWhile_not (fun x : Nat => decide (x = 0)) l
  rw [h] at hnot
  exact absurd hnot (by decide)

theorem ofDigits_dropWhile_zero (l : List Nat) : ofDigits b (l.dropWhile (· = 0)).reverse = ofDigits b l.reverse := by
  conv_rhs => rw [← takeWhile_append_dropWhile (p := fun x : Nat => decide (x = 0)) (l := l)]
  rw [reverse_append, ofDigits_append]
  have hzero : ofDigits b (l.takeWhile fun x => decide (x = 0)).reverse = 0 := by
    apply ofDigits_eq_zero
    intro x hx
    have hall := all_takeWhile (p := fun x : Nat => decide (x = 0)) (l := l)
    exact of_decide_eq_true (all_eq_true.1 hall x (mem_reverse.1 hx))
  rw [hzero, Nat.mul_zero, Nat.add_zero]

theorem strip_eq (hb : 1 < b) (h : Proper b size buf) : strip buf = (digits b (ofDigits b buf.1)).reverse := by
  have hvalue : ofDigits b buf.1 = ofDigits b (strip buf).reverse := by
    unfold strip
    rw [ofDigits_dropWhile_zero, reverse_reverse]
    conv_lhs => rw [← take_append_drop buf.2 buf.1]
    rw [ofDigits_append, ofDigits_eq_zero h.unused, Nat.mul_zero, Nat.add_zero]
  rw [hvalue]
  refine (reverse_digits hb ?_ (head_dropWhile_zero _)).symm
  intro c hc
  have hmem := mem_reverse.1 ((dropWhile_suffix _).subset hc)
  exact h.lt c (mem_of_mem_take hmem)

/-- **the digits of the number**: no carry is left, if the buffer holds all numbers of that length -/
theorem changeBase_eq (hb : 1 < b) (hk : 1 < k) (hlt : ∀ c ∈ cs, c < k) (hsize : k ^ cs.length ≤ b ^ size) :
    changeBase b k size cs = some (digits b (ofDigits k cs.reverse)).reverse := by
  have hb0 : 0 < b := zero_lt_of_lt hb
  have hzero : ofDigits b (replicate size 0) = 0 := ofDigits_replicate_zero
  have hproper : Proper b size (replicate size 0, 0) := by
    refine ⟨length_replicate, ?_, ?_⟩
    · intro d hd
      rw [eq_of_mem_replicate hd]
      exact hb0
    · intro d hd
      exact eq_of_mem_replicate hd
  have hvalue : horner k (ofDigits b (replicate size 0)) cs = ofDigits k cs.reverse := by
    rw [hzero]
    exact horner_eq_ofDigits cs
  have hfit : ofDigits k cs.reverse < b ^ size := by
    refine (ofDigits_lt_base_pow_length hk ?_).trans_le ?_
    · intro c hc
      exact hlt c (mem_reverse.1 hc)
    · rw [length_reverse]
      exact hsize
  obtain ⟨out, hout, hpout, hval⟩ := convert_eq hb0 (zero_lt_of_lt hk) cs _ hproper (by rwa [hvalue])
  unfold changeBase
  rw [hout, Option.map_some, strip_eq hb hpout, hval, hvalue]

end Radix

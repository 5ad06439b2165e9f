import BitCash.Lib.Wire
import Mathlib.Data.Nat.Log
import Mathlib.Tactic.Ring

/-!
# Reading back what was written

A `Reader` takes a value off the front of a byte string, or fails.
-/

namespace Codec
open Wire List UInt8

variable {ε α β : Type}

abbrev Reader (ε α : Type) := StateT (List UInt8) (Except ε) α

def Reads (r : Reader ε α) (b : List UInt8) (a : α) : Prop :=
  ∀ rest, r (b ++ rest) = .ok (a, rest)

def fail (e : ε) : Reader ε α := fun _ => .error e

theorem bind_eq (r : Reader ε α) (f : α → Reader ε β) (s : List UInt8) : (r >>= f) s = match r s with
      | .ok (a, t) => f a t
      | .error e => .error e := by
  show (r s >>= fun p => f p.1 p.2) = _
  cases r s with
  | error e => rfl
  | ok p => rfl

variable {r : Reader ε α} {f : α → Reader ε β}

theorem then_ok {s t : List UInt8} {b : β} :
    (r >>= f) s = .ok (b, t) ↔ ∃ a u, r s = .ok (a, u) ∧ f a u = .ok (b, t) := by
  rw [bind_eq]
  cases r s with
  | error e => exact ⟨(fun h => nomatch h), (fun ⟨_, _, h, _⟩ => nomatch h)⟩
  | ok p =>
    constructor
    · intro h
      exact ⟨p.1, p.2, rfl, h⟩
    · rintro ⟨a, u, h, hf⟩
      cases h
      exact hf

variable {a : α} {c : List UInt8}

theorem then_of_ok {s t : List UInt8} (h : r s = .ok (a, t)) : (r >>= f) s = f a t := by
  rw [bind_eq, h]

/-- a computation that reads nothing -/
def lift (x : Except ε α) : Reader ε α := fun s =>
  match x with
  | .ok a => .ok (a, s)
  | .error e => .error e

theorem then_of_lift {s t : List UInt8} {x : Except ε α} (h : r s = lift x t) : (r >>= f) s = (lift x >>= f) t := by
  rw [bind_eq, h, bind_eq]

theorem lift_ok_then (a : α) (f : α → Reader ε β) (s : List UInt8) :
    ((lift (.ok a) : Reader ε α) >>= f) s = f a s := rfl

theorem reads_pure (a : α) : Reads (pure a : Reader ε α) [] a := fun _ => rfl

theorem Reads.bind {b : List UInt8} {d : β} (hr : Reads r b a) (hf : Reads (f a) c d) : Reads (r >>= f) (b ++ c) d:= by
  intro rest
  rw [bind_eq, append_assoc, hr]
  exact hf rest

variable {b : List UInt8}

theorem Reads.map (hr : Reads r b a) (f : α → β) : Reads (r >>= fun a => pure (f a)) b (f a) := by
  have h := hr.bind (f := fun a => (pure (f a) : Reader ε β)) (reads_pure (f a))
  rwa [append_nil] at h

/-- a reader takes exactly some bytes, as a value of which something is known -/
def Yields (r : Reader ε α) (b : List UInt8) (P : α → Prop) : Prop := ∃ a, Reads r b a ∧ P a

theorem Reads.yields (h : Reads r b a) : Yields r b (· = a) := ⟨a, h, rfl⟩

variable {P : α → Prop} {Q : β → Prop} {write : β → List UInt8} {tooLarge eof : ε}

theorem yields_pure (h : P a) : Yields (pure a : Reader ε α) [] P := ⟨a, reads_pure a, h⟩

theorem Yields.bind (h : Yields r b P) (hf : ∀ a, P a → Yields (f a) c Q) : Yields (r >>= f) (b ++ c) Q:= by
  obtain ⟨a, hr, ha⟩ := h
  obtain ⟨d, hd, hq⟩ := hf a ha
  exact ⟨d, hr.bind hd, hq⟩

theorem Yields.map {f : α → β} (h : Yields r b P)
    (hf : ∀ a, P a → Q (f a)) : Yields (r >>= fun a => pure (f a)) b Q := by
  obtain ⟨a, hr, ha⟩ := h
  exact ⟨f a, hr.map f, hf a ha⟩

/-- a reader fails on some bytes, whatever comes behind them -/
def Fails (r : Reader ε α) (b : List UInt8) (e : ε) : Prop := ∀ rest, r (b ++ rest) = .error e

theorem Fails.left {e : ε} (h : Fails r b e) (c : List UInt8) : Fails (r >>= f) (b ++ c) e := by
  intro rest
  rw [bind_eq, append_assoc, h]

theorem Reads.fails {e : ε} (hr : Reads r b a) (hf : Fails (f a) c e) : Fails (r >>= f) (b ++ c) e := by
  intro rest
  rw [bind_eq, append_assoc, hr]
  exact hf rest

/-- what is known of every value a reader returns -/
def Ensures (r : Reader ε α) (P : α → Prop) : Prop := ∀ s a t, r s = .ok (a, t) → P a

theorem ensures_true (r : Reader ε α) : Ensures r fun _ => True := fun _ _ _ _ => trivial

theorem ensures_pure (h : P a) : Ensures (pure a : Reader ε α) P := by
  intro s b t hb
  cases hb
  exact h

theorem ensures_fail (e : ε) (P : α → Prop) : Ensures (fail e : Reader ε α) P := by
  intro s a t h
  cases h

theorem Ensures.bind (h : Ensures r P) (hf : ∀ a, P a → Ensures (f a) Q) : Ensures (r >>= f) Q := by
  intro s b t hb
  rw [bind_eq] at hb
  cases hr : r s with
  | error e =>
    rw [hr] at hb
    cases hb
  | ok p =>
    rw [hr] at hb
    exact hf p.1 (h s p.1 p.2 hr) p.2 b t hb

/-- the value together with what is known of it -/
def attach {P : α → Prop} (r : Reader ε α) (h : Ensures r P) : Reader ε { a // P a } := fun s =>
  match hs : r s with
  | .ok p => .ok (⟨p.1, h s p.1 p.2 hs⟩, p.2)
  | .error e => .error e

/-! ## bytes and numbers -/

/-- the next `n` bytes -/
def take (e : ε) (n : Nat) : Reader ε (List UInt8) := fun s =>
  if s.length < n then .error e else .ok (s.take n, s.drop n)

theorem reads_take (e : ε) (b : List UInt8) : Reads (take e b.length) b b := by
  intro rest
  unfold take
  rw [if_neg (by simp), take_left, drop_left]

/-- the value of bytes, lowest first -/
def ofLe : List UInt8 → Nat
  | [] => 0
  | b :: l => b.toNat + 256 * ofLe l

theorem ofLe_le (n x : Nat) (h : x < 256 ^ n) : ofLe (le n x) = x := by
  induction n generalizing x with
  | zero =>
    rw [pow_zero] at h
    show 0 = x
    omega
  | succ n ih =>
    have hdiv : x / 256 < 256 ^ n := by
      rw [pow_succ] at h
      omega
    show (ofNat (x % 256)).toNat + 256 * ofLe (le n (x / 256)) = x
    rw [ih _ hdiv, toNat_ofNat']
    omega

def number (e : ε) (n : Nat) : Reader ε Nat := do
  let b ← take e n
  pure (ofLe b)

theorem reads_le (e : ε) (n x : Nat) (h : x < 256 ^ n) : Reads (number e n) (le n x) x := by
  have ht := reads_take e (le n x)
  rw [length_le] at ht
  have hm := ht.map ofLe
  rwa [ofLe_le n x h] at hm

def byte (e : ε) : Reader ε UInt8 := fun s =>
  match s with
  | [] => .error e
  | b :: rest => .ok (b, rest)

theorem reads_byte (e : ε) (b : UInt8) : Reads (byte e) [b] b := fun _ => rfl

/-! ## lists -/

/-- `n` items; the reader of an item knows its index -/
def times (r : Nat → Reader ε α) : Nat → Nat → Reader ε (List α)
  | 0, _ => pure []
  | n + 1, i => do
    let a ← r i
    let l ← times r n (i + 1)
    pure (a :: l)

/-- **a list of items**, each one behind the other -/
theorem reads_times {r : Nat → Reader ε α} {f : Nat → β → α} {l : List β}
    {i : Nat} (h : ∀ j b, l[j]? = some b → Reads (r (i + j)) (write b) (f (i + j) b)) :
    Reads (times r l.length i) (l.flatMap write) ((l.zipIdx i).map fun p => f p.2 p.1) := by
  induction l generalizing i with
  | nil => exact reads_pure []
  | cons b l ih =>
    have hb : Reads (r i) (write b) (f i b) := h 0 b rfl
    have hl := ih (i := i + 1) fun j c hj => by
      have := h (j + 1) c hj
      rwa [show i + (j + 1) = i + 1 + j by omega] at this
    exact hb.bind (hl.map fun m => f i b :: m)

theorem yields_times {r : Nat → Reader ε α} {R : α → β → Prop} {l : List β}
    (h : ∀ i, ∀ b ∈ l, Yields (r i) (write b) (R · b)) (i : Nat) :
    Yields (times r l.length i) (l.flatMap write) (List.Forall₂ R · l) := by
  induction l generalizing i with
  | nil => exact yields_pure .nil
  | cons b l ih =>
    have hl := ih (fun j c hc => h j c (mem_cons_of_mem b hc)) (i + 1)
    exact (h i b mem_cons_self).bind fun a ha => hl.map fun k hk => .cons ha hk

theorem ensures_times {r : Nat → Reader ε α} (h : ∀ i, Ensures (r i) P) (n i : Nat) :
    Ensures (times r n i) fun l => ∀ a ∈ l, P a := by
  induction n generalizing i with
  | zero => exact ensures_pure fun a ha => nomatch ha
  | succ n ih =>
    refine (h i).bind fun a ha => ?_
    refine (ih (i + 1)).bind fun l hl => ensures_pure fun b hb => ?_
    rcases mem_cons.1 hb with rfl | hb
    · exact ha
    · exact hl b hb

/-! ## numbers in base 128 -/

/-- the digits in front of the last one -/
def varFront : Nat → Nat → List UInt8
  | 0, _ => []
  | n + 1, x =>
    if x < 128 then [UInt8.ofNat (x + 128)]
    else varFront n (x / 128 - 1) ++ [UInt8.ofNat (x % 128 + 128)]

/-- a number below `128 ^ 10` -/
def varInt (x : Nat) : List UInt8 :=
  if x < 128 then [UInt8.ofNat x] else varFront 9 (x / 128 - 1) ++ [UInt8.ofNat (x % 128)]

/-- the digits so far stand for `acc`; nothing above `max` is read -/
def readVarInt (eof tooLarge : ε) (max acc : Nat) : Reader ε Nat
  | [] => .error eof
  | b :: rest =>
    if max / 128 < acc then .error tooLarge
    else if 128 ≤ b.toNat then
      if acc * 128 + b.toNat % 128 = max then .error tooLarge
      else readVarInt eof tooLarge max (acc * 128 + b.toNat % 128 + 1) rest
    else .ok (acc * 128 + b.toNat % 128, rest)

theorem readVarInt_digit {eof tooLarge : ε} {max acc d : Nat} (hd : d < 128)
    (h : acc * 128 + d < max) (rest : List UInt8) : readVarInt eof tooLarge max acc (ofNat (d + 128) :: rest) =
      readVarInt eof tooLarge max (acc * 128 + d + 1) rest := by
  have hb : (ofNat (d + 128)).toNat = d + 128 := by
    rw [toNat_ofNat']
    omega
  have hmod : (d + 128) % 128 = d := by omega
  show (if max / 128 < acc then _ else _) = _
  rw [if_neg (by omega), hb, if_pos (by omega), hmod, if_neg (by omega)]

theorem readVarInt_last {max acc d : Nat} (hd : d < 128) (h : acc * 128 + d ≤ max) (rest : List UInt8) :
    readVarInt eof tooLarge max acc (ofNat d :: rest) = .ok (acc * 128 + d, rest) := by
  have hb : (ofNat d).toNat = d := by
    rw [toNat_ofNat']
    omega
  have hmod : d % 128 = d := by omega
  show (if max / 128 < acc then _ else _) = _
  rw [if_neg (by omega), hb, if_neg (by omega), hmod]

theorem readVarInt_front {max : Nat} (n x : Nat) (hn : x + 1 < 128 ^ n) (hx : x < max)
    (rest : List UInt8) : readVarInt eof tooLarge max 0 (varFront n x ++ rest) =
      readVarInt eof tooLarge max (x + 1) rest := by
  induction n generalizing x rest with
  | zero =>
    rw [pow_zero] at hn
    omega
  | succ n ih =>
    rw [varFront]
    by_cases h : x < 128
    · rw [if_pos h]
      have hd := @readVarInt_digit ε eof tooLarge max 0 x h (by omega) rest
      rw [Nat.zero_mul, Nat.zero_add] at hd
      exact hd
    · rw [if_neg h, append_assoc]
      have hq : x / 128 - 1 + 1 < 128 ^ n := by
        rw [pow_succ] at hn
        omega
      have hval : (x / 128 - 1 + 1) * 128 + x % 128 = x := by omega
      rw [ih _ hq (by omega), singleton_append, readVarInt_digit (Nat.mod_lt _ (by omega)) (by omega), hval]

/-- **a number in base 128 is read back** -/
theorem reads_varInt {max x : Nat} (hx : x ≤ max) (hlt : x < 128 ^ 10) :
    Reads (readVarInt eof tooLarge max 0) (varInt x) x := by
  intro rest
  unfold varInt
  by_cases h : x < 128
  · rw [if_pos h, singleton_append, readVarInt_last h (by omega), Nat.zero_mul, Nat.zero_add]
  · rw [if_neg h, append_assoc]
    have hval : (x / 128 - 1 + 1) * 128 + x % 128 = x := by omega
    rw [readVarInt_front 9 _ (by omega) (by omega), singleton_append,
      readVarInt_last (Nat.mod_lt _ (by omega)) (by omega), hval]

end Codec

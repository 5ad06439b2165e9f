import BitCash.Lib.Checks
import BitCash.Lib.Machine

/-!
# Amounts, verdicts and byte strings
-/

variable {α : Type}

namespace BitCash
open Checks Machine

/-! ## verdicts -/

inductive Mode where
  | invalid
  | error
  deriving DecidableEq, Repr

structure Reject where
  mode : Mode
  nDoS : Nat
  chRejectCode : Nat
  strRejectReason : String
  corruptionPossible : Bool
  deriving DecidableEq, Repr

inductive Fault where
  | signedOverflow
  | outOfBounds
  | divisionByZero
  | assertionFailed
  deriving DecidableEq, Repr

inductive Stop where
  | reject (r : Reject)
  | throws (what : String)
  | fault (f : Fault)
  deriving DecidableEq, Repr

abbrev Res (α : Type) := Except Stop α

def REJECT_INVALID : Nat := 0x10
def REJECT_OBSOLETE : Nat := 0x11
def REJECT_CHECKPOINT : Nat := 0x43

def Stop.dos (level code : Nat) (reason : String) (corruption : Bool) : Stop :=
  .reject ⟨.invalid, level, code, reason, corruption⟩

def Stop.bad (level : Nat) (reason : String) : Stop :=
  .dos level REJECT_INVALID reason false

def Stop.invalid (reason : String) : Stop :=
  .dos 0 REJECT_INVALID reason false

def Stop.systemError (reason : String) : Stop :=
  .reject ⟨.error, 0, 0, reason, false⟩

/-- the routine stops with a verdict on its input: `return state.DoS(..)`, not an exception and not
undefined behaviour -/
def Stop.isVerdict : Stop → Bool
  | .reject _ => true
  | .throws _ => false
  | .fault _ => false

def Returns {α : Type} : Res α → Prop
  | .ok _ => True
  | .error e => e.isVerdict = true

@[simp] theorem returns_ok (a : α) : Returns (.ok a : Res α) := trivial

@[simp] theorem returns_error (e : Stop) : Returns (.error e : Res α) ↔ e.isVerdict := Iff.rfl

@[simp] theorem isVerdict_bad (level : Nat) (reason : String) : (Stop.bad level reason).isVerdict := rfl

@[simp] theorem isVerdict_invalid (reason : String) : (Stop.invalid reason).isVerdict := rfl

theorem Returns.bind {β : Type} {x : Res α} {f : α → Res β} (hx : Returns x)
    (hf : ∀ a, x = .ok a → Returns (f a)) : Returns (x >>= f) := by
  cases x with
  | error e => exact hx
  | ok a => exact hf a rfl

theorem returns_need (c : Bool) {e : Stop} (he : e.isVerdict) : Returns (need c e) := by
  cases c with
  | false => exact he
  | true => trivial

theorem returns_run_iff {σ : Type} {step : σ → α → Res σ} {l : List α} {s : σ} : Returns (run step s l) ↔
      ∀ p a q t, l = p ++ a :: q → run step s p = .ok t → Returns (step t a) := by
  induction l generalizing s with
  | nil =>
    refine ⟨fun _ p a q t h => ?_, fun _ => trivial⟩
    simp at h
  | cons b l ih =>
    rw [run_cons]
    constructor
    · intro h p a q t hl hp
      cases p with
      | nil =>
        cases hl
        cases hp
        cases hb : step s b with
        | ok t => trivial
        | error e => rwa [hb] at h
      | cons c p =>
        cases hl
        obtain ⟨s', hb, hp⟩ := run_cons_ok.1 hp
        rw [hb] at h
        exact ih.1 h p a q t rfl hp
    · intro h
      refine (h [] b l s rfl rfl).bind fun s' hb => ih.2 fun p a q t hl hp => ?_
      exact h (b :: p) a q t (by rw [hl]; rfl) (run_cons_ok.2 ⟨s', hb, hp⟩)

/-! ## amounts

A `CAmount` is an `Int`; `addAmount` and `divAmount` keep it a signed 64-bit word. -/

def COIN : Int := 1000000000
def MILLICOIN : Int := 1000000
def MAX_MONEY : Int := 100000000 * COIN

def moneyRange (nValue : Int) : Bool := decide (0 ≤ nValue) && decide (nValue ≤ MAX_MONEY)

theorem moneyRange_iff {x : Int} : moneyRange x ↔ 0 ≤ x ∧ x ≤ 100000000000000000 := by
  rw [moneyRange, Bool.and_eq_true, decide_eq_true_iff, decide_eq_true_iff]
  exact Iff.rfl

theorem moneyRange_fits {x : Int} (h : moneyRange x) : fits64 x := by
  rw [moneyRange_iff] at h
  rw [fits64_iff]
  omega

def addAmount (a b : Int) : Res Int :=
  if fits64 (a + b) then .ok (a + b) else .error (.fault .signedOverflow)

theorem addAmount_ok {a b c : Int} : addAmount a b = .ok c ↔ fits64 (a + b) ∧ c = a + b := by
  unfold addAmount
  by_cases h : fits64 (a + b) = true
  · rw [if_pos h]
    exact ⟨fun e => ⟨h, (Except.ok.inj e).symm⟩, fun e => e.2 ▸ rfl⟩
  · rw [if_neg h]
    exact ⟨fun e => (nomatch e), fun e => absurd e.1 h⟩

def divAmount (a b : Int) : Res Int :=
  if b = 0 then .error (.fault .divisionByZero) else .ok (narrow64 (a.tdiv b))

theorem divAmount_of_ne {a b : Int} (h : b ≠ 0) : divAmount a b = .ok (narrow64 (a.tdiv b)) := if_neg h

theorem divAmount_ok {a b : Int} {c : Int} : divAmount a b = .ok c ↔ b ≠ 0 ∧ c = narrow64 (a.tdiv b) := by
  unfold divAmount
  by_cases h : b = 0
  · rw [if_pos h]
    exact ⟨fun e => (nomatch e), fun e => absurd h e.1⟩
  · rw [if_neg h]
    exact ⟨fun e => ⟨h, (Except.ok.inj e).symm⟩, fun e => e.2 ▸ rfl⟩

/-! ## byte strings and public keys -/

abbrev Bytes := List UInt8
abbrev CScript := Bytes

def CPubKey.getLen (chHeader : UInt8) : Nat :=
  if chHeader = 2 || chHeader = 3 then 33
  else if chHeader = 4 || chHeader = 6 || chHeader = 7 then 65
  else 0

/-- the bytes of a key: none, or as many as the first one announces -/
def CPubKey.wellFormed : Bytes → Bool
  | [] => true
  | b :: l => decide (0 < CPubKey.getLen b) && decide ((b :: l).length = CPubKey.getLen b)

/-- a valid key, or `CPubKey()`: of the invalid keys, which `operator==` tells apart by their first
byte, only that one is a value of the model -/
structure CPubKey where
  vch : Bytes
  wf : CPubKey.wellFormed vch = true
  deriving DecidableEq

instance : Inhabited CPubKey := ⟨⟨[], rfl⟩⟩

def CPubKey.size (k : CPubKey) : Nat := k.vch.length

def CPubKey.isValid (k : CPubKey) : Bool := decide (0 < k.size)

def bytesOf : Nat → Nat → Bytes
  | 0, _ => []
  | n + 1, x => UInt8.ofNat (x / 256 ^ n % 256) :: bytesOf n x

def nicknameMasterPubKey : CPubKey :=
  ⟨bytesOf 33 0x0218f025964034288e531766ec674257e17b9f5aa870f29cb41fc29cc0af1506c4, by decide⟩

def dev1ScriptPubKey : CPubKey :=
  ⟨bytesOf 33 0x02f858c4a789a111c7d3a5414e2014dd481a99100e05777ebbcfd1638932dd298b, by decide⟩

def OP_RETURN : UInt8 := 0x6a
def OP_CHECKSIG : UInt8 := 0xac
def MAX_SCRIPT_SIZE : Nat := 10000

def getScriptForRawPubKey (k : CPubKey) : CScript :=
  UInt8.ofNat k.size :: k.vch ++ [OP_CHECKSIG]

def isUnspendable (script : CScript) : Bool :=
  script.head? == some OP_RETURN || decide (MAX_SCRIPT_SIZE < script.length)

end BitCash

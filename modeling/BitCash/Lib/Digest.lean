import Mathlib.Data.List.Basic

/-!
# Free digests

A hash without collisions: the digest of a value is the value itself, written as a term.
-/

/-- a term over natural numbers -/
inductive Digest where
  | atom (n : Nat)
  | node (a b : Digest)
  deriving DecidableEq

namespace Digest

instance : Inhabited Digest := ⟨.atom 0⟩

/-- an injective way to write values as terms -/
class Code (α : Type) where
  enc : α → Digest
  inj : ∀ {a b : α}, enc a = enc b → a = b

variable {α β : Type}

/-- a code of `β` is a code of everything that embeds in `β` -/
abbrev Code.ofInjective [Code β] (f : α → β) (hf : ∀ {a b}, f a = f b → a = b) : Code α where
  enc a := Code.enc (f a)
  inj h := hf (Code.inj h)

instance : Code Digest := ⟨id, id⟩

instance : Code Nat := ⟨.atom, fun h => by injection h⟩

instance : Code Bool := .ofInjective (fun b => if b then 1 else 0 : Bool → Nat) fun {a b} h => by
  cases a <;> cases b <;> simp_all

instance : Code UInt8 := .ofInjective UInt8.toNat fun h => UInt8.toNat_inj.1 h

instance : Code UInt32 := .ofInjective UInt32.toNat fun h => UInt32.toNat_inj.1 h

instance {w : Nat} : Code (BitVec w) := .ofInjective BitVec.toNat fun h => BitVec.eq_of_toNat_eq h

instance : Code Int where
  enc
    | .ofNat n => .atom n
    | .negSucc n => .node (.atom n) (.atom n)
  inj {a b} h := by cases a <;> cases b <;> simp_all

instance [Code α] [Code β] : Code (α × β) where
  enc p := .node (Code.enc p.1) (Code.enc p.2)
  inj h := by
    injection h with h1 h2
    exact Prod.ext (Code.inj h1) (Code.inj h2)

instance [Code α] : Code (Option α) where
  enc
    | none => .atom 0
    | some a => .node (.atom 0) (Code.enc a)
  inj {a b} h := by
    cases a with
    | none => cases b with
      | none => rfl
      | some b => cases h
    | some a => cases b with
      | none => cases h
      | some b =>
        injection h with _ h
        rw [Code.inj h]

/-- the elements of a list, from left to right -/
def encList [Code α] : List α → Digest
  | [] => .atom 0
  | a :: l => .node (Code.enc a) (encList l)

theorem encList_inj [Code α] {l m : List α} (h : encList l = encList m) : l = m := by
  induction l generalizing m with
  | nil => cases m with
    | nil => rfl
    | cons b m => cases h
  | cons a l ih => cases m with
    | nil => cases h
    | cons b m =>
      injection h with h1 h2
      rw [Code.inj h1, ih h2]

instance [Code α] : Code (List α) := ⟨encList, encList_inj⟩

/-- the digest of a value under a tag -/
def tagged [Code α] (tag : Nat) (a : α) : Digest := .node (.atom tag) (Code.enc a)

theorem tagged_inj [Code α] [Code β] {s t : Nat} {a : α} {b : β} (h : tagged s a = tagged t b) :
    s = t ∧ Code.enc a = Code.enc b := by
  injection h with h1 h2
  injection h1 with h1
  exact ⟨h1, h2⟩

end Digest

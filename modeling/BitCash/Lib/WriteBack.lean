import Mathlib.Data.Option.Basic

/-!
# One cell of a write-back cache

A write-back cache keeps entries over a parent store.
-/

namespace WriteBack
open Bool

variable {V : Type} {p : Option V}

structure Entry (V : Type) where
  value : Option V
  dirty : Bool
  fresh : Bool
  deriving DecidableEq

/-- what is found at the key: the entry, or what the parent holds -/
def read (p : Option V) : Option (Entry V) → Option V
  | none => p
  | some e => e.value

@[simp] theorem read_none (p : Option V) : read p none = p := rfl

@[simp] theorem read_some (p : Option V) (e : Entry V) : read p (some e) = e.value := rfl

structure Good (p : Option V) (c : Option (Entry V)) : Prop where
  clean : ∀ e, c = some e → e.dirty = false → e.value = p
  fresh : ∀ e, c = some e → e.fresh = true → p = none

theorem Good.none (p : Option V) : Good p none := ⟨fun _ h => (nomatch h), fun _ h => (nomatch h)⟩

theorem Good.copy (p : Option V) : Good p (some ⟨p, false, false⟩) := by
  constructor
  · intro e he _
    cases he
    rfl
  · intro e he hf
    cases he
    cases hf

theorem Good.of_dirty {v : Option V} {f : Bool} (h : f → p = Option.none) : Good p (some ⟨v, true, f⟩) := by
  constructor
  · intro e he hd
    cases he
    cases hd
  · intro e he hf
    cases he
    exact h hf

/-- the entry after a write; a write that may not overwrite marks the entry fresh where it cannot hide
a value of the parent -/
def put (c : Option (Entry V)) (v : V) (overwrite : Bool) : Entry V :=
  ⟨some v, true, c.any (·.fresh) || (!overwrite && !c.any (·.dirty))⟩

theorem good_put {c : Option (Entry V)} (h : Good p c) (v : V) {overwrite : Bool}
    (how : overwrite = false → read p c = none) : Good p (some (put c v overwrite)) := by
  apply Good.of_dirty
  intro hf
  rw [or_eq_true, and_eq_true, not_eq_true', not_eq_true'] at hf
  cases c with
  | none =>
    rcases hf with hf | ⟨ho, -⟩
    · cases hf
    · exact how ho
  | some e =>
    rcases hf with hf | ⟨ho, hd⟩
    · exact h.fresh e rfl hf
    · -- a clean entry shows the value of the parent, which is not there
      rw [← h.clean e rfl hd]
      exact how ho

/-- the cell after a deletion: a fresh entry is dropped, another one stays without value -/
def erase (e : Entry V) : Option (Entry V) := if e.fresh then none else some ⟨none, true, false⟩

theorem good_erase {e : Entry V} (h : Good p (some e)) : Good p (erase e) ∧ read p (erase e) = none := by
  unfold erase
  cases hf : e.fresh with
  | true => exact ⟨.none p, h.fresh e rfl hf⟩
  | false => exact ⟨.of_dirty fun h => (nomatch h), rfl⟩

/-! ## writing back -/

/-- a fresh entry over a parent that shows a value: the flag was wrong -/
def clash (parent : Option (Entry V)) (child : Entry V) : Bool :=
  child.dirty && child.fresh && parent.any (·.value.isSome)

/-- the cell of the parent after an entry is written back -/
def merge (parent : Option (Entry V)) (child : Entry V) : Option (Entry V) :=
  if child.dirty then
    match parent with
    | none => if child.fresh && child.value.isNone then none else some ⟨child.value, true, child.fresh⟩
    | some e => if e.fresh && child.value.isNone then none else some ⟨child.value, true, e.fresh⟩
  else parent

variable {child : Entry V}

theorem merge_none (hchild : Good p (some child)) (hd : child.dirty) :
    Good p (merge none child) ∧ read p (merge none child) = child.value := by
  unfold merge
  rw [if_pos hd]
  dsimp only
  split
  · rename_i h
    rw [and_eq_true, Option.isNone_iff_eq_none] at h
    exact ⟨.none p, (hchild.fresh child rfl h.1).trans h.2.symm⟩
  · exact ⟨.of_dirty fun hf => hchild.fresh child rfl hf, rfl⟩

theorem merge_some {e : Entry V} (hparent : Good p (some e)) (hd : child.dirty) :
    Good p (merge (some e) child) ∧ read p (merge (some e) child) = child.value := by
  unfold merge
  rw [if_pos hd]
  dsimp only
  split
  · rename_i h
    rw [and_eq_true, Option.isNone_iff_eq_none] at h
    exact ⟨.none p, (hparent.fresh e rfl h.1).trans h.2.symm⟩
  · exact ⟨.of_dirty fun hf => hparent.fresh e rfl hf, rfl⟩

/-- **writing back**: there is no clash, and the parent then shows what the child did -/
theorem merge_spec {parent : Option (Entry V)}
    (hparent : Good p parent) (hchild : Good (read p parent) (some child)) :
    clash parent child = false ∧ Good p (merge parent child) ∧ read p (merge parent child) = child.value := by
  cases hd : child.dirty with
  | false =>
    have hsame : merge parent child = parent := by
      unfold merge
      rw [hd]
      rfl
    rw [hsame]
    refine ⟨by rw [clash, hd]; rfl, hparent, ?_⟩
    exact (hchild.clean child rfl hd).symm
  | true =>
    cases parent with
    | none => exact ⟨by simp [clash], merge_none hchild hd⟩
    | some e =>
      refine ⟨?_, merge_some hparent hd⟩
      cases hf : child.fresh with
      | false => simp [clash, hf]
      | true =>
        have hnone : e.value = none := hchild.fresh child rfl hf
        simp [clash, hnone]

end WriteBack

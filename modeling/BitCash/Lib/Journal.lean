import Mathlib.Data.List.Basic

/-!
# Journals of writes to a keyed store

A journal is a list of writes, each at one key: `put` a value or `del`ete what is there. What a journal does to a
key is its last write there, `lastWrite`.
-/

namespace Journal
open List Function

variable {κ α β : Type} [DecidableEq κ]

inductive Write (α : Type) where
  | put (a : α)
  | del
  deriving DecidableEq

/-- the same write with another value -/
def Write.map (f : α → β) : Write α → Write β
  | .put a => .put (f a)
  | .del => .del

/-- the last write of a journal at a key -/
def lastWrite : List (κ × Write α) → κ → Option (Write α)
  | [], _ => none
  | (k, w) :: l, x => (lastWrite l x).or (if k = x then some w else none)

@[simp] theorem lastWrite_nil (x : κ) : lastWrite ([] : List (κ × Write α)) x = none := rfl

theorem lastWrite_cons (k : κ) (w : Write α) (l : List (κ × Write α)) (x : κ) :
    lastWrite ((k, w) :: l) x = (lastWrite l x).or (if k = x then some w else none) := rfl

theorem lastWrite_append (l m : List (κ × Write α)) (x : κ) :
    lastWrite (l ++ m) x = (lastWrite m x).or (lastWrite l x) := by
  induction l with
  | nil => simp
  | cons a l ih =>
    obtain ⟨k, w⟩ := a
    rw [cons_append, lastWrite_cons, lastWrite_cons, ih, Option.or_assoc]

theorem lastWrite_map (f : α → β) (l : List (κ × Write α)) (x : κ) :
    lastWrite (l.map fun a => (a.1, a.2.map f)) x = (lastWrite l x).map (Write.map f) := by
  induction l with
  | nil => rfl
  | cons a l ih =>
    obtain ⟨k, w⟩ := a
    rw [map_cons, lastWrite_cons, lastWrite_cons, ih]
    cases lastWrite l x with
    | some w' => rfl
    | none => by_cases h : k = x <;> simp [h]

variable {l : List (κ × Write α)} {x : κ} {w : Write α} {R : α → β → Prop}

theorem lastWrite_mem (h : lastWrite l x = some w) : (x, w) ∈ l := by
  induction l with
  | nil => cases h
  | cons a l ih =>
    obtain ⟨k, w'⟩ := a
    rw [lastWrite_cons] at h
    cases hl : lastWrite l x with
    | some w'' =>
      rw [hl] at h
      exact mem_cons_of_mem _ (ih (hl.trans h))
    | none =>
      rw [hl, Option.none_or] at h
      by_cases hk : k = x
      · rw [if_pos hk] at h
        cases h
        rw [hk]
        exact mem_cons_self
      · rw [if_neg hk] at h
        cases h

theorem lastWrite_none (h : lastWrite l x = none) (w : Write α) : (x, w) ∉ l := by
  induction l with
  | nil => exact not_mem_nil
  | cons a l ih =>
    obtain ⟨k, v⟩ := a
    rw [lastWrite_cons, Option.or_eq_none_iff] at h
    intro hmem
    rcases mem_cons.1 hmem with heq | hmem
    · cases heq
      simp at h
    · exact ih h.1 hmem

/-- two writes of one kind, with related values -/
inductive WriteRel (R : α → β → Prop) : Write α → Write β → Prop
  | put {a : α} {b : β} (h : R a b) : WriteRel R (.put a) (.put b)
  | del : WriteRel R .del .del

theorem rel_map {γ : Type} {f : α → γ} {g : β → γ} {x : Option (Write α)}
    {y : Option (Write β)} (h : Option.Rel (WriteRel R) x y) :
    Option.Rel (WriteRel fun _ _ : γ => True) (x.map (Write.map f)) (y.map (Write.map g)) := by
  cases h with
  | none => exact .none
  | some h =>
    cases h with
    | put _ => exact .some (.put trivial)
    | del => exact .some .del

/-- **journals in step** -/
theorem lastWrite_rel {m : List (κ × Write β)}
    (h : List.Forall₂ (fun a b => a.1 = b.1 ∧ WriteRel R a.2 b.2) l m) (x : κ) :
    Option.Rel (WriteRel R) (lastWrite l x) (lastWrite m x) := by
  induction h with
  | nil => exact .none
  | @cons a b l m hab _ ih =>
    obtain ⟨k, w⟩ := a
    obtain ⟨k', w'⟩ := b
    obtain ⟨rfl, hw⟩ := hab
    rw [lastWrite_cons, lastWrite_cons]
    cases hl : lastWrite l x with
    | some y =>
      rw [hl] at ih
      cases hm : lastWrite m x with
      | some z =>
        rw [hm] at ih
        exact ih
      | none => rw [hm] at ih; cases ih
    | none =>
      rw [hl] at ih
      cases hm : lastWrite m x with
      | some z => rw [hm] at ih; cases ih
      | none =>
        rw [Option.none_or, Option.none_or]
        by_cases hk : k = x
        · rw [if_pos hk, if_pos hk]
          exact .some hw
        · rw [if_neg hk, if_neg hk]
          exact .none

/-! ## a store after a journal -/

def Write.value : Write α → Option α
  | .put a => some a
  | .del => none

/-- the store after the writes of a journal -/
def applyTo (m : κ → Option α) (l : List (κ × Write α)) : κ → Option α := fun x =>
  ((lastWrite l x).map Write.value).getD (m x)

@[simp] theorem applyTo_nil (m : κ → Option α) : applyTo m [] = m := rfl

theorem applyTo_append (m : κ → Option α) (l k : List (κ × Write α)) :
    applyTo m (l ++ k) = applyTo (applyTo m l) k := by
  funext x
  unfold applyTo
  rw [lastWrite_append]
  cases lastWrite k x with
  | none => rw [Option.none_or]; rfl
  | some w => rfl

theorem applyTo_one (m : κ → Option α) (k : κ) (w : Write α) : applyTo m [(k, w)] = update m k w.value := by
  funext x
  unfold applyTo
  rw [lastWrite_cons, lastWrite_nil, Option.none_or]
  by_cases h : k = x
  · rw [if_pos h, ← h, update_self]
    rfl
  · rw [if_neg h, update_of_ne (fun e => h e.symm)]
    rfl

variable {m : κ → Option α}

theorem applyTo_of_none (h : lastWrite l x = none) : applyTo m l x = m x := by
  unfold applyTo
  rw [h]
  rfl

/-- **a write forgets what was there** -/
theorem applyTo_of_write (h : lastWrite l x = some w) : applyTo m l x = w.value := by
  unfold applyTo
  rw [h]
  rfl

theorem lastWrite_of_not_mem (h : x ∉ l.map Prod.fst) : lastWrite l x = none := by
  cases hl : lastWrite l x with
  | none => rfl
  | some w => exact absurd (mem_map_of_mem (f := Prod.fst) (lastWrite_mem hl)) h

theorem lastWrite_of_mem (h : x ∈ l.map Prod.fst) : ∃ w, lastWrite l x = some w := by
  cases hl : lastWrite l x with
  | some w => exact ⟨w, rfl⟩
  | none =>
    obtain ⟨⟨k, w⟩, hmem, rfl⟩ := mem_map.1 h
    exact absurd hmem (lastWrite_none hl w)

theorem lastWrite_of_nodup (hl : (l.map Prod.fst).Nodup) (h : (x, w) ∈ l) : lastWrite l x = some w := by
  induction l with
  | nil => cases h
  | cons a l ih =>
    obtain ⟨k, v⟩ := a
    rw [map_cons, nodup_cons] at hl
    rw [lastWrite_cons]
    rcases mem_cons.1 h with heq | h
    · cases heq
      rw [lastWrite_of_not_mem hl.1, if_pos rfl]
      rfl
    · rw [ih hl.2 h]
      rfl

/-- **writes at new keys are undone by deleting the keys** -/
theorem applyTo_undo (h : ∀ x w, (x, w) ∈ l → m x = none) :
    applyTo (applyTo m l) (l.map fun p => (p.1, Write.del)) = m := by
  have hkeys : (l.map fun p => (p.1, (Write.del : Write α))).map Prod.fst = l.map Prod.fst := by
    rw [map_map]
    rfl
  funext x
  by_cases hx : x ∈ l.map Prod.fst
  · obtain ⟨w, hw⟩ := lastWrite_of_mem (hkeys ▸ hx)
    obtain ⟨q, -, heq⟩ := mem_map.1 (lastWrite_mem hw)
    have hdel : w = .del := (Prod.mk.inj heq).2.symm
    obtain ⟨⟨k, v⟩, hmem, hk⟩ := mem_map.1 hx
    have hk' : k = x := hk
    rw [applyTo_of_write hw, hdel, ← hk', h k v hmem]
    rfl
  · rw [applyTo_of_none (lastWrite_of_not_mem (hkeys ▸ hx)), applyTo_of_none (lastWrite_of_not_mem hx)]

theorem applyTo_forall [DecidableEq K] {m : K → Option V} {l : List (K × Write V)} {P : K → V → Prop}
    (hm : ∀ x v, m x = some v → P x v) (hput : ∀ x v, (x, .put v) ∈ l → P x v) {x : K} {v : V}
    (h : applyTo m l x = some v) : P x v := by
  cases hw : lastWrite l x with
  | none =>
    rw [applyTo_of_none hw] at h
    exact hm x v h
  | some w =>
    rw [applyTo_of_write hw] at h
    cases w with
    | del => cases h
    | put y =>
      cases h
      exact hput x v (lastWrite_mem hw)

theorem applyTo_eq_or {f : κ → Option α} (h : applyTo m l = f)
    (d : κ → Option α) (x : κ) : applyTo d l x = f x ∨ (applyTo d l x = d x ∧ m x = f x) := by
  rw [← h]
  cases hl : lastWrite l x with
  | none => exact .inr ⟨applyTo_of_none hl, (applyTo_of_none hl).symm⟩
  | some w => exact .inl ((applyTo_of_write hl).trans (applyTo_of_write hl).symm)

/-- **recovery**: a store in which every key has its value of `old` or of `new` becomes `new`, by a
journal from `old` back to a common state and one from there on to `new` -/
theorem applyTo_recover {old fork new d : κ → Option α} {back forth : List (κ × Write α)}
    (hback : applyTo old back = fork) (hforth : applyTo fork forth = new)
    (hd : ∀ x, d x = old x ∨ d x = new x) : applyTo d (back ++ forth) = new := by
  funext x
  rw [applyTo_append]
  rcases applyTo_eq_or hforth (applyTo d back) x with h | ⟨hz, hfork⟩
  · exact h
  · rw [hz]
    rcases applyTo_eq_or hback d x with h | ⟨hr, hold⟩
    · rw [h, hfork]
    · -- neither journal writes here: old, fork and new agree
      rw [hr]
      rcases hd x with h | h
      · rw [h, hold, hfork]
      · exact h

end Journal

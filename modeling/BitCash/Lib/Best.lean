import BitCash.Lib.Rel
import Mathlib.Data.List.Basic

/-!
# The best element of a list

`best less key l` is the first of the best elements of `l`, with its key; elements without a key are passed over.
-/

namespace Best
open Related List

variable {α β : Type}

/-- the first of the best elements, and its key -/
def best (less : β → β → Bool) (key : α → Option β) : List α → Option (α × β)
  | [] => none
  | a :: l =>
    match key a, best less key l with
    | none, r => r
    | some x, none => some (a, x)
    | some x, some r => if less x r.2 then some r else some (a, x)

/-- a strict weak order, given by what is not below what -/
structure Weak (less : β → β → Bool) : Prop where
  asymm : ∀ a b, less a b = true → less b a = false
  trans : ∀ a b c, less a b = false → less b c = false → less a c = false

variable {less : β → β → Bool} {key key' : α → Option β} {l : List α} {r : α × β} {a : α} {x : β}

theorem Weak.irrefl (hw : Weak less) (a : β) : less a a = false := by
  by_contra h
  have htrue : less a a := by simpa using h
  rw [hw.asymm a a htrue] at htrue
  cases htrue

theorem best_cons_unknown (ha : key a = none) : best less key (a :: l) = best less key l := by
  rw [best, ha]

theorem best_cons_only (ha : key a = some x) (hl : best less key l = none) : best less key (a :: l) = some (a, x) := by
  rw [best, ha, hl]

theorem best_cons_both (ha : key a = some x) (hl : best less key l = some r) :
    best less key (a :: l) = if less x r.2 then some r else some (a, x) := by
  rw [best, ha, hl]

theorem best_cons (h : best less key (a :: l) = some r) :
    (best less key l = some r ∧ ∀ x, key a = some x → less x r.2) ∨
      (r.1 = a ∧ key a = some r.2 ∧ ∀ q, best less key l = some q → less r.2 q.2 = false) := by
  cases ha : key a with
  | none =>
    rw [best_cons_unknown ha] at h
    exact .inl ⟨h, fun x hx => nomatch hx⟩
  | some x =>
    cases hl : best less key l with
    | none =>
      rw [best_cons_only ha hl] at h
      cases h
      exact .inr ⟨rfl, rfl, fun q hq => nomatch hq⟩
    | some q =>
      rw [best_cons_both ha hl] at h
      split at h
      · rename_i hlt
        cases h
        exact .inl ⟨rfl, fun y hy => by cases hy; exact hlt⟩
      · rename_i hlt
        cases h
        refine .inr ⟨rfl, rfl, fun q' hq' => ?_⟩
        cases hq'
        exact Bool.eq_false_iff.2 hlt

theorem best_key (h : best less key l = some r) : key r.1 = some r.2 := by
  induction l with
  | nil => cases h
  | cons a l ih =>
    rcases best_cons h with ⟨hl, -⟩ | ⟨ha, hk, -⟩
    · exact ih hl
    · rw [ha]
      exact hk

theorem best_mem (h : best less key l = some r) : r.1 ∈ l := by
  induction l with
  | nil => cases h
  | cons a l ih =>
    rcases best_cons h with ⟨hl, -⟩ | ⟨ha, -, -⟩
    · exact mem_cons_of_mem _ (ih hl)
    · rw [ha]
      exact mem_cons_self

theorem best_none (h : best less key l = none) : ∀ a ∈ l, key a = none := by
  induction l with
  | nil => exact fun a ha => nomatch ha
  | cons b l ih =>
    cases hb : key b with
    | none =>
      rw [best_cons_unknown hb] at h
      intro a ha
      rcases mem_cons.1 ha with rfl | ha
      · exact hb
      · exact ih h a ha
    | some x =>
      cases hl : best less key l with
      | none => rw [best_cons_only hb hl] at h; cases h
      | some q =>
        rw [best_cons_both hb hl] at h
        split at h <;> cases h

/-- **nothing in the list is better** -/
theorem best_max (hw : Weak less) (h : best less key l = some r) (ha : a ∈ l)
    (hx : key a = some x) : less r.2 x = false := by
  induction l generalizing r with
  | nil => cases ha
  | cons b l ih =>
    rcases best_cons h with ⟨hl, hb⟩ | ⟨-, hb, hq⟩
    · rcases mem_cons.1 ha with rfl | ha
      · exact hw.asymm _ _ (hb x hx)
      · exact ih hl ha
    · rcases mem_cons.1 ha with rfl | ha
      · rw [hx] at hb
        cases hb
        exact hw.irrefl _
      · cases hl : best less key l with
        | none => exact absurd hx (by rw [best_none hl a ha]; simp)
        | some q => exact hw.trans _ _ _ (hq q hl) (ih hl ha)

/-- **the best element stays** when others are dropped -/
theorem best_filter (hw : Weak less) {f : α → Bool} (h : best less key l = some r)
    (hf : f r.1) : best less key (l.filter f) = some r := by
  induction l generalizing r with
  | nil => cases h
  | cons a l ih =>
    rcases best_cons h with ⟨hl, ha⟩ | ⟨ha, hk, hq⟩
    · -- the best element is further on: the head loses to it, or is not there
      by_cases hfa : f a = true
      · rw [filter_cons_of_pos hfa]
        cases hka : key a with
        | none => rw [best_cons_unknown hka, ih hl hf]
        | some x => rw [best_cons_both hka (ih hl hf), if_pos (ha x hka)]
      · rw [filter_cons_of_neg hfa]
        exact ih hl hf
    · -- the head is the best element: what is left of the rest is not above it
      rw [ha] at hf
      rw [filter_cons_of_pos hf]
      cases hl : best less key (l.filter f) with
      | none =>
        rw [best_cons_only hk hl, ← ha]
      | some q =>
        have hmem : q.1 ∈ l := (mem_filter.1 (best_mem hl)).1
        have hbelow : less r.2 q.2 = false := by
          cases hr : best less key l with
          | none => exact absurd (best_key hl) (by rw [best_none hr _ hmem]; simp)
          | some q' => exact hw.trans _ _ _ (hq q' hr) (best_max hw hr hmem (best_key hl))
        rw [best_cons_both hk hl, hbelow, if_neg Bool.false_ne_true, ← ha]

theorem best_rel {R : β → β → Prop}
    (hless : ∀ x x' y y', R x x' → R y y' → less x y = less x' y') (hkey : ∀ a ∈ l, Option.Rel R (key a) (key' a)) :
    Option.Rel (fun p q : α × β => p.1 = q.1 ∧ R p.2 q.2) (best less key l) (best less key' l) := by
  induction l with
  | nil => exact .none
  | cons a l ih =>
    have ih := ih fun b hb => hkey b (mem_cons_of_mem _ hb)
    have ha := hkey a mem_cons_self
    cases hk : key a with
    | none =>
      rw [best_cons_unknown hk, best_cons_unknown (rel_none ha hk)]
      exact ih
    | some x =>
      obtain ⟨x', hk', hx⟩ := rel_some ha hk
      cases hl : best less key l with
      | none =>
        rw [best_cons_only hk hl, best_cons_only hk' (rel_none ih hl)]
        exact .some ⟨rfl, hx⟩
      | some p =>
        obtain ⟨q, hl', hpq⟩ := rel_some ih hl
        rw [best_cons_both hk hl, best_cons_both hk' hl', hless x x' p.2 q.2 hx hpq.2]
        split
        · exact .some hpq
        · exact .some ⟨rfl, hx⟩

end Best

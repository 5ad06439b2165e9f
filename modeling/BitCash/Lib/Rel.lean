import Mathlib.Data.Option.Basic

/-!
# Options related elementwise

`Option.Rel R x y`: both are missing, or both are there and related by `R`.
-/

namespace Related

variable {α β γ : Type} {R : α → β → Prop} {x : Option α} {y : Option β}

theorem rel_refl {R : α → α → Prop} (hR : ∀ a, R a a) (x : Option α) : Option.Rel R x x := by
  cases x with
  | none => exact .none
  | some a => exact .some (hR a)

theorem rel_trans {R : α → α → Prop} (hR : ∀ a b c, R a b → R b c → R a c) {y z : Option α}
    (h : Option.Rel R x y) (h' : Option.Rel R y z) : Option.Rel R x z := by
  cases h with
  | none => exact h'
  | some hab =>
    cases h' with
    | some hbc => exact .some (hR _ _ _ hab hbc)

section
variable (h : Option.Rel R x y)
include h

theorem rel_some {a : α} (hx : x = some a) : ∃ b, y = some b ∧ R a b := by
  subst hx
  cases h with
  | some hab => exact ⟨_, rfl, hab⟩

theorem rel_none (hx : x = none) : y = none := by
  subst hx
  cases h with
  | none => rfl

theorem rel_isSome : x.isSome = y.isSome := by
  cases h <;> rfl

theorem rel_map_eq {f : α → γ} {g : β → γ} (hfg : ∀ a b, R a b → f a = g b) : x.map f = y.map g := by
  cases h with
  | none => rfl
  | some hab => exact congrArg some (hfg _ _ hab)

theorem rel_bind_eq {f : α → Option γ} {g : β → Option γ} (hfg : ∀ a b, R a b → f a = g b) : x.bind f = y.bind g := by
  cases h with
  | none => rfl
  | some hab => exact hfg _ _ hab

theorem rel_any_eq {f : α → Bool} {g : β → Bool} (hfg : ∀ a b, R a b → f a = g b) : x.any f = y.any g := by
  cases h with
  | none => rfl
  | some hab => exact hfg _ _ hab

end

theorem rel_findSome {R : β → γ → Prop} {f : α → Option β} {g : α → Option γ}
    (h : ∀ a, Option.Rel R (f a) (g a)) (l : List α) : Option.Rel R (l.findSome? f) (l.findSome? g) := by
  induction l with
  | nil => exact .none
  | cons a l ih =>
    rw [List.findSome?_cons, List.findSome?_cons]
    cases hf : f a with
    | none =>
      rw [rel_none (h a) hf]
      exact ih
    | some b =>
      obtain ⟨c, hg, hbc⟩ := rel_some (h a) hf
      rw [hg]
      exact .some hbc

end Related

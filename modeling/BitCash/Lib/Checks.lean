import Mathlib.Algebra.BigOperators.Group.List.Basic
import Mathlib.Algebra.Ring.Int.Defs

/-!
# Checks that stop at the first failure

Every routine gets its inversion lemma from `bind_ok`, `need_ok`, `each_ok`, and the facts about loops come from
`run_append`, `run_split`, `run_inv`, `run_rel`, `run_sim`, `run_sum_rel` and `run_sum_ok`.
-/

namespace Checks
open List

variable {ε α β σ τ : Type}

/-- a rule: go on, or stop with `e` -/
def need (c : Bool) (e : ε) : Except ε Unit :=
  if c then .ok () else .error e

/-- check every element, in order -/
def each (f : α → Except ε Unit) : List α → Except ε Unit
  | [] => .ok ()
  | a :: l => f a >>= fun _ => each f l

/-- a loop with an accumulator -/
def run (step : σ → α → Except ε σ) : σ → List α → Except ε σ
  | s, [] => .ok s
  | s, a :: l => step s a >>= fun s' => run step s' l

/-- the results of a routine on every element, in order -/
def collect (f : α → Except ε β) : List α → Except ε (List β)
  | [] => .ok []
  | a :: l => f a >>= fun b => collect f l >>= fun m => .ok (b :: m)

/-! ## one step -/

@[simp] theorem ok_bind (a : α) (f : α → Except ε β) : (Except.ok a >>= f) = f a := rfl

@[simp] theorem error_bind (e : ε) (f : α → Except ε β) : (Except.error e >>= f) = .error e := rfl

@[simp] theorem pure_ok (a : α) : (pure a : Except ε α) = .ok a := rfl

variable {f : α → Except ε β} {x : Except ε α} {b : β} {c : Bool} {e : ε} {a : α} {u : Unit}

/-- **inversion of a sequence** -/
theorem bind_ok : (x >>= f) = .ok b ↔ ∃ a, x = .ok a ∧ f a = .ok b := by
  cases x with
  | error e => simp
  | ok a => simp

theorem bind_error : (x >>= f) = .error e ↔ x = .error e ∨ ∃ a, x = .ok a ∧ f a = .error e := by
  cases x with
  | error e' => simp
  | ok a => simp

theorem ok_of_toOption_map {f : α → β} (h : x.toOption.map f = some b) : ∃ a, x = .ok a ∧ f a = b := by
  cases x with
  | error e => cases h
  | ok a => exact ⟨a, rfl, Option.some.inj h⟩

/-- the value of a check, or another one where it fails -/
def valueOr (x : Except ε α) (a : α) : α :=
  match x with
  | .ok b => b
  | .error _ => a

theorem eq_valueOr (h : x.isOk) : x = .ok (valueOr x a) := by
  cases x with
  | error e => cases h
  | ok b => rfl

@[simp] theorem need_true (e : ε) : need true e = .ok () := rfl

@[simp] theorem need_false (e : ε) : need false e = .error e := rfl

@[simp] theorem need_ok : need c e = .ok u ↔ c := by
  cases c <;> simp

@[simp] theorem need_error {e' : ε} : need c e = .error e' ↔ c = false ∧ e = e' := by
  cases c <;> simp

theorem need_bind_ok {x : Except ε β} : (need c e >>= fun _ => x) = .ok b ↔ c ∧ x = .ok b := by
  cases c <;> simp

/-- two routines stop with the same error, or return related values -/
inductive Agree (R : α → β → Prop) : Except ε α → Except ε β → Prop
  | error (e : ε) : Agree R (.error e) (.error e)
  | ok {a : α} {b : β} (h : R a b) : Agree R (.ok a) (.ok b)

theorem Agree.refl (x : Except ε α) : Agree Eq x x := by
  cases x with
  | error e => exact .error e
  | ok a => exact .ok rfl

variable {R : α → β → Prop}

theorem Agree.bind {S : σ → τ → Prop} {y : Except ε β} {f : α → Except ε σ} {g : β → Except ε τ} (h : Agree R x y)
    (hfg : ∀ a b, R a b → Agree S (f a) (g b)) : Agree S (x >>= f) (y >>= g) := by
  cases h with
  | error e => exact .error e
  | ok hab => exact hfg _ _ hab

/-! ## loops -/

@[simp] theorem each_nil (f : α → Except ε Unit) : each f [] = .ok () := rfl

theorem each_cons (f : α → Except ε Unit) (a : α) (l : List α) : each f (a :: l) = (f a >>= fun _ => each f l) := rfl

variable {l : List α}

theorem each_ok {f : α → Except ε Unit} : each f l = .ok u ↔ ∀ a ∈ l, f a = .ok () := by
  induction l with
  | nil => simp
  | cons a l ih =>
    rw [each_cons, bind_ok]
    constructor
    · rintro ⟨_, ha, hl⟩ b hb
      rcases mem_cons.1 hb with rfl | hb
      · exact ha
      · exact ih.1 hl b hb
    · intro h
      exact ⟨(), h a (by simp), ih.2 fun b hb => h b (by simp [hb])⟩

variable {m : List β}

/-- **the results**, element by element -/
theorem collect_ok : collect f l = .ok m ↔ List.Forall₂ (fun a b => f a = .ok b) l m := by
  induction l generalizing m with
  | nil =>
    rw [forall₂_nil_left_iff]
    exact ⟨fun h => (Except.ok.inj h).symm, fun h => h ▸ rfl⟩
  | cons a l ih =>
    simp only [collect, bind_ok, forall₂_cons_left_iff]
    constructor
    · rintro ⟨b, hb, m', hm, h⟩
      cases h
      exact ⟨b, m', hb, ih.1 hm, rfl⟩
    · rintro ⟨b, m', hb, hm, rfl⟩
      exact ⟨b, hb, m', ih.2 hm, rfl⟩

theorem collect_exists (h : ∀ a ∈ l, ∃ b, f a = .ok b) : ∃ m, collect f l = .ok m := by
  induction l with
  | nil => exact ⟨[], rfl⟩
  | cons a l ih =>
    obtain ⟨b, hb⟩ := h a (by simp)
    obtain ⟨m, hm⟩ := ih fun c hc => h c (by simp [hc])
    exact ⟨b :: m, by rw [collect, hb, ok_bind, hm, ok_bind]⟩

theorem forall₂_map_eq {f : α → σ} {g : β → σ}
    (hlm : List.Forall₂ R l m) (h : ∀ a b, R a b → g b = f a) : m.map g = l.map f := by
  induction hlm with
  | nil => rfl
  | cons hab _ ih => rw [map_cons, map_cons, h _ _ hab, ih]

theorem forall₂_mem_right (hlm : List.Forall₂ R l m) (hb : b ∈ m) : ∃ a ∈ l, R a b := by
  induction hlm with
  | nil => cases hb
  | cons hab _ ih =>
    rcases mem_cons.1 hb with rfl | hb
    · exact ⟨_, by simp, hab⟩
    · obtain ⟨a, ha, hr⟩ := ih hb
      exact ⟨a, by simp [ha], hr⟩

theorem forall₂_forall_iff {P : β → Prop} {Q : α → Prop}
    (hlm : List.Forall₂ R l m) (h : ∀ a b, a ∈ l → R a b → (P b ↔ Q a)) : (∀ b ∈ m, P b) ↔ ∀ a ∈ l, Q a := by
  induction hlm with
  | nil => simp
  | cons hab _ ih =>
    rw [forall_mem_cons, forall_mem_cons, h _ _ (by simp) hab, ih fun a b ha => h a b (by simp [ha])]

theorem collect_of_forall {g : α → β} (h : ∀ a ∈ l, f a = .ok (g a)) : collect f l = .ok (l.map g) := by
  induction l with
  | nil => rfl
  | cons a l ih =>
    rw [collect, h a (by simp), ok_bind, ih fun b hb => h b (by simp [hb]), ok_bind, map_cons]

theorem collect_congr {g : α → Except ε β} (h : ∀ a ∈ l, f a = g a) : collect f l = collect g l := by
  induction l with
  | nil => rfl
  | cons a l ih =>
    rw [collect, collect, h a (by simp), ih fun b hb => h b (by simp [hb])]

@[simp] theorem run_nil (step : σ → α → Except ε σ) (s : σ) : run step s [] = .ok s := rfl

theorem run_cons (step : σ → α → Except ε σ) (s : σ) (a : α) (l : List α) :
    run step s (a :: l) = (step s a >>= fun s' => run step s' l) := rfl

variable {step : σ → α → Except ε σ} {s t s' : σ}

theorem run_cons_ok : run step s (a :: l) = .ok t ↔ ∃ s', step s a = .ok s' ∧ run step s' l = .ok t := by
  rw [run_cons, bind_ok]

theorem run_append (step : σ → α → Except ε σ) (s : σ) (l m : List α) :
    run step s (l ++ m) = (run step s l >>= fun s' => run step s' m) := by
  induction l generalizing s with
  | nil => rfl
  | cons a l ih =>
    rw [cons_append, run_cons, run_cons]
    cases step s a with
    | error e => rfl
    | ok s' => exact ih s'

theorem run_split {m : List α} (h : run step s (l ++ a :: m) = .ok t) :
    ∃ s₁ s₂, run step s l = .ok s₁ ∧ step s₁ a = .ok s₂ ∧ run step s₂ m = .ok t := by
  rw [run_append, bind_ok] at h
  obtain ⟨s₁, hl, h⟩ := h
  obtain ⟨s₂, ha, hm⟩ := run_cons_ok.1 h
  exact ⟨s₁, s₂, hl, ha, hm⟩

/-- **invariant rule**: what every step keeps, the loop keeps -/
theorem run_inv (I : σ → Prop) (hstep : ∀ s a s', a ∈ l → I s → step s a = .ok s' → I s') (hs : I s)
    (h : run step s l = .ok t) : I t := by
  induction l generalizing s with
  | nil => rw [run_nil] at h; cases h; exact hs
  | cons a l ih =>
    obtain ⟨s', ha, hl⟩ := run_cons_ok.1 h
    exact ih (fun s b s' hb => hstep s b s' (by simp [hb])) (hstep s a s' (by simp) hs ha) hl

/-- **two loops in step**: a relation that paired steps keep holds at the two ends -/
theorem run_rel {step' : τ → β → Except ε τ} (R : σ → τ → Prop) (P : α → β → Prop)
    (hstep : ∀ s t a b s' t', R s t → P a b → step s a = .ok s' → step' t b = .ok t' → R s' t')
    (hlm : List.Forall₂ P l m) {t t' : τ} (hst : R s t)
    (h : run step s l = .ok s') (h' : run step' t m = .ok t') : R s' t' := by
  induction hlm generalizing s t with
  | nil =>
    rw [run_nil] at h h'
    cases h; cases h'; exact hst
  | cons hab _ ih =>
    obtain ⟨s₁, ha, hl⟩ := run_cons_ok.1 h
    obtain ⟨t₁, hb, hm⟩ := run_cons_ok.1 h'
    exact ih (hstep _ _ _ _ _ _ hst hab ha hb) hl hm

/-- **simulation**: where every step of the first loop is matched by the second, the second loop goes
through when the first does -/
theorem run_sim {step' : τ → α → Except ε τ} (R : σ → τ → Prop)
    (hstep : ∀ s t a s', a ∈ l → R s t → step s a = .ok s' → ∃ t', step' t a = .ok t' ∧ R s' t') {t : τ}
    (hst : R s t) (h : run step s l = .ok s') : ∃ t', run step' t l = .ok t' ∧ R s' t' := by
  induction l generalizing s t with
  | nil =>
    cases h
    exact ⟨t, rfl, hst⟩
  | cons a l ih =>
    obtain ⟨s₁, ha, hl⟩ := run_cons_ok.1 h
    obtain ⟨t₁, hb, hst₁⟩ := hstep s t a s₁ (by simp) hst ha
    obtain ⟨t', hm, hst'⟩ := ih (fun s t b s' hb => hstep s t b s' (by simp [hb])) hst₁ hl
    exact ⟨t', run_cons_ok.2 ⟨t₁, hb, hm⟩, hst'⟩

/-- **a sum along a loop**: where every round of a loop adds a number to a total, the loop adds their
sum -/
theorem run_sum_rel {R : α → Int → Prop} (total : σ → Int) (I : σ → Prop)
    (hstep : ∀ s a t, a ∈ l → I s → step s a = .ok t → I t ∧ ∃ x, R a x ∧ total t = total s + x) (hs : I s)
    (h : run step s l = .ok t) : ∃ xs, List.Forall₂ R l xs ∧ total t = total s + xs.sum := by
  induction l generalizing s with
  | nil =>
    cases h
    exact ⟨[], .nil, by simp⟩
  | cons a l ih =>
    obtain ⟨s', ha, hl⟩ := run_cons_ok.1 h
    obtain ⟨hs', x, hx, hx'⟩ := hstep s a s' (by simp) hs ha
    obtain ⟨xs, hxs, hsum⟩ := ih (fun s b t hb => hstep s b t (by simp [hb])) hs' hl
    exact ⟨x :: xs, .cons hx hxs, by rw [hsum, hx', sum_cons, add_assoc]⟩

/-- **a checked sum**: a loop that adds up `f`, where each element must satisfy `P` and each running
total `Q`, goes through exactly when all elements and all running totals do -/
theorem run_sum_ok {step : Int → α → Except ε Int} {f : α → Int} {P : α → Prop} {Q : Int → Prop}
    (hstep : ∀ s a s', step s a = .ok s' ↔ P a ∧ Q (s + f a) ∧ s' = s + f a) {s t : Int} :
    run step s l = .ok t ↔ (∀ a ∈ l, P a) ∧
      (∀ p, p <+: l → p ≠ [] → Q (s + (p.map f).sum)) ∧ t = s + (l.map f).sum := by
  induction l generalizing s with
  | nil => simp [eq_comm]
  | cons a l ih =>
    rw [run_cons_ok]
    constructor
    · rintro ⟨s', ha, hl⟩
      obtain ⟨hP, hQ, rfl⟩ := (hstep s a s').1 ha
      obtain ⟨hPl, hQl, rfl⟩ := ih.1 hl
      refine ⟨?_, ?_, by simp [add_assoc]⟩
      · simpa [hP] using hPl
      · intro p hp hne
        cases p with
        | nil => exact absurd rfl hne
        | cons b p =>
          obtain ⟨rfl, hpl⟩ := cons_prefix_cons.1 hp
          by_cases hnil : p = []
          · simpa [hnil] using hQ
          · have := hQl p hpl hnil
            simpa [add_assoc] using this
    · rintro ⟨hP, hQ, rfl⟩
      have hQa : Q (s + f a) := by
        simpa using hQ [a] (cons_prefix_cons.2 ⟨rfl, nil_prefix⟩) (by simp)
      refine ⟨s + f a, (hstep s a _).2 ⟨hP a (by simp), hQa, rfl⟩, ih.2 ⟨?_, ?_, ?_⟩⟩
      · exact fun b hb => hP b (by simp [hb])
      · intro p hp _
        have := hQ (a :: p) (cons_prefix_cons.2 ⟨rfl, hp⟩) (by simp)
        simpa [add_assoc] using this
      · simp [add_assoc]

end Checks

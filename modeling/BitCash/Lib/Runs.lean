import Mathlib.Data.List.Chain

/-!
# Runs of a step relation

A run is a first state and the states after it, each one step after the one before. `run_keeps` is the invariant
rule.
-/

namespace Runs
open List

variable {σ : Type} {step clean : σ → σ → Prop} {s t : σ} {l : List σ}

/-- the states `l` follow `s`, one step after the other -/
def IsRun (step : σ → σ → Prop) (s : σ) (l : List σ) : Prop := (s :: l).IsChain step

@[simp] theorem isRun_nil : IsRun step s [] := .singleton s

@[simp] theorem isRun_cons : IsRun step s (t :: l) ↔ step s t ∧ IsRun step t l := isChain_cons_cons

/-- **what every step keeps holds at every point** -/
theorem run_keeps {J : σ → Prop} (hstep : ∀ s t, J s → step s t → J t) (h : IsRun step s l)
    (hs : J s) : ∀ t ∈ s :: l, J t := by
  induction l generalizing s with
  | nil =>
    intro t ht
    rwa [mem_singleton.1 ht]
  | cons u l ih =>
    obtain ⟨hsu, hl⟩ := isRun_cons.1 h
    intro t ht
    rcases mem_cons.1 ht with rfl | ht
    · exact hs
    · exact ih hl (hstep s u hs hsu) t ht

/-- **what the clean steps keep, and no other step, holds at every point exactly when all steps are
clean**; `J` may lean on the property -/
theorem points_iff {I J : σ → Prop} (hJ : ∀ s t, J s → I s → step s t → J t)
    (hI : ∀ s t, J s → I s → step s t → (I t ↔ clean s t)) (h : IsRun step s l) (hs : J s)
    (hi : I s) : (∀ t ∈ s :: l, I t) ↔ IsRun clean s l := by
  induction l generalizing s with
  | nil => simp [hi]
  | cons u l ih =>
    obtain ⟨hsu, hl⟩ := isRun_cons.1 h
    have hstep := hI s u hs hi hsu
    rw [isRun_cons, forall_mem_cons]
    constructor
    · rintro ⟨-, hpoints⟩
      have hu : I u := hpoints u mem_cons_self
      exact ⟨hstep.1 hu, (ih hl (hJ s u hs hi hsu) hu).1 hpoints⟩
    · rintro ⟨hclean, hrest⟩
      exact ⟨hi, (ih hl (hJ s u hs hi hsu) (hstep.2 hclean)).2 hrest⟩

end Runs

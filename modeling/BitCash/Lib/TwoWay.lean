import BitCash.Lib.Codec

/-!
# One routine for reading and writing

A serialisation routine of a class is written once, for an `Operation`: `readWrite` writes a field and leaves it, or
reads it; what the routine assigns besides is done in both directions.
-/

namespace TwoWay
open Codec List

variable {ε α β γ δ K : Type} {l : List α}

/-! ## routines -/

def Writer (α : Type) := α × List UInt8

instance : Monad Writer where
  pure a := (a, [])
  bind w f := ((f w.1).1, w.2 ++ (f w.1).2)

@[simp] theorem pure_fst (a : α) : (pure a : Writer α).1 = a := rfl

@[simp] theorem pure_snd (a : α) : (pure a : Writer α).2 = [] := rfl

@[simp] theorem bind_fst (w : Writer α) (f : α → Writer β) : (w >>= f).1 = (f w.1).1 := rfl

@[simp] theorem bind_snd (w : Writer α) (f : α → Writer β) : (w >>= f).2 = w.2 ++ (f w.1).2 := rfl

/-- some bytes -/
def tell (b : List UInt8) : Writer Unit := ((), b)

@[simp] theorem tell_snd (b : List UInt8) : (tell b).2 = b := rfl

/-- how the values of a type are written and read -/
structure Field (ε α : Type) where
  write : α → List UInt8
  read : Reader ε α

structure Operation (ε : Type) (m : Type → Type) (K : Type) where
  forRead : Bool
  readWrite : {α : Type} → Field ε α → α → m α
  /-- an object of `K` is written, or read into -/
  object : K → m K
  /-- an object as the constructor leaves it -/
  new : K

def writing (write : K → List UInt8) (new : K) : Operation ε Writer K where
  forRead := false
  readWrite f a := (a, f.write a)
  object k := (k, write k)
  new := new

def reading (read : K → Reader ε K) (new : K) : Operation ε (Reader ε) K where
  forRead := true
  readWrite f _ := f.read
  object := read
  new := new

/-- a routine for every item of a list -/
def each {m : Type → Type} [Monad m] (f : α → m β) : List α → m (List β)
  | [] => pure []
  | a :: l => do
    let b ← f a
    let k ← each f l
    pure (b :: k)

theorem each_fst (f : α → Writer β) (l : List α) : (each f l).1 = l.map fun a => (f a).1 := by
  induction l with
  | nil => rfl
  | cons a l ih =>
    show (f a).1 :: (each f l).1 = (f a).1 :: l.map fun a => (f a).1
    rw [ih]

theorem each_snd (f : α → Writer β) (l : List α) : (each f l).2 = l.flatMap fun a => (f a).2 := by
  induction l with
  | nil => rfl
  | cons a l ih =>
    show (f a).2 ++ ((each f l).2 ++ []) = (f a).2 ++ l.flatMap fun a => (f a).2
    rw [ih, append_nil]

theorem ensures_each {f : α → Reader ε β} {P : α → Prop} {Q : β → Prop}
    (h : ∀ a, P a → Ensures (f a) Q) (hl : ∀ a ∈ l, P a) : Ensures (each f l) fun k => ∀ b ∈ k, Q b := by
  induction l with
  | nil => exact ensures_pure fun b hb => nomatch hb
  | cons a l ih =>
    refine (h a (hl a mem_cons_self)).bind fun b hb => ?_
    refine (ih fun c hc => hl c (mem_cons_of_mem a hc)).bind fun k hk => ?_
    refine ensures_pure fun c hc => ?_
    rcases mem_cons.1 hc with rfl | hc
    · exact hb
    · exact hk c hc

/-! ## two readers -/

def Sim (R : α → β → Prop) (r : Reader ε α) (r' : Reader ε β) : Prop :=
  ∀ s, (∃ e, r s = .error e ∧ r' s = .error e) ∨
    ∃ a b t, r s = .ok (a, t) ∧ r' s = .ok (b, t) ∧ R a b

theorem Sim.refl (r : Reader ε α) : Sim Eq r r := by
  intro s
  cases h : r s with
  | error e => exact .inl ⟨e, rfl, rfl⟩
  | ok p => exact .inr ⟨p.1, p.1, p.2, rfl, rfl, rfl⟩

variable {R : α → β → Prop} {f : α → Reader ε γ} {g : β → Reader ε δ} {S : γ → δ → Prop}

theorem Sim.pure {a : α} {b : β} (h : R a b) : Sim R (pure a : Reader ε α) (pure b) :=
  fun s => .inr ⟨a, b, s, rfl, rfl, h⟩

theorem Sim.fail (R : α → β → Prop) (e : ε) : Sim R (fail e) (fail e) := fun _ => .inl ⟨e, rfl, rfl⟩

theorem Sim.bind {r : Reader ε α} {r' : Reader ε β} (h : Sim R r r')
    (hf : ∀ a b, R a b → Sim S (f a) (g b)) : Sim S (r >>= f) (r' >>= g) := by
  intro s
  rw [bind_eq, bind_eq]
  rcases h s with ⟨e, he, he'⟩ | ⟨a, b, t, ha, hb, hab⟩
  · rw [he, he']
    exact .inl ⟨e, rfl, rfl⟩
  · rw [ha, hb]
    exact hf a b hab t

theorem Sim.times {r : Nat → Reader ε α} {r' : Nat → Reader ε β} (h : ∀ i, Sim R (r i) (r' i)) (n i : Nat) :
    Sim (List.Forall₂ R) (times r n i) (times r' n i) := by
  induction n generalizing i with
  | zero => exact Sim.pure .nil
  | succ n ih =>
    refine (h i).bind fun a b hab => ?_
    refine (ih (i + 1)).bind fun l k hlk => ?_
    exact Sim.pure (.cons hab hlk)

theorem Sim.each (h : ∀ a b, R a b → Sim S (f a) (g b)) {k : List β} (hlk : List.Forall₂ R l k) :
    Sim (List.Forall₂ S) (each f l) (each g k) := by
  induction hlk with
  | nil => exact Sim.pure .nil
  | cons hab _ ih =>
    refine (h _ _ hab).bind fun c d hcd => ?_
    refine ih.bind fun m n hmn => ?_
    exact Sim.pure (.cons hcd hmn)

end TwoWay

import Mathlib.Algebra.Group.Nat.Defs
import Mathlib.Data.List.FinRange
import Mathlib.Logic.Function.Basic

/-!
# The cuckoo cache

`CuckooCache::cache` behind the signature and the script execution cache.
-/

namespace BitCash.CuckooCache
open Function List Nat

/-- `depthLimit` is the logarithm that `setup` takes in floating point -/
structure Cache (E : Type) where
  table : Nat → E
  size : Nat
  collectionFlags : Nat → Bool
  epochFlags : Nat → Bool
  epochHeuristicCounter : Nat
  epochSize : Nat
  depthLimit : Nat

variable {E : Type} {n : Nat}

def allowErase (n : Nat) (c : Cache E) : Cache E := { c with collectionFlags := update c.collectionFlags n true }

def pleaseKeep (n : Nat) (c : Cache E) : Cache E := { c with collectionFlags := update c.collectionFlags n false }

def epochCheck (c : Cache E) : Cache E :=
  if c.epochHeuristicCounter ≠ 0 then { c with epochHeuristicCounter := c.epochHeuristicCounter - 1 }
  else
    let epochUnusedCount := (List.range c.size).countP fun i => c.epochFlags i && !c.collectionFlags i
    if c.epochSize ≤ epochUnusedCount then
      { (List.range c.size).foldl (fun c i =>
          if c.epochFlags i then { c with epochFlags := update c.epochFlags i false }
          else allowErase i c) c with epochHeuristicCounter := c.epochSize }
    else { c with epochHeuristicCounter := max 1 (max (c.epochSize / 16) (c.epochSize - epochUnusedCount)) }

def setup [Inhabited E] (depthLimit newSize : Nat) : Cache E :=
  let size := max 2 newSize
  let epochSize := max 1 (45 * size % 2 ^ 32 / 100)
  { table := fun _ => default, size, collectionFlags := fun _ => true, epochFlags := fun _ => false
    epochHeuristicCounter := epochSize, epochSize, depthLimit }

def invalid : Nat := 2 ^ 32 - 1

section
variable (hash : Fin 8 → E → BitVec 32)

def computeHashes (size : Nat) (e : E) : List Nat :=
  (List.finRange 8).map fun i => ((hash i e).toNat * size) >>> 32 % 2 ^ 32

/-- the loop of `insert` with `depth` rounds left -/
def insertLoop : Nat → Cache E → E → Nat → Bool → Cache E
  | 0, c, _, _, _ => c
  | depth + 1, c, e, lastLoc, lastEpoch =>
    let locs := computeHashes hash c.size e
    match locs.find? c.collectionFlags with
    | some loc => pleaseKeep loc { c with
        table := update c.table loc e, epochFlags := update c.epochFlags loc lastEpoch }
    | none =>
      -- `std::find` answers `end` the first time, so the first swap is at `locs[1]`
      let loc := locs.getD ((1 + locs.idxOf lastLoc) &&& 7) 0
      insertLoop depth { c with table := update c.table loc e, epochFlags := update c.epochFlags loc lastEpoch }
        (c.table loc) loc (c.epochFlags loc)

variable [DecidableEq E]

def insert (c : Cache E) (e : E) : Cache E :=
  let c := epochCheck c
  match (computeHashes hash c.size e).find? fun loc => c.table loc = e with
  | some loc => pleaseKeep loc { c with epochFlags := update c.epochFlags loc true }
  | none => insertLoop hash c.depthLimit c e invalid true

def contains (c : Cache E) (e : E) (erase : Bool) : Bool × Cache E :=
  match (computeHashes hash c.size e).find? fun loc => c.table loc = e with
  | some loc => (true, if erase then allowErase loc c else c)
  | none => (false, c)

inductive Call (E : Type)
  | insert (e : E)
  | contains (e : E) (erase : Bool)

def step (c : Cache E) : Call E → Cache E
  | .insert e => insert hash c e
  | .contains e erase => (contains hash c e erase).2

def run (calls : List (Call E)) (c : Cache E) : Cache E := calls.foldl (step hash) c

end

/-! ## positions -/

section
variable {hash : Fin 8 → E → BitVec 32} {e : E} {loc size : Nat}

theorem computeHashes_lt (hsize : 0 < size) (h : loc ∈ computeHashes hash size e) : loc < size := by
  obtain ⟨i, -, rfl⟩ := mem_map.1 h
  refine (mod_le _ _).trans_lt ?_
  rw [shiftRight_eq_div_pow]
  exact Nat.div_lt_of_lt_mul (Nat.mul_lt_mul_of_pos_right (hash i e).isLt hsize)

theorem getD_mem (hash : Fin 8 → E → BitVec 32) (size : Nat) (e : E) (i : Nat) :
    (computeHashes hash size e).getD (i &&& 7) 0 ∈ computeHashes hash size e := by
  have hi : i &&& 7 < (computeHashes hash size e).length := by
    rw [computeHashes, length_map, length_finRange]
    exact lt_succ_of_le and_le_right
  rw [← getElem_eq_getD (h := hi)]
  exact getElem_mem hi

end

/-- only flags differ, and no slot is kept that was to be collected -/
structure Aged (c c' : Cache E) : Prop where
  table : c'.table = c.table
  size : c'.size = c.size
  flags : ∀ i, c'.collectionFlags i = false → c.collectionFlags i = false

theorem allowErase_flags {c : Cache E} : (allowErase n c).collectionFlags = update c.collectionFlags n true := rfl

theorem pleaseKeep_flags {c : Cache E} : (pleaseKeep n c).collectionFlags = update c.collectionFlags n false := rfl

theorem Aged.refl (c : Cache E) : Aged c c := ⟨rfl, rfl, fun _ h => h⟩

theorem Aged.allowErase {c d : Cache E} (h : Aged c d) (n : Nat) : Aged c (allowErase n d) := by
  refine ⟨h.table, h.size, fun i hi => h.flags i ?_⟩
  by_cases hn : i = n
  · subst hn
    rw [allowErase_flags, update_self] at hi
    exact absurd hi.symm Bool.false_ne_true
  · rwa [allowErase_flags, update_of_ne hn] at hi

theorem epochCheck_aged (c : Cache E) : Aged c (epochCheck c) := by
  have hfold : ∀ (l : List Nat) (d : Cache E), Aged c d → Aged c (l.foldl (fun c i =>
      if c.epochFlags i then { c with epochFlags := update c.epochFlags i false } else allowErase i c) d) := by
    intro l
    induction l with
    | nil => exact fun d hd => hd
    | cons i l ih =>
      intro d hd
      rw [foldl_cons]
      refine ih _ ?_
      split
      · exact ⟨hd.table, hd.size, hd.flags⟩
      · exact hd.allowErase i
  have h := hfold (range c.size) c (.refl c)
  unfold epochCheck
  dsimp only
  split
  · exact ⟨rfl, rfl, fun _ h => h⟩
  · split
    · exact ⟨h.table, h.size, h.flags⟩
    · exact ⟨rfl, rfl, fun _ h => h⟩

variable {hash : Fin 8 → E → BitVec 32} {c c' : Cache E} {e : E} {loc : Nat}

/-- `e` is at one of its positions -/
def Stored (hash : Fin 8 → E → BitVec 32) (c : Cache E) (e : E) : Prop :=
  ∃ loc ∈ computeHashes hash c.size e, c.table loc = e

theorem Aged.stored (h : Aged c c') : Stored hash c' e ↔ Stored hash c e := by
  rw [Stored, Stored, h.table, h.size]

theorem stored_write (hloc : loc ∈ computeHashes hash c.size e) (ht : c'.table = update c.table loc e)
    (hs : c'.size = c.size) {y : E} (hy : Stored hash c y ∨ y = e) : y = c.table loc ∨ Stored hash c' y := by
  rw [Stored, hs, ht]
  rcases hy with ⟨i, hi, rfl⟩ | rfl
  · by_cases h : i = loc
    · exact .inl (by rw [h])
    · exact .inr ⟨i, hi, update_of_ne h _ _⟩
  · exact .inr ⟨loc, hloc, update_self ..⟩

theorem source_write (ht : c'.table = update c.table loc e) (i : Nat) :
    c'.table i = e ∨ ∃ j, c'.table i = c.table j := by
  rw [ht]
  by_cases h : i = loc
  · subst h
    exact .inl (update_self ..)
  · exact .inr ⟨i, update_of_ne h _ _⟩

section
variable [DecidableEq E]

theorem contains_iff {erase : Bool} : (contains hash c e erase).1 = true ↔ Stored hash c e := by
  unfold contains
  cases hfind : (computeHashes hash c.size e).find? fun loc => c.table loc = e with
  | some loc =>
    have heq := find?_some hfind
    exact iff_of_true rfl ⟨loc, mem_of_find?_eq_some hfind, of_decide_eq_true heq⟩
  | none =>
    refine iff_of_false Bool.false_ne_true fun ⟨loc, hloc, heq⟩ => ?_
    exact find?_eq_none.1 hfind loc hloc (decide_eq_true heq)

theorem contains_aged (erase : Bool) : Aged c (contains hash c e erase).2 := by
  unfold contains
  split
  · dsimp only
    split
    · exact (Aged.refl c).allowErase _
    · exact .refl c
  · exact .refl c

end

variable [Inhabited E]

/-- every element sits at a position of its own, and a slot that is not to be collected is in use -/
structure Placed (hash : Fin 8 → E → BitVec 32) (c : Cache E) : Prop where
  pos : 0 < c.size
  own : ∀ i, c.table i ≠ default → i ∈ computeHashes hash c.size (c.table i)
  kept : ∀ i, c.collectionFlags i = false → c.table i ≠ default

theorem Placed.aged (hc : Placed hash c) (h : Aged c c') : Placed hash c' where
  pos := h.size ▸ hc.pos
  own := by rw [h.table, h.size]; exact hc.own
  kept i hi := by rw [h.table]; exact hc.kept i (h.flags i hi)

theorem Placed.write (hc : Placed hash c) (he : e ≠ default) (hloc : loc ∈ computeHashes hash c.size e)
    (ht : c'.table = update c.table loc e) (hs : c'.size = c.size)
    (hflags : ∀ i, i ≠ loc → c'.collectionFlags i = false → c.collectionFlags i = false) : Placed hash c' where
  pos := hs ▸ hc.pos
  own i hne := by
    rw [ht] at hne
    rw [ht, hs]
    by_cases h : i = loc
    · subst h
      rwa [update_self]
    · rw [update_of_ne h] at hne ⊢
      exact hc.own i hne
  kept i hi := by
    rw [ht]
    by_cases h : i = loc
    · subst h
      rwa [update_self]
    · rw [update_of_ne h]
      exact hc.kept i (hflags i h hi)

/-! ## insertion -/

/-- an insertion of `e` invents nothing and loses at most one element -/
structure Inserted (hash : Fin 8 → E → BitVec 32) (c : Cache E) (e : E) (c' : Cache E) : Prop where
  placed : Placed hash c'
  source : ∀ i, c'.table i = e ∨ ∃ j, c'.table i = c.table j
  lost : ∃ x, ∀ y, Stored hash c y ∨ y = e → y = x ∨ Stored hash c' y

theorem insertLoop_inserted (depth lastLoc : Nat) (lastEpoch : Bool) (hc : Placed hash c) (he : e ≠ default) :
    Inserted hash c e (insertLoop hash depth c e lastLoc lastEpoch) := by
  induction depth generalizing c e lastLoc lastEpoch with
  | zero =>
    -- the element in hand is dropped
    exact ⟨hc, fun i => .inr ⟨i, rfl⟩, e, fun y hy => hy.symm⟩
  | succ depth ih =>
    unfold insertLoop
    dsimp only
    split
    · next loc hfind =>
      have hloc := mem_of_find?_eq_some hfind
      refine ⟨hc.write he hloc rfl rfl fun i hi h => ?_, ?_, c.table loc, ?_⟩
      · rwa [pleaseKeep_flags, update_of_ne hi] at h
      · exact source_write rfl
      · exact fun y => stored_write hloc (by rfl) (by rfl)
    · next hfind =>
      -- all positions are in use: `e` takes one, and the element found there is next
      have hloc := getD_mem hash c.size e (1 + (computeHashes hash c.size e).idxOf lastLoc)
      generalize (computeHashes hash c.size e).getD _ 0 = loc at hloc ⊢
      have hused : c.table loc ≠ default := hc.kept loc (Bool.eq_false_iff.2 (find?_eq_none.1 hfind loc hloc))
      have hswap : Placed hash { c with
          table := update c.table loc e, epochFlags := update c.epochFlags loc lastEpoch } :=
        hc.write he hloc rfl rfl fun _ _ h => h
      obtain ⟨hplaced, hsource, x, hlost⟩ := ih loc (c.epochFlags loc) hswap hused
      refine ⟨hplaced, fun i => ?_, x, fun y hy => ?_⟩
      · rcases hsource i with h | ⟨j, h⟩
        · exact .inr ⟨loc, h⟩
        · rw [h]
          exact source_write rfl j
      · exact hlost y (stored_write hloc (by rfl) (by rfl) hy).symm

theorem setup_placed (hash : Fin 8 → E → BitVec 32)
    (depthLimit newSize : Nat) : Placed hash (setup depthLimit newSize) :=
  ⟨Nat.lt_of_lt_of_le Nat.two_pos (Nat.le_max_left ..), fun _ h => absurd rfl h,
    fun _ h => absurd h.symm Bool.false_ne_true⟩

variable [DecidableEq E]

theorem insert_inserted (hc : Placed hash c) (he : e ≠ default) : Inserted hash c e (insert hash c e) := by
  have haged := epochCheck_aged c
  have hplaced := hc.aged haged
  unfold insert
  dsimp only
  split
  · next loc hfind =>
    have heq : (epochCheck c).table loc = e := of_decide_eq_true (find?_some hfind :)
    refine ⟨hplaced.write he (mem_of_find?_eq_some hfind) ?_ rfl fun i hi h => ?_, fun i => .inr ⟨i, ?_⟩, e,
      fun y hy => ?_⟩
    · rw [← heq, update_eq_self]
      rfl
    · rwa [pleaseKeep_flags, update_of_ne hi] at h
    · exact congrFun haged.table i
    · exact hy.symm.imp_right haged.stored.2
  · obtain ⟨hplaced, hsource, x, hlost⟩ := insertLoop_inserted (epochCheck c).depthLimit invalid true hplaced he
    refine ⟨hplaced, ?_, x, fun y hy => hlost y (hy.imp_left haged.stored.2)⟩
    rwa [haged.table] at hsource

/-! ## runs -/

theorem run_placed {P : E → Prop} (calls : List (Call E)) (hcalls : ∀ e, .insert e ∈ calls → e ≠ default ∧ P e)
    (hc : Placed hash c) (hP : ∀ i, c.table i ≠ default → P (c.table i)) :
    Placed hash (run hash calls c) ∧ ∀ i, (run hash calls c).table i ≠ default → P ((run hash calls c).table i) := by
  induction calls generalizing c with
  | nil => exact ⟨hc, hP⟩
  | cons call calls ih =>
    refine ih (fun e h => hcalls e (mem_cons_of_mem _ h)) ?_ ?_
    · cases call with
      | insert e => exact (insert_inserted hc (hcalls e mem_cons_self).1).placed
      | contains e erase => exact hc.aged (contains_aged erase)
    · cases call with
      | insert e =>
        intro i hne
        rcases (insert_inserted hc (hcalls e mem_cons_self).1).source i with h | ⟨j, h⟩
        · rw [step, h]
          exact (hcalls e mem_cons_self).2
        · rw [step, h] at hne ⊢
          exact hP j hne
      | contains e erase =>
        rw [step, (contains_aged erase).table]
        exact hP

/-- **the cache invents nothing and loses at most one element for each insertion** -/
theorem cache_never_invents (depthLimit newSize : Nat) (calls : List (Call E))
    (hcalls : ∀ e, .insert e ∈ calls → e ≠ default) :
    let c := run hash calls (setup depthLimit newSize)
    (∀ e erase, e ≠ default → (contains hash c e erase).1 = true → .insert e ∈ calls) ∧
    (∀ i, c.table i ≠ default → i < c.size ∧ i ∈ computeHashes hash c.size (c.table i)) ∧
    ∀ e, e ≠ default → ∃ x, ∀ y, (contains hash c y false).1 = true ∨ y = e →
      (contains hash (insert hash c e) y false).1 = false → y = x := by
  obtain ⟨hplaced, hcalled⟩ := run_placed (P := fun e => Call.insert e ∈ calls) calls
    (fun e h => ⟨hcalls e h, h⟩) (setup_placed hash depthLimit newSize) fun i h => absurd rfl h
  refine ⟨fun e erase he h => ?_, fun i hi => ⟨computeHashes_lt hplaced.pos (hplaced.own i hi), hplaced.own i hi⟩,
    fun e he => ?_⟩
  · obtain ⟨loc, -, heq⟩ := contains_iff.1 h
    exact heq ▸ hcalled loc (heq ▸ he)
  · obtain ⟨x, hlost⟩ := (insert_inserted hplaced he).lost
    refine ⟨x, fun y hy hfalse => (hlost y (hy.imp_left contains_iff.1)).resolve_right fun h => ?_⟩
    exact Bool.false_ne_true (hfalse.symm.trans (contains_iff.2 h))

theorem cache_never_invents_pair :
    let hash : Fin 8 → Nat → BitVec 32 := fun _ _ => 0
    let c := run hash [.insert 7] (setup 1 2)
    (contains hash c 7 false).1 = true ∧ (contains hash (insert hash c 8) 7 false).1 = false ∧
      (contains hash (insert hash c 8) 8 false).1 = true ∧
      ∃ x, ∀ y, (contains hash c y false).1 = true ∨ y = 8 →
        (contains hash (insert hash c 8) y false).1 = false → y = x :=
  ⟨rfl, rfl, rfl, (cache_never_invents 1 2 [.insert 7] fun e h => by
    obtain rfl : e = 7 := by simpa using h
    decide).2.2 8 (by decide)⟩

end BitCash.CuckooCache

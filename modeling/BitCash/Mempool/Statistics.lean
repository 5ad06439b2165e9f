import BitCash.Lib.Kin
import BitCash.Mempool.Tracked

/-!
# What the updates do to the statistics

Closed forms of the loops of the pool: a loop over entries adds to their statistics (`gain`), or adds or takes one
link.
-/

set_option linter.unusedSectionVars false

namespace BitCash
open Kin Relation Walk List Function EntryState Pi TrackedEntry

variable {H : Type} [Inhabited H] [DecidableEq H] {T : TrackEnv H} {pool pool' : Tracked H} {x y r : H} {s : List H}
  {add : Bool}

theorem DescendantState.mk_add (a b c a' b' c' : Int) :
    (⟨a, b, c⟩ + ⟨a', b', c'⟩ : DescendantState) = ⟨a + a', b + b', c + c'⟩ := rfl

theorem AncestorState.mk_add (a b c d a' b' c' d' : Int) :
    (⟨a, b, c, d⟩ + ⟨a', b', c', d'⟩ : AncestorState) = ⟨a + a', b + b', c + c', d + d'⟩ := rfl

namespace Tracked

/-! ## loops -/

/-- add to the statistics of every entry -/
def gain (D : H → DescendantState) (A : H → AncestorState) (pool : Tracked H) : Tracked H :=
  { pool with state := fun x => ((pool.state x).updateDescendantState (D x)).updateAncestorState (A x) }

theorem gain_zero (pool : Tracked H) : pool.gain 0 0 = pool := by
  simp [gain, updateDescendantState, updateAncestorState]

theorem gain_gain (D D' : H → DescendantState) (A A' : H → AncestorState) :
    (pool.gain D A).gain D' A' = pool.gain (D + D') (A + A') := by
  simp [gain, updateDescendantState, updateAncestorState, add_assoc]

theorem modifyDescendants_eq (d : DescendantState) (hash : H) :
    pool.modifyDescendants d hash = pool.gain (single hash d) 0 := by
  unfold modifyDescendants gain
  congr 1
  funext x
  by_cases hx : x = hash
  · subst hx
    simp [updateAncestorState]
  · simp [hx, updateAncestorState, updateDescendantState]

theorem modifyAncestors_eq (d : AncestorState) (hash : H) :
    pool.modifyAncestors d hash = pool.gain 0 (single hash d) := by
  unfold modifyAncestors gain
  congr 1
  funext x
  by_cases hx : x = hash
  · subst hx
    simp [updateDescendantState]
  · simp [hx, updateAncestorState, updateDescendantState]

variable {l : List H}

theorem sum_single {M : Type} [AddCommGroup M] (hl : l.Nodup) (d : M) :
    (l.map fun x => (single x d : H → M)).sum = fun y => if y ∈ l then d else 0 := by
  induction l with
  | nil =>
    funext y
    simp
  | cons x l ih =>
    obtain ⟨hx, hl⟩ := nodup_cons.1 hl
    rw [map_cons, sum_cons, ih hl]
    funext y
    by_cases hy : y = x
    · subst hy
      simp [hx]
    · simp [hy]

theorem foldl_gain {step : Tracked H → H → Tracked H} {D : H → H → DescendantState}
    {A : H → H → AncestorState} (hstep : ∀ pool x, step pool x = pool.gain (D x) (A x)) (l : List H) :
    l.foldl step pool = pool.gain (l.map D).sum (l.map A).sum := by
  induction l generalizing pool with
  | nil => exact (gain_zero pool).symm
  | cons x l ih => rw [foldl_cons, ih, hstep, gain_gain, map_cons, map_cons, sum_cons, sum_cons]

theorem foldl_modifyDescendants (hl : l.Nodup) (d : DescendantState) :
    l.foldl (modifyDescendants d) pool = pool.gain (fun x => if x ∈ l then d else 0) 0 := by
  rw [foldl_gain (fun pool x => modifyDescendants_eq d x) l, sum_single hl, map_const', sum_replicate, nsmul_zero]

theorem foldl_modifyAncestors (hl : l.Nodup) (d : AncestorState) :
    l.foldl (modifyAncestors d) pool = pool.gain 0 fun x => if x ∈ l then d else 0 := by
  rw [foldl_gain (fun pool x => modifyAncestors_eq d x) l, sum_single hl, map_const', sum_replicate, nsmul_zero]

@[simp] theorem mem_changeSet_true : y ∈ changeSet true x l ↔ y ∈ l ∨ y = x := by
  unfold changeSet
  by_cases hx : x ∈ l
  · rw [if_pos rfl, if_pos hx]
    exact ⟨.inl, fun h => h.elim id fun h => h ▸ hx⟩
  · rw [if_pos rfl, if_neg hx, mem_append, mem_singleton]

theorem changeSet_nodup (hl : l.Nodup) : (changeSet add x l).Nodup := by
  unfold changeSet
  split
  · split
    · exact hl
    · next hx =>
      refine hl.append (nodup_singleton x) ?_
      intro y hy hyx
      exact hx (mem_singleton.1 hyx ▸ hy)
  · exact hl.filter _

theorem changeSet_of_mem (hx : x ∈ l) : changeSet true x l = l := by
  simp [changeSet, hx]

theorem changeSet_changeSet (add : Bool) (x : H) (l : List H) :
    changeSet add x (changeSet add x l) = changeSet add x l := by
  cases add with
  | true => exact changeSet_of_mem (mem_changeSet_true.2 (.inr rfl))
  | false => simp [changeSet]

def mapChildren (f : H → List H → List H) (pool : Tracked H) : Tracked H :=
  { pool with children := fun p => f p (pool.children p) }

def mapParents (f : H → List H → List H) (pool : Tracked H) : Tracked H :=
  { pool with parents := fun c => f c (pool.parents c) }

theorem gain_mapChildren (f : H → List H → List H) (D : H → DescendantState) (A : H → AncestorState) :
    (pool.mapChildren f).gain D A = (pool.gain D A).mapChildren f := rfl

theorem mapChildren_mapChildren (f g : H → List H → List H) :
    (pool.mapChildren f).mapChildren g = pool.mapChildren fun p s => g p (f p s) := rfl

theorem mapChildren_mapParents (f g : H → List H → List H) :
    (pool.mapParents g).mapChildren f = (pool.mapChildren f).mapParents g := rfl

theorem mapParents_mapParents (f g : H → List H → List H) :
    (pool.mapParents f).mapParents g = pool.mapParents fun c s => g c (f c s) := rfl

theorem changeSet_loop {p q : H} :
    (if p ∈ l then changeSet add x (if p = q then changeSet add x s else s) else if p =
    q then changeSet add x s else s) =
      if p ∈ q :: l then changeSet add x s else s := by
  by_cases hp : p = q
  · simp [hp, changeSet_changeSet]
  · simp [hp]

theorem updateChild_eq (add : Bool) (child q : H) :
    pool.updateChild add child q = pool.mapChildren fun p s => if p = q then changeSet add child s else s := by
  unfold updateChild mapChildren
  congr 1
  funext p
  by_cases hp : p = q
  · subst hp
    simp
  · simp [hp]

theorem updateParent_eq (add : Bool) (parent q : H) :
    pool.updateParent add parent q = pool.mapParents fun c s => if c = q then changeSet add parent s else s := by
  unfold updateParent mapParents
  congr 1
  funext c
  by_cases hc : c = q
  · subst hc
    simp
  · simp [hc]

theorem foldl_updateChild (add : Bool) (child : H) (l : List H) :
    l.foldl (updateChild add child) pool = pool.mapChildren fun p s => if p ∈ l then changeSet add child s else s := by
  induction l generalizing pool with
  | nil => simp [mapChildren]
  | cons q l ih =>
    rw [foldl_cons, ih, updateChild_eq]
    exact congrArg (mapChildren · pool) (funext fun p => funext fun s => changeSet_loop)

theorem foldl_updateParent (add : Bool) (parent : H) (l : List H) :
    l.foldl (updateParent add parent) pool =
      pool.mapParents fun c s => if c ∈ l then changeSet add parent s else s := by
  induction l generalizing pool with
  | nil => simp [mapParents]
  | cons q l ih =>
    rw [foldl_cons, ih, updateParent_eq]
    exact congrArg (mapParents · pool) (funext fun c => funext fun s => changeSet_loop)

/-! ## removal, loop by loop -/

def ancestorsOf (T : TrackEnv H) (pool : Tracked H) (it : H) : List H :=
  pool.calculateMemPoolAncestors T (pool.parents it)

def descendantsOf (T : TrackEnv H) (pool : Tracked H) (it : H) : List H :=
  (pool.calculateDescendants T [it]).filter (· ≠ it)

theorem foldl_leaveDescendants (l : List H) : l.foldl (leaveDescendants T) pool =
      pool.gain 0 fun x => (l.map fun r =>
        if x ∈ pool.descendantsOf T r then pool.minusOwnAncestors T r else 0).sum := by
  induction l generalizing pool with
  | nil => exact (gain_zero pool).symm
  | cons r l ih =>
    have hone : leaveDescendants T pool r =
        pool.gain 0 fun x => if x ∈ pool.descendantsOf T r then pool.minusOwnAncestors T r else 0 :=
      foldl_modifyAncestors (reached_nodup.filter _) _
    rw [foldl_cons, ih, hone, gain_gain, add_zero]
    rfl

theorem calculateMemPoolAncestors_nodup (l : List H) : (pool.calculateMemPoolAncestors T l).Nodup := reached_nodup

theorem updateAncestorsOf_eq (add : Bool) (it : H) {setAncestors : List H} (hl : setAncestors.Nodup) :
    pool.updateAncestorsOf T add it setAncestors = (pool.gain (fun x => if x ∈ setAncestors then
        (if add then pool.ownBelow T it else -pool.ownBelow T it) else 0) 0).mapChildren
        fun p s => if p ∈ pool.parents it then changeSet add it s else s := by
  unfold updateAncestorsOf
  dsimp only
  rw [foldl_updateChild, foldl_modifyDescendants hl]
  rfl

theorem leaveAncestors_eq (r : H) : leaveAncestors T pool r =
      (pool.gain (fun x => if x ∈ pool.ancestorsOf T r then -pool.ownBelow T r else 0) 0).mapChildren
        fun p s => if p ∈ pool.parents r then changeSet false r s else s :=
  updateAncestorsOf_eq false r reached_nodup

theorem filter_leaving (named : H → Prop) [DecidablePred named] :
    ((if named r then changeSet false r s else s).filter fun c => !(decide (c ∈ l) && decide (named c))) =
      s.filter fun c => !(decide (c ∈ r :: l) && decide (named c)) := by
  by_cases hr : named r
  · rw [if_pos hr, changeSet, if_neg Bool.false_ne_true, filter_filter]
    refine filter_congr fun c _ => ?_
    by_cases hc : c = r
    · simp [hc, hr]
    · simp [hc]
  · rw [if_neg hr]
    refine filter_congr fun c _ => ?_
    by_cases hc : c = r
    · simp [hc, hr]
    · simp [hc]

theorem foldl_leaveAncestors (l : List H) : l.foldl (leaveAncestors T) pool =
      (pool.gain (fun x => (l.map fun r => if x ∈ pool.ancestorsOf T r then -pool.ownBelow T r else 0).sum)
        0).mapChildren fun p s => s.filter fun c => !(decide (c ∈ l) && decide (p ∈ pool.parents c)) := by
  induction l generalizing pool with
  | nil => simp [mapChildren, gain, updateDescendantState, updateAncestorState]
  | cons r l ih =>
    rw [foldl_cons, ih, leaveAncestors_eq]
    -- the walks and the entry's own numbers are not touched by the first round
    show ((pool.gain (fun x => if x ∈ pool.ancestorsOf T r then -pool.ownBelow T r else 0) 0).gain
      (fun x => (l.map fun r => if x ∈ pool.ancestorsOf T r then -pool.ownBelow T r else 0).sum) 0).mapChildren
        (fun p s => (if p ∈ pool.parents r then changeSet false r s else s).filter
          fun c => !(decide (c ∈ l) && decide (p ∈ pool.parents c))) = _
    rw [gain_gain, add_zero]
    exact congrArg (mapChildren · _) (funext fun p => funext fun s => filter_leaving fun c => p ∈ pool.parents c)

theorem foldl_updateChildrenForRemoval (l : List H) : l.foldl updateChildrenForRemoval pool =
      pool.mapParents fun c s => s.filter fun p => !(decide (p ∈ l) && decide (c ∈ pool.children p)) := by
  induction l generalizing pool with
  | nil => simp [mapParents]
  | cons r l ih =>
    rw [foldl_cons, ih, updateChildrenForRemoval, foldl_updateParent]
    exact congrArg (mapParents · pool) (funext fun c => funext fun s => filter_leaving fun p => c ∈ pool.children p)

theorem removeStaged_eq (l : List H) (updateDescendants : Bool) : pool.removeStaged T l updateDescendants =
      (((pool.gain (fun x => (l.map fun r => if x ∈ pool.ancestorsOf T r then -pool.ownBelow T r else 0).sum)
        (if updateDescendants then fun x =>
          (l.map fun r => if x ∈ pool.descendantsOf T r then pool.minusOwnAncestors T r else 0).sum else 0)).mapChildren
        fun p s => s.filter fun c => !(decide (c ∈ l) && decide (p ∈ pool.parents c))).mapParents
        fun c s => s.filter fun p => !(decide (p ∈ l) &&
          decide (c ∈ (pool.children p).filter fun c =>
            !(decide (c ∈ l) && decide (p ∈ pool.parents c))))).removeUnchecked
        T l := by
  unfold removeStaged updateForRemoveFromMempool
  dsimp only
  cases updateDescendants with
  | true =>
    rw [if_pos rfl, if_pos rfl, foldl_leaveDescendants, foldl_leaveAncestors, foldl_updateChildrenForRemoval]
    refine congrArg (fun q => ((mapChildren _ q).mapParents _).removeUnchecked T l) ?_
    exact (gain_gain _ _ _ _).trans (by rw [zero_add, add_zero]; rfl)
  | false =>
    rw [if_neg Bool.false_ne_true, if_neg Bool.false_ne_true, foldl_leaveAncestors, foldl_updateChildrenForRemoval]
    rfl

/-! ## what an entry counts for -/

theorem ownAbove_congr (hfind : pool'.find T x = pool.find T x)
    (hdelta : (pool'.state x).feeDelta = (pool.state x).feeDelta) : pool'.ownAbove T x = pool.ownAbove T x := by
  rw [ownAbove, ownAbove, hfind, hdelta]

theorem ownBelow_congr (hfind : pool'.find T x = pool.find T x)
    (hdelta : (pool'.state x).feeDelta = (pool.state x).feeDelta) :
    pool'.ownBelow T x = pool.ownBelow T x := by
  rw [ownBelow, ownBelow, hfind, hdelta]

theorem find_removeUnchecked (hx : x ∉ l) : (pool.removeUnchecked T l).find T x = pool.find T x := by
  show (pool.mapTx.filter fun e => !l.contains (e.hash T)).find? _ = _
  rw [find?_filter, find]
  congr 1
  funext e
  by_cases he : e.hash T = x
  · simp [he, hx]
  · simp [he]

theorem minusOwnAncestors_eq (x : H) : pool.minusOwnAncestors T x = -pool.ownAbove T x := by
  unfold minusOwnAncestors ownAbove
  cases pool.find T x with
  | none => rfl
  | some e =>
    have hlt := e.sigOpCost_lt
    have hsmall : Int.bmod (-(e.sigOpCost : Int)) 4294967296 = -(e.sigOpCost : Int) :=
      Int.bmod_eq_of_le (by omega) (by omega)
    exact congrArg (AncestorState.mk _ _ _) hsmall

end Tracked

/-! ## statistics along the links -/

open Tracked

/-- the stored links are the relation `R`, which has no cycle -/
structure Linked (T : TrackEnv H) (pool : Tracked H) (R : H → H → Prop) : Prop where
  nodup : (pool.ids T).Nodup
  support : ∀ p c, R p c → p ∈ pool.ids T ∧ c ∈ pool.ids T
  mem_parents : ∀ p c, p ∈ pool.parents c ↔ R p c
  mem_children : ∀ p c, c ∈ pool.children p ↔ R p c
  acyclic : ∀ x, ¬TransGen R x x

/-- the statistics are the sums over ancestors and descendants along `R` -/
structure Tallied (T : TrackEnv H) (pool : Tracked H) (R : H → H → Prop) : Prop extends Linked T pool R where
  children_nodup : ∀ p, (pool.children p).Nodup
  above : ExactAbove (pool.ids T).toFinset R (pool.ownAbove T) fun x => (pool.state x).ancestors
  below : ExactBelow (pool.ids T).toFinset R (pool.ownBelow T) fun x => (pool.state x).descendants
  deltas : ∀ x ∈ pool.ids T, (pool.state x).feeDelta = pool.mapDeltas x

section
variable {R : H → H → Prop}

section
variable (h : Linked T pool R)
include h

theorem Linked.mem_childLinks {p c : H} : (p, c) ∈ pool.childLinks T ↔ R p c := by
  simp only [childLinks, mem_flatMap, mem_map, Prod.mk.injEq]
  constructor
  · rintro ⟨_, -, _, hc, rfl, rfl⟩
    exact (h.mem_children _ _).1 hc
  · intro hR
    exact ⟨p, (h.support p c hR).1, c, (h.mem_children p c).2 hR, rfl, rfl⟩

theorem Linked.mem_parentLinks {p c : H} : (c, p) ∈ pool.parentLinks T ↔ R p c := by
  simp only [parentLinks, mem_flatMap, mem_map, Prod.mk.injEq]
  constructor
  · rintro ⟨_, -, _, hc, rfl, rfl⟩
    exact (h.mem_parents _ _).1 hc
  · intro hR
    exact ⟨c, (h.support p c hR).2, p, (h.mem_parents p c).2 hR, rfl, rfl⟩

theorem Linked.mem_calculateDescendants {l : List H} :
    x ∈ pool.calculateDescendants T l ↔ ∃ a ∈ l, ReflTransGen R a x := by
  unfold calculateDescendants
  rw [mem_reached]
  simp only [h.mem_childLinks]

theorem Linked.mem_calculateMemPoolAncestors {l : List H} :
    x ∈ pool.calculateMemPoolAncestors T l ↔ ∃ a ∈ l, ReflTransGen R x a := by
  unfold calculateMemPoolAncestors
  rw [mem_reached]
  simp only [h.mem_parentLinks]
  exact exists_congr fun a => and_congr_right fun _ => reflTransGen_swap

theorem Linked.mem_ancestorsOf : x ∈ pool.ancestorsOf T r ↔ TransGen R x r := by
  rw [ancestorsOf, h.mem_calculateMemPoolAncestors, TransGen.tail'_iff]
  exact exists_congr fun a => by rw [h.mem_parents, and_comm]

theorem Linked.mem_descendantsOf : x ∈ pool.descendantsOf T r ↔ TransGen R r x := by
  rw [descendantsOf, mem_filter, h.mem_calculateDescendants, decide_eq_true_eq]
  constructor
  · rintro ⟨⟨a, ha, hax⟩, hne⟩
    rw [mem_singleton.1 ha] at hax
    exact (reflTransGen_iff_eq_or_transGen.1 hax).resolve_left hne
  · intro hrx
    refine ⟨⟨r, mem_singleton_self r, hrx.to_reflTransGen⟩, ?_⟩
    rintro rfl
    exact h.acyclic x hrx

end

/-! ## removals -/

variable {l : List H}

theorem ids_removeStaged (l : List H) (updateDescendants : Bool) :
    (pool.removeStaged T l updateDescendants).ids T = (pool.ids T).filter fun x => !l.contains x := by
  rw [removeStaged_eq]
  show (pool.mapTx.filter fun e => !l.contains (e.hash T)).map _ = (pool.mapTx.map _).filter _
  rw [filter_map]
  rfl

theorem toFinset_removeStaged (l : List H) (updateDescendants : Bool) :
    ((pool.removeStaged T l updateDescendants).ids T).toFinset = (pool.ids T).toFinset \ l.toFinset := by
  ext x
  rw [ids_removeStaged]
  simp

def Without (R : H → H → Prop) (l : List H) (p c : H) : Prop := R p c ∧ p ∉ l ∧ c ∉ l

variable (h : Tallied T pool R)

include h in
theorem Tallied.mem_children_removeStaged (updateDescendants : Bool) (p c : H) :
    c ∈ (pool.removeStaged T l updateDescendants).children p ↔ Without R l p c := by
  rw [removeStaged_eq]
  show c ∈ (if p ∈ l then [] else _) ↔ _
  unfold Without
  split
  · next hp => simp [hp]
  · next hp =>
    show c ∈ (pool.children p).filter _ ↔ _
    simp only [mem_filter, h.mem_children, h.mem_parents, Bool.not_eq_true', Bool.and_eq_false_iff,
      decide_eq_false_iff_not]
    tauto

include h in
theorem Tallied.mem_parents_removeStaged (updateDescendants : Bool) (p c : H) :
    p ∈ (pool.removeStaged T l updateDescendants).parents c ↔ Without R l p c := by
  rw [removeStaged_eq]
  show p ∈ (if c ∈ l then [] else _) ↔ _
  unfold Without
  split
  · next hc => simp [hc]
  · next hc =>
    show p ∈ (pool.parents c).filter _ ↔ _
    simp only [mem_filter, h.mem_children, h.mem_parents, Bool.not_eq_true', Bool.and_eq_false_iff,
      decide_eq_false_iff_not]
    tauto

theorem Linked.mem_ids_of_transGen (h : Linked T pool R) (hxy : TransGen R x y) : x ∈ pool.ids T ∧ y ∈ pool.ids T := by
  obtain ⟨z, hxz, -⟩ := TransGen.head'_iff.1 hxy
  obtain ⟨u, -, huy⟩ := TransGen.tail'_iff.1 hxy
  exact ⟨(h.support x z hxz).1, (h.support u y huy).2⟩

include h in
theorem Tallied.descendants_removeStaged (hl : l.Nodup) (updateDescendants : Bool) (x : H) :
    ((pool.removeStaged T l updateDescendants).state x).descendants = (pool.state x).descendants -
      ∑ y ∈ Kin.below (pool.ids T).toFinset R x ∩ l.toFinset, pool.ownBelow T y := by
  have hlosses : (l.map fun r => if x ∈ pool.ancestorsOf T r then -pool.ownBelow T r else 0).sum =
      -∑ y ∈ Kin.below (pool.ids T).toFinset R x ∩ l.toFinset, pool.ownBelow T y := by
    refine sum_losses hl fun r _ => ?_
    rw [h.mem_ancestorsOf, mem_below, mem_toFinset]
    exact ⟨fun hxr => ⟨(h.mem_ids_of_transGen hxr).2, hxr⟩, fun hr => hr.2⟩
  rw [removeStaged_eq, sub_eq_add_neg, ← hlosses]
  rfl

include h in
theorem Tallied.ancestors_removeStaged (hl : l.Nodup) (x : H) :
    ((pool.removeStaged T l true).state x).ancestors = (pool.state x).ancestors -
      ∑ y ∈ Kin.above (pool.ids T).toFinset R x ∩ l.toFinset, pool.ownAbove T y := by
  have hlosses : (l.map fun r => if x ∈ pool.descendantsOf T r then pool.minusOwnAncestors T r else 0).sum =
      -∑ y ∈ Kin.above (pool.ids T).toFinset R x ∩ l.toFinset, pool.ownAbove T y := by
    simp only [minusOwnAncestors_eq]
    refine sum_losses hl fun r _ => ?_
    rw [h.mem_descendantsOf, mem_above, mem_toFinset]
    exact ⟨fun hrx => ⟨(h.mem_ids_of_transGen hrx).1, hrx⟩, fun hr => hr.2⟩
  rw [removeStaged_eq, sub_eq_add_neg, ← hlosses]
  rfl

theorem own_removeStaged (updateDescendants : Bool) (hx : x ∉ l) :
    (pool.removeStaged T l updateDescendants).ownAbove T x = pool.ownAbove T x ∧
      (pool.removeStaged T l updateDescendants).ownBelow T x = pool.ownBelow T x := by
  rw [removeStaged_eq]
  exact ⟨ownAbove_congr (find_removeUnchecked hx) rfl, ownBelow_congr (find_removeUnchecked hx) rfl⟩

include h in
theorem Tallied.of_removeStaged {updateDescendants : Bool} {A : H → AncestorState} {D : H → DescendantState}
    (habove : ExactAbove ((pool.ids T).toFinset \ l.toFinset) (Without R l) (pool.ownAbove T) A)
    (hbelow : ExactBelow ((pool.ids T).toFinset \ l.toFinset) (Without R l) (pool.ownBelow T) D)
    (hA : ∀ x ∈ pool.ids T, x ∉ l → ((pool.removeStaged T l updateDescendants).state x).ancestors = A x)
    (hD : ∀ x ∈ pool.ids T, x ∉ l → ((pool.removeStaged T l updateDescendants).state x).descendants = D x) :
    Tallied T (pool.removeStaged T l updateDescendants) (Without R l) := by
  have hids : ∀ x, x ∈ (pool.removeStaged T l updateDescendants).ids T ↔ x ∈ pool.ids T ∧ x ∉ l := by
    intro x
    rw [ids_removeStaged]
    simp
  have hin : ∀ x ∈ (pool.ids T).toFinset \ l.toFinset, x ∈ pool.ids T ∧ x ∉ l := by
    intro x hx
    simpa using hx
  refine ⟨⟨?_, ?_, h.mem_parents_removeStaged _, h.mem_children_removeStaged _, ?_⟩, ?_, ?_, ?_, ?_⟩
  · rw [ids_removeStaged]
    exact h.nodup.filter _
  · rintro p c ⟨hR, hp, hc⟩
    obtain ⟨hpV, hcV⟩ := h.support p c hR
    exact ⟨(hids p).2 ⟨hpV, hp⟩, (hids c).2 ⟨hcV, hc⟩⟩
  · exact fun x hx => h.acyclic x (TransGen.mono (fun _ _ hab => hab.1) _ _ hx)
  · intro p
    rw [removeStaged_eq]
    show (if p ∈ l then [] else (pool.children p).filter _).Nodup
    split
    · exact nodup_nil
    · exact (h.children_nodup p).filter _
  · rw [toFinset_removeStaged]
    exact habove.congr (fun x hx => (own_removeStaged _ (hin x hx).2).1) fun x hx => hA x (hin x hx).1 (hin x hx).2
  · rw [toFinset_removeStaged]
    exact hbelow.congr (fun x hx => (own_removeStaged _ (hin x hx).2).2) fun x hx => hD x (hin x hx).1 (hin x hx).2
  · intro x hx
    rw [removeStaged_eq]
    exact h.deltas x ((hids x).1 hx).1

include h in
/-- entries leave with their descendants: the sums of the others stay exact -/
theorem Tallied.removeStaged_closed (hl : l.Nodup) (hclosed : ∀ x y, R x y → x ∈ l → y ∈ l) :
    Tallied T (pool.removeStaged T l false) (Without R l) := by
  have hdrops : Drops R (Without R l) l.toFinset :=
    ⟨fun x y hxy hx => mem_toFinset.2 (hclosed x y hxy (mem_toFinset.1 hx)),
      fun x y => by rw [mem_toFinset, mem_toFinset]; rfl⟩
  refine h.of_removeStaged (h.above.restrict hdrops)
    (h.below.subtract hdrops fun x _ _ => h.descendants_removeStaged hl false x) ?_ fun x _ _ => rfl
  intro x _ _
  rw [removeStaged_eq]
  exact add_zero _

include h in
theorem Tallied.removeStaged_roots (hl : l.Nodup) (hclosed : ∀ x y, R x y → y ∈ l → x ∈ l) :
    Tallied T (pool.removeStaged T l true) (Without R l) := by
  have hdrops : Drops (swap R) (swap (Without R l)) l.toFinset :=
    Drops.swap (fun x y hxy hy => mem_toFinset.2 (hclosed x y hxy (mem_toFinset.1 hy)))
      fun x y => by rw [mem_toFinset, mem_toFinset]; rfl
  have habove : ExactAbove ((pool.ids T).toFinset \ l.toFinset) (Without R l) (pool.ownAbove T)
      fun x => ((pool.removeStaged T l true).state x).ancestors := by
    refine exactBelow_swap.1 ((exactBelow_swap.2 h.above).subtract hdrops fun x _ _ => ?_)
    rw [below_swap]
    exact h.ancestors_removeStaged hl x
  have hbelow : ExactBelow ((pool.ids T).toFinset \ l.toFinset) (Without R l) (pool.ownBelow T)
      fun x => (pool.state x).descendants :=
    exactAbove_swap.1 ((exactAbove_swap.2 h.below).restrict hdrops)
  refine h.of_removeStaged habove hbelow (fun x _ _ => rfl) fun x _ hx => ?_
  -- nothing that stays stands above what goes
  have hnone : Kin.below (pool.ids T).toFinset R x ∩ l.toFinset = ∅ := by
    refine Finset.eq_empty_of_forall_notMem fun y hy => ?_
    obtain ⟨hxy, hyl⟩ := Finset.mem_inter.1 hy
    exact hdrops.not_above (mem_toFinset.not.2 hx) (transGen_swap.2 (mem_below.1 hxy).2) hyl
  rw [h.descendants_removeStaged hl, hnone, Finset.sum_empty, sub_zero]

end

/-! ## a new entry -/

namespace Tracked

def parentsFor (T : TrackEnv H) (pool : Tracked H) (entry : TrackedEntry H) : List H :=
  entry.spentTxs.filter fun phash => decide (phash ∈ pool.ids T)

def inserted (T : TrackEnv H) (pool : Tracked H) (entry : TrackedEntry H) : Tracked H where
  mapTx := pool.mapTx ++ [entry]
  mapNextTx := entry.tx.vin.foldl (CTxMemPool.insertNext (entry.hash T)) pool.mapNextTx
  parents := Function.update pool.parents (entry.hash T) (pool.parentsFor T entry)
  children := Function.update pool.children (entry.hash T) []
  state := Function.update pool.state (entry.hash T) ((entry.initialState T).updateFeeDelta
    (pool.mapDeltas (entry.hash T)))
  mapDeltas := pool.mapDeltas

theorem foldl_changeSet {l : List H} (h : (s ++ l).Nodup) : l.foldl (fun s x => changeSet true x s) s = s ++ l := by
  induction l generalizing s with
  | nil => simp
  | cons x l ih =>
    have hx : x ∉ s := fun hx => (nodup_append.1 h).2.2 x hx x mem_cons_self rfl
    have hone : changeSet true x s = s ++ [x] := by simp [changeSet, hx]
    rw [foldl_cons, hone, ih (by simpa using h), append_assoc, singleton_append]

theorem foldl_addParent (entry : H) (l : List H) :
    l.foldl (fun pool phash => updateParent true phash pool entry) pool =
      pool.mapParents fun c s => if c = entry then l.foldl (fun s x => changeSet true x s) s else s := by
  induction l generalizing pool with
  | nil => simp [mapParents]
  | cons x l ih =>
    rw [foldl_cons, ih, updateParent_eq, mapParents_mapParents]
    refine congrArg (mapParents · pool) (funext fun c => funext fun s => ?_)
    by_cases hc : c = entry
    · simp [hc]
    · simp [hc]

theorem updateFeeDelta_zero (e : TrackedEntry H) : (e.initialState T).updateFeeDelta 0 = e.initialState T := by
  simp [initialState, updateFeeDelta, DescendantState.mk_add, AncestorState.mk_add]

theorem applyDelta_insertEntry {entry : TrackedEntry H} (hnew : entry.hash T ∉ pool.ids T) :
    ((pool.insertEntry T entry).applyDelta (entry.hash T)).state =
      update pool.state (entry.hash T) ((entry.initialState T).updateFeeDelta (pool.mapDeltas (entry.hash T))) := by
  unfold insertEntry applyDelta
  dsimp only
  rw [if_neg hnew]
  dsimp only
  split
  · simp
  · next hzero => rw [not_not.1 hzero, updateFeeDelta_zero]

theorem insert_eq {entry : TrackedEntry H} (hnew : entry.hash T ∉ pool.ids T) (hself : entry.hash T ∉ entry.spentTxs) :
    (((pool.insertEntry T entry).applyDelta (entry.hash T)).insertInputs T entry).linkParents T entry =
      pool.inserted T entry := by
  have hstate : ((pool.insertEntry T entry).applyDelta (entry.hash T)).state = _ := applyDelta_insertEntry hnew
  obtain ⟨q, hq⟩ : ∃ q, (pool.insertEntry T entry).applyDelta (entry.hash T) = q := ⟨_, rfl⟩
  have hfields : q.mapTx = pool.mapTx ++ [entry] ∧ q.mapNextTx = pool.mapNextTx ∧
      q.parents = update pool.parents (entry.hash T) [] ∧
      q.children = update pool.children (entry.hash T) [] ∧ q.mapDeltas = pool.mapDeltas := by
    rw [← hq]
    unfold insertEntry applyDelta
    dsimp only
    rw [if_neg hnew]
    split <;> exact ⟨rfl, rfl, rfl, rfl, rfl⟩
  obtain ⟨hTx, hNext, hparents, hchildren, hdeltas⟩ := hfields
  have hids : ((q.insertInputs T entry).ids T) = pool.ids T ++ [entry.hash T] := by
    show q.mapTx.map _ = _
    rw [hTx, map_append]
    rfl
  have hfilter : (entry.spentTxs.filter fun phash => decide (phash ∈ (q.insertInputs T entry).ids T)) =
      pool.parentsFor T entry := by
    refine filter_congr fun x hx => ?_
    have hne : x ≠ entry.hash T := fun hx' => hself (hx' ▸ hx)
    rw [hids]
    simp [hne]
  have hlist : (pool.parentsFor T entry).Nodup := (nodup_dedup _).filter _
  rw [hq] at hstate ⊢
  unfold linkParents
  rw [hfilter, foldl_addParent]
  unfold insertInputs inserted mapParents
  dsimp only
  rw [hTx, hNext, hparents, hchildren, hdeltas, hstate]
  congr 1
  funext c
  by_cases hc : c = entry.hash T
  · subst hc
    rw [if_pos rfl, update_self, update_self, foldl_changeSet (by simpa using hlist), nil_append]
  · rw [if_neg hc, update_of_ne hc, update_of_ne hc]

theorem addUnchecked_eq {entry : TrackedEntry H} (hnew : entry.hash T ∉ pool.ids T)
    (hself : entry.hash T ∉ entry.spentTxs) : pool.addUnchecked T entry = ((pool.inserted T entry).gain
        (fun x => if x ∈ pool.calculateMemPoolAncestors T (pool.parentsFor T entry) then
          (pool.inserted T entry).ownBelow T (entry.hash T) else 0)
        (single (entry.hash T) ((pool.calculateMemPoolAncestors T (pool.parentsFor T entry)).map
          ((pool.inserted T entry).ownAbove T)).sum)).mapChildren fun p s =>
            if p ∈ pool.parentsFor T entry then changeSet true (entry.hash T) s else s := by
  obtain ⟨l, hl⟩ : ∃ l, pool.calculateMemPoolAncestors T (pool.parentsFor T entry) = l := ⟨_, rfl⟩
  have hnodup : l.Nodup := hl ▸ reached_nodup
  have hparents : (pool.inserted T entry).parents (entry.hash T) = pool.parentsFor T entry := update_self ..
  show ((((((pool.insertEntry T entry).applyDelta (entry.hash T)).insertInputs T entry).linkParents T
    entry).updateAncestorsOf T true (entry.hash T)
    (pool.calculateMemPoolAncestors T (pool.parentsFor T entry))).updateEntryForAncestors T (entry.hash T)
    (pool.calculateMemPoolAncestors T (pool.parentsFor T entry))) = _
  rw [insert_eq hnew hself, hl, updateAncestorsOf_eq true _ hnodup, hparents,
    updateEntryForAncestors, modifyAncestors_eq]
  rw [gain_mapChildren, gain_gain, zero_add, add_zero]
  rfl

section
variable {entry : TrackedEntry H}

theorem find_inserted_old (hx : x ≠ entry.hash T) : (pool.inserted T entry).find T x = pool.find T x := by
  show (pool.mapTx ++ [entry]).find? _ = _
  rw [find?_append, find?_cons_of_neg (by simpa using hx.symm), find?_nil, Option.or_none]
  rfl

theorem find_inserted_new (hnew : entry.hash T ∉ pool.ids T) :
    (pool.inserted T entry).find T (entry.hash T) = some entry := by
  have hnone : pool.mapTx.find? (fun e => e.hash T = entry.hash T) = none := by
    refine find?_eq_none.2 fun e he heq => hnew ?_
    exact mem_map.2 ⟨e, he, of_decide_eq_true heq⟩
  show (pool.mapTx ++ [entry]).find? _ = _
  rw [find?_append, hnone, Option.none_or]
  simp

theorem state_inserted_new (hnew : entry.hash T ∉ pool.ids T) :
    ((pool.inserted T entry).state (entry.hash T)).descendants = (pool.inserted T entry).ownBelow T (entry.hash T) ∧
      ((pool.inserted T entry).state (entry.hash T)).ancestors = (pool.inserted T entry).ownAbove T (entry.hash T) := by
  have hstate : (pool.inserted T entry).state (entry.hash T) =
      (entry.initialState T).updateFeeDelta (pool.mapDeltas (entry.hash T)) := update_self ..
  rw [ownBelow, ownAbove, find_inserted_new hnew, hstate]
  simp [initialState, updateFeeDelta, DescendantState.mk_add, AncestorState.mk_add]

theorem state_inserted_old (hx : x ≠ entry.hash T) : (pool.inserted T entry).state x = pool.state x :=
  update_of_ne hx ..

theorem ids_addUnchecked (hnew : entry.hash T ∉ pool.ids T) (hself : entry.hash T ∉ entry.spentTxs) :
    (pool.addUnchecked T entry).ids T = pool.ids T ++ [entry.hash T] := by
  rw [addUnchecked_eq hnew hself]
  exact map_append

end

end Tracked

def WithChild (R : H → H → Prop) (n : H) (l : List H) (p c : H) : Prop := R p c ∨ c = n ∧ p ∈ l

section
variable {R : H → H → Prop} {entry : TrackedEntry H}

theorem Tallied.addsBottom (h : Tallied T pool R) (hnew : entry.hash T ∉ pool.ids T) :
    AddsBottom (pool.ids T).toFinset R (WithChild R (entry.hash T) (pool.parentsFor T entry)) (entry.hash T)
      (· ∈ pool.parentsFor T entry) := by
  refine ⟨mem_toFinset.not.2 hnew, ?_, ?_, ?_⟩
  · intro x y hxy
    rw [mem_toFinset, mem_toFinset]
    exact h.support x y hxy
  · intro x
    rw [mem_toFinset]
    constructor
    · rintro (hR | ⟨-, hx⟩)
      · exact absurd (h.support x _ hR).2 hnew
      · exact ⟨hx, of_decide_eq_true (mem_filter.1 hx).2⟩
    · rintro ⟨hx, -⟩
      exact .inr ⟨rfl, hx⟩
  · intro x y hy
    exact ⟨fun hxy => hxy.resolve_right fun hno => hy hno.1, .inl⟩

theorem Tallied.mem_setAncestors (h : Tallied T pool R) :
    y ∈ (pool.calculateMemPoolAncestors T (pool.parentsFor T entry)).toFinset ↔
      ∃ p ∈ (pool.ids T).toFinset, p ∈ pool.parentsFor T entry ∧ ReflTransGen R y p := by
  rw [mem_toFinset, h.mem_calculateMemPoolAncestors]
  refine exists_congr fun p => ⟨fun hp => ⟨?_, hp⟩, fun hp => hp.2⟩
  exact mem_toFinset.2 (of_decide_eq_true (mem_filter.1 hp.1).2)

theorem Tallied.mem_ids_of_setAncestors (h : Tallied T pool R)
    (hy : y ∈ pool.calculateMemPoolAncestors T (pool.parentsFor T entry)) : y ∈ pool.ids T := by
  obtain ⟨p, hp, -, hyp⟩ := h.mem_setAncestors.1 (mem_toFinset.2 hy)
  rcases ReflTransGen.cases_head hyp with rfl | ⟨z, hyz, -⟩
  · exact mem_toFinset.1 hp
  · exact (h.support y z hyz).1

theorem own_inserted_old (hx : x ≠ entry.hash T) : (pool.inserted T entry).ownAbove T x = pool.ownAbove T x ∧
      (pool.inserted T entry).ownBelow T x = pool.ownBelow T x := by
  have hdelta : ((pool.inserted T entry).state x).feeDelta = (pool.state x).feeDelta := by rw [state_inserted_old hx]
  exact ⟨ownAbove_congr (find_inserted_old hx) hdelta, ownBelow_congr (find_inserted_old hx) hdelta⟩

variable (h : Tallied T pool R) (hnew : entry.hash T ∉ pool.ids T) (hself : entry.hash T ∉ entry.spentTxs)
include h hnew hself

theorem Tallied.mem_parents_addUnchecked (p c : H) : p ∈ (pool.addUnchecked T entry).parents c ↔
    WithChild R (entry.hash T) (pool.parentsFor T entry) p c := by
  rw [addUnchecked_eq hnew hself]
  show p ∈ update pool.parents (entry.hash T) (pool.parentsFor T entry) c ↔ _
  by_cases hc : c = entry.hash T
  · rw [hc, update_self]
    exact ⟨fun hp => .inr ⟨rfl, hp⟩, fun hp => hp.elim (fun hR => absurd (h.support _ _ hR).2 hnew) (·.2)⟩
  · rw [update_of_ne hc, h.mem_parents]
    exact ((h.addsBottom hnew).others p c hc).symm

theorem Tallied.mem_children_addUnchecked (p c : H) : c ∈ (pool.addUnchecked T entry).children p ↔
    WithChild R (entry.hash T) (pool.parentsFor T entry) p c := by
  have hold : c ∈ update pool.children (entry.hash T) [] p ↔ R p c := by
    by_cases hp : p = entry.hash T
    · rw [hp, update_self]
      exact ⟨fun hno => absurd hno not_mem_nil, fun hR => absurd (h.support _ _ hR).1 hnew⟩
    · rw [update_of_ne hp, h.mem_children]
  rw [addUnchecked_eq hnew hself]
  show c ∈ (if p ∈ pool.parentsFor T entry then changeSet true (entry.hash T)
    (update pool.children (entry.hash T) [] p) else update pool.children (entry.hash T) [] p) ↔ _
  unfold WithChild
  split
  · next hp => rw [mem_changeSet_true, hold, and_iff_left hp]
  · next hp => rw [hold, or_iff_left fun hno => hp hno.2]

theorem Tallied.above_addUnchecked : ExactAbove (insert (entry.hash T) (pool.ids T).toFinset)
    (WithChild R (entry.hash T) (pool.parentsFor T entry)) ((pool.addUnchecked T entry).ownAbove T)
    fun x => ((pool.addUnchecked T entry).state x).ancestors := by
  have hne : ∀ x ∈ pool.ids T, x ≠ entry.hash T := fun x hx hxn => hnew (hxn ▸ hx)
  rw [addUnchecked_eq hnew hself]
  refine h.above.addBottom (h.addsBottom hnew) (fun _ => h.mem_setAncestors) ?_ ?_ ?_
  · intro x hx
    exact (own_inserted_old (hne x (mem_toFinset.1 hx))).1
  · show ((pool.inserted T entry).state (entry.hash T)).ancestors +
      (single (entry.hash T) _ : H → AncestorState) (entry.hash T) =
      (pool.inserted T entry).ownAbove T (entry.hash T) + _
    rw [single_eq_same, (state_inserted_new hnew).2, sum_toFinset _ (calculateMemPoolAncestors_nodup _)]
    congr 2
    exact map_congr_left fun y hy => (own_inserted_old (hne y (h.mem_ids_of_setAncestors hy))).1
  · intro x hx
    have hxn := hne x (mem_toFinset.1 hx)
    show ((pool.inserted T entry).state x).ancestors + (single (entry.hash T) _ : H → AncestorState) x = _
    rw [single_eq_of_ne hxn, add_zero, state_inserted_old hxn]

theorem Tallied.below_addUnchecked : ExactBelow (insert (entry.hash T) (pool.ids T).toFinset)
    (WithChild R (entry.hash T) (pool.parentsFor T entry)) ((pool.addUnchecked T entry).ownBelow T)
    fun x => ((pool.addUnchecked T entry).state x).descendants := by
  have hne : ∀ x ∈ pool.ids T, x ≠ entry.hash T := fun x hx hxn => hnew (hxn ▸ hx)
  rw [addUnchecked_eq hnew hself]
  refine h.below.addBottom (h.addsBottom hnew) (fun _ => h.mem_setAncestors) ?_ ?_ ?_
  · intro x hx
    exact (own_inserted_old (hne x (mem_toFinset.1 hx))).2
  · have hnot : entry.hash T ∉ pool.calculateMemPoolAncestors T (pool.parentsFor T entry) :=
      fun hmem => hnew (h.mem_ids_of_setAncestors hmem)
    show ((pool.inserted T entry).state (entry.hash T)).descendants + (if _ then _ else _) =
      (pool.inserted T entry).ownBelow T (entry.hash T)
    rw [if_neg hnot, add_zero, (state_inserted_new hnew).1]
  · intro x hx
    have hxn := hne x (mem_toFinset.1 hx)
    show ((pool.inserted T entry).state x).descendants + (if _ then _ else _) = _
    rw [state_inserted_old hxn]
    simp only [mem_toFinset]
    rfl

theorem Tallied.addUnchecked :
    Tallied T (pool.addUnchecked T entry) (WithChild R (entry.hash T) (pool.parentsFor T entry)) := by
  have hadds := h.addsBottom hnew
  have hids := ids_addUnchecked hnew hself
  have hfinset : ((pool.addUnchecked T entry).ids T).toFinset = insert (entry.hash T) (pool.ids T).toFinset := by
    rw [hids]
    ext x
    simp
  have hin : ∀ x, x ∈ (pool.addUnchecked T entry).ids T ↔ x ∈ pool.ids T ∨ x = entry.hash T := by
    intro x
    rw [hids, mem_append, mem_singleton]
  refine ⟨⟨?_, ?_, h.mem_parents_addUnchecked hnew hself, h.mem_children_addUnchecked hnew hself, ?_⟩, ?_,
    hfinset ▸ h.above_addUnchecked hnew hself, hfinset ▸ h.below_addUnchecked hnew hself, ?_⟩
  · rw [hids]
    exact h.nodup.append (nodup_singleton _) fun x hx hxn => hnew (mem_singleton.1 hxn ▸ hx)
  · rintro p c (hR | ⟨rfl, hp⟩)
    · exact ⟨(hin p).2 (.inl (h.support p c hR).1), (hin c).2 (.inl (h.support p c hR).2)⟩
    · exact ⟨(hin p).2 (.inl (of_decide_eq_true (mem_filter.1 hp).2)), (hin _).2 (.inr rfl)⟩
  · intro x hx
    by_cases hxn : x = entry.hash T
    · subst hxn
      have hmem := mem_below.2 ⟨Finset.mem_insert_self (entry.hash T) (pool.ids T).toFinset, hx⟩
      rw [hadds.below_new] at hmem
      exact Finset.notMem_empty _ hmem
    · exact h.acyclic x ((hadds.transGen_others hxn).1 hx)
  · intro p
    have hold : (update pool.children (entry.hash T) [] p).Nodup := by
      by_cases hp : p = entry.hash T
      · rw [hp, update_self]
        exact nodup_nil
      · rw [update_of_ne hp]
        exact h.children_nodup p
    rw [addUnchecked_eq hnew hself]
    show (if p ∈ pool.parentsFor T entry then changeSet true (entry.hash T)
      (update pool.children (entry.hash T) [] p) else update pool.children (entry.hash T) [] p).Nodup
    split
    · exact changeSet_nodup hold
    · exact hold
  · intro x hx
    rw [addUnchecked_eq hnew hself]
    show (update pool.state (entry.hash T) _ x).feeDelta = pool.mapDeltas x
    rcases (hin x).1 hx with hx | rfl
    · have hxn : x ≠ entry.hash T := fun hxn => hnew (hxn ▸ hx)
      rw [update_of_ne hxn]
      exact h.deltas x hx
    · rw [update_self]
      rfl

end

/-! ## fees -/

namespace Tracked

def repriced (pool : Tracked H) (hash : H) (delta : Int) : Tracked H :=
  { pool with
    mapDeltas := Function.update pool.mapDeltas hash delta
    state := Function.update pool.state hash ((pool.state hash).updateFeeDelta delta) }

variable {hash : H}

theorem prioritiseTransaction_eq (hin : hash ∈ pool.ids T) (nFeeDelta : Int) :
    pool.prioritiseTransaction T hash nFeeDelta = (pool.repriced hash (pool.mapDeltas hash + nFeeDelta)).gain
        (fun x => if x ∈ pool.ancestorsOf T hash then ⟨0, 0, nFeeDelta⟩ else 0)
        (fun x => if x ∈ pool.descendantsOf T hash then ⟨0, 0, nFeeDelta, 0⟩ else 0) := by
  have hanc : (pool.ancestorsOf T hash).Nodup := reached_nodup
  have hdesc : (pool.descendantsOf T hash).Nodup := reached_nodup.filter _
  unfold prioritiseTransaction
  dsimp only
  refine (if_pos hin).trans ?_
  show (fun q : Tracked H => (q.descendantsOf T hash).foldl (modifyAncestors ⟨0, 0, nFeeDelta, 0⟩) q)
    ((pool.ancestorsOf T hash).foldl (modifyDescendants ⟨0, 0, nFeeDelta⟩)
      (pool.repriced hash (pool.mapDeltas hash + nFeeDelta))) = _
  rw [foldl_modifyDescendants hanc]
  show (pool.descendantsOf T hash).foldl (modifyAncestors ⟨0, 0, nFeeDelta, 0⟩) _ = _
  rw [foldl_modifyAncestors hdesc, gain_gain, zero_add, add_zero]

theorem state_repriced (hash : H) (delta : Int) :
    (pool.repriced hash delta).state hash = (pool.state hash).updateFeeDelta delta := update_self ..

theorem state_repriced_other (hx : x ≠ hash) (delta : Int) :
    (pool.repriced hash delta).state x = pool.state x := update_of_ne hx ..

theorem own_repriced_other (hx : x ≠ hash) (delta : Int) :
    (pool.repriced hash delta).ownAbove T x = pool.ownAbove T x ∧
      (pool.repriced hash delta).ownBelow T x = pool.ownBelow T x :=
  ⟨ownAbove_congr rfl (by rw [state_repriced_other hx]), ownBelow_congr rfl (by rw [state_repriced_other hx])⟩

theorem own_repriced (hin : hash ∈ pool.ids T) (delta : Int) : (pool.repriced hash delta).ownAbove T hash =
        pool.ownAbove T hash + ⟨0, 0, delta - (pool.state hash).feeDelta, 0⟩ ∧
      (pool.repriced hash delta).ownBelow T hash =
        pool.ownBelow T hash + ⟨0, 0, delta - (pool.state hash).feeDelta⟩ := by
  obtain ⟨e, he, heq⟩ := mem_map.1 hin
  have hsome : (pool.find T hash).isSome := find?_isSome.2 ⟨e, he, decide_eq_true heq⟩
  obtain ⟨f, hf⟩ := Option.isSome_iff_exists.1 hsome
  have hf' : (pool.repriced hash delta).find T hash = some f := hf
  rw [ownAbove, ownAbove, ownBelow, ownBelow, hf, hf', state_repriced]
  simp only [updateFeeDelta, AncestorState.mk_add, DescendantState.mk_add, AncestorState.mk.injEq,
    DescendantState.mk.injEq, add_zero, true_and, and_true]
  omega

end Tracked

theorem Tallied.setDelta {R : H → H → Prop} (h : Tallied T pool R) {hash : H} (hout : hash ∉ pool.ids T) (delta : Int) :
    Tallied T { pool with mapDeltas := update pool.mapDeltas hash delta } R := by
  refine ⟨⟨h.nodup, h.support, h.mem_parents, h.mem_children, h.acyclic⟩, h.children_nodup, h.above, h.below, ?_⟩
  intro x hx
  have hxn : x ≠ hash := fun hxn => hout (hxn ▸ hx)
  show _ = update pool.mapDeltas hash _ x
  rw [update_of_ne hxn]
  exact h.deltas x hx

theorem Tallied.clearPrioritisation {R : H → H → Prop} (h : Tallied T pool R) {hash : H} (hout : hash ∉ pool.ids T) :
    Tallied T (pool.clearPrioritisation hash) R := h.setDelta hout 0

section
variable {R : H → H → Prop} {hash : H}

theorem Tallied.above_repriced (h : Tallied T pool R) (hin : hash ∈ pool.ids T) (nFeeDelta : Int) :
    ExactAbove (pool.ids T).toFinset R
      ((pool.repriced hash ((pool.state hash).feeDelta + nFeeDelta)).ownAbove T) fun x =>
        ((pool.repriced hash ((pool.state hash).feeDelta + nFeeDelta)).state x).ancestors +
          if x ∈ pool.descendantsOf T hash then ⟨0, 0, nFeeDelta, 0⟩ else 0 := by
  have hown := (own_repriced hin ((pool.state hash).feeDelta + nFeeDelta)).1
  rw [add_sub_cancel_left] at hown
  refine h.above.reweigh h.acyclic hown (fun x hx => (own_repriced_other hx _).1) ?_ fun x hx => ?_
  · have hnot : hash ∉ pool.descendantsOf T hash := fun hno => h.acyclic hash (h.mem_descendantsOf.1 hno)
    rw [if_neg hnot, add_zero, state_repriced, updateFeeDelta, add_sub_cancel_left]
  · rw [state_repriced_other hx]
    refine congrArg (_ + ·) (if_congr ?_ rfl rfl)
    rw [h.mem_descendantsOf, mem_above, mem_toFinset]
    exact ⟨fun hx => ⟨hin, hx⟩, fun hx => hx.2⟩

theorem Tallied.below_repriced (h : Tallied T pool R) (hin : hash ∈ pool.ids T) (nFeeDelta : Int) :
    ExactBelow (pool.ids T).toFinset R
      ((pool.repriced hash ((pool.state hash).feeDelta + nFeeDelta)).ownBelow T) fun x =>
        ((pool.repriced hash ((pool.state hash).feeDelta + nFeeDelta)).state x).descendants +
          if x ∈ pool.ancestorsOf T hash then ⟨0, 0, nFeeDelta⟩ else 0 := by
  have hown := (own_repriced hin ((pool.state hash).feeDelta + nFeeDelta)).2
  rw [add_sub_cancel_left] at hown
  have hswap : ∀ x, ¬TransGen (swap R) x x := fun x hx => h.acyclic x (transGen_swap.1 hx)
  refine exactAbove_swap.1 ((exactAbove_swap.2 h.below).reweigh hswap hown
    (fun x hx => (own_repriced_other hx _).2) ?_ fun x hx => ?_)
  · have hnot : hash ∉ pool.ancestorsOf T hash := fun hno => h.acyclic hash (h.mem_ancestorsOf.1 hno)
    rw [if_neg hnot, add_zero, state_repriced, updateFeeDelta, add_sub_cancel_left]
  · rw [state_repriced_other hx, above_swap]
    refine congrArg (_ + ·) (if_congr ?_ rfl rfl)
    rw [h.mem_ancestorsOf, mem_below, mem_toFinset]
    exact ⟨fun hx => ⟨hin, hx⟩, fun hx => hx.2⟩

theorem Tallied.prioritiseTransaction (h : Tallied T pool R) (hash : H) (nFeeDelta : Int) :
    Tallied T (pool.prioritiseTransaction T hash nFeeDelta) R := by
  by_cases hin : hash ∈ pool.ids T
  · rw [prioritiseTransaction_eq hin, ← h.deltas hash hin]
    refine ⟨⟨h.nodup, h.support, h.mem_parents, h.mem_children, h.acyclic⟩, h.children_nodup,
      h.above_repriced hin nFeeDelta, h.below_repriced hin nFeeDelta, fun x hx => ?_⟩
    show (update pool.state hash _ x).feeDelta = update pool.mapDeltas hash _ x
    by_cases hxn : x = hash
    · rw [hxn, update_self, update_self]
      rfl
    · rw [update_of_ne hxn, update_of_ne hxn]
      exact h.deltas x hx
  · have hnone : pool.prioritiseTransaction T hash nFeeDelta =
        { pool with mapDeltas := update pool.mapDeltas hash (pool.mapDeltas hash + nFeeDelta) } := if_neg hin
    rw [hnone]
    exact h.setDelta hin _

end

end BitCash

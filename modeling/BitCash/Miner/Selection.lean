import BitCash.Miner.Packages
import Mathlib.Algebra.BigOperators.Ring.Finset
import Mathlib.Algebra.Order.BigOperators.Group.Finset

/-!
# The block body that package selection builds
-/

set_option linter.unusedSectionVars false

namespace BitCash
open Kin Relation Tracked PackageEnv CTxMemPoolModifiedEntry List Int AddMonoidHom

variable {H : Type} [Inhabited H] [DecidableEq H] {T : TrackEnv H} {env : PackageEnv H} {pool : Tracked H}
  {B C : Finset H} {x it iter y : H} {added : List H} {m' : CTxMemPoolModifiedEntry H}

structure ExactMempool (T : TrackEnv H) (pool : Tracked H) : Prop extends ExactPool T pool where
  nodup : (pool.ids T).Nodup
  acyclic : ∀ x, ¬TransGen (Parent T pool) x x

theorem PoolInv.exactMempool (h : PoolInv T pool []) : ExactMempool T pool := by
  have ht := h.tallied
  rw [storedLink_nil] at ht
  exact ⟨h.exactPool, ht.nodup, ht.acyclic⟩

theorem ExactMempool.linked (h : ExactMempool T pool) : Linked T pool (Parent T pool) :=
  ⟨h.nodup, fun _ _ hpc => parent_support hpc, h.parents, h.children, h.acyclic⟩

/-! ## sums -/

theorem getTxSize_nonneg (x : H) : 0 ≤ pool.getTxSize T x := by
  unfold getTxSize
  cases pool.find T x with
  | none => exact le_refl 0
  | some e => exact natCast_nonneg _

theorem getSigOpCost_nonneg (x : H) : 0 ≤ pool.getSigOpCost T x := by
  unfold getSigOpCost
  cases pool.find T x with
  | none => exact le_refl 0
  | some e => exact natCast_nonneg _

theorem getTxWeight_le (x : H) : pool.getTxWeight T x ≤ WITNESS_SCALE_FACTOR * pool.getTxSize T x := by
  unfold getTxWeight getTxSize
  cases pool.find T x with
  | none => exact le_refl 0
  | some e =>
    show (e.nTxWeight : Int) ≤ WITNESS_SCALE_FACTOR * (e.getTxSize T.nBytesPerSigOp : Int)
    have hmax : e.nTxWeight ≤ max e.nTxWeight (e.sigOpCost * T.nBytesPerSigOp) := le_max_left _ _
    unfold TrackedEntry.getTxSize WITNESS_SCALE_FACTOR
    omega

theorem nSize_sum (s : Finset H) (f : H → AncestorState) :
    (∑ y ∈ s, f y).nSizeWithAncestors = ∑ y ∈ s, (f y).nSizeWithAncestors :=
  map_sum (mk' AncestorState.nSizeWithAncestors fun _ _ => rfl) f s

theorem nSigOpCost_sum (s : Finset H) (f : H → AncestorState) :
    (∑ y ∈ s, f y).nSigOpCostWithAncestors = ∑ y ∈ s, (f y).nSigOpCostWithAncestors :=
  map_sum (mk' AncestorState.nSigOpCostWithAncestors fun _ _ => rfl) f s

theorem nCount_sum (s : Finset H) (f : H → AncestorState) :
    (∑ y ∈ s, f y).nCountWithAncestors = ∑ y ∈ s, (f y).nCountWithAncestors :=
  map_sum (mk' AncestorState.nCountWithAncestors fun _ _ => rfl) f s

theorem own_nSize (x : H) : (pool.ownAbove T x).nSizeWithAncestors = pool.getTxSize T x := by
  unfold ownAbove getTxSize
  cases pool.find T x <;> rfl

theorem own_nSigOpCost (x : H) : (pool.ownAbove T x).nSigOpCostWithAncestors = pool.getSigOpCost T x := by
  unfold ownAbove getSigOpCost
  cases pool.find T x <;> rfl

theorem own_nCount (hx : x ∈ pool.ids T) : (pool.ownAbove T x).nCountWithAncestors = 1 := by
  obtain ⟨e, he, heq⟩ := List.mem_map.1 hx
  have hsome : (pool.find T x).isSome := List.find?_isSome.2 ⟨e, he, decide_eq_true heq⟩
  obtain ⟨f, hf⟩ := Option.isSome_iff_exists.1 hsome
  rw [ownAbove, hf]

noncomputable def left (T : TrackEnv H) (pool : Tracked H) (B : Finset H) (x : H) : Finset H :=
  remaining (pool.ids T).toFinset (Parent T pool) B x

section
variable (h : ExactMempool T pool)
include h

theorem ExactMempool.ancestors_eq (hx : x ∈ pool.ids T) :
    (pool.state x).ancestors = ∑ y ∈ left T pool ∅ x, pool.ownAbove T y :=
  h.ancestors.sum_remaining (h.acyclic x) (List.mem_toFinset.2 hx)

theorem ExactMempool.mem_ids_of_left (hx : x ∈ pool.ids T) (hy : y ∈ left T pool B x) : y ∈ pool.ids T := by
  rcases (mem_remaining.1 hy).1 with rfl | ⟨hy, -⟩
  · exact hx
  · exact List.mem_toFinset.1 hy

theorem ExactMempool.getCountWithAncestors_eq (hx : x ∈ pool.ids T) :
    pool.getCountWithAncestors x = (left T pool ∅ x).card := by
  have hone : ∀ y ∈ left T pool ∅ x, (pool.ownAbove T y).nCountWithAncestors = 1 :=
    fun y hy => own_nCount (h.mem_ids_of_left hx hy)
  rw [getCountWithAncestors, h.ancestors_eq hx, nCount_sum, Finset.sum_congr rfl hone, Finset.sum_const, nsmul_eq_mul,
    mul_one]

theorem ExactMempool.count_lt {a : H} (hax : TransGen (Parent T pool) a x) :
    pool.getCountWithAncestors a < pool.getCountWithAncestors x := by
  obtain ⟨ha, hx⟩ := h.linked.mem_ids_of_transGen hax
  rw [h.getCountWithAncestors_eq ha, h.getCountWithAncestors_eq hx]
  exact_mod_cast card_remaining_lt (h.acyclic x) (List.mem_toFinset.2 ha) hax

end

/-! ## entries of `mapModifiedTx` -/

structure ModOk (T : TrackEnv H) (pool : Tracked H) (B : Finset H) (m : CTxMemPoolModifiedEntry H) : Prop where
  inPool : m.iter ∈ pool.ids T
  size : ∑ y ∈ left T pool B m.iter, pool.getTxSize T y ≤ m.nSizeWithAncestors
  sigOps : ∑ y ∈ left T pool B m.iter, pool.getSigOpCost T y ≤ m.nSigOpCostWithAncestors

theorem left_subset (hBC : B ⊆ C) (x : H) : left T pool C x ⊆ left T pool B x :=
  Finset.sdiff_subset_sdiff (Finset.Subset.refl _) hBC

theorem ModOk.mono {m : CTxMemPoolModifiedEntry H} (hm : ModOk T pool B m) (hBC : B ⊆ C) : ModOk T pool C m := by
  refine ⟨hm.inPool, le_trans ?_ hm.size, le_trans ?_ hm.sigOps⟩
  · exact Finset.sum_le_sum_of_subset_of_nonneg (left_subset hBC _) fun y _ _ => getTxSize_nonneg y
  · exact Finset.sum_le_sum_of_subset_of_nonneg (left_subset hBC _) fun y _ _ => getSigOpCost_nonneg y

theorem ExactMempool.modOk_ofEntry (h : ExactMempool T pool) (hx : x ∈ pool.ids T) (B : Finset H) :
    ModOk T pool B (ofEntry pool x) := by
  have hempty : ModOk T pool ∅ (ofEntry pool x) := by
    refine ⟨hx, le_of_eq ?_, le_of_eq ?_⟩
    · show _ = (pool.state x).ancestors.nSizeWithAncestors
      rw [h.ancestors_eq hx, nSize_sum]
      exact Finset.sum_congr rfl fun y _ => (own_nSize y).symm
    · show _ = (pool.state x).ancestors.nSigOpCostWithAncestors
      rw [h.ancestors_eq hx, nSigOpCost_sum]
      exact Finset.sum_congr rfl fun y _ => (own_nSigOpCost y).symm
  exact hempty.mono (Finset.empty_subset B)

theorem ModOk.subtract {m : CTxMemPoolModifiedEntry H} (hm : ModOk T pool B m)
    (hit : it ∈ left T pool B m.iter) (hiter : m'.iter = m.iter)
    (hsize : m'.nSizeWithAncestors = m.nSizeWithAncestors - pool.getTxSize T it)
    (hsigOps : m'.nSigOpCostWithAncestors = m.nSigOpCostWithAncestors - pool.getSigOpCost T it) :
    ModOk T pool (insert it B) m' := by
  have herase : left T pool (insert it B) m'.iter = (left T pool B m.iter).erase it := by
    rw [hiter]
    exact remaining_insert
  refine ⟨hiter ▸ hm.inPool, ?_, ?_⟩
  · rw [herase, hsize, Finset.sum_erase_eq_sub hit]
    exact Int.sub_le_sub_right hm.size _
  · rw [herase, hsigOps, Finset.sum_erase_eq_sub hit]
    exact Int.sub_le_sub_right hm.sigOps _

theorem iters_includeParent (it : H) (l : List (CTxMemPoolModifiedEntry H)) (desc : H) :
    (includeParent T pool it l desc).map (·.iter) = changeSet true desc (l.map (·.iter)) := by
  have hany : (l.any fun e => e.iter = desc) = true ↔ desc ∈ l.map (·.iter) := by simp
  unfold includeParent changeSet
  by_cases hd : desc ∈ l.map (·.iter)
  · rw [if_pos (hany.2 hd), if_pos rfl, if_pos hd, List.map_map]
    refine List.map_congr_left fun e _ => ?_
    show (if e.iter = desc then e.updateForParentInclusion T pool it else e).iter = e.iter
    split <;> rfl
  · rw [if_neg (mt hany.1 hd), if_pos rfl, if_neg hd, map_append]
    rfl

theorem mem_includeParent {desc : H} {l : List (CTxMemPoolModifiedEntry H)}
    (hm' : m' ∈ includeParent T pool it l desc) : m' ∈ l ∧ m'.iter ≠ desc ∨ m'.iter = desc ∧
      (m' = withoutParent T pool it desc ∨ ∃ m ∈ l, m.iter = desc ∧ m' = m.updateForParentInclusion T pool it) := by
  unfold includeParent at hm'
  split at hm'
  · obtain ⟨m, hm, rfl⟩ := List.mem_map.1 hm'
    by_cases hd : m.iter = desc
    · rw [if_pos hd]
      exact .inr ⟨hd, .inr ⟨m, hm, hd, rfl⟩⟩
    · rw [if_neg hd]
      exact .inl ⟨hm, hd⟩
  · rename_i hnone
    rcases List.mem_append.1 hm' with hm | hm
    · refine .inl ⟨hm, fun hd => hnone ?_⟩
      exact List.any_eq_true.2 ⟨m', hm, decide_eq_true hd⟩
    · rw [List.mem_singleton.1 hm]
      exact .inr ⟨rfl, .inl rfl⟩

section
variable (h : ExactMempool T pool) {l : List (CTxMemPoolModifiedEntry H)}
include h

theorem ExactMempool.modOk_descendants (hit : it ∉ B) {D : List H} (hD : D.Nodup)
    (hdesc : ∀ d ∈ D, TransGen (Parent T pool) it d)
    (hl : ∀ m ∈ l, (m.iter ∈ D → ModOk T pool B m) ∧ (m.iter ∉ D → ModOk T pool (insert it B) m)) :
    ∀ m ∈ D.foldl (includeParent T pool it) l, ModOk T pool (insert it B) m := by
  induction D generalizing l with
  | nil => exact fun m hm => (hl m hm).2 not_mem_nil
  | cons d D ih =>
    obtain ⟨hd, hD⟩ := List.nodup_cons.1 hD
    have hanc := hdesc d mem_cons_self
    obtain ⟨hitPool, hdPool⟩ := h.linked.mem_ids_of_transGen hanc
    have hleft : it ∈ left T pool B d := mem_remaining.2 ⟨.inr ⟨List.mem_toFinset.2 hitPool, hanc⟩, hit⟩
    refine ih hD (fun x hx => hdesc x (mem_cons_of_mem d hx)) fun m' hm' => ?_
    rcases mem_includeParent hm' with ⟨hm, hne⟩ | ⟨hiter, hnew⟩
    · have hcons : m'.iter ∈ d :: D ↔ m'.iter ∈ D := by rw [mem_cons, or_iff_right hne]
      have hm := hl m' hm
      rwa [hcons] at hm
    · refine ⟨fun hno => absurd (hiter ▸ hno) hd, fun _ => ?_⟩
      rcases hnew with rfl | ⟨m, hm, rfl, rfl⟩
      · exact (h.modOk_ofEntry hdPool B).subtract hleft rfl rfl rfl
      · exact ((hl m hm).1 mem_cons_self).subtract hleft rfl rfl rfl

theorem ExactMempool.transGen_of_descendants {d : H} (hit : it ∈ added)
    (hd : d ∈ (pool.calculateDescendants T [it]).filter (· ∉ added)) : TransGen (Parent T pool) it d ∧ d ∉ added := by
  obtain ⟨hd, hadded⟩ := List.mem_filter.1 hd
  have hadded : d ∉ added := of_decide_eq_true hadded
  obtain ⟨a, ha, had⟩ := h.linked.mem_calculateDescendants.1 hd
  rw [List.mem_singleton.1 ha] at had
  have hne : d ≠ it := fun heq => hadded (heq ▸ hit)
  exact ⟨(reflTransGen_iff_eq_or_transGen.1 had).resolve_left hne, hadded⟩

theorem ExactMempool.modOk_added {Q : List H} (hQ : Q ⊆ added) (hnodup : Q.Nodup)
    (hnew : ∀ it ∈ Q, it ∉ B) (hl : ∀ m ∈ l, ModOk T pool B m) :
    ∀ m ∈ Q.foldl (fun m it => ((pool.calculateDescendants T [it]).filter (· ∉ added)).foldl
      (includeParent T pool it) m) l, ModOk T pool (B ∪ Q.toFinset) m := by
  induction Q generalizing B l with
  | nil =>
    intro m hm
    rw [toFinset_nil, Finset.union_empty]
    exact hl m hm
  | cons it Q ih =>
    obtain ⟨hit, hnodup⟩ := List.nodup_cons.1 hnodup
    have hitB := hnew it mem_cons_self
    rw [toFinset_cons, Finset.union_insert, ← Finset.insert_union]
    refine ih (List.Subset.trans (subset_cons_self it Q) hQ) hnodup (fun x hx => ?_) ?_
    · rw [Finset.mem_insert, not_or]
      exact ⟨fun heq => hit (heq ▸ hx), hnew x (mem_cons_of_mem it hx)⟩
    · refine h.modOk_descendants hitB (Walk.reached_nodup.filter _)
        (fun d hd => (h.transGen_of_descendants (hQ mem_cons_self) hd).1) fun m hm => ?_
      exact ⟨fun _ => hl m hm, fun _ => (hl m hm).mono (Finset.subset_insert it B)⟩

end

structure UpdatedIters (T : TrackEnv H) (pool : Tracked H) (added : List H)
    (l k : List (CTxMemPoolModifiedEntry H)) : Prop where
  nodup : (k.map (·.iter)).Nodup
  iters : ∀ d ∈ k.map (·.iter),
    d ∈ l.map (·.iter) ∨ d ∉ added ∧ ∃ it ∈ added, TransGen (Parent T pool) it d

theorem ExactMempool.updatedIters (h : ExactMempool T pool) {l : List (CTxMemPoolModifiedEntry H)}
    (hl : (l.map (·.iter)).Nodup) : UpdatedIters T pool added l (updatePackagesForAdded T pool added l) := by
  refine List.foldlRecOn added _ ⟨hl, fun d hd => .inl hd⟩ fun k hk it hit => ?_
  refine List.foldlRecOn _ _ hk fun k hk d hd => ?_
  obtain ⟨hanc, hadded⟩ := h.transGen_of_descendants hit hd
  refine ⟨?_, fun y hy => ?_⟩
  · rw [iters_includeParent]
    exact changeSet_nodup hk.nodup
  · rw [iters_includeParent] at hy
    rcases mem_changeSet_true.1 hy with hy | rfl
    · exact hk.iters y hy
    · exact .inr ⟨hadded, it, hit, hanc⟩

/-! ## the body -/

structure BlockOk (T : TrackEnv H) (env : PackageEnv H) (pool : Tracked H) (b : BlockAssembler H) : Prop where
  nodup : b.vtx.Nodup
  inPool : b.vtx ⊆ pool.ids T
  inBlock : ∀ x, x ∈ b.inBlock ↔ x ∈ b.vtx
  closed : ∀ x ∈ b.vtx, ∀ a, TransGen (Parent T pool) a x → a ∈ b.vtx
  order : b.vtx.Pairwise fun x y => ¬TransGen (Parent T pool) y x
  weight : b.nBlockWeight = 4000 + (b.vtx.map (pool.getTxWeight T)).sum
  sigOps : b.nBlockSigOpsCost = 400 + (b.vtx.map (pool.getSigOpCost T)).sum
  fits : b.vtx = [] ∨ b.nBlockWeight < env.nBlockMaxWeight ∧ b.nBlockSigOpsCost < MAX_BLOCK_SIGOPS_COST

theorem blockOk_resetBlock : BlockOk T env pool .resetBlock where
  nodup := nodup_nil
  inPool := nil_subset _
  inBlock _ := Iff.rfl
  closed _ hx := absurd hx not_mem_nil
  order := .nil
  weight := rfl
  sigOps := rfl
  fits := .inl rfl

theorem foldl_addToBlock (T : TrackEnv H) (pool : Tracked H) (l : List H) (b : BlockAssembler H) :
    (l.foldl (addToBlock T pool) b).vtx = b.vtx ++ l ∧
      (l.foldl (addToBlock T pool) b).nBlockWeight = b.nBlockWeight + (l.map (pool.getTxWeight T)).sum ∧
      (l.foldl (addToBlock T pool) b).nBlockSigOpsCost = b.nBlockSigOpsCost + (l.map (pool.getSigOpCost T)).sum ∧
      ∀ x, x ∈ (l.foldl (addToBlock T pool) b).inBlock ↔ x ∈ b.inBlock ∨ x ∈ l := by
  induction l generalizing b with
  | nil => simp
  | cons y l ih =>
    obtain ⟨hvtx, hweight, hsigOps, hinBlock⟩ := ih (addToBlock T pool b y)
    refine ⟨?_, ?_, ?_, fun x => ?_⟩
    · rw [foldl_cons, hvtx]
      exact append_assoc _ [y] l
    · rw [foldl_cons, hweight, map_cons, sum_cons, ← add_assoc]
      rfl
    · rw [foldl_cons, hsigOps, map_cons, sum_cons, ← add_assoc]
      rfl
    · rw [foldl_cons, hinBlock, mem_cons, ← or_assoc]
      exact or_congr_left mem_changeSet_true

theorem countLe_iff : countLe env pool x y ↔ pool.getCountWithAncestors x < pool.getCountWithAncestors y ∨
      pool.getCountWithAncestors x = pool.getCountWithAncestors y ∧ env.hashLe x y := by
  unfold countLe
  by_cases heq : pool.getCountWithAncestors x = pool.getCountWithAncestors y
  · rw [if_neg (not_not.2 heq)]
    simp [heq]
  · rw [if_pos heq]
    simp [heq]

theorem countLe_trans (x y z : H) (hxy : countLe env pool x y) (hyz : countLe env pool y z) :
    countLe env pool x z := by
  rw [countLe_iff] at hxy hyz ⊢
  rcases hxy with hxy | ⟨hxy, hhash⟩
  · exact .inl (lt_of_lt_of_le hxy (hyz.elim le_of_lt fun hyz => le_of_eq hyz.1))
  · rcases hyz with hyz | ⟨hyz, hhash'⟩
    · exact .inl (hxy ▸ hyz)
    · exact .inr ⟨hxy.trans hyz, env.hashLe_trans x y z hhash hhash'⟩

theorem countLe_total (x y : H) : (countLe env pool x y || countLe env pool y x) := by
  rw [Bool.or_eq_true, countLe_iff, countLe_iff]
  rcases lt_trichotomy (pool.getCountWithAncestors x) (pool.getCountWithAncestors y) with hlt | heq | hgt
  · exact .inl (.inl hlt)
  · have hhash := env.hashLe_total x y
    rw [Bool.or_eq_true] at hhash
    exact hhash.imp (fun hxy => .inr ⟨heq, hxy⟩) fun hyx => .inr ⟨heq.symm, hyx⟩
  · exact .inr (.inl hgt)

theorem packageOf_nodup (b : BlockAssembler H) (iter : H) : (packageOf T env pool b iter).Nodup :=
  (mergeSort_perm _ _).nodup_iff.2 (changeSet_nodup (Walk.reached_nodup.filter _))

structure PackageFor (T : TrackEnv H) (pool : Tracked H) (b : BlockAssembler H) (iter : H) (l : List H) : Prop where
  nodup : l.Nodup
  mem : ∀ x, x ∈ l ↔ (x = iter ∨ x ∈ pool.ids T ∧ TransGen (Parent T pool) x iter) ∧ x ∉ b.vtx
  order : l.Pairwise fun x y => ¬TransGen (Parent T pool) y x

theorem PackageFor.sum_map {b : BlockAssembler H} {l : List H} (hl : PackageFor T pool b iter l) (f : H → Int) :
    (l.map f).sum = ∑ y ∈ left T pool b.vtx.toFinset iter, f y := by
  have hset : l.toFinset = left T pool b.vtx.toFinset iter := by
    ext x
    rw [mem_toFinset, hl.mem, left, mem_remaining, mem_toFinset, mem_toFinset]
  rw [← sum_toFinset f hl.nodup, hset]

section
variable (h : ExactMempool T pool)
include h

theorem ExactMempool.sortForBlock_order (package : List H) :
    (sortForBlock env pool package).Pairwise fun x y => ¬TransGen (Parent T pool) y x := by
  refine (pairwise_mergeSort countLe_trans countLe_total package).imp fun {x y} hxy hanc => ?_
  have hlt := h.count_lt hanc
  rcases countLe_iff.1 hxy with hxy | ⟨hxy, -⟩
  · exact lt_asymm hlt hxy
  · exact (ne_of_lt hlt) hxy.symm

variable {b : BlockAssembler H} (hb : BlockOk T env pool b)
include hb

theorem ExactMempool.mem_packageOf (hiter : iter ∉ b.vtx) : x ∈ packageOf T env pool b iter ↔
    (x = iter ∨ x ∈ pool.ids T ∧ TransGen (Parent T pool) x iter) ∧ x ∉ b.vtx := by
  have hne : x = iter → x ∉ b.vtx := fun heq hx => hiter (heq ▸ hx)
  have hpool : TransGen (Parent T pool) x iter → x ∈ pool.ids T := fun hx => (h.linked.mem_ids_of_transGen hx).1
  rw [packageOf, (mergeSort_perm _ _).mem_iff, mem_changeSet_true, mem_filter, h.linked.mem_ancestorsOf,
    decide_eq_true_eq, hb.inBlock]
  tauto

theorem ExactMempool.packageFor (hiter : iter ∉ b.vtx) :
    PackageFor T pool b iter (sortForBlock env pool (packageOf T env pool b iter)) where
  nodup := (mergeSort_perm _ _).nodup_iff.2 (packageOf_nodup b iter)
  mem _ := (mergeSort_perm _ _).mem_iff.trans (h.mem_packageOf hb hiter)
  order := h.sortForBlock_order _

end

section
variable {b : BlockAssembler H} {m : CTxMemPoolModifiedEntry H} {l : List H}

theorem PackageFor.fits (hl : PackageFor T pool b m.iter l) (hm : ModOk T pool b.vtx.toFinset m)
    (hfits : testPackage env b m.nSizeWithAncestors m.nSigOpCostWithAncestors) :
    b.nBlockWeight + (l.map (pool.getTxWeight T)).sum < env.nBlockMaxWeight ∧
      b.nBlockSigOpsCost + (l.map (pool.getSigOpCost T)).sum < MAX_BLOCK_SIGOPS_COST := by
  have hweight : (l.map (pool.getTxWeight T)).sum ≤ WITNESS_SCALE_FACTOR * m.nSizeWithAncestors := by
    calc (l.map (pool.getTxWeight T)).sum
        = ∑ y ∈ left T pool b.vtx.toFinset m.iter, pool.getTxWeight T y := hl.sum_map _
      _ ≤ ∑ y ∈ left T pool b.vtx.toFinset m.iter, WITNESS_SCALE_FACTOR * pool.getTxSize T y :=
          Finset.sum_le_sum fun y _ => getTxWeight_le y
      _ = WITNESS_SCALE_FACTOR * ∑ y ∈ left T pool b.vtx.toFinset m.iter, pool.getTxSize T y :=
          (Finset.mul_sum ..).symm
      _ ≤ WITNESS_SCALE_FACTOR * m.nSizeWithAncestors := Int.mul_le_mul_of_nonneg_left hm.size (natCast_nonneg _)
  have hsigOps : (l.map (pool.getSigOpCost T)).sum ≤ m.nSigOpCostWithAncestors := hl.sum_map _ ▸ hm.sigOps
  unfold testPackage at hfits
  split at hfits
  · exact absurd hfits Bool.false_ne_true
  · split at hfits
    · exact absurd hfits Bool.false_ne_true
    · omega

theorem BlockOk.addPackage (hb : BlockOk T env pool b) (h : ExactMempool T pool) (hl : PackageFor T pool b m.iter l)
    (hm : ModOk T pool b.vtx.toFinset m)
    (hfits : testPackage env b m.nSizeWithAncestors m.nSigOpCostWithAncestors) :
    BlockOk T env pool (l.foldl (addToBlock T pool) b) := by
  obtain ⟨hvtx, hweight, hsigOps, hinBlock⟩ := foldl_addToBlock T pool l b
  obtain ⟨hltW, hltS⟩ := hl.fits hm hfits
  refine ⟨?_, ?_, fun x => ?_, ?_, ?_, ?_, ?_, .inr ⟨hweight ▸ hltW, hsigOps ▸ hltS⟩⟩
  · rw [hvtx]
    exact List.nodup_append'.2 ⟨hb.nodup, hl.nodup, fun x hx hxl => ((hl.mem x).1 hxl).2 hx⟩
  · rw [hvtx]
    refine List.append_subset.2 ⟨hb.inPool, fun x hx => ?_⟩
    rcases ((hl.mem x).1 hx).1 with rfl | ⟨hx, -⟩
    · exact hm.inPool
    · exact hx
  · rw [hinBlock, hb.inBlock, hvtx, mem_append]
  · rw [hvtx]
    intro x hx a hax
    refine List.mem_append.2 ((List.mem_append.1 hx).elim (fun hx => .inl (hb.closed x hx a hax)) fun hx => ?_)
    by_cases ha : a ∈ b.vtx
    · exact .inl ha
    · have hanc : TransGen (Parent T pool) a m.iter := by
        rcases ((hl.mem x).1 hx).1 with rfl | ⟨-, hxm⟩
        · exact hax
        · exact hax.trans hxm
      exact .inr ((hl.mem a).2 ⟨.inr ⟨(h.linked.mem_ids_of_transGen hanc).1, hanc⟩, ha⟩)
  · rw [hvtx]
    refine List.pairwise_append.2 ⟨hb.order, hl.order, fun x hx y hy hyx => ?_⟩
    exact ((hl.mem y).1 hy).2 (hb.closed x hx y hyx)
  · rw [hweight, hb.weight, hvtx, map_append, sum_append, add_assoc]
  · rw [hsigOps, hb.sigOps, hvtx, map_append, sum_append, add_assoc]

end

/-! ## the loop -/

structure SelectInv (T : TrackEnv H) (env : PackageEnv H) (pool : Tracked H) (s : PackageState H) : Prop where
  block : BlockOk T env pool s.assembler
  mi : s.mi ⊆ pool.ids T
  short : s.mi.length ≤ (pool.ids T).length
  modified : ∀ m ∈ s.mapModifiedTx, ModOk T pool s.assembler.vtx.toFinset m
  iters : (s.mapModifiedTx.map (·.iter)).Nodup
  apart : ∀ m ∈ s.mapModifiedTx, m.iter ∉ s.assembler.vtx

def work (T : TrackEnv H) (pool : Tracked H) (s : PackageState H) : Nat :=
  ((pool.ids T).length - s.assembler.vtx.length) * (2 * (pool.ids T).length + 2) + s.mi.length + s.mapModifiedTx.length

def RoundOk (T : TrackEnv H) (env : PackageEnv H) (pool : Tracked H) (s : PackageState H) :
    PackageRound H → Prop
  | .again s' => SelectInv T env pool s' ∧ work T pool s' < work T pool s
  | .stop s' => BlockOk T env pool s'.assembler
  | .assertion => False

structure CandidateOk (T : TrackEnv H) (pool : Tracked H) (s : PackageState H) (c : Candidate H) : Prop where
  entry : ModOk T pool s.assembler.vtx.toFinset c.entry
  new : c.entry.iter ∉ s.assembler.vtx
  mi : c.mi <:+ s.mi
  taken : c.fUsingModified = true ∧ c.entry ∈ s.mapModifiedTx ∨ c.fUsingModified = false ∧ c.mi.length < s.mi.length

theorem candidate_cases {s : PackageState H} {c : Candidate H} (hc : candidate env pool s = some c) :
    (c.fUsingModified ∧ c.entry ∈ s.mapModifiedTx ∧ c.mi = s.mi) ∨
      ∃ it, s.mi = it :: c.mi ∧ c.entry = ofEntry pool it ∧ c.fUsingModified = false := by
  unfold candidate at hc
  split at hc
  · cases hc
  · rename_i hmi hbest
    cases hc
    exact .inl ⟨rfl, env.best_mem _ _ hbest, hmi.symm⟩
  · rename_i hmi hbest
    cases hc
    exact .inr ⟨_, hmi, rfl, rfl⟩
  · rename_i hmi hbest
    split at hc <;> cases hc
    · exact .inl ⟨rfl, env.best_mem _ _ hbest, hmi.symm⟩
    · exact .inr ⟨_, hmi, rfl, rfl⟩

section
variable {s : PackageState H} {c : Candidate H}

section
variable (hs : SelectInv T env pool s)
include hs

theorem SelectInv.candidateOk (h : ExactMempool T pool)
    (hskip : ∀ it ∈ s.mi.head?, it ∉ s.assembler.vtx) (hc : candidate env pool s = some c) :
    CandidateOk T pool s c := by
  rcases candidate_cases hc with ⟨hmod, hentry, hmi⟩ | ⟨it, hmi, hentry, hmod⟩
  · exact ⟨hs.modified _ hentry, hs.apart _ hentry, hmi ▸ suffix_refl _, .inl ⟨hmod, hentry⟩⟩
  · have hit : it ∈ pool.ids T := hs.mi (hmi ▸ mem_cons_self)
    have hnew : it ∉ s.assembler.vtx := hskip it (by rw [hmi]; rfl)
    refine ⟨hentry ▸ h.modOk_ofEntry hit _, ?_, hmi ▸ suffix_cons it c.mi, .inr ⟨hmod, ?_⟩⟩
    · rw [hentry]
      exact hnew
    · rw [hmi]
      exact Nat.lt_succ_self _

theorem SelectInv.modified_length : s.mapModifiedTx.length ≤ (pool.ids T).length := by
  have hsub : s.mapModifiedTx.map (·.iter) ⊆ pool.ids T := by
    intro x hx
    obtain ⟨m, hm, rfl⟩ := List.mem_map.1 hx
    exact (hs.modified m hm).inPool
  rw [← length_map (·.iter)]
  exact (subperm_of_subset hs.iters hsub).length_le

theorem SelectInv.counted (n : Nat) : SelectInv T env pool { s with nConsecutiveFailed := n } :=
  ⟨hs.block, hs.mi, hs.short, hs.modified, hs.iters, hs.apart⟩

theorem SelectInv.reject (hc : CandidateOk T pool s c) :
    SelectInv T env pool (PackageEnv.reject s c) ∧ work T pool (PackageEnv.reject s c) < work T pool s := by
  have hmi : c.mi ⊆ pool.ids T := List.Subset.trans hc.mi.subset hs.mi
  have hshort := le_trans hc.mi.length_le hs.short
  unfold PackageEnv.reject
  rcases hc.taken with ⟨hmod, hentry⟩ | ⟨hmod, hless⟩
  · rw [if_pos hmod]
    refine ⟨⟨hs.block, hmi, hshort, ?_, ?_, ?_⟩, ?_⟩
    · exact fun m hm => hs.modified m (List.mem_filter.1 hm).1
    · exact hs.iters.sublist (List.filter_sublist.map _)
    · exact fun m hm => hs.apart m (List.mem_filter.1 hm).1
    · have hfewer : (s.mapModifiedTx.filter fun e => e.iter ≠ c.entry.iter).length < s.mapModifiedTx.length :=
        List.length_filter_lt_length_iff_exists.2 ⟨c.entry, hentry, by simp⟩
      exact Nat.add_lt_add_of_le_of_lt (Nat.add_le_add_left hc.mi.length_le _) hfewer
  · rw [if_neg (Bool.eq_false_iff.1 hmod)]
    exact ⟨⟨hs.block, hmi, hshort, hs.modified, hs.iters, hs.apart⟩,
      Nat.add_lt_add_right (Nat.add_lt_add_left hless _) _⟩

theorem SelectInv.update (h : ExactMempool T pool) {P : List H} (hnodup : P.Nodup)
    (hnew : ∀ x ∈ P, x ∉ s.assembler.vtx) {l : List (CTxMemPoolModifiedEntry H)}
    (hl : l = updatePackagesForAdded T pool P (s.mapModifiedTx.filter fun e => e.iter ∉ P)) :
    (∀ m ∈ l, ModOk T pool (s.assembler.vtx.toFinset ∪ P.toFinset) m) ∧ (l.map (·.iter)).Nodup ∧
      ∀ m ∈ l, m.iter ∉ s.assembler.vtx ∧ m.iter ∉ P := by
  have hupdated : UpdatedIters T pool P (s.mapModifiedTx.filter fun e => e.iter ∉ P) l :=
    hl ▸ h.updatedIters (hs.iters.sublist (List.filter_sublist.map _))
  refine ⟨?_, hupdated.nodup, fun m hm => ?_⟩
  · rw [hl]
    exact h.modOk_added (List.Subset.refl P) hnodup (fun x hx hB => hnew x hx (List.mem_toFinset.1 hB))
      fun m hm => hs.modified m (List.mem_filter.1 hm).1
  · rcases hupdated.iters m.iter (mem_map_of_mem hm) with hold | ⟨hmP, it, hit, hanc⟩
    · obtain ⟨m', hm', heq⟩ := List.mem_map.1 hold
      obtain ⟨hm', hP⟩ := List.mem_filter.1 hm'
      exact heq ▸ ⟨hs.apart m' hm', of_decide_eq_true hP⟩
    · exact ⟨fun hmB => hnew it hit (hs.block.closed m.iter hmB it hanc), hmP⟩

theorem SelectInv.addPackage (h : ExactMempool T pool) (hc : CandidateOk T pool s c)
    (hfits : testPackage env s.assembler c.entry.nSizeWithAncestors c.entry.nSigOpCostWithAncestors) :
    SelectInv T env pool (PackageEnv.addPackage T env pool s c (packageOf T env pool s.assembler c.entry.iter)) := by
  have hfor := h.packageFor hs.block hc.new
  have hblock := hs.block.addPackage h hfor hc.entry hfits
  obtain ⟨hmodified, hiters, hapart⟩ := hs.update h (packageOf_nodup _ _)
    (fun x hx => ((h.mem_packageOf hs.block hc.new).1 hx).2) rfl
  have hvtx := (foldl_addToBlock T pool (sortForBlock env pool (packageOf T env pool s.assembler c.entry.iter))
    s.assembler).1
  have hperm : (sortForBlock env pool (packageOf T env pool s.assembler c.entry.iter)).Perm
      (packageOf T env pool s.assembler c.entry.iter) := mergeSort_perm _ _
  refine ⟨hblock, List.Subset.trans hc.mi.subset hs.mi, le_trans hc.mi.length_le hs.short, fun m hm => ?_, hiters,
    fun m hm => ?_⟩
  · show ModOk T pool (List.foldl (addToBlock T pool) s.assembler _).vtx.toFinset m
    rw [hvtx, toFinset_append, toFinset_eq_of_perm _ _ hperm]
    exact hmodified m hm
  · show m.iter ∉ (List.foldl (addToBlock T pool) s.assembler _).vtx
    rw [hvtx, mem_append, hperm.mem_iff, not_or]
    exact hapart m hm

end

theorem SelectInv.work_lt {s' : PackageState H} (hs' : SelectInv T env pool s')
    (hgrows : s.assembler.vtx.length < s'.assembler.vtx.length) : work T pool s' < work T pool s := by
  have hfull := (subperm_of_subset hs'.block.nodup hs'.block.inPool).length_le
  have hmodified := hs'.modified_length
  have hshort := hs'.short
  unfold work
  generalize (pool.ids T).length = N at *
  have hless : N - s'.assembler.vtx.length + 1 ≤ N - s.assembler.vtx.length := by omega
  have hmul := Nat.mul_le_mul_right (2 * N + 2) hless
  rw [Nat.succ_mul] at hmul
  omega

section
variable (hs : SelectInv T env pool s)
include hs

section
variable (h : ExactMempool T pool)
include h

theorem SelectInv.vtx_grows (hc : CandidateOk T pool s c) :
    s.assembler.vtx.length < (PackageEnv.addPackage T env pool s c
      (packageOf T env pool s.assembler c.entry.iter)).assembler.vtx.length := by
  have hself := ((h.packageFor hs.block hc.new).mem c.entry.iter).2 ⟨.inl rfl, hc.new⟩
  have hvtx := (foldl_addToBlock T pool (sortForBlock env pool (packageOf T env pool s.assembler c.entry.iter))
    s.assembler).1
  show _ < (List.foldl (addToBlock T pool) s.assembler _).vtx.length
  rw [hvtx, length_append]
  exact Nat.lt_add_of_pos_right (length_pos_of_mem hself)

theorem SelectInv.consider (hc : CandidateOk T pool s c) :
    RoundOk T env pool s (PackageEnv.consider T env pool s c) := by
  obtain ⟨hreject, hless⟩ := hs.reject hc
  unfold PackageEnv.consider
  dsimp only
  split
  · rename_i hin
    exact hc.new ((hs.block.inBlock _).1 hin)
  split
  · exact hs.block
  split
  · split
    · exact (hreject.counted _).block
    · exact ⟨hreject.counted _, hless⟩
  split
  · exact ⟨hreject, hless⟩
  · rename_i hfits _
    have hs' := hs.addPackage h hc (by simpa using hfits)
    exact ⟨hs', hs'.work_lt (hs.vtx_grows h hc)⟩

theorem SelectInv.round : RoundOk T env pool s (PackageEnv.round T env pool s) := by
  have hconsider : (∀ it ∈ s.mi.head?, it ∉ s.assembler.vtx) →
      RoundOk T env pool s ((candidate env pool s).elim (.stop s) (PackageEnv.consider T env pool s)) := by
    intro hskip
    cases hcand : candidate env pool s with
    | none => exact hs.block
    | some c => exact hs.consider h (hs.candidateOk h hskip hcand)
  unfold PackageEnv.round
  split
  · rename_i hmi
    exact hconsider fun it hit => by simp [hmi] at hit
  · rename_i it mi hmi
    split
    · refine ⟨⟨hs.block, ?_, ?_, hs.modified, hs.iters, hs.apart⟩, ?_⟩
      · exact List.Subset.trans (hmi ▸ subset_cons_self it mi) hs.mi
      · exact le_trans (hmi ▸ Nat.le_succ _) hs.short
      · unfold work
        rw [hmi]
        exact Nat.add_lt_add_right (Nat.add_lt_add_left (Nat.lt_succ_self _) _) _
    · rename_i hskip
      refine hconsider fun x hx hin => hskip ?_
      rw [hmi] at hx
      cases hx
      simp [skipMapTxEntry, (hs.block.inBlock it).2 hin]

theorem SelectInv.rounds : ∃ b, BlockOk T env pool b ∧ (∀ n, PackageEnv.rounds T env pool n s ≠ .assertion) ∧
      ∀ n, work T pool s < n → PackageEnv.rounds T env pool n s = .done b := by
  induction hw : work T pool s using Nat.strong_induction_on generalizing s with
  | _ w ih =>
    have hround := hs.round h
    cases hr : PackageEnv.round T env pool s with
    | again s' =>
      rw [hr] at hround
      obtain ⟨b, hb, hno, hdone⟩ := ih (work T pool s') (hw ▸ hround.2) hround.1 rfl
      refine ⟨b, hb, fun n => ?_, fun n hn => ?_⟩
      · cases n with
        | zero => exact fun hno => by cases hno
        | succ n =>
          rw [PackageEnv.rounds, hr]
          exact hno n
      · cases n with
        | zero => exact absurd hn (Nat.not_lt_zero _)
        | succ n =>
          rw [PackageEnv.rounds, hr]
          exact hdone n (lt_of_lt_of_le (hw ▸ hround.2) (Nat.lt_succ_iff.1 hn))
    | stop s' =>
      rw [hr] at hround
      refine ⟨s'.assembler, hround, fun n => ?_, fun n hn => ?_⟩
      · cases n with
        | zero => exact fun hno => by cases hno
        | succ n =>
          rw [PackageEnv.rounds, hr]
          exact fun hno => by cases hno
      · cases n with
        | zero => exact absurd hn (Nat.not_lt_zero _)
        | succ n => rw [PackageEnv.rounds, hr]
    | assertion =>
      rw [hr] at hround
      exact hround.elim

end

end

end

/-! ## the whole selection -/

/-- the transactions of a block: from the pool, none twice, behind all their ancestors, and below the limits -/
structure WellFormedBody (T : TrackEnv H) (env : PackageEnv H) (pool : Tracked H) (vtx : List H) : Prop where
  nodup : vtx.Nodup
  inPool : vtx ⊆ pool.ids T
  ancestors : ∀ before x after, vtx = before ++ x :: after → ∀ a, TransGen (Parent T pool) a x → a ∈ before
  weight : (vtx.map (pool.getTxWeight T)).sum < env.nBlockMaxWeight
  sigOps : (vtx.map (pool.getSigOpCost T)).sum < MAX_BLOCK_SIGOPS_COST

theorem BlockOk.wellFormedBody {b : BlockAssembler H} (hb : BlockOk T env pool b) (h : ExactMempool T pool) :
    WellFormedBody T env pool b.vtx := by
  refine ⟨hb.nodup, hb.inPool, fun before x after hvtx a hax => ?_, ?_, ?_⟩
  · have ha : a ∈ before ++ x :: after := hvtx ▸ hb.closed x (hvtx ▸ by simp) a hax
    have horder := hb.order
    rw [hvtx] at horder
    rcases List.mem_append.1 ha with ha | ha
    · exact ha
    · rcases List.mem_cons.1 ha with rfl | ha
      · exact absurd hax (h.acyclic a)
      · exact absurd hax ((List.pairwise_cons.1 (List.pairwise_append.1 horder).2.1).1 a ha)
  · rcases hb.fits with hnil | hfits
    · rw [hnil]
      show (0 : Int) < env.nBlockMaxWeight
      have := env.weight_ge
      omega
    · have := hb.weight
      omega
  · rcases hb.fits with hnil | hfits
    · rw [hnil]
      show (0 : Int) < MAX_BLOCK_SIGOPS_COST
      decide
    · have := hb.sigOps
      omega

theorem selectInv_start (T : TrackEnv H) (env : PackageEnv H) (pool : Tracked H) :
    SelectInv T env pool (start T env pool .resetBlock) where
  block := blockOk_resetBlock
  mi := (env.byAncestorScore_perm _).subset
  short := le_of_eq (env.byAncestorScore_perm _).length_eq
  modified _ hm := absurd hm List.not_mem_nil
  iters := List.nodup_nil
  apart _ hm := absurd hm List.not_mem_nil

/-- **package selection ends with a well-formed block body**, and no entry that is considered is in the block -/
theorem addPackageTxs_wellFormed (env : PackageEnv H) (h : ExactMempool T pool) :
    ∃ b, WellFormedBody T env pool b.vtx ∧ (∀ fuel, addPackageTxs T env pool fuel .resetBlock ≠ .assertion) ∧
      ∀ fuel, (pool.ids T).length * (2 * (pool.ids T).length + 3) < fuel →
        addPackageTxs T env pool fuel .resetBlock = .done b := by
  obtain ⟨b, hb, hno, hdone⟩ := (selectInv_start T env pool).rounds h
  refine ⟨b, hb.wellFormedBody h, hno, fun fuel hfuel => hdone fuel (lt_of_le_of_lt (le_of_eq ?_) hfuel)⟩
  have hmi : (start T env pool .resetBlock).mi.length = (pool.ids T).length := (env.byAncestorScore_perm _).length_eq
  have hvtx : (start T env pool .resetBlock).assembler.vtx.length = 0 := rfl
  have hmodified : (start T env pool .resetBlock).mapModifiedTx.length = 0 := rfl
  rw [work, hmi, hvtx, hmodified, Nat.sub_zero, Nat.add_zero, ← Nat.mul_succ]

def Selected.vtx : Selected H → Option (List H)
  | .done b => some b.vtx
  | _ => none

def familyPool : Tracked Digest :=
  PoolCall.run trackEnv [.addUnchecked sourceEntry, .addUnchecked spenderEntry] .empty

theorem familyPool_exact : ExactMempool trackEnv familyPool := by
  refine (PoolInv.empty.run (.cons (.add sourceEntry ?_ ?_) (.cons (.add spenderEntry ?_ ?_) (.nil _ _)))).exactMempool
  · constructor <;> decide
  · exact fun e he => absurd he not_mem_nil
  · constructor <;> decide
  · decide

def packageEnv : PackageEnv Digest where
  nBlockMaxWeight := 100000
  weight_ge := by decide
  weight_le := by decide
  isFinalTx _ := true
  fIncludeWitness := true
  getFee _ := 0
  better _ _ := false
  best := List.head?
  best_mem _ _ := List.mem_of_mem_head?
  best_none _ := List.head?_eq_none_iff.1
  byAncestorScore l := l
  byAncestorScore_perm l := .refl l
  hashLe _ _ := true
  hashLe_total _ _ := rfl
  hashLe_trans _ _ _ _ _ := rfl

/-- both are selected, in that order -/
theorem familyPool_selected : ∃ b : BlockAssembler Digest, WellFormedBody trackEnv packageEnv familyPool b.vtx ∧
    b.vtx = [sourceEntry.hash trackEnv, spenderEntry.hash trackEnv] := by
  obtain ⟨b, hb, -, hdone⟩ := addPackageTxs_wellFormed packageEnv familyPool_exact
  have hrun : (addPackageTxs trackEnv packageEnv familyPool 15 .resetBlock).vtx =
      some [sourceEntry.hash trackEnv, spenderEntry.hash trackEnv] := by decide +kernel
  rw [hdone 15 (by decide)] at hrun
  exact ⟨b, hb, Option.some.inj hrun⟩

end BitCash

import BitCash.Mempool.Update

/-!
# The statistics of the pool stay exact

* `PoolCall` and `CallAllowed`: the calls, and when the node makes them
* `ExactPool`: links and sums are those of the entries
-/

namespace BitCash
open Kin Relation Tracked List COutPoint CTransaction

variable {H : Type} [Inhabited H] [DecidableEq H]

namespace Tracked

def index (pool : Tracked H) : CTxMemPool H := ⟨pool.mapTx.map (·.toCTxMemPoolEntry), pool.mapNextTx, []⟩

def Parent (T : TrackEnv H) (pool : Tracked H) (p c : H) : Prop :=
  p ∈ pool.ids T ∧ ∃ e ∈ pool.mapTx, e.hash T = c ∧ p ∈ e.spentTxs

def StoredLink (T : TrackEnv H) (pool : Tracked H) (v : List H) (p c : H) : Prop :=
  Parent T pool p c ∧ (p ∈ v → c ∈ v)

end Tracked

/-- the stored links are those of the inputs; every entry counts itself, its ancestors and its descendants, with their
sizes, modified fees and signature operations -/
structure ExactPool (T : TrackEnv H) (pool : Tracked H) : Prop where
  parents : ∀ p c, p ∈ pool.parents c ↔ Parent T pool p c
  children : ∀ p c, c ∈ pool.children p ↔ Parent T pool p c
  ancestors : ExactAbove (pool.ids T).toFinset (Parent T pool) (pool.ownAbove T) fun x => (pool.state x).ancestors
  descendants : ExactBelow (pool.ids T).toFinset (Parent T pool) (pool.ownBelow T)
    fun x => (pool.state x).descendants

structure PoolInv (T : TrackEnv H) (pool : Tracked H) (v : List H) : Prop where
  indexed : Indexed T.env pool.index
  tallied : Tallied T pool (StoredLink T pool v)
  nodup : v.Nodup
  named : default ∉ v
  parents : ∀ p c, Parent T pool p c → c ∈ v → p ∈ v
  order : v.Pairwise fun a b => ¬Parent T pool b a

variable {T : TrackEnv H} {pool pool' : Tracked H} {v l : List H}

theorem storedLink_nil : StoredLink T pool [] = Parent T pool := by
  funext p c
  exact propext (and_iff_left fun hno => absurd hno not_mem_nil)

theorem PoolInv.exactPool (h : PoolInv T pool []) : ExactPool T pool := by
  have ht := h.tallied
  rw [storedLink_nil] at ht
  exact ⟨ht.mem_parents, ht.mem_children, ht.above, ht.below⟩

theorem PoolInv.empty : PoolInv T (.empty : Tracked H) [] := by
  have hnone : ∀ p c, ¬StoredLink T (.empty : Tracked H) [] p c := fun p c hl => absurd hl.1.1 not_mem_nil
  refine ⟨Indexed.empty, ⟨⟨nodup_nil, ?_, ?_, ?_, ?_⟩, fun _ => nodup_nil, ?_, ?_, ?_⟩, nodup_nil,
    not_mem_nil, ?_, .nil⟩
  · exact fun p c hl => absurd hl (hnone p c)
  · exact fun p c => iff_of_false not_mem_nil (hnone p c)
  · exact fun p c => iff_of_false not_mem_nil (hnone p c)
  · intro x hx
    obtain ⟨y, hxy, -⟩ := TransGen.head'_iff.1 hx
    exact hnone x y hxy
  · exact fun x hx => absurd (mem_toFinset.1 hx) not_mem_nil
  · exact fun x hx => absurd (mem_toFinset.1 hx) not_mem_nil
  · exact fun x hx => absurd hx not_mem_nil
  · exact fun p c _ hc => absurd hc not_mem_nil

/-! ## removals -/

theorem index_removeStaged (l : List H) (updateDescendants : Bool) :
    (pool.removeStaged T l updateDescendants).index = pool.index.removeStaged T.env l := by
  rw [removeStaged_eq]
  unfold Tracked.index CTxMemPool.removeStaged Tracked.removeUnchecked
  dsimp only [Tracked.mapParents, Tracked.mapChildren, Tracked.gain]
  rw [filter_map, filter_map, flatMap_map]
  rfl

variable {updateDescendants : Bool} {w : List H} {p c hash : H}

theorem mem_mapTx_removeStaged {e : TrackedEntry H} :
    e ∈ (pool.removeStaged T l updateDescendants).mapTx ↔ e ∈ pool.mapTx ∧ e.hash T ∉ l := by
  rw [removeStaged_eq]
  show e ∈ pool.mapTx.filter (fun e => !l.contains (e.hash T)) ↔ _
  simp

theorem mem_ids_removeStaged {x : H} :
    x ∈ (pool.removeStaged T l updateDescendants).ids T ↔ x ∈ pool.ids T ∧ x ∉ l := by
  rw [ids_removeStaged]
  simp

theorem parent_removeStaged :
    Parent T (pool.removeStaged T l updateDescendants) p c ↔ Parent T pool p c ∧ p ∉ l ∧ c ∉ l := by
  unfold Parent
  rw [mem_ids_removeStaged]
  constructor
  · rintro ⟨⟨hp, hpl⟩, e, he, rfl, hs⟩
    obtain ⟨he, hel⟩ := mem_mapTx_removeStaged.1 he
    exact ⟨⟨hp, e, he, rfl, hs⟩, hpl, hel⟩
  · rintro ⟨⟨hp, e, he, rfl, hs⟩, hpl, hel⟩
    exact ⟨⟨hp, hpl⟩, e, mem_mapTx_removeStaged.2 ⟨he, hel⟩, rfl, hs⟩

theorem storedLink_removeStaged :
    StoredLink T (pool.removeStaged T l updateDescendants) v = Without (StoredLink T pool v) l := by
  funext p c
  refine propext ?_
  unfold StoredLink Without
  rw [parent_removeStaged]
  tauto

variable (h : PoolInv T pool v)

include h in
theorem PoolInv.removeStaged
    (ht : Tallied T (pool.removeStaged T l updateDescendants) (Without (StoredLink T pool v) l)) :
    PoolInv T (pool.removeStaged T l updateDescendants) v := by
  refine ⟨?_, ?_, h.nodup, h.named, fun p c hpc => h.parents p c (parent_removeStaged.1 hpc).1, ?_⟩
  · rw [index_removeStaged]
    exact (removeStaged_shrinks pool.index l).indexed h.indexed
  · rw [storedLink_removeStaged]
    exact ht
  · exact h.order.imp fun hno hpc => hno (parent_removeStaged.1 hpc).1

include h in
theorem PoolInv.removeWithDescendants (txToRemove : List H) :
    PoolInv T (pool.removeWithDescendants T txToRemove) v := by
  refine h.removeStaged (h.tallied.removeStaged_closed Walk.reached_nodup fun x y hxy hx => ?_)
  obtain ⟨a, ha, hax⟩ := h.tallied.mem_calculateDescendants.1 hx
  exact h.tallied.mem_calculateDescendants.2 ⟨a, ha, hax.tail hxy⟩

include h in
theorem PoolInv.removeRoot (hroot : ∀ p, ¬Parent T pool p hash) : PoolInv T (pool.removeStaged T [hash] true) v:= by
  refine h.removeStaged (h.tallied.removeStaged_roots (nodup_singleton hash) fun x y hxy hy => ?_)
  exact absurd (mem_singleton.1 hy ▸ hxy.1) (hroot x)

theorem removeWithDescendants_sublist (txToRemove : List H) :
    (pool.removeWithDescendants T txToRemove).mapTx.Sublist pool.mapTx := by
  unfold removeWithDescendants
  rw [removeStaged_eq]
  exact filter_sublist

include h in
theorem PoolInv.clearPrioritisation (hout : hash ∉ pool.ids T) : PoolInv T (pool.clearPrioritisation hash) v:=
  ⟨h.indexed, h.tallied.clearPrioritisation hout, h.nodup, h.named, h.parents, h.order⟩

theorem clear_removeStaged (hash : H) (l : List H) (updateDescendants : Bool) :
    (pool.clearPrioritisation hash).removeStaged T l updateDescendants =
      (pool.removeStaged T l updateDescendants).clearPrioritisation hash := by
  rw [removeStaged_eq, removeStaged_eq]
  rfl

include h in
theorem PoolInv.removeConflict (tx : CTransaction H) (i : CTxIn H) :
    PoolInv T (removeConflict T tx pool i) v ∧ (removeConflict T tx pool i).mapTx.Sublist pool.mapTx := by
  unfold Tracked.removeConflict
  split
  · exact ⟨h, .refl _⟩
  split
  · exact ⟨h, .refl _⟩
  · next conflict hfound =>
    split
    · exact ⟨h, .refl _⟩
    · obtain ⟨next, -, hfind⟩ := Option.bind_eq_some_iff.1 hfound
      have hin : conflict.hash T ∈ pool.ids T := mem_map.2 ⟨conflict, mem_of_find?_eq_some hfind, rfl⟩
      have hseeds : pool.removeSeeds T conflict.tx = [conflict.hash T] := if_pos hin
      have hmoved : (pool.clearPrioritisation (conflict.hash T)).removeRecursive T conflict.tx =
          (pool.removeWithDescendants T [conflict.hash T]).clearPrioritisation (conflict.hash T) := by
        rw [← hseeds]
        exact clear_removeStaged _ _ _
      rw [hmoved]
      refine ⟨(h.removeWithDescendants _).clearPrioritisation fun hno => ?_, removeWithDescendants_sublist _⟩
      exact (mem_ids_removeStaged.1 hno).2 (Walk.start_reached (mem_singleton_self _))

include h in
theorem PoolInv.removeConflicts (tx : CTransaction H) (vin : List (CTxIn H)) :
    PoolInv T (vin.foldl (Tracked.removeConflict T tx) pool) v ∧
      (vin.foldl (Tracked.removeConflict T tx) pool).mapTx.Sublist pool.mapTx := by
  induction vin generalizing pool with
  | nil => exact ⟨h, .refl _⟩
  | cons i vin ih =>
    obtain ⟨hone, hsub⟩ := h.removeConflict tx i
    obtain ⟨hall, hsub'⟩ := ih hone
    exact ⟨hall, hsub'.trans hsub⟩

include h in
theorem PoolInv.removeForTx {tx : CTransaction H} (hroot : ∀ p, ¬Parent T pool p (tx.getHash T.env)) :
    PoolInv T (removeForTx T pool tx) v ∧ (removeForTx T pool tx).mapTx.Sublist pool.mapTx ∧
      tx.getHash T.env ∉ (removeForTx T pool tx).ids T := by
  obtain ⟨q, hq⟩ : ∃ q,
    (if tx.getHash T.env ∈ pool.ids T then pool.removeStaged T [tx.getHash T.env] true else pool) = q :=
    ⟨_, rfl⟩
  have hfirst : PoolInv T q v ∧ q.mapTx.Sublist pool.mapTx ∧ tx.getHash T.env ∉ q.ids T := by
    subst hq
    split
    · refine ⟨h.removeRoot hroot, ?_, fun hno => (mem_ids_removeStaged.1 hno).2 (mem_singleton_self _)⟩
      rw [removeStaged_eq]
      exact filter_sublist
    · next hout => exact ⟨h, .refl _, hout⟩
  obtain ⟨hinv, hsub, hout⟩ := hfirst
  obtain ⟨hinv', hsub'⟩ := hinv.removeConflicts tx tx.vin
  have hout' : tx.getHash T.env ∉ (tx.vin.foldl (Tracked.removeConflict T tx) q).ids T :=
    fun hno => hout ((hsub'.map _).subset hno)
  unfold Tracked.removeForTx
  dsimp only
  rw [hq]
  exact ⟨hinv'.clearPrioritisation hout', hsub'.trans hsub, hout'⟩

def ParentsFirst (T : TrackEnv H) (pool : Tracked H) (vtx : List (CTransaction H)) : Prop :=
  ∀ pre tx post, vtx = pre ++ tx :: post → ∀ p, Parent T pool p (tx.getHash T.env) → p ∈ pre.map (·.getHash T.env)

theorem parent_of_sublist (h : Parent T pool' p c) (hsub : pool'.mapTx.Sublist pool.mapTx) : Parent T pool p c := by
  obtain ⟨hp, e, he, hhash, hs⟩ := h
  exact ⟨(hsub.map _).subset hp, e, hsub.subset he, hhash, hs⟩

include h in
theorem PoolInv.removeForBlock {vtx : List (CTransaction H)} (hfirst : ParentsFirst T pool vtx) :
    PoolInv T (pool.removeForBlock T vtx) v := by
  unfold Tracked.removeForBlock
  induction vtx generalizing pool with
  | nil => exact h
  | cons tx vtx ih =>
    have hroot : ∀ p, ¬Parent T pool p (tx.getHash T.env) :=
      fun p hp => absurd (hfirst [] tx vtx rfl p hp) not_mem_nil
    obtain ⟨hinv, hsub, hout⟩ := h.removeForTx hroot
    refine ih hinv fun pre t post heq p hp => ?_
    have hbefore := hfirst (tx :: pre) t post (by rw [heq, cons_append]) p (parent_of_sublist hp hsub)
    rcases mem_cons.1 hbefore with rfl | hbefore
    · exact absurd hp.1 hout
    · exact hbefore

include h in
theorem PoolInv.trimToSize (penv : PoolEnv H) : PoolInv T (pool.trimToSize T penv) v := by
  unfold Tracked.trimToSize
  induction penv.trimmed generalizing pool with
  | nil => exact h
  | cons hash l ih => exact ih (h.removeWithDescendants [hash])

include h in
theorem PoolInv.prioritiseTransaction (hash : H) (nFeeDelta : Int) :
    PoolInv T (pool.prioritiseTransaction T hash nFeeDelta) v := by
  have ht := h.tallied.prioritiseTransaction hash nFeeDelta
  by_cases hin : hash ∈ pool.ids T
  · rw [prioritiseTransaction_eq hin] at ht ⊢
    exact ⟨h.indexed, ht, h.nodup, h.named, h.parents, h.order⟩
  · have hnone : pool.prioritiseTransaction T hash nFeeDelta =
        { pool with mapDeltas := Function.update pool.mapDeltas hash (pool.mapDeltas hash + nFeeDelta) } := if_neg hin
    rw [hnone] at ht ⊢
    exact ⟨h.indexed, ht, h.nodup, h.named, h.parents, h.order⟩

/-! ## additions -/

theorem Indexed.of_same {env : Env H} {p q : CTxMemPool H} (h : Indexed env p) (hTx : q.mapTx = p.mapTx)
    (hNext : q.mapNextTx = p.mapNextTx) : Indexed env q := by
  obtain ⟨_, _, _⟩ := q
  dsimp only at hTx hNext
  subst hTx hNext
  exact ⟨h.hashes, h.spent, h.notNull, h.listed, h.only⟩

/-- what `addUnchecked` may be called with.  `UpdateAncestorState` and `UpdateDescendantState` assert that
sizes are positive and that the signature operations of a package, cast to `int`, are not negative: the
totals of the pool keep both so -/
structure Addable (T : TrackEnv H) (pool : Tracked H) (entry : TrackedEntry H) : Prop where
  new : entry.hash T ∉ pool.ids T
  notSelf : entry.hash T ∉ entry.spentTxs
  distinct : entry.tx.spent.Nodup
  notNull : COutPoint.null ∉ entry.tx.spent
  free : ∀ e ∈ pool.mapTx, ∀ o ∈ entry.tx.spent, o ∉ e.tx.spent
  positive : 0 < entry.getTxSize T.nBytesPerSigOp
  size : (pool.mapTx.map (·.getTxSize T.nBytesPerSigOp)).sum + entry.getTxSize T.nBytesPerSigOp < 2 ^ 63
  cost : (pool.mapTx.map (·.sigOpCost)).sum + entry.sigOpCost < 2 ^ 31

theorem parent_support (h : Parent T pool p c) : p ∈ pool.ids T ∧ c ∈ pool.ids T := by
  obtain ⟨hp, e, he, rfl, -⟩ := h
  exact ⟨hp, mem_map.2 ⟨e, he, rfl⟩⟩

section
variable {entry : TrackedEntry H} (h : PoolInv T pool v) (ha : Addable T pool entry)
include ha

theorem Addable.mapTx_addUnchecked : (pool.addUnchecked T entry).mapTx = pool.mapTx ++ [entry] := by
  rw [addUnchecked_eq ha.new ha.notSelf]
  rfl

theorem Addable.parent_addUnchecked :
    Parent T (pool.addUnchecked T entry) p c ↔ WithChild (Parent T pool) (entry.hash T) (pool.parentsFor T entry) p c ∨
      p = entry.hash T ∧ ∃ e ∈ pool.mapTx, e.hash T = c ∧ entry.hash T ∈ e.spentTxs := by
  unfold Parent WithChild
  rw [ids_addUnchecked ha.new ha.notSelf, ha.mapTx_addUnchecked]
  constructor
  · rintro ⟨hp, e, he, rfl, hs⟩
    rcases mem_append.1 he with he | he
    · rcases mem_append.1 hp with hp | hp
      · exact .inl (.inl ⟨hp, e, he, rfl, hs⟩)
      · rw [mem_singleton.1 hp] at hs ⊢
        exact .inr ⟨rfl, e, he, rfl, hs⟩
    · rw [mem_singleton.1 he] at hs ⊢
      rcases mem_append.1 hp with hp | hp
      · exact .inl (.inr ⟨rfl, mem_filter.2 ⟨hs, decide_eq_true hp⟩⟩)
      · exact absurd (mem_singleton.1 hp ▸ hs) ha.notSelf
  · rintro ((⟨hp, e, he, rfl, hs⟩ | ⟨rfl, hp⟩) | ⟨rfl, e, he, rfl, hs⟩)
    · exact ⟨mem_append_left _ hp, e, mem_append_left _ he, rfl, hs⟩
    · obtain ⟨hs, hp⟩ := mem_filter.1 hp
      exact ⟨mem_append_left _ (of_decide_eq_true hp), entry, by simp, rfl, hs⟩
    · exact ⟨by simp, e, mem_append_left _ he, rfl, hs⟩

theorem Addable.storedLink_readd (hlater : ∀ e ∈ pool.mapTx, e.hash T ∈ v → entry.hash T ∉ e.spentTxs) :
    StoredLink T (pool.addUnchecked T entry) (v ++ [entry.hash T]) =
      WithChild (StoredLink T pool v) (entry.hash T) (pool.parentsFor T entry) := by
  have hne : ∀ x ∈ pool.ids T, x ≠ entry.hash T := fun x hx hxn => ha.new (hxn ▸ hx)
  funext p c
  refine propext ?_
  unfold StoredLink
  simp only [ha.parent_addUnchecked, mem_append, mem_singleton]
  constructor
  · rintro ⟨(hpc | ⟨rfl, hp⟩) | ⟨rfl, e, he, rfl, hs⟩, hv⟩
    · exact .inl ⟨hpc, fun hpv => (hv (.inl hpv)).resolve_right (hne c (parent_support hpc).2)⟩
    · exact .inr ⟨rfl, hp⟩
    · rcases hv (.inr rfl) with hev | hev
      · exact absurd hs (hlater e he hev)
      · exact absurd hev (hne _ (mem_map.2 ⟨e, he, rfl⟩))
  · rintro (⟨hpc, hv⟩ | ⟨rfl, hp⟩)
    · refine ⟨.inl (.inl hpc), fun hpv => ?_⟩
      rcases hpv with hpv | hpv
      · exact .inl (hv hpv)
      · exact absurd hpv (hne p hpc.1)
    · exact ⟨.inl (.inr ⟨rfl, hp⟩), fun _ => .inr rfl⟩

include h

theorem PoolInv.indexed_addUnchecked : Indexed T.env (pool.addUnchecked T entry).index := by
  have hnew : ∀ e ∈ pool.index.mapTx, e.tx.getHash T.env ≠ entry.tx.getHash T.env := by
    intro e he heq
    obtain ⟨f, hf, rfl⟩ := mem_map.1 he
    exact ha.new (mem_map.2 ⟨f, hf, heq⟩)
  have hfree : ∀ e ∈ pool.index.mapTx, ∀ o ∈ entry.tx.spent, o ∉ e.tx.spent := by
    intro e he
    obtain ⟨f, hf, rfl⟩ := mem_map.1 he
    exact ha.free f hf
  have hadd : Indexed T.env (pool.index.addUnchecked T.env entry.toCTxMemPoolEntry) :=
    h.indexed.addUnchecked hnew ha.distinct ha.notNull hfree
  refine hadd.of_same ?_ ?_
  · show (pool.addUnchecked T entry).mapTx.map _ = pool.mapTx.map _ ++ [entry.toCTxMemPoolEntry]
    rw [ha.mapTx_addUnchecked, map_append]
    rfl
  · rw [addUnchecked_eq ha.new ha.notSelf]
    rfl

theorem PoolInv.addUnchecked (hv : v = []) (hleaf : ∀ e ∈ pool.mapTx, entry.hash T ∉ e.spentTxs) :
    PoolInv T (pool.addUnchecked T entry) [] := by
  subst hv
  have ht := h.tallied.addUnchecked ha.new ha.notSelf
  have hlinks : StoredLink T (pool.addUnchecked T entry) [] =
      WithChild (StoredLink T pool []) (entry.hash T) (pool.parentsFor T entry) := by
    rw [storedLink_nil, storedLink_nil]
    funext p c
    refine propext (ha.parent_addUnchecked.trans (or_iff_left ?_))
    rintro ⟨-, e, he, -, hs⟩
    exact hleaf e he hs
  refine ⟨h.indexed_addUnchecked ha, ?_, nodup_nil, not_mem_nil, ?_, .nil⟩
  · rw [hlinks]
    exact ht
  · exact fun p c _ hc => absurd hc not_mem_nil

theorem PoolInv.readd (hnamed : entry.hash T ≠ default) (hfresh : entry.hash T ∉ v)
    (hlater : ∀ e ∈ pool.mapTx, e.hash T ∈ v → entry.hash T ∉ e.spentTxs)
    (hparents : ∀ p ∈ pool.parentsFor T entry, p ∈ v) :
    PoolInv T (pool.addUnchecked T entry) (v ++ [entry.hash T]) := by
  have hmem : ∀ x, x ∈ v ++ [entry.hash T] ↔ x ∈ v ∨ x = entry.hash T := by
    intro x
    rw [mem_append, mem_singleton]
  refine ⟨h.indexed_addUnchecked ha, ?_, ?_, ?_, ?_, ?_⟩
  · rw [ha.storedLink_readd hlater]
    exact h.tallied.addUnchecked ha.new ha.notSelf
  · exact h.nodup.append (nodup_singleton _) fun x hx hxn => hfresh (mem_singleton.1 hxn ▸ hx)
  · rw [hmem]
    exact fun hno => hno.elim h.named fun heq => hnamed heq.symm
  · intro p c hpc hc
    rw [hmem] at hc ⊢
    rcases ha.parent_addUnchecked.1 hpc with (hpc | ⟨rfl, hp⟩) | ⟨rfl, -⟩
    · rcases hc with hc | rfl
      · exact .inl (h.parents p c hpc hc)
      · exact absurd (parent_support hpc).2 ha.new
    · exact .inl (hparents p hp)
    · exact .inr rfl
  · refine pairwise_append.2 ⟨?_, pairwise_singleton _ _, ?_⟩
    · refine h.order.imp_of_mem fun {a b} hav hbv hno hba => ?_
      rcases ha.parent_addUnchecked.1 hba with (hba | ⟨rfl, -⟩) | ⟨rfl, -⟩
      · exact hno hba
      · exact hfresh hav
      · exact hfresh hbv
    · intro a hav b hb hba
      rw [mem_singleton.1 hb] at hba
      rcases ha.parent_addUnchecked.1 hba with (hba | ⟨rfl, -⟩) | ⟨-, e, he, rfl, hs⟩
      · exact ha.new hba.1
      · exact hfresh hav
      · exact hlater e he hav hs

end

/-! ## the repair -/

include h in
theorem PoolInv.mem_nextChildren (hp : p ≠ default) (hin : p ∈ pool.ids T) :
    c ∈ pool.nextChildren p ↔ Parent T pool p c := by
  unfold nextChildren
  rw [mem_dedup, mem_map]
  constructor
  · rintro ⟨q, hq, rfl⟩
    obtain ⟨hq, hqp⟩ := mem_filter.1 hq
    have hhash : q.1.hash = p := of_decide_eq_true hqp
    have hnull : q.1 ≠ .null := fun hno => hp (hhash.symm.trans (congrArg hash hno))
    obtain ⟨f, hf, hfh, hfs⟩ := h.indexed.only q hq hnull
    obtain ⟨e, he, rfl⟩ := mem_map.1 hf
    obtain ⟨i, hi, -, hio⟩ := mem_spent.1 hfs
    refine ⟨hin, e, he, hfh, mem_dedup.2 (mem_map.2 ⟨i, hi, ?_⟩)⟩
    rw [hio, hhash]
  · rintro ⟨-, e, he, rfl, hs⟩
    obtain ⟨i, hi, hip⟩ := mem_map.1 (mem_dedup.1 hs)
    have hcoin : i.isnickname = false := by
      by_contra hn
      rw [Bool.not_eq_false] at hn
      exact hp (hip.symm.trans (congrArg hash (prevout_of_nickname hi hn)))
    have hspent : i.prevout ∈ e.tx.spent := mem_spent.2 ⟨i, hi, hcoin, rfl⟩
    have hlisted := h.indexed.listed e.toCTxMemPoolEntry (mem_map.2 ⟨e, he, rfl⟩) i.prevout hspent
    exact ⟨_, mem_filter.2 ⟨hlisted, decide_eq_true hip⟩, rfl⟩

include h in
theorem PoolInv.reorganised : Reorganised T pool (StoredLink T pool v) (Parent T pool) v :=
  ⟨h.tallied, h.nodup, fun _ _ hpc => parent_support hpc, fun _ _ => Iff.rfl, h.parents, h.order,
    fun _ hp hin _ => h.mem_nextChildren (fun hno => h.named (hno ▸ hp)) hin⟩

include h in
theorem PoolInv.updateTransactionsFromBlock : PoolInv T (pool.updateTransactionsFromBlock T v) []:= by
  have ht := h.reorganised.updateTransactionsFromBlock
  obtain ⟨hTx, hNext⟩ := h.reorganised.entries_same
  have hparent : Parent T (pool.updateTransactionsFromBlock T v) = Parent T pool := by
    unfold Parent ids
    rw [hTx]
  refine ⟨h.indexed.of_same ?_ hNext, ?_, nodup_nil, not_mem_nil, ?_, .nil⟩
  · exact congrArg (map _) hTx
  · rw [storedLink_nil, hparent]
    exact ht
  · exact fun p c _ hc => absurd hc not_mem_nil

/-! ## runs -/

inductive PoolCall (H : Type) [Inhabited H] [DecidableEq H] where
  | addUnchecked (entry : TrackedEntry H)
  | removeRecursive (origTx : CTransaction H)
  | removeForBlock (vtx : List (CTransaction H))
  | removeForReorg (penv : PoolEnv H) (pcoins : CCoinsViewCache H) (nMemPoolHeight : Nat)
  | expire (penv : PoolEnv H)
  | trimToSize (penv : PoolEnv H)
  | prioritiseTransaction (hash : H) (nFeeDelta : Int)
  | updateTransactionsFromBlock (vHashesToUpdate : List H)

def PoolCall.apply (T : TrackEnv H) (pool : Tracked H) : PoolCall H → Tracked H
  | addUnchecked entry => pool.addUnchecked T entry
  | removeRecursive origTx => pool.removeRecursive T origTx
  | removeForBlock vtx => pool.removeForBlock T vtx
  | removeForReorg penv pcoins nMemPoolHeight => Tracked.removeForReorg T penv pcoins nMemPoolHeight pool
  | expire penv => Tracked.expire T penv pool
  | trimToSize penv => Tracked.trimToSize T penv pool
  | prioritiseTransaction hash nFeeDelta => pool.prioritiseTransaction T hash nFeeDelta
  | updateTransactionsFromBlock vHashesToUpdate => pool.updateTransactionsFromBlock T vHashesToUpdate

def PoolCall.run (T : TrackEnv H) (calls : List (PoolCall H)) (pool : Tracked H) : Tracked H :=
  calls.foldl (PoolCall.apply T) pool

/-- the calls the node makes, while the transactions `v` that came back from disconnected blocks wait for
their repair.  An ordinary addition is made when none waits, and the repair is called with all that do -/
inductive CallAllowed (T : TrackEnv H) (pool : Tracked H) : List H → PoolCall H → List H → Prop
  | add (entry : TrackedEntry H) (ha : Addable T pool entry) (hleaf : ∀ e ∈ pool.mapTx, entry.hash T ∉ e.spentTxs) :
    CallAllowed T pool [] (.addUnchecked entry) []
  | readd {v : List H} (entry : TrackedEntry H) (ha : Addable T pool entry) (hnamed : entry.hash T ≠ default)
      (hfresh : entry.hash T ∉ v) (hlater : ∀ e ∈ pool.mapTx, e.hash T ∈ v → entry.hash T ∉ e.spentTxs)
      (hparents : ∀ p ∈ pool.parentsFor T entry, p ∈ v) :
    CallAllowed T pool v (.addUnchecked entry) (v ++ [entry.hash T])
  | removeRecursive {v : List H} (origTx : CTransaction H) : CallAllowed T pool v (.removeRecursive origTx) v
  | removeForBlock {v : List H} (vtx : List (CTransaction H)) (hfirst : ParentsFirst T pool vtx) :
    CallAllowed T pool v (.removeForBlock vtx) v
  | removeForReorg {v : List H} (penv : PoolEnv H) (pcoins : CCoinsViewCache H) (nMemPoolHeight : Nat) :
    CallAllowed T pool v (.removeForReorg penv pcoins nMemPoolHeight) v
  | expire {v : List H} (penv : PoolEnv H) : CallAllowed T pool v (.expire penv) v
  | trimToSize {v : List H} (penv : PoolEnv H) : CallAllowed T pool v (.trimToSize penv) v
  | prioritiseTransaction {v : List H} (hash : H) (nFeeDelta : Int) :
    CallAllowed T pool v (.prioritiseTransaction hash nFeeDelta) v
  | updateTransactionsFromBlock {v : List H} : CallAllowed T pool v (.updateTransactionsFromBlock v) []

inductive AllowedRun (T : TrackEnv H) : Tracked H → List H → List (PoolCall H) → List H → Prop
  | nil (pool : Tracked H) (v : List H) : AllowedRun T pool v [] v
  | cons {pool : Tracked H} {v v' w : List H} {call : PoolCall H} {calls : List (PoolCall H)}
      (hcall : CallAllowed T pool v call v') (hrest : AllowedRun T (call.apply T pool) v' calls w) :
    AllowedRun T pool v (call :: calls) w

include h in
theorem PoolInv.apply {call : PoolCall H} (hcall : CallAllowed T pool v call w) :
    PoolInv T (call.apply T pool) w := by
  cases hcall with
  | add entry ha hleaf => exact h.addUnchecked ha rfl hleaf
  | readd entry ha hnamed hfresh hlater hparents => exact h.readd ha hnamed hfresh hlater hparents
  | removeRecursive origTx => exact h.removeWithDescendants _
  | removeForBlock vtx hfirst => exact h.removeForBlock hfirst
  | removeForReorg penv pcoins nMemPoolHeight => exact h.removeWithDescendants _
  | expire penv => exact h.removeWithDescendants _
  | trimToSize penv => exact h.trimToSize penv
  | prioritiseTransaction hash nFeeDelta => exact h.prioritiseTransaction hash nFeeDelta
  | updateTransactionsFromBlock => exact h.updateTransactionsFromBlock

include h in
theorem PoolInv.run {calls : List (PoolCall H)} (hrun : AllowedRun T pool v calls w) :
    PoolInv T (PoolCall.run T calls pool) w := by
  induction hrun with
  | nil => exact h
  | cons hcall _ ih => exact ih (h.apply hcall)

def trackEnv : TrackEnv Digest := ⟨symEnv, 20⟩

def sourceEntry : TrackedEntry Digest :=
  ⟨⟨⟨6, [.ofOutPoint ⟨.atom 7, 0⟩ []], [.of 4 4 [] 0], 0, .refl true, .refl true⟩, 1, false⟩, 400, 4, by decide⟩

def spenderEntry : TrackedEntry Digest :=
  ⟨⟨⟨6, [.ofOutPoint ⟨sourceEntry.hash trackEnv, 0⟩ []], [.of 3 3 [] 0], 0, by decide, by decide⟩, 1, false⟩, 400, 4,
    by decide⟩

end BitCash

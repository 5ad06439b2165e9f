import BitCash.Consensus.Layers
import BitCash.Consensus.Symbolic

/-!
# The coin caches refine a map

`step_refines` is one operation on both machines, `run_refines` a run, and `layers_refine` a run from new layers
with a flush of all of them behind it.
-/

set_option linter.unusedSectionVars false

namespace BitCash
open Checks WriteBack Coin Except AList

variable {H : Type} [Inhabited H] [DecidableEq H]
  {parent l k : CCoinsMap H} {e : CCoinsCacheEntry} {layers t : List (CCoinsMap H)} {i : Nat}

namespace Layers

/-! ## writing back -/

variable {o : COutPoint H} {m : CoinsMap H}

theorem LayerSound.replace (h : LayerSound m l) (hgood : Good (m o) (cell k o))
    (hspent : ∀ e, k.lookup o = some e → e.coin.isSpent → e.coin = empty)
    (hne : ∀ x, x ≠ o → k.lookup x = l.lookup x) : LayerSound m k := by
  constructor
  · intro x
    by_cases hx : x = o
    · subst hx
      exact hgood
    · rw [cell, hne x hx]
      exact h.good x
  · intro x e he
    by_cases hx : x = o
    · subst hx
      exact hspent e he
    · rw [hne x hx] at he
      exact h.spent x e he

theorem isNone_unspent (c : Coin) : c.unspent.isNone = c.isSpent := by
  unfold unspent
  cases c.isSpent <;> rfl

theorem batchEntry_cell (hclash : clash (cell parent o) e.entry = false)
    (hold : ∀ us, parent.lookup o = some us → us.coin.isSpent → us.coin = empty)
    (hspent : e.coin.isSpent → e.coin = empty) :
    ∃ k, batchEntry parent ⟨o, e⟩ = .ok k ∧ cell k o = merge (cell parent o) e.entry ∧
      (∀ d, k.lookup o = some d → d.coin.isSpent → d.coin = empty) ∧
      ∀ x, x ≠ o → k.lookup x = parent.lookup x := by
  have hdirty : e.entry.dirty = e.dirty := rfl
  have hfresh : e.entry.fresh = e.fresh := rfl
  have hvalue : e.entry.value.isNone = e.coin.isSpent := isNone_unspent e.coin
  -- what an insertion leaves, for the two branches that end in one
  have hins : ∀ f : Bool, cell (parent.insert o ⟨e.coin, true, f⟩) o = some ⟨e.entry.value, true, f⟩ ∧
      (∀ d, (parent.insert o ⟨e.coin, true, f⟩).lookup o = some d → d.coin.isSpent = true → d.coin = empty) ∧
      ∀ x, x ≠ o → (parent.insert o ⟨e.coin, true, f⟩).lookup x = parent.lookup x := by
    intro f
    refine ⟨cell_insert_self parent o _, ?_, fun x hx => lookup_insert_ne hx⟩
    intro d hd
    rw [lookup_insert] at hd
    cases hd
    exact hspent
  unfold batchEntry merge
  rw [hdirty, hfresh, hvalue]
  cases hd : e.dirty with
  | false => exact ⟨parent, rfl, rfl, hold, fun _ _ => rfl⟩
  | true =>
    have hcell : cell parent o = (parent.lookup o).map (·.entry) := rfl
    rw [if_pos rfl, if_neg (by decide), hcell]
    dsimp only
    cases hl : parent.lookup o with
    | none =>
      dsimp only [Option.map_none]
      cases hb : e.fresh && e.coin.isSpent with
      | true => exact ⟨parent, rfl, by rw [hcell, hl]; rfl, hold, fun _ _ => rfl⟩
      | false => exact ⟨_, rfl, hins e.fresh⟩
    | some us =>
      have hc : (e.fresh && !us.coin.isSpent) = false := by
        rw [clash, cell, hl] at hclash
        change (e.dirty && e.fresh && us.coin.unspent.isSome) = false at hclash
        rw [hd, ← Option.not_isNone, isNone_unspent] at hclash
        exact hclash
      have husfresh : us.entry.fresh = us.fresh := rfl
      dsimp only [Option.map_some]
      rw [hc, husfresh]
      cases hb : us.fresh && e.coin.isSpent with
      | true =>
        refine ⟨parent.erase o, rfl, ?_, ?_, fun x hx => lookup_erase_ne hx⟩
        · rw [cell_erase_self]
          rfl
        · intro d hd'
          rw [lookup_erase] at hd'
          cases hd'
      | false => exact ⟨_, rfl, hins us.fresh⟩

variable {xs : List (Sigma fun _ : COutPoint H => CCoinsCacheEntry)}

theorem key_ne (h : o ∉ xs.keys) : ∀ x ∈ xs, x.1 ≠ o := by
  intro x hx heq
  exact h (heq ▸ List.mem_keys_of_mem hx)

theorem batch_run (hnodup : xs.NodupKeys) (hparent : LayerSound m parent)
    (hgood : ∀ x ∈ xs, Good (read (m x.1) (cell parent x.1)) (some x.2.entry))
    (hspent : ∀ x ∈ xs, x.2.coin.isSpent → x.2.coin = empty) :
    ∃ k, run batchEntry parent xs = .ok k ∧ LayerSound m k ∧ ∀ o, read (m o) (cell k o) =
        read (read (m o) (cell parent o)) ((xs.dlookup o).map (·.entry)) := by
  induction xs generalizing parent with
  | nil => exact ⟨parent, rfl, hparent, fun _ => rfl⟩
  | cons x xs ih =>
    obtain ⟨o, e⟩ := x
    obtain ⟨hnot, hnodup'⟩ := List.nodupKeys_cons.1 hnodup
    obtain ⟨hclash, hmerge, hread⟩ := merge_spec (hparent.good o) (hgood ⟨o, e⟩ List.mem_cons_self)
    obtain ⟨p, hp, hcell, hspent', hne⟩ := batchEntry_cell hclash (hparent.spent o) (hspent ⟨o, e⟩ List.mem_cons_self)
    have hsound : LayerSound m p := hparent.replace (by rw [hcell]; exact hmerge) hspent' hne
    have hcells : ∀ x, x ≠ o → cell p x = cell parent x := fun x hx => by rw [cell, hne x hx, cell]
    have hkeys := key_ne hnot
    -- the other entries find their cells as they were
    obtain ⟨k, hk, hksound, hkread⟩ := ih hnodup' hsound
      (fun x hx => by rw [hcells x.1 (hkeys x hx)]; exact hgood x (List.mem_cons_of_mem _ hx))
      (fun x hx => hspent x (List.mem_cons_of_mem _ hx))
    refine ⟨k, run_cons_ok.2 ⟨p, hp, hk⟩, hksound, fun y => ?_⟩
    rw [hkread y]
    by_cases hy : y = o
    · subst hy
      have hnone : xs.dlookup y = none := List.dlookup_eq_none.2 hnot
      rw [hnone, List.dlookup_cons_eq, hcell]
      exact hread
    · rw [hcells y hy, List.dlookup_cons_ne _ _ hy]

theorem cell_of_mem {x : Sigma fun _ : COutPoint H => CCoinsCacheEntry}
    (h : x ∈ l.entries) : cell l x.1 = some x.2.entry := by
  rw [cell, show l.lookup x.1 = some x.2 from List.mem_dlookup l.nodupKeys h]
  rfl

theorem batchWrite_spec {child : CCoinsMap H} (hparent : LayerSound m parent)
    (hchild : LayerSound (fun o => read (m o) (cell parent o)) child) :
    ∃ k, batchWrite parent child = .ok k ∧ LayerSound m k ∧
      ∀ o, read (m o) (cell k o) = read (read (m o) (cell parent o)) (cell child o) := by
  apply batch_run child.nodupKeys hparent
  · intro x hx
    rw [← cell_of_mem hx]
    exact hchild.good x.1
  · intro x hx
    exact hchild.spent x.1 x.2 (List.mem_dlookup child.nodupKeys hx)

variable {db : CoinsMap H}

theorem dbEntry_self (h : Good (db o) (some e.entry)) : dbEntry db ⟨o, e⟩ o = e.coin.unspent := by
  unfold dbEntry
  cases hd : e.dirty with
  | true => simp
  | false => exact (h.clean e.entry rfl hd).symm

theorem dbEntry_ne (db : CoinsMap H) {x : COutPoint H} (e : CCoinsCacheEntry) (h : x ≠ o) :
    dbEntry db ⟨o, e⟩ x = db x := by
  unfold dbEntry
  split
  · exact if_neg h
  · rfl

theorem db_fold (hnodup : xs.NodupKeys) (hgood : ∀ x ∈ xs, Good (db x.1) (some x.2.entry)) (o : COutPoint H) :
    xs.foldl dbEntry db o = read (db o) ((xs.dlookup o).map (·.entry)) := by
  induction xs generalizing db with
  | nil => rfl
  | cons x xs ih =>
    obtain ⟨k, e⟩ := x
    obtain ⟨hnot, hnodup'⟩ := List.nodupKeys_cons.1 hnodup
    have hkeys := key_ne hnot
    show xs.foldl dbEntry (dbEntry db ⟨k, e⟩) o = _
    rw [ih hnodup' fun x hx => by
      rw [dbEntry_ne db e (hkeys x hx)]
      exact hgood x (List.mem_cons_of_mem _ hx)]
    by_cases ho : o = k
    · subst ho
      rw [List.dlookup_eq_none.2 hnot, List.dlookup_cons_eq, dbEntry_self (hgood ⟨o, e⟩ List.mem_cons_self)]
      rfl
    · rw [dbEntry_ne db e ho, List.dlookup_cons_ne _ _ ho]

theorem dbWrite_spec (h : LayerSound db l) : dbWrite db l = view db [l] := by
  funext o
  apply db_fold l.nodupKeys
  intro x hx
  rw [← cell_of_mem hx]
  exact h.good x.1

/-! ## flushing -/

def flushMaps (db : CoinsMap H) : List (CoinsMap H) → CoinsMap H × List (CoinsMap H)
  | [] => (db, [])
  | [m] => (m, [m])
  | m :: _ :: rest => (db, m :: m :: rest)

theorem flush_spec (hdb : Unspent db) (hs : Sound db layers) :
    ∃ r, flush db layers = .ok r ∧ Sound r.1 r.2 ∧ Unspent r.1 ∧
      view r.1 r.2 = view db layers ∧ flushMaps db (views db layers) = (r.1, views r.1 r.2) := by
  match layers, hs with
  | [], hs => exact ⟨_, rfl, hs, hdb, rfl, rfl⟩
  | [l], hs =>
    have hw : dbWrite db l = view db [l] := dbWrite_spec hs.2
    refine ⟨(dbWrite db l, [∅]), rfl, ⟨trivial, layerSound_empty _⟩, ?_, hw, ?_⟩
    · rw [hw]
      exact unspent_view hdb [l]
    · show (view db [l], [view db [l]]) = (dbWrite db l, [dbWrite db l])
      rw [hw]
  | l :: k :: rest, hs =>
    obtain ⟨⟨hrest, hk⟩, hl⟩ := hs
    obtain ⟨k', hk', hsound, hread⟩ := batchWrite_spec hk hl
    have hview : view db (k' :: rest) = view db (l :: k :: rest) := funext hread
    refine ⟨(db, ∅ :: k' :: rest), ?_, ⟨⟨hrest, hsound⟩, layerSound_empty _⟩, hdb, hview, ?_⟩
    · show (batchWrite k l >>= fun k' => _) = _
      rw [hk']
      rfl
    · show (db, view db (l :: k :: rest) :: view db (l :: k :: rest) :: views db rest) =
        (db, view db (k' :: rest) :: view db (k' :: rest) :: views db rest)
      rw [hview]

/-! ## two machines -/

inductive CoinsOp (H : Type) where
  | getCoin (i : Nat) (o : COutPoint H)
  | haveCoin (i : Nat) (o : COutPoint H)
  | accessCoin (i : Nat) (o : COutPoint H)
  | addCoin (o : COutPoint H) (coin : Coin) (possibleOverwrite : Bool)
  | spendCoin (o : COutPoint H)
  | uncache (i : Nat) (o : COutPoint H)
  | flush (i : Nat)
  | push
  | pop

inductive Answer where
  | found (c : Option Coin)
  | known (b : Bool)
  | coin (c : Coin)
  | done
  deriving DecidableEq

structure CoinsStack (H : Type) where
  db : CoinsMap H
  layers : List (CCoinsMap H)

def CoinsStack.step (s : CoinsStack H) : CoinsOp H → Res (Answer × CoinsStack H)
  | .getCoin i o =>
    let r := Layers.getCoin s.db o (s.layers.drop i)
    .ok (.found r.1, ⟨s.db, s.layers.take i ++ r.2⟩)
  | .haveCoin i o =>
    let r := Layers.haveCoin s.db o (s.layers.drop i)
    .ok (.known r.1, ⟨s.db, s.layers.take i ++ r.2⟩)
  | .accessCoin i o =>
    let r := Layers.accessCoin s.db o (s.layers.drop i)
    .ok (.coin r.1, ⟨s.db, s.layers.take i ++ r.2⟩)
  | .addCoin o coin possibleOverwrite =>
    match s.layers with
    | [] => .error (.fault .outOfBounds)
    | l :: rest => Layers.addCoin l o coin possibleOverwrite >>= fun k => .ok (.done, ⟨s.db, k :: rest⟩)
  | .spendCoin o =>
    let r := Layers.spendCoin s.db o s.layers
    .ok (.coin r.1, ⟨s.db, r.2⟩)
  | .uncache i o => .ok (.done, ⟨s.db, s.layers.take i ++ Layers.uncache o (s.layers.drop i)⟩)
  | .flush i =>
    Layers.flush s.db (s.layers.drop i) >>= fun r => .ok (.done, ⟨r.1, s.layers.take i ++ r.2⟩)
  | .push => .ok (.done, ⟨s.db, ∅ :: s.layers⟩)
  | .pop => .ok (.done, ⟨s.db, s.layers.tail⟩)

/-- a plain map for each layer: the first one has every update at once, the others have them from the
last flush into them -/
structure FlatCoins (H : Type) where
  db : CoinsMap H
  maps : List (CoinsMap H)

namespace FlatCoins

def mapAt (f : FlatCoins H) (i : Nat) : CoinsMap H := (f.maps.drop i).headD f.db

abbrev top (f : FlatCoins H) : CoinsMap H := f.mapAt 0

def setTop (f : FlatCoins H) (m : CoinsMap H) : FlatCoins H :=
  match f.maps with
  | [] => f
  | _ :: rest => ⟨f.db, m :: rest⟩

def step (f : FlatCoins H) : CoinsOp H → Answer × FlatCoins H
  | .getCoin i o => (.found (f.mapAt i o), f)
  | .haveCoin i o => (.known (f.mapAt i o).isSome, f)
  | .accessCoin i o => (.coin ((f.mapAt i o).getD Coin.empty), f)
  | .addCoin o coin _ =>
    (.done, if isUnspendable coin.scriptPubKey then f
      else f.setTop (Function.update f.top o (some coin)))
  | .spendCoin o => (.coin ((f.top o).getD Coin.empty), f.setTop (Function.update f.top o none))
  | .uncache _ _ => (.done, f)
  | .flush i =>
    let r := flushMaps f.db (f.maps.drop i)
    (.done, ⟨r.1, f.maps.take i ++ r.2⟩)
  | .push => (.done, ⟨f.db, f.top :: f.maps⟩)
  | .pop => (.done, ⟨f.db, f.maps.tail⟩)

/-- what the callers keep to: there is a layer to change, `AddCoin` gets an unspent coin (which it
asserts) and overwrites nothing unless it is told to, and a layer goes only once it is flushed -/
def Allowed (f : FlatCoins H) : CoinsOp H → Prop
  | .addCoin o coin possibleOverwrite =>
    f.maps ≠ [] ∧ coin.isSpent = false ∧ (possibleOverwrite = false → f.top o = none)
  | .spendCoin _ => f.maps ≠ []
  | .pop => f.top = f.mapAt 1
  | _ => True

end FlatCoins

structure Refines (s : CoinsStack H) (f : FlatCoins H) : Prop where
  db : f.db = s.db
  maps : f.maps = views s.db s.layers
  unspent : Unspent s.db
  sound : Sound s.db s.layers

theorem views_append (db : CoinsMap H) (a b : List (CCoinsMap H)) :
    views db (a ++ b) = views (view db b) a ++ views db b := by
  induction a with
  | nil => rfl
  | cons l a ih =>
    show view db ((l :: a) ++ b) :: views db (a ++ b) = _
    rw [ih, view_append]
    rfl

theorem length_views (db : CoinsMap H) (layers : List (CCoinsMap H)) : (views db layers).length = layers.length := by
  induction layers with
  | nil => rfl
  | cons l rest ih => rw [views, List.length_cons, ih, List.length_cons]

theorem views_drop (db : CoinsMap H) (layers : List (CCoinsMap H)) (i : Nat) :
    (views db layers).drop i = views db (layers.drop i) := by
  induction i generalizing layers with
  | zero => rfl
  | succ i ih =>
    cases layers with
    | nil => rfl
    | cons l rest => exact ih rest

theorem views_take (db : CoinsMap H) (layers : List (CCoinsMap H)) (i : Nat) :
    (views db layers).take i = views (view db (layers.drop i)) (layers.take i) := by
  induction i generalizing layers with
  | zero => rfl
  | succ i ih =>
    cases layers with
    | nil => rfl
    | cons l rest =>
      have hview : view db (l :: rest) = view (view db (rest.drop i)) (l :: rest.take i) := by
        rw [← view_append, List.cons_append, List.take_append_drop]
      show view db (l :: rest) :: (views db rest).take i = _
      rw [ih rest, hview]
      rfl

theorem Same.at_depth (hs : Sound db layers) (h : Same db (layers.drop i) t) : Same db layers (layers.take i ++ t) := by
  rw [← List.take_append_drop i layers] at hs
  constructor
  · rw [views_append, h.view, h.views, ← views_take, ← views_drop, List.take_append_drop]
  · rw [sound_append, h.view]
    exact ⟨h.sound, ((sound_append db _ _).1 hs).2⟩

variable {s : CoinsStack H} {f : FlatCoins H}

section
variable (h : Refines s f)
include h

theorem Refines.mapAt (i : Nat) : f.mapAt i = view s.db (s.layers.drop i) := by
  rw [FlatCoins.mapAt, h.maps, h.db, views_drop, headD_views]

theorem Refines.same (ht : Same s.db (s.layers.drop i) t) : Refines ⟨s.db, s.layers.take i ++ t⟩ f := by
  have hs := Same.at_depth h.sound ht
  exact ⟨h.db, h.maps.trans hs.views.symm, h.unspent, hs.sound⟩

theorem Refines.drop_sound (i : Nat) : Sound s.db (s.layers.drop i) := by
  have hs := h.sound
  rw [← List.take_append_drop i s.layers, sound_append] at hs
  exact hs.1

theorem Refines.setTop {rest rest' : List (CCoinsMap H)} (hl : s.layers = l :: rest)
    (hview : view s.db (k :: rest') = m) (hrest : views s.db rest' = views s.db rest)
    (hsound : Sound s.db (k :: rest')) : Refines ⟨s.db, k :: rest'⟩ (f.setTop m) := by
  have hmaps : f.maps = view s.db (l :: rest) :: views s.db rest := by rw [h.maps, hl]; rfl
  unfold FlatCoins.setTop
  rw [hmaps]
  refine ⟨h.db, ?_, h.unspent, hsound⟩
  show m :: views s.db rest = view s.db (k :: rest') :: views s.db rest'
  rw [hview, hrest]

theorem Refines.flush (i : Nat) : ∃ t, s.step (.flush i) = .ok (.done, t) ∧ Refines t (f.step (.flush i)).2 := by
  obtain ⟨r, hr, hsound, hunspent, hview, hmaps⟩ := flush_spec h.unspent (h.drop_sound i)
  have hs := h.sound
  rw [← List.take_append_drop i s.layers, sound_append] at hs
  refine ⟨⟨r.1, s.layers.take i ++ r.2⟩, ?_, ?_⟩
  · show (Layers.flush s.db (s.layers.drop i) >>= fun r => _) = _
    rw [hr]
    rfl
  · have hflat : flushMaps f.db (f.maps.drop i) = (r.1, views r.1 r.2) := by
      rw [h.db, h.maps, views_drop, hmaps]
    refine ⟨?_, ?_, hunspent, ?_⟩
    · show (flushMaps f.db (f.maps.drop i)).1 = r.1
      rw [hflat]
    · show f.maps.take i ++ (flushMaps f.db (f.maps.drop i)).2 = views r.1 (s.layers.take i ++ r.2)
      rw [hflat, views_append, hview, h.maps, views_take]
    · show Sound r.1 (s.layers.take i ++ r.2)
      rw [sound_append, hview]
      exact ⟨hsound, hs.2⟩

theorem step_refines {op : CoinsOp H} (hop : f.Allowed op) :
    ∃ t, s.step op = .ok ((f.step op).1, t) ∧ Refines t (f.step op).2 := by
  cases op with
  | getCoin i o =>
    obtain ⟨hval, hsame⟩ := getCoin_spec h.unspent o (h.drop_sound i)
    refine ⟨_, ?_, h.same hsame⟩
    show ok (Answer.found _, _) = ok (Answer.found (f.mapAt i o), _)
    rw [hval, h.mapAt]
  | haveCoin i o =>
    obtain ⟨hval, hsame⟩ := haveCoin_spec h.unspent o (h.drop_sound i)
    refine ⟨_, ?_, h.same hsame⟩
    show ok (Answer.known _, _) = ok (Answer.known (f.mapAt i o).isSome, _)
    rw [hval, h.mapAt]
  | accessCoin i o =>
    obtain ⟨hval, hsame⟩ := accessCoin_spec h.unspent o (h.drop_sound i)
    refine ⟨_, ?_, h.same hsame⟩
    show ok (Answer.coin _, _) = ok (Answer.coin ((f.mapAt i o).getD empty), _)
    rw [hval, h.mapAt]
  | addCoin o coin ow =>
    obtain ⟨hne, hc, how⟩ := hop
    have htop : f.top = view s.db s.layers := h.mapAt 0
    have hsound := h.sound
    cases hl : s.layers with
    | nil => exact absurd (by rw [h.maps, hl]; rfl) hne
    | cons l rest =>
      rw [hl] at hsound htop
      obtain ⟨k, hk, hks, hview⟩ := addCoin_spec hsound hc fun hf => by rw [← htop]; exact how hf
      refine ⟨⟨s.db, k :: rest⟩, ?_, ?_⟩
      · unfold CoinsStack.step
        rw [hl]
        show (Layers.addCoin l o coin ow >>= fun k => _) = _
        rw [hk]
        rfl
      · show Refines _ (if isUnspendable coin.scriptPubKey then f else _)
        rw [← htop] at hview
        cases hu : isUnspendable coin.scriptPubKey with
        | false =>
          rw [hu] at hview
          exact h.setTop hl hview rfl hks
        | true =>
          rw [hu] at hview
          refine ⟨h.db, ?_, h.unspent, hks⟩
          show f.maps = view s.db (k :: rest) :: views s.db rest
          rw [hview, if_pos rfl, htop, h.maps, hl]
          rfl
  | spendCoin o =>
    have htop : f.top = view s.db s.layers := h.mapAt 0
    have hsound := h.sound
    cases hl : s.layers with
    | nil => exact absurd (by rw [h.maps, hl]; rfl) hop
    | cons l rest =>
      rw [hl] at hsound htop
      obtain ⟨k, rest', hsp, hks, hrest, hview⟩ := spendCoin_spec h.unspent o hsound
      refine ⟨⟨s.db, k :: rest'⟩, ?_, ?_⟩
      · show ok (Answer.coin (Layers.spendCoin s.db o s.layers).1, _) = _
        rw [hl, hsp, ← htop]
        rfl
      · rw [← htop] at hview
        exact h.setTop hl hview hrest hks
  | uncache i o => exact ⟨_, rfl, h.same (uncache_spec o (h.drop_sound i))⟩
  | flush i => exact h.flush i
  | push =>
    refine ⟨_, rfl, h.db, ?_, h.unspent, h.sound, layerSound_empty _⟩
    show f.mapAt 0 :: f.maps = view s.db s.layers :: views s.db s.layers
    rw [h.maps, h.mapAt 0]
    rfl
  | pop =>
    refine ⟨_, rfl, h.db, ?_, h.unspent, ?_⟩
    · show f.maps.tail = views s.db s.layers.tail
      rw [h.maps]
      cases s.layers <;> rfl
    · show Sound s.db s.layers.tail
      have hsound := h.sound
      cases hl : s.layers with
      | nil => trivial
      | cons l rest =>
        rw [hl] at hsound
        exact hsound.1

end

/-! ## runs -/

def CoinsStack.run (s : CoinsStack H) : List (CoinsOp H) → Res (List Answer × CoinsStack H)
  | [] => .ok ([], s)
  | op :: ops => s.step op >>= fun r => r.2.run ops >>= fun q => .ok (r.1 :: q.1, q.2)

namespace FlatCoins

def run (f : FlatCoins H) : List (CoinsOp H) → List Answer × FlatCoins H
  | [] => ([], f)
  | op :: ops =>
    let r := f.step op
    let q := r.2.run ops
    (r.1 :: q.1, q.2)

def AllowedRun (f : FlatCoins H) : List (CoinsOp H) → Prop
  | [] => True
  | op :: ops => f.Allowed op ∧ (f.step op).2.AllowedRun ops

end FlatCoins

theorem run_refines (h : Refines s f) {ops : List (CoinsOp H)} (hops : f.AllowedRun ops) :
    ∃ t, s.run ops = .ok ((f.run ops).1, t) ∧ Refines t (f.run ops).2 := by
  induction ops generalizing s f with
  | nil => exact ⟨s, rfl, h⟩
  | cons op ops ih =>
    obtain ⟨u, hu, hru⟩ := step_refines h hops.1
    obtain ⟨t, ht, hrt⟩ := ih hru hops.2
    refine ⟨t, ?_, hrt⟩
    rw [CoinsStack.run, hu]
    show (u.run ops >>= fun q => _) = _
    rw [ht]
    rfl

def flushAll (n : Nat) : List (CoinsOp H) := (List.range' 0 n).map .flush

theorem allowed_flushes (f : FlatCoins H) (ns : List Nat) : f.AllowedRun (ns.map .flush) := by
  induction ns generalizing f with
  | nil => trivial
  | cons n ns ih => exact ⟨trivial, ih _⟩

theorem flushes_db (f : FlatCoins H) (pre : List (CoinsMap H)) (m : CoinsMap H)
    (suf : List (CoinsMap H)) (hmaps : f.maps = pre ++ m :: suf) :
    (f.run ((List.range' pre.length (suf.length + 1)).map .flush)).2.db = m := by
  induction suf generalizing f pre with
  | nil =>
    show (flushMaps f.db (f.maps.drop pre.length)).1 = m
    rw [hmaps, List.drop_left]
    rfl
  | cons x suf ih =>
    rw [List.length_cons, List.range'_succ, List.map_cons]
    show ((f.step (.flush pre.length)).2.run _).2.db = m
    have hlen : pre.length + 1 = (pre ++ [m]).length := by simp
    rw [hlen]
    apply ih
    show f.maps.take pre.length ++ (flushMaps f.db (f.maps.drop pre.length)).2 = _
    rw [hmaps, List.take_left, List.drop_left]
    simp [flushMaps]

theorem flushAll_db (f : FlatCoins H) : (f.run (flushAll f.maps.length)).2.db = f.top := by
  cases hm : f.maps with
  | nil =>
    show f.db = f.top
    rw [FlatCoins.top, FlatCoins.mapAt, hm]
    rfl
  | cons m rest =>
    have h := flushes_db f [] m rest hm
    rw [FlatCoins.top, FlatCoins.mapAt, hm]
    exact h

theorem refines_new (hdb : Unspent db) (n : Nat) : Refines ⟨db, List.replicate n ∅⟩ ⟨db, List.replicate n db⟩ := by
  have h : views db (List.replicate n ∅) = List.replicate n db ∧ Sound db (List.replicate n ∅) ∧
      view db (List.replicate n ∅) = db := by
    induction n with
    | zero => exact ⟨rfl, trivial, rfl⟩
    | succ n ih =>
      obtain ⟨hviews, hsound, hview⟩ := ih
      rw [List.replicate_succ, List.replicate_succ]
      refine ⟨?_, ⟨hsound, layerSound_empty _⟩, hview⟩
      show view db (List.replicate n ∅) :: views db (List.replicate n ∅) = _
      rw [hviews, hview]
  exact ⟨rfl, h.1.symm, hdb, h.2.1⟩

/-- **the coin caches refine a map**: in any allowed sequence of operations on any number of new layers
over a set of coins nothing is thrown, every answer is that of the plain maps, and flushing all layers
makes the database the topmost map -/
theorem layers_refine {db : CoinsMap H} (hdb : Unspent db) (n : Nat) {ops : List (CoinsOp H)}
    (hops : FlatCoins.AllowedRun ⟨db, List.replicate n db⟩ ops) : ∃ s, CoinsStack.run ⟨db, List.replicate n ∅⟩ ops =
        .ok ((FlatCoins.run ⟨db, List.replicate n db⟩ ops).1, s) ∧
      ∃ answers t, s.run (flushAll s.layers.length) = .ok (answers, t) ∧
        t.db = (FlatCoins.run ⟨db, List.replicate n db⟩ ops).2.top := by
  obtain ⟨s, hs, hr⟩ := run_refines (refines_new hdb n) hops
  have hlen : (FlatCoins.run ⟨db, List.replicate n db⟩ ops).2.maps.length = s.layers.length := by
    rw [hr.maps, length_views]
  obtain ⟨t, ht, hrt⟩ := run_refines hr (allowed_flushes _ (List.range' 0 s.layers.length))
  refine ⟨s, hs, _, t, ht, ?_⟩
  rw [← hrt.db, ← flushAll_db, hlen]
  rfl

def oneCoin : CoinsMap Digest := fun o =>
  if o = ⟨.atom 7, 0⟩ then some ⟨10, 10, [], 0, 1, false⟩ else none

def moveCoin : List (CoinsOp Digest) :=
  [.haveCoin 0 ⟨.atom 7, 0⟩, .spendCoin ⟨.atom 7, 0⟩, .accessCoin 0 ⟨.atom 7, 0⟩,
    .getCoin 1 ⟨.atom 7, 0⟩, .addCoin ⟨.atom 8, 0⟩ ⟨10, 10, [], 0, 2, false⟩ false, .uncache 1 ⟨.atom 7, 0⟩,
    .flush 0, .pop, .getCoin 0 ⟨.atom 7, 0⟩, .haveCoin 0 ⟨.atom 8, 0⟩]

theorem layers_refine_moveCoin : FlatCoins.AllowedRun ⟨oneCoin, [oneCoin, oneCoin]⟩ moveCoin ∧
      ∃ s, CoinsStack.run ⟨oneCoin, [∅, ∅]⟩ moveCoin =
          .ok ([.known true, .coin ⟨10, 10, [], 0, 1, false⟩, .coin Coin.empty,
            .found (some ⟨10, 10, [], 0, 1, false⟩), .done, .done, .done, .done, .found none, .known true], s) ∧
        ∃ answers t, s.run (flushAll s.layers.length) = .ok (answers, t) ∧
          t.db = (FlatCoins.run ⟨oneCoin, [oneCoin, oneCoin]⟩ moveCoin).2.top := by
  have hun : Unspent oneCoin := by
    intro o c h
    unfold oneCoin at h
    split at h
    · cases h
      rfl
    · cases h
  have hallowed : FlatCoins.AllowedRun ⟨oneCoin, [oneCoin, oneCoin]⟩ moveCoin :=
    ⟨trivial, List.cons_ne_nil _ _, trivial, trivial, ⟨List.cons_ne_nil _ _, rfl, fun _ => rfl⟩, trivial,
      trivial, rfl, trivial, trivial, trivial⟩
  exact ⟨hallowed, layers_refine hun 2 hallowed⟩

end Layers
end BitCash

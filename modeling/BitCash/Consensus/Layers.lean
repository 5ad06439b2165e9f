import Mathlib.Data.List.AList
import BitCash.Consensus.Coins
import BitCash.Lib.WriteBack

/-!
# Layers of coin caches

A `CCoinsViewCache` over another one, over another one, over a database: `coins.cpp` with the caches as the hash
maps they are, so that reading fills them and `Flush` runs through their entries.
-/

set_option linter.unusedSectionVars false

namespace BitCash
open Checks WriteBack Function Coin AList CCoinsCacheEntry

variable {H : Type} [Inhabited H] [DecidableEq H] {c : Coin} {m : CoinsMap H}

def Coin.unspent (c : Coin) : Option Coin := if c.isSpent then none else some c

theorem Coin.unspent_eq_some {d : Coin} : c.unspent = some d ↔ c.isSpent = false ∧ d = c := by
  unfold unspent
  cases c.isSpent <;> simp [eq_comm]

theorem Coin.unspent_of_not_spent (h : c.isSpent = false) : c.unspent = some c := unspent_eq_some.2 ⟨h, rfl⟩

theorem Coin.unspent_of_spent (h : c.isSpent) : c.unspent = none := if_pos h

def CCoinsCacheEntry.entry (e : CCoinsCacheEntry) : Entry Coin := ⟨e.coin.unspent, e.dirty, e.fresh⟩

abbrev CCoinsMap (H : Type) := AList fun _ : COutPoint H => CCoinsCacheEntry

namespace Layers

/-! ## lookups -/

/-- `FetchCoin`: the entry of the first layer, which is made from what `base->GetCoin` finds; `rest` are
the layers below, `below` is what the call to them returns -/
def fetchFrom (o : COutPoint H) (l : CCoinsMap H) (rest : List (CCoinsMap H))
    (below : Option Coin × List (CCoinsMap H)) : Option CCoinsCacheEntry × List (CCoinsMap H) :=
  match l.lookup o with
  | some e => (some e, l :: rest)
  | none =>
    match below.1 with
    | none => (none, l :: below.2)
    | some tmp =>
      -- "The parent only has an empty entry for this outpoint; we can consider our version as fresh."
      (some ⟨tmp, false, tmp.isSpent⟩, l.insert o ⟨tmp, false, tmp.isSpent⟩ :: below.2)

/-- `GetCoin` of the database, or of the first layer -/
def getCoin (db : CoinsMap H) (o : COutPoint H) :
    List (CCoinsMap H) → Option Coin × List (CCoinsMap H)
  | [] => (db o, [])
  | l :: rest =>
    let r := fetchFrom o l rest (getCoin db o rest)
    (r.1.bind (·.coin.unspent), r.2)

def fetchCoin (db : CoinsMap H) (o : COutPoint H) :
    List (CCoinsMap H) → Option CCoinsCacheEntry × List (CCoinsMap H)
  | [] => (none, [])
  | l :: rest => fetchFrom o l rest (getCoin db o rest)

def haveCoin (db : CoinsMap H) (o : COutPoint H) :
    List (CCoinsMap H) → Bool × List (CCoinsMap H)
  | [] => ((db o).isSome, [])
  | l :: rest =>
    let r := fetchCoin db o (l :: rest)
    (r.1.any fun e => !e.coin.isSpent, r.2)

def accessCoin (db : CoinsMap H) (o : COutPoint H) :
    List (CCoinsMap H) → Coin × List (CCoinsMap H)
  | [] => ((db o).getD Coin.empty, [])
  | l :: rest =>
    let r := fetchCoin db o (l :: rest)
    ((r.1.map (·.coin)).getD Coin.empty, r.2)

/-! ## changes -/

def entryOf (l : CCoinsMap H) (o : COutPoint H) : CCoinsCacheEntry :=
  (l.lookup o).getD ⟨Coin.empty, false, false⟩

def addCoin (l : CCoinsMap H) (o : COutPoint H) (coin : Coin) (possibleOverwrite : Bool) :
    Res (CCoinsMap H) := do
  need (!coin.isSpent) (.fault .assertionFailed)
  if isUnspendable coin.scriptPubKey then pure l
  else do
    let old := entryOf l o
    need (possibleOverwrite || old.coin.isSpent)
      (.throws "Adding new coin that replaces non-pruned entry")
    pure (l.insert o ⟨coin, true, old.fresh || (!possibleOverwrite && !old.dirty)⟩)

/-- `SpendCoin`: the coin moved out, which is empty where there is none -/
def spendCoin (db : CoinsMap H) (o : COutPoint H) (layers : List (CCoinsMap H)) :
    Coin × List (CCoinsMap H) :=
  match fetchCoin db o layers with
  | (some e, l :: rest) =>
    (e.coin, (if e.fresh then l.erase o else l.insert o ⟨Coin.empty, true, false⟩) :: rest)
  | (_, layers) => (Coin.empty, layers)

def uncache (o : COutPoint H) : List (CCoinsMap H) → List (CCoinsMap H)
  | [] => []
  | l :: rest =>
    (if (l.lookup o).any fun e => !e.dirty && !e.fresh then l.erase o else l) :: rest

def batchEntry (parent : CCoinsMap H) (x : Sigma fun _ : COutPoint H => CCoinsCacheEntry) :
    Res (CCoinsMap H) :=
  if !x.2.dirty then .ok parent
  else match parent.lookup x.1 with
    | none =>
      if x.2.fresh && x.2.coin.isSpent then .ok parent
      else .ok (parent.insert x.1 ⟨x.2.coin, true, x.2.fresh⟩)
    | some us => do
      need (!(x.2.fresh && !us.coin.isSpent))
        (.throws "FRESH flag misapplied to cache entry for base transaction with spendable outputs")
      if us.fresh && x.2.coin.isSpent then pure (parent.erase x.1)
      else pure (parent.insert x.1 ⟨x.2.coin, true, us.fresh⟩)

def batchWrite (parent child : CCoinsMap H) : Res (CCoinsMap H) :=
  run batchEntry parent child.entries

def dbEntry (db : CoinsMap H) (x : Sigma fun _ : COutPoint H => CCoinsCacheEntry) : CoinsMap H :=
  if x.2.dirty then fun o => if o = x.1 then x.2.coin.unspent else db o else db

def dbWrite (db : CoinsMap H) (child : CCoinsMap H) : CoinsMap H := child.entries.foldl dbEntry db

/-- `Flush` of the first layer, into the one below or into the database -/
def flush (db : CoinsMap H) : List (CCoinsMap H) → Res (CoinsMap H × List (CCoinsMap H))
  | [] => .ok (db, [])
  | [l] => .ok (dbWrite db l, [∅])
  | l :: k :: rest => batchWrite k l >>= fun k' => .ok (db, ∅ :: k' :: rest)

/-! ## what the layers show -/

def cell (l : CCoinsMap H) (o : COutPoint H) : Option (Entry Coin) := (l.lookup o).map (·.entry)

def view (db : CoinsMap H) : List (CCoinsMap H) → CoinsMap H
  | [] => db
  | l :: rest => fun o => read (view db rest o) (cell l o)

structure LayerSound (m : CoinsMap H) (l : CCoinsMap H) : Prop where
  good : ∀ o, Good (m o) (cell l o)
  spent : ∀ o e, l.lookup o = some e → e.coin.isSpent = true → e.coin = Coin.empty

def Sound (db : CoinsMap H) : List (CCoinsMap H) → Prop
  | [] => True
  | l :: rest => Sound db rest ∧ LayerSound (view db rest) l

def Unspent (m : CoinsMap H) : Prop := ∀ o c, m o = some c → c.isSpent = false

variable {db : CoinsMap H}

theorem unspent_view (hdb : Unspent db) (layers : List (CCoinsMap H)) : Unspent (view db layers) := by
  induction layers with
  | nil => exact hdb
  | cons l rest ih =>
    intro o c h
    change read (view db rest o) (cell l o) = some c at h
    unfold cell at h
    cases hl : l.lookup o with
    | none =>
      rw [hl] at h
      exact ih o c h
    | some e =>
      rw [hl] at h
      obtain ⟨hs, rfl⟩ := unspent_eq_some.1 h
      exact hs

theorem view_append (db : CoinsMap H) (a b : List (CCoinsMap H)) : view db (a ++ b) = view (view db b) a := by
  induction a with
  | nil => rfl
  | cons l a ih =>
    show (fun o => read (view db (a ++ b) o) (cell l o)) = _
    rw [ih]
    rfl

theorem sound_append (db : CoinsMap H) (a b : List (CCoinsMap H)) :
    Sound db (a ++ b) ↔ Sound db b ∧ Sound (view db b) a := by
  induction a with
  | nil => simp [Sound]
  | cons l a ih =>
    show Sound db (a ++ b) ∧ LayerSound (view db (a ++ b)) l ↔ _
    rw [ih, view_append, and_assoc]
    rfl

/-! ## one entry at a time -/

section
variable (l : CCoinsMap H)
include l

theorem cell_insert_self (o : COutPoint H) (e : CCoinsCacheEntry) : cell (l.insert o e) o = some e.entry:= by
  rw [cell, lookup_insert]
  rfl

theorem cell_insert_ne {o x : COutPoint H} (e : CCoinsCacheEntry) (h : x ≠ o) : cell (l.insert o e) x = cell l x:= by
  rw [cell, lookup_insert_ne h, cell]

theorem cell_erase_self (o : COutPoint H) : cell (l.erase o) o = none := by
  rw [cell, lookup_erase]
  rfl

theorem cell_erase_ne {o x : COutPoint H} (h : x ≠ o) : cell (l.erase o) x = cell l x := by
  rw [cell, lookup_erase_ne h, cell]

end

theorem layerSound_empty (m : CoinsMap H) : LayerSound m (∅ : CCoinsMap H) := by
  constructor
  · intro o
    exact .none _
  · intro o e h
    rw [lookup_empty] at h
    cases h

variable {l : CCoinsMap H} {o : COutPoint H}

theorem LayerSound.insert (h : LayerSound m l) {e : CCoinsCacheEntry} (hgood : Good (m o) (some e.entry))
    (hspent : e.coin.isSpent → e.coin = empty) : LayerSound m (l.insert o e) := by
  constructor
  · intro x
    by_cases hx : x = o
    · subst hx
      rwa [cell_insert_self]
    · rw [cell_insert_ne l e hx]
      exact h.good x
  · intro x d hd
    by_cases hx : x = o
    · subst hx
      rw [lookup_insert] at hd
      cases hd
      exact hspent
    · rw [lookup_insert_ne hx] at hd
      exact h.spent x d hd

theorem LayerSound.erase (h : LayerSound m l) (o : COutPoint H) : LayerSound m (l.erase o) := by
  constructor
  · intro x
    by_cases hx : x = o
    · subst hx
      rw [cell_erase_self]
      exact .none _
    · rw [cell_erase_ne l hx]
      exact h.good x
  · intro x d hd
    by_cases hx : x = o
    · subst hx
      rw [lookup_erase] at hd
      cases hd
    · rw [lookup_erase_ne hx] at hd
      exact h.spent x d hd

theorem view_cons_eq {k : CCoinsMap H} {rest rest' : List (CCoinsMap H)}
    (hrest : view db rest' = view db rest) {c : Option Coin} (hself : read (view db rest o) (cell k o) = c)
    (hne : ∀ x, x ≠ o → cell k x = cell l x) : view db (k :: rest') = update (view db (l :: rest)) o c := by
  funext x
  show read (view db rest' x) (cell k x) = _
  rw [hrest]
  by_cases hx : x = o
  · subst hx
    rw [hself, update_self]
  · rw [hne x hx, update_of_ne hx]
    rfl

/-! ## lookups change nothing -/

def views (db : CoinsMap H) : List (CCoinsMap H) → List (CoinsMap H)
  | [] => []
  | l :: rest => view db (l :: rest) :: views db rest

structure Same (db : CoinsMap H) (layers layers' : List (CCoinsMap H)) : Prop where
  views : views db layers' = views db layers
  sound : Sound db layers'

theorem headD_views (db : CoinsMap H) (layers : List (CCoinsMap H)) :
    (views db layers).headD db = view db layers := by
  cases layers with
  | nil => rfl
  | cons l rest => rfl

theorem Same.view {a b : List (CCoinsMap H)} (h : Same db a b) : view db b = view db a := by
  rw [← headD_views, h.views, headD_views]

variable {layers : List (CCoinsMap H)}

theorem Same.refl (h : Sound db layers) : Same db layers layers := ⟨rfl, h⟩

theorem Same.cons {db : CoinsMap H} {l k : CCoinsMap H} {rest rest' : List (CCoinsMap H)}
    (h : Same db rest rest') (hk : LayerSound (Layers.view db rest) k)
    (hread : ∀ o, read (Layers.view db rest o) (cell k o) = read (Layers.view db rest o) (cell l o)) :
    Same db (l :: rest) (k :: rest') := by
  constructor
  · show Layers.view db (k :: rest') :: Layers.views db rest' = _
    rw [h.views]
    show (fun o => read (Layers.view db rest' o) (cell k o)) :: _ = _
    rw [h.view]
    simp only [hread]
    rfl
  · exact ⟨h.sound, by rw [h.view]; exact hk⟩

/-- **a lookup in one layer**: the entry stands for what is shown, and nothing shown changes -/
theorem fetchFrom_spec (hdb : Unspent db) {rest : List (CCoinsMap H)} (hs : Sound db (l :: rest))
    {below : Option Coin × List (CCoinsMap H)} (hbelow : below.1 = view db rest o) (hsame : Same db rest below.2) :
    ∃ k rest', (fetchFrom o l rest below).2 = k :: rest' ∧ k.lookup o = (fetchFrom o l rest below).1 ∧
      ((fetchFrom o l rest below).1.bind (·.coin.unspent)) = view db (l :: rest) o ∧
      (∀ x, x ≠ o → cell k x = cell l x) ∧ Same db (l :: rest) (k :: rest') := by
  have hview : view db (l :: rest) o = read (view db rest o) (cell l o) := rfl
  rw [hview]
  unfold fetchFrom cell
  cases hl : l.lookup o with
  | some e => exact ⟨l, rest, rfl, hl, rfl, fun _ _ => rfl, .refl hs⟩
  | none =>
    dsimp only
    cases hb : below.1 with
    | none =>
      refine ⟨l, below.2, rfl, hl, ?_, fun _ _ => rfl, hsame.cons hs.2 fun _ => rfl⟩
      exact hb.symm.trans hbelow
    | some tmp =>
      have htmp : view db rest o = some tmp := (hb.symm.trans hbelow).symm
      have hun : tmp.isSpent = false := unspent_view hdb rest o tmp htmp
      have hentry : entry ⟨tmp, false, tmp.isSpent⟩ = ⟨view db rest o, false, false⟩ := by
        show (⟨tmp.unspent, false, tmp.isSpent⟩ : Entry Coin) = _
        rw [unspent_of_not_spent hun, hun, htmp]
      refine ⟨_, below.2, rfl, lookup_insert l, ?_, fun x hx => cell_insert_ne l _ hx,
        hsame.cons (hs.2.insert ?_ fun h => ?_) fun x => ?_⟩
      · exact (unspent_of_not_spent hun).trans htmp.symm
      · rw [hentry]
        exact .copy _
      · exact absurd (h.symm.trans hun) (by decide)
      · by_cases hx : x = o
        · subst hx
          rw [cell_insert_self, hentry, cell, hl]
          rfl
        · rw [cell_insert_ne l _ hx]

theorem getCoin_spec (hdb : Unspent db) (o : COutPoint H) (hs : Sound db layers) :
    (getCoin db o layers).1 = view db layers o ∧ Same db layers (getCoin db o layers).2 := by
  induction layers with
  | nil => exact ⟨rfl, .refl hs⟩
  | cons l rest ih =>
    obtain ⟨hval, hsame⟩ := ih hs.1
    obtain ⟨k, rest', heq, -, hread, -, hsame'⟩ := fetchFrom_spec hdb hs hval hsame
    refine ⟨hread, ?_⟩
    show Same db (l :: rest) (fetchFrom o l rest (getCoin db o rest)).2
    rw [heq]
    exact hsame'

variable {rest : List (CCoinsMap H)}

theorem fetchCoin_spec (hdb : Unspent db) (o : COutPoint H) (hs : Sound db (l :: rest)) :
    ∃ k rest', fetchCoin db o (l :: rest) = (k.lookup o, k :: rest') ∧
      ((k.lookup o).bind (·.coin.unspent)) = view db (l :: rest) o ∧ Same db (l :: rest) (k :: rest') := by
  obtain ⟨hval, hsame⟩ := getCoin_spec hdb o hs.1
  obtain ⟨k, rest', heq, hlook, hread, -, hsame'⟩ := fetchFrom_spec hdb hs hval hsame
  refine ⟨k, rest', ?_, ?_, hsame'⟩
  · show fetchFrom o l rest (getCoin db o rest) = _
    rw [hlook, ← heq]
  · rw [hlook]
    exact hread

theorem haveCoin_spec (hdb : Unspent db) (o : COutPoint H) (hs : Sound db layers) :
    (haveCoin db o layers).1 = (view db layers o).isSome ∧ Same db layers (haveCoin db o layers).2 := by
  cases layers with
  | nil => exact ⟨rfl, .refl hs⟩
  | cons l rest =>
    obtain ⟨k, rest', heq, hread, hsame⟩ := fetchCoin_spec hdb o hs
    rw [haveCoin, heq]
    refine ⟨?_, hsame⟩
    rw [← hread]
    cases k.lookup o with
    | none => rfl
    | some e =>
      show (!e.coin.isSpent) = e.coin.unspent.isSome
      unfold unspent
      cases e.coin.isSpent <;> rfl

theorem LayerSound.coin_eq (h : LayerSound m l) (o : COutPoint H) :
    ((l.lookup o).map (·.coin)).getD empty = ((l.lookup o).bind (·.coin.unspent)).getD empty := by
  cases hl : l.lookup o with
  | none => rfl
  | some e =>
    show e.coin = e.coin.unspent.getD empty
    cases hs : e.coin.isSpent with
    | true => rw [unspent_of_spent hs, h.spent o e hl hs]; rfl
    | false => rw [unspent_of_not_spent hs]; rfl

theorem accessCoin_spec (hdb : Unspent db) (o : COutPoint H) (hs : Sound db layers) :
    (accessCoin db o layers).1 = (view db layers o).getD empty ∧ Same db layers (accessCoin db o layers).2 := by
  cases layers with
  | nil => exact ⟨rfl, .refl hs⟩
  | cons l rest =>
    obtain ⟨k, rest', heq, hread, hsame⟩ := fetchCoin_spec hdb o hs
    rw [accessCoin, heq]
    refine ⟨?_, hsame⟩
    rw [← hread]
    exact hsame.sound.2.coin_eq o

/-! ## changes of the topmost layer -/

theorem entryOf_coin (m : Option Coin) (h : read m (cell l o) = none) : (entryOf l o).coin.isSpent := by
  unfold cell at h
  unfold entryOf
  cases hl : l.lookup o with
  | none => rfl
  | some e =>
    rw [hl] at h
    cases hs : e.coin.isSpent with
    | true => exact hs
    | false =>
      have : e.coin.unspent = none := h
      rw [unspent_of_not_spent hs] at this
      cases this

theorem entry_put (l : CCoinsMap H) (o : COutPoint H) (hc : c.isSpent = false) (ow : Bool) :
    entry ⟨c, true, (entryOf l o).fresh || (!ow && !(entryOf l o).dirty)⟩ = put (cell l o) c ow := by
  show (⟨c.unspent, true, _⟩ : Entry Coin) = _
  rw [unspent_of_not_spent hc]
  unfold entryOf cell put
  cases l.lookup o <;> rfl

theorem addCoin_spec (hs : Sound db (l :: rest)) {ow : Bool} (hc : c.isSpent = false)
    (how : ow = false → view db (l :: rest) o = none) : ∃ k, addCoin l o c ow = .ok k ∧ Sound db (k :: rest) ∧
      view db (k :: rest) = if isUnspendable c.scriptPubKey then view db (l :: rest)
        else update (view db (l :: rest)) o (some c) := by
  have hneed : need (!c.isSpent) (Stop.fault .assertionFailed) = .ok () := by rw [hc]; rfl
  unfold addCoin
  rw [hneed]
  cases hu : isUnspendable c.scriptPubKey with
  | true => exact ⟨l, rfl, hs, rfl⟩
  | false =>
    have hover : (ow || (entryOf l o).coin.isSpent) := by
      cases ow with
      | true => rfl
      | false => exact entryOf_coin _ (how rfl)
    refine ⟨l.insert o ⟨c, true, (entryOf l o).fresh || (!ow && !(entryOf l o).dirty)⟩, ?_, ?_, ?_⟩
    · show (need (ow || (entryOf l o).coin.isSpent) _ >>= fun _ => _) = _
      rw [hover]
      rfl
    · refine ⟨hs.1, hs.2.insert ?_ fun h => absurd (hc.symm.trans h) (by decide)⟩
      rw [entry_put l o hc]
      exact good_put (hs.2.good o) c how
    · apply view_cons_eq rfl
      · rw [cell_insert_self, entry_put l o hc]
        rfl
      · intro x hx
        exact cell_insert_ne l _ hx

theorem empty_entry : entry ⟨empty, true, false⟩ = ⟨none, true, false⟩ := rfl

theorem spendCoin_spec (hdb : Unspent db) (o : COutPoint H) (hs : Sound db (l :: rest)) :
    ∃ k rest', spendCoin db o (l :: rest) = ((view db (l :: rest) o).getD empty, k :: rest') ∧
      Sound db (k :: rest') ∧ views db rest' = views db rest ∧
      view db (k :: rest') = update (view db (l :: rest)) o none := by
  obtain ⟨k, rest', heq, hread, hsame⟩ := fetchCoin_spec hdb o hs
  have hrest : views db rest' = views db rest := (List.cons.inj hsame.views).2
  have hcoin := hsame.sound.2.coin_eq o
  rw [hread] at hcoin
  unfold spendCoin
  rw [heq, ← hsame.view]
  have hbelow : view db rest' = view db rest' := rfl
  cases hk : k.lookup o with
  | none =>
    rw [hk] at hread hcoin
    refine ⟨k, rest', ?_, hsame.sound, hrest, ?_⟩
    · rw [hsame.view, ← hcoin]
      rfl
    · have hnone : view db (k :: rest') o = none := by rw [hsame.view, ← hread]; rfl
      rw [← hnone, update_eq_self]
  | some e =>
    rw [hk] at hcoin
    have hgood := hsame.sound.2.good o
    rw [cell, hk] at hgood
    have herase := good_erase hgood
    have hfresh : (entry e).fresh = e.fresh := rfl
    unfold WriteBack.erase at herase
    rw [hfresh] at herase
    rw [hsame.view, ← hcoin, ← hsame.view]
    dsimp only
    cases hf : e.fresh with
    | true =>
      rw [hf, if_pos rfl] at herase
      refine ⟨k.erase o, rest', rfl, ⟨hsame.sound.1, hsame.sound.2.erase o⟩, hrest, ?_⟩
      apply view_cons_eq hbelow
      · rw [cell_erase_self]
        exact herase.2
      · intro x hx
        exact cell_erase_ne k hx
    | false =>
      refine ⟨k.insert o ⟨empty, true, false⟩, rest', rfl, ⟨hsame.sound.1, ?_⟩, hrest, ?_⟩
      · refine hsame.sound.2.insert ?_ fun _ => rfl
        rw [empty_entry]
        exact .of_dirty fun h => (nomatch h)
      · apply view_cons_eq hbelow
        · rw [cell_insert_self]
          rfl
        · intro x hx
          exact cell_insert_ne k _ hx

theorem uncache_spec (o : COutPoint H) (hs : Sound db layers) : Same db layers (uncache o layers) := by
  cases layers with
  | nil => exact .refl hs
  | cons l rest =>
    show Same db (l :: rest) ((if (l.lookup o).any fun e => !e.dirty && !e.fresh then l.erase o else l) :: rest)
    cases hl : l.lookup o with
    | none => exact .refl hs
    | some e =>
      cases hflags : !e.dirty && !e.fresh with
      | false =>
        rw [Option.any_some, hflags]
        exact .refl hs
      | true =>
        rw [Option.any_some, hflags, if_pos rfl]
        rw [Bool.and_eq_true, Bool.not_eq_true'] at hflags
        have hclean := (hs.2.good o).clean e.entry (by rw [cell, hl]; rfl) hflags.1
        refine (Same.refl hs.1).cons (hs.2.erase o) fun x => ?_
        by_cases hx : x = o
        · subst hx
          rw [cell_erase_self, cell, hl]
          exact hclean.symm
        · rw [cell_erase_ne l hx]

end Layers
end BitCash

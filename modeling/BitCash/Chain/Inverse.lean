import BitCash.Chain.Records
import BitCash.Serialize.Undo

/-!
# Disconnecting undoes connecting

A block that `ConnectBlock` accepted is disconnected with the undo record it wrote, after the record was on disk:
the coins are what they were before.
-/

namespace BitCash
open Checks Journal Codec List Bool CCoinsViewCache CPubKey CTransaction Coin

variable {H : Type} [Inhabited H] [DecidableEq H] {env : Env H} {params : Params H}
  {block : CBlock H} {tx : CTransaction H} {nicks : Nicknames H} {undoPos : Res Nat}
  {tip m : CoinsMap H} {nHeight : Nat}
  {bh : H} {dbl : Bool}

/-! ## records on disk -/

def Restored (tx : CTransaction H) (u : List Coin) : Prop :=
  ∀ i c, (i, c) ∈ tx.vin.zip u → i.isnickname = false →
    0 < c.nHeight ∧ c.nHeight < 2 ^ 30 ∧ moneyRange c.nValue = true ∧ moneyRange c.nValueBitCash = true

theorem TxRecord.onDisk {u : List Coin} (h : TxRecord env nHeight m tx u) (hu : Restored tx u) :
    (∀ c ∈ u, c.Writable) ∧ SameCoins tx.vin (u.map stored) u := by
  have hcoin : ∀ i c, (i, c) ∈ tx.vin.zip u → i.isnickname = false → c.Restorable := by
    intro i c hmem hn
    obtain ⟨hpos, hlt, hval, hval'⟩ := hu i c hmem hn
    have hscript : c.scriptPubKey.length ≤ MAX_SCRIPT_SIZE := by
      have hsp := h.spendable _ c (h.spent.getCoin hmem hn)
      rw [isUnspendable, or_eq_false_iff, decide_eq_false_iff_not] at hsp
      omega
    exact ⟨⟨hlt, hscript⟩, hpos, hval, hval'⟩
  refine ⟨fun c hc => ?_, SameCoins.map h.length fun i c hmem hn =>
    stored_of_restorable (hcoin i c hmem hn)⟩
  -- every coin of the record belongs to an input
  have hsnd : (tx.vin.zip u).map Prod.snd = u := map_snd_zip (by rw [h.length])
  rw [← hsnd] at hc
  obtain ⟨⟨i, d⟩, hmem, rfl⟩ := mem_map.1 hc
  cases hn : i.isnickname with
  | false => exact (hcoin i d hmem hn).toWritable
  | true =>
    show d.Writable
    rw [h.empty i d hmem hn]
    exact ⟨by decide, by decide⟩

theorem RecordsAll.stored {l : List (CTransaction H)} {us : List (List Coin)}
    (h : RecordsAll env nHeight m l us) (hu : ∀ tx u, (tx, u) ∈ l.zip us → Restored tx u) :
    SameRecords l (us.map (map stored)) us := by
  induction l generalizing us m with
  | nil =>
    cases us with
    | nil => trivial
    | cons u us => exact absurd h id
  | cons tx l ih =>
    cases us with
    | nil => exact absurd h id
    | cons u us =>
      exact ⟨(h.1.onDisk (hu tx u mem_cons_self)).2, ih h.2 fun ty w hmem =>
        hu ty w (mem_cons_of_mem _ hmem)⟩

/-! ## the size of the record -/

def Env.LongSignatures (env : Env H) : Prop :=
  ∀ (k : CPubKey) (hash : H) (sig : Bytes), k.isValid = true → env.verify k hash sig = true →
    2 ≤ sig.length

theorem CPubKey.size_of_isValid {k : CPubKey} (h : k.isValid) : 33 ≤ k.vch.length := by
  have hwf := k.wf
  have hpos : 0 < k.vch.length := of_decide_eq_true h
  cases hk : k.vch with
  | nil => rw [hk] at hpos; cases hpos
  | cons b l =>
    rw [hk, wellFormed, and_eq_true, decide_eq_true_iff, decide_eq_true_iff] at hwf
    rw [hwf.2]
    have hget := hwf.1
    unfold getLen at hget ⊢
    split
    · omega
    · split
      · omega
      · rename_i h1 h2
        rw [if_neg h1, if_neg h2] at hget
        omega

theorem vectorSize_ge (b : Bytes) : b.length + 1 ≤ vectorSize b := by
  have hcompact : 1 ≤ compactSize b.length := by
    unfold compactSize
    repeat' split
    all_goals omega
  unfold vectorSize
  omega

theorem serializeSize_ge (hsig : env.LongSignatures)
    {i : CTxIn H} (h : i.isnickname → checkNickname env nicks bh dbl i = .ok ())
      (v : Int) : 42 ≤ i.serializeSize v := by
  unfold CTxIn.serializeSize
  cases hn : i.isnickname with
  | false =>
    have hscript := vectorSize_ge i.scriptSig
    show 42 ≤ 1 + 36 + vectorSize i.scriptSig + 4
    omega
  | true =>
    have hok := h hn
    simp only [checkNickname, bind_ok, need_ok, exists_const, decide_eq_true_eq] at hok
    obtain ⟨hlong, -, -, -, hvalid, -, -, hverify⟩ := hok
    have hs : 2 ≤ i.nicknamesig.length := by
      rw [or_eq_true] at hverify
      rcases hverify with hv | hv
      · exact hsig _ _ _ hvalid hv
      · exact hsig _ _ _ (by decide) hv
    have haddr := size_of_isValid hvalid
    have h1 := vectorSize_ge i.address.vch
    have h2 := vectorSize_ge i.nickname
    have h3 := vectorSize_ge i.nicknamesig
    show 42 ≤ 1 + vectorSize i.address.vch + vectorSize i.nickname + vectorSize i.nicknamesig + _ + _
    omega

theorem length_mul_le_listSize {α : Type} {size : α → Nat} {k : Nat} {l : List α}
    (h : ∀ a ∈ l, k ≤ size a) : l.length * k ≤ listSize size l := by
  have hsum := card_nsmul_le_sum (l.map size) k fun x hx => by
    obtain ⟨a, ha, rfl⟩ := mem_map.1 hx
    exact h a ha
  rw [length_map, Nat.nsmul_eq_mul] at hsum
  unfold listSize
  omega

theorem vin_length_le (hsig : env.LongSignatures)
    {dup : Bool} (h : checkTransaction env nicks tx dup bh dbl = .ok ()) : tx.vin.length ≤ MAX_INPUTS_PER_BLOCK := by
  obtain ⟨-, -, hsize, -, -, -, hnick⟩ := checkTransaction_ok env h
  have hin : ∀ i ∈ tx.vin, 42 ≤ i.serializeSize tx.nVersion := fun i hi =>
    serializeSize_ge hsig (fun hn => each_ok.1 hnick i (mem_filter.2 ⟨hi, hn⟩)) _
  have hlist := length_mul_le_listSize hin
  unfold strippedSize WITNESS_SCALE_FACTOR MAX_BLOCK_WEIGHT at hsize
  show tx.vin.length ≤ 144000000 / (4 * 42)
  omega

theorem vtx_length_le (h : bodyRules env params block = .ok ()) : block.vtx.length ≤ MAX_SIZE := by
  simp only [bodyRules, bind_ok, need_ok, exists_const, and_eq_true, decide_eq_true_eq] at h
  obtain ⟨⟨-, hsize⟩, -⟩ := h
  have htx : ∀ tx ∈ block.vtx, 8 ≤ tx.strippedSize := by
    intro tx _
    unfold strippedSize
    omega
  have hlist := length_mul_le_listSize htx
  unfold CBlock.strippedSize WITNESS_SCALE_FACTOR MAX_BLOCK_WEIGHT at hsize
  unfold MAX_SIZE
  omega

/-! ## the block -/

def ConnectState.undoRecord (env : Env H) (params : Params H) (s : ConnectState H) (block : CBlock H) :
    List (List Coin) :=
  match connectLoop env params s.context block s.view with
  | .ok c => c.vtxundo
  | .error _ => []

theorem Accepts.state {s t : ConnectState H}
    (h : Accepts env params block tip undoPos s t) : (∃ c, connectLoop env params s.context block s.view = .ok c ∧
        t.view = c.view.setBestBlock s.pindex.hash) ∧
      s.pindex.pprev = some s.view.hashBlock ∧ t.pindex.pprev = s.pindex.pprev ∧
      t.pindex.nHeight = s.pindex.nHeight := by
  obtain ⟨c, p, hc, hw, -, rfl⟩ := h.steps
  obtain ⟨-, -, hparent, ⟨-, hno⟩ | ⟨-, hsome, -, c', hloop, -, -, heq⟩⟩ := connectChecks_iff.1 hc
  · cases hno
  · cases heq
    have hprev : s.pindex.pprev = some s.view.hashBlock := by
      obtain ⟨prev, hprev⟩ := Option.isSome_iff_exists.1 hsome
      have hprev' : s.pindex.pprev = some prev := hprev
      rw [← hparent]
      show s.pindex.pprev = some (s.pindex.pprev.getD default)
      rw [hprev']
      rfl
    have hp : p.pprev = s.pindex.pprev ∧ p.nHeight = s.pindex.nHeight := by
      unfold writeUndoDataForBlock at hw
      split at hw
      · cases hw
        exact ⟨rfl, rfl⟩
      · obtain ⟨pos, -, hret⟩ := bind_ok.1 hw
        cases hret
        exact ⟨rfl, rfl⟩
    have hraise : (scriptsValid p).pprev = p.pprev ∧ (scriptsValid p).nHeight = p.nHeight := by
      unfold scriptsValid CBlockIndex.raiseValidity
      repeat' split
      all_goals exact ⟨rfl, rfl⟩
    exact ⟨⟨c, hloop, rfl⟩, hprev, hraise.1.trans hp.1, hraise.2.trans hp.2⟩

/-- the coins a block spends, as its undo record lists them, have a height above the genesis block that
fits in the 31 bits of `Coin::nHeight`, and both their amounts are in the money range -/
def SpentInRange (block : CBlock H) (vtxundo : List (List Coin)) : Prop :=
  ∀ o c, Restores block.vtx vtxundo o c → 0 < c.nHeight ∧ c.nHeight < 2 ^ 31 ∧
    moneyRange c.nValue = true ∧ moneyRange c.nValueBitCash = true

/-- the coins a block spends have a height that can be doubled in an `int` -/
def SpentLow (block : CBlock H) (vtxundo : List (List Coin)) : Prop :=
  ∀ o c, Restores block.vtx vtxundo o c → c.nHeight < 2 ^ 30

theorem spentLow_of_written {vtxundo : List (List Coin)}
    (h : ∀ l ∈ vtxundo, ∀ c ∈ l, c.nHeight < 2 ^ 30) : SpentLow block vtxundo := by
  rintro o c ⟨tx, u, hmem, i, hiu, -⟩
  have hu : u ∈ vtxundo := by simpa using (of_mem_zip hmem).2
  exact h u hu c (of_mem_zip hiu).2

theorem restored_of_spent {cb : CTransaction H} {rest : List (CTransaction H)} {us : List (List Coin)}
    (hvtx : block.vtx = cb :: rest) (hspent : SpentInRange block us) (hlow : SpentLow block us) :
    ∀ tx u, (tx, u) ∈ rest.zip us → Restored tx u := by
  intro tx u hzip i x hix hn
  have hrestores : Restores block.vtx us i.prevout x :=
    ⟨tx, u, by rw [hvtx]; exact mem_cons_of_mem _ (zip_some_mem hzip), i, hix, hn, rfl⟩
  obtain ⟨hpos, -, hvalues⟩ := hspent _ x hrestores
  exact ⟨hpos, hlow _ x hrestores, hvalues⟩

theorem Accepts.applied {s t : ConnectState H}
    (h : Accepts env params block tip undoPos s t) (hview : s.view.Coherent)
    (hrules : blockRules env params block true true = .ok ()) (hsig : env.LongSignatures)
    (hnew : NewOutputs env block s.view.getCoin) (hspent : SpentInRange block (s.undoRecord env params block))
    (hlow : SpentLow block (s.undoRecord env params block)) :
    t.view.Coherent ∧ t.view.getCoin = applyTo s.view.getCoin (blockWrites env block.vtx s.pindex.nHeight) ∧
      (s.undoRecord env params block).length + 1 = block.vtx.length ∧
      UndoFits (s.undoRecord env params block) ∧
      AppliedAll env s.pindex.nHeight s.view.getCoin
        (withRecords block.vtx ((s.undoRecord env params block).map (map stored))) := by
  obtain ⟨⟨c, hloop, htview⟩, -⟩ := h.state
  have hbody := (blockRules_ok.1 hrules).2.2.2
  have hct := (bodyRules_ok hbody).2
  have hundo : s.undoRecord env params block = c.vtxundo := by
    unfold ConnectState.undoRecord
    rw [hloop]
  rw [hundo] at hspent hlow ⊢
  obtain ⟨hco, hget, hrec⟩ := connectLoop_records hview hrules hnew hloop
  have hmax := vtx_length_le hbody
  have hlength := hrec.length
  obtain ⟨cb, rest, hvtx, hcb, hall⟩ := hrec.coinbase
  have hmem := restored_of_spent hvtx hspent hlow
  have hfrom : ∀ u ∈ c.vtxundo, ∃ tx, (tx, u) ∈ rest.zip c.vtxundo := by
    intro u hu
    have hsnd : (rest.zip c.vtxundo).map Prod.snd = c.vtxundo := map_snd_zip (by rw [hall.length])
    rw [← hsnd] at hu
    obtain ⟨⟨tx, u'⟩, hzip, rfl⟩ := mem_map.1 hu
    exact ⟨tx, hzip⟩
  refine ⟨?_, by rw [htview]; exact hget, hlength, ⟨by omega, fun u hu => ?_, fun u hu => ?_⟩,
    hrec.applied (fun o x hx => ?_) ?_⟩
  · rw [htview]
    exact coherent_setBestBlock hco _
  · obtain ⟨tx, hzip⟩ := hfrom u hu
    obtain ⟨m, htx⟩ := hall.mem hzip
    rw [htx.length]
    refine vin_length_le hsig (hct tx ?_)
    rw [hvtx]
    exact mem_cons_of_mem cb (of_mem_zip hzip).1
  · obtain ⟨tx, hzip⟩ := hfrom u hu
    obtain ⟨m, htx⟩ := hall.mem hzip
    exact (htx.onDisk (hmem tx u hzip)).1
  · have hpos := (hspent o x hx).1
    omega
  · rw [hvtx]
    exact hall.stored hmem

/-- **disconnecting undoes connecting** exactly when every spent coin has a height below `2 ^ 30`: then the
undo record of an accepted block is written and comes back from the disk, and with it the block is
disconnected without a difference, from the view it left and from any other with the same coins; the
coins and the best block are what they were before -/
theorem disconnect_connect_iff (keys : KeyEnv) (hasher : UndoHasher H) {block : CBlock H}
    {tip : CoinsMap H} {undoPos : Res Nat} {s t : ConnectState H} (hkeys : keys.Lawful)
    (hsig : env.LongSignatures) (h : Accepts env params block tip undoPos s t) (hview : s.view.Coherent)
    (hflag : block.fChecked = true → blockRules env params block true true = .ok ())
    (hnew : NewOutputs env block s.view.getCoin) (hspent : SpentInRange block (s.undoRecord env params block))
    (later : Bytes) : (∃ file,
      undoWriteToDisk keys hasher s.view.hashBlock (s.undoRecord env params block) = .ok file ∧
      t.view.Coherent ∧ ∀ v : CCoinsViewCache H, v.Coherent → v.getCoin = t.view.getCoin → ∃ vtxundo w,
        undoRecordFromDisk keys hasher s.view.hashBlock (file ++ later) = some vtxundo ∧
        disconnectBlock env block (some vtxundo) t.pindex v = .ok (w, true) ∧
        w.getCoin = s.view.getCoin ∧ w.hashBlock = s.view.hashBlock) ↔
      SpentLow block (s.undoRecord env params block) := by
  refine ⟨fun ⟨_, hwrite, _⟩ => spentLow_of_written (low_of_undoWriteToDisk hasher hwrite), fun hlow => ?_⟩
  obtain ⟨-, -, -, -, -, b, hcheck⟩ := h.inv
  have hrules : blockRules env params block true true = .ok () := by
    rcases checkBlock_ok hcheck with ⟨hchecked, -⟩ | ⟨-, hr, -⟩
    · exact hflag hchecked
    · exact hr
  obtain ⟨hco, hget, hlength, hfits, happ⟩ := h.applied hview hrules hsig hnew hspent hlow
  obtain ⟨-, hprev, hpprev, hheight⟩ := h.state
  obtain ⟨file, hwrite, hread⟩ := undoRecordFromDisk_undoWriteToDisk hasher hkeys s.view.hashBlock hfits later
  rw [← hheight] at happ hget
  have hshort : ((s.undoRecord env params block).map (List.map Coin.stored)).length + 1 = block.vtx.length := by
    rw [List.length_map, hlength]
  refine ⟨file, hwrite, hco, fun v hv hsame => ?_⟩
  obtain ⟨w, hw, -, hhash, hm⟩ := disconnectBlock_clean (hpprev.trans hprev) hshort happ hv (hsame.trans hget)
  exact ⟨_, w, hread, hw, hm, hhash⟩

/-! ## a chain of spends and a nickname in one block -/

def symKeys : KeyEnv where
  isFullyValid k := decide (k.tail = k.tail.take 32 ++ k.tail.take 32)
  decompress k := some (4 :: (k.tail ++ k.tail))

theorem symKeys_lawful : symKeys.Lawful := by
  intro xy _ hvalid
  have hxy : xy = xy.take 32 ++ xy.take 32 := of_decide_eq_true hvalid
  show some (4 :: (xy.take 32 ++ xy.take 32)) = some (4 :: xy)
  rw [← hxy]

def zeroHasher : UndoHasher Digest := ⟨fun _ _ => List.replicate 32 0, fun _ _ => List.length_replicate⟩

theorem symEnv_longSignatures : symEnv.LongSignatures := by
  intro k hash sig hk hv
  have heq : sig = k.vch := of_decide_eq_true hv
  have hlen := size_of_isValid hk
  rw [heq]
  omega

theorem spentInRange_of_all {vtxundo : List (List Coin)}
    (h : ∀ p ∈ withRecords block.vtx vtxundo, ∀ q ∈ p.1.vin.zip (p.2.getD []), q.1.isnickname = false →
      0 < q.2.nHeight ∧ q.2.nHeight < 2 ^ 31 ∧ moneyRange q.2.nValue ∧
        moneyRange q.2.nValueBitCash) : SpentInRange block vtxundo := by
  rintro o c ⟨tx, u, hmem, i, hiu, hn, -⟩
  exact h (tx, some u) hmem (i, c) hiu hn

theorem tenTip_coherent (hash : Digest) : (ofBase tenTip hash).Coherent := by
  have hten : ∀ o c, tenTip o = some c → c = ⟨10, 10, [], 0, 1, false⟩ := by
    intro o c hc
    unfold tenTip at hc
    split at hc
    · exact (Option.some.inj hc).symm
    · cases hc
  refine (coherent_ofBase (fun o c hc => ?_) (fun o c hc => ?_)).1
  · rw [hten o c hc]
    rfl
  · rw [hten o c hc]
    rfl

def spendTwice : CBlock Digest :=
  halfBlock [spendTen [.of 10 10 [] 0] (.refl true),
    ⟨6, [.ofOutPoint ⟨(spendTen [.of 10 10 [] 0] (.refl true)).getHash symEnv, 0⟩ []],
      [.of 10 10 [] 0], 0, by decide, .refl true⟩, bobTx]

def spendTwiceState : ConnectState Digest :=
  (connectBlock symEnv symMain spendTwice tenTip (.ok 7) false
    (tenState spendTwice)).2

/-- the block is accepted, its record comes back from the disk, and it is disconnected -/
theorem disconnect_connect_spendTwice :
    (connectBlock symEnv symMain spendTwice tenTip (.ok 7) false
        (tenState spendTwice)).1 = .ok () ∧ spendTwiceState.view.getCoin ⟨.atom 7, 0⟩ = none ∧ ∃ file vtxundo w,
        undoWriteToDisk symKeys zeroHasher (.atom 1)
          ((tenState spendTwice).undoRecord symEnv symMain spendTwice) = .ok file ∧
        undoRecordFromDisk symKeys zeroHasher (.atom 1) (file ++ []) = some vtxundo ∧
        disconnectBlock symEnv spendTwice (some vtxundo) spendTwiceState.pindex
          spendTwiceState.view = .ok (w, true) ∧ w.getCoin = tenTip ∧ w.hashBlock = .atom 1 := by
  have hok : (connectBlock symEnv symMain spendTwice tenTip (.ok 7) false
      (tenState spendTwice)).1 = .ok () := by
    decide
  have hacc : Accepts symEnv symMain spendTwice tenTip (.ok 7)
      (tenState spendTwice) spendTwiceState := ⟨Prod.ext hok rfl, by decide⟩
  have hten : (tenState spendTwice).view.getCoin = tenTip := by
    funext o
    show (CCoinsViewCache.ofBase tenTip (.atom 1)).getCoin o = tenTip o
    rw [CCoinsViewCache.getCoin_eq_unspent, CCoinsViewCache.accessCoin_of_none rfl]
    show ((tenTip o).getD Coin.empty).unspent = tenTip o
    unfold tenTip
    split
    · rfl
    · rfl
  have hspent : SpentInRange spendTwice
      ((tenState spendTwice).undoRecord symEnv symMain spendTwice) :=
    spentInRange_of_all (by decide)
  obtain ⟨file, hwrite, hco, hall⟩ := (disconnect_connect_iff symKeys zeroHasher
    symKeys_lawful symEnv_longSignatures hacc (tenTip_coherent _) (fun hf => nomatch hf)
    (by unfold NewOutputs; decide) hspent []).2 (spentLow_of_written (by decide))
  obtain ⟨vtxundo, w, hread, hdis, hget, hhash⟩ := hall _ hco rfl
  exact ⟨hok, by decide, file, vtxundo, w, hwrite, hread, hdis, hget.trans hten, hhash⟩

def highTip : CoinsMap Digest := fun o =>
  if o = ⟨.atom 7, 0⟩ then some ⟨10, 10, [], 0, 2 ^ 30, false⟩ else none

def spendHigh : CBlock Digest := halfBlock [spendTen [.of 10 10 [] 0] (.refl true)]

def highState : ConnectState Digest := { tenState spendHigh with view := .ofBase highTip (.atom 1) }

/-- a coin of the height `2 ^ 30` is spent by an accepted block: the height is one of `Coin::nHeight`, and
the undo record cannot be written -/
theorem disconnect_connect_high : (connectBlock symEnv symMain spendHigh highTip (.ok 7) false
        highState).1 = .ok () ∧
      SpentInRange spendHigh (highState.undoRecord symEnv symMain spendHigh) ∧
      undoWriteToDisk symKeys zeroHasher (.atom 1)
        (highState.undoRecord symEnv symMain spendHigh) =
          .error (.fault .signedOverflow) := by
  refine ⟨by decide, spentInRange_of_all (by decide), ?_⟩
  have hrecord : highState.undoRecord symEnv symMain spendHigh =
      [[⟨10, 10, [], 0, 2 ^ 30, false⟩]] := by
    decide
  rw [hrecord]
  rfl

end BitCash

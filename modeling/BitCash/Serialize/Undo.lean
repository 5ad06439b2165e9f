import BitCash.Serialize.Compressor
import BitCash.Consensus.Coins

/-!
# Undo records on disk

`CBlockUndo`, `CTxUndo` and the two classes around a spent coin (`undo.h`), and what `UndoWriteToDisk` and
`UndoReadFromDisk` make of them.
-/

variable {c : Coin} {vtxundo : List (List Coin)}

namespace BitCash
open Wire Codec Machine Checks List CAutoFile Coin

variable (keys : KeyEnv)

/-! ## a coin -/

def toUInt64 (x : Int) : Nat := (x % 2 ^ 64).toNat

def amountBytes (x : Int) : Bytes := varInt (compressAmount (toUInt64 x))

def storedAmount (x : Int) : Int := narrow64 (decompressAmount (compressAmount (toUInt64 x)))

/-- `nHeight * 2` is of type `int`: a bit-field of 31 bits is promoted to it -/
def Coin.doubledHeight (c : Coin) : Res Nat :=
  if c.nHeight * 2 < 2 ^ 31 then .ok (c.nHeight * 2) else .error (.fault .signedOverflow)

def Coin.outBytes (c : Coin) : Bytes :=
  amountBytes c.nValue ++ (amountBytes c.nValueBitCash ++ (scriptBytes keys c.scriptPubKey ++ [c.currency]))

def Coin.serializeUndo (c : Coin) : Res Bytes := do
  let height ← c.doubledHeight
  .ok (varInt (height + if c.fCoinBase then 1 else 0) ++
    ((if 0 < c.nHeight then [0] else []) ++ c.outBytes keys))

def readAmount (eof : Stop) : Reader Stop Int := do
  let x ← readVarInt64 eof
  pure (narrow64 (decompressAmount x))

def readCompressedOut (eof : Stop) (nHeight : Nat) (fCoinBase : Bool) : Reader Stop Coin := do
  let nValue ← readAmount eof
  let nValueBitCash ← readAmount eof
  let scriptPubKey ← readScript keys eof
  let currency ← byte eof
  pure ⟨nValue, nValueBitCash, scriptPubKey, currency, nHeight, fCoinBase⟩

def readTxInUndo (eof : Stop) : Reader Stop Coin := do
  let nCode ← readVarInt32 eof
  if 0 < nCode / 2 then do
    -- the version of older records
    let _ ← readVarInt32 eof
    readCompressedOut keys eof (nCode / 2) (decide (nCode % 2 = 1))
  else readCompressedOut keys eof (nCode / 2) (decide (nCode % 2 = 1))

def Coin.stored (c : Coin) : Coin :=
  { c with nValue := storedAmount c.nValue, nValueBitCash := storedAmount c.nValueBitCash }

structure Coin.Writable (c : Coin) : Prop where
  height : c.nHeight < 2 ^ 30
  script : c.scriptPubKey.length ≤ MAX_SCRIPT_SIZE

structure Coin.Restorable (c : Coin) : Prop extends c.Writable where
  positive : 0 < c.nHeight
  nValue : moneyRange c.nValue = true
  nValueBitCash : moneyRange c.nValueBitCash = true

theorem storedAmount_of_moneyRange {x : Int} (h : moneyRange x) : storedAmount x = x := by
  have hfit := narrow64_of_fits (moneyRange_fits h)
  rw [moneyRange_iff] at h
  have hx : toUInt64 x = x.toNat := by
    unfold toUInt64
    rw [Int.emod_eq_of_lt h.1 (by omega)]
  have hback := decompressAmount_compressAmount (n := x.toNat) (by omega)
  unfold storedAmount
  rw [hx, hback, Int.toNat_of_nonneg h.1, hfit]

theorem stored_of_restorable (h : c.Restorable) : c.stored = c := by
  unfold stored
  rw [storedAmount_of_moneyRange h.nValue, storedAmount_of_moneyRange h.nValueBitCash]

theorem reads_amount (eof : Stop) (x : Int) : Reads (readAmount eof) (amountBytes x) (storedAmount x) :=
  (reads_varInt64 eof (compressAmount_lt _)).map fun x => narrow64 (decompressAmount x)

variable {keys}

theorem reads_compressedOut (hkeys : keys.Lawful) (eof : Stop) (h : c.Writable) :
    Reads (readCompressedOut keys eof c.nHeight c.fCoinBase) (c.outBytes keys) c.stored := by
  refine (reads_amount eof c.nValue).bind ?_
  refine (reads_amount eof c.nValueBitCash).bind ?_
  refine (reads_script hkeys eof h.script).bind ?_
  exact (reads_byte eof c.currency).map fun currency =>
    (⟨storedAmount c.nValue, storedAmount c.nValueBitCash, c.scriptPubKey, currency, c.nHeight, c.fCoinBase⟩ : Coin)

theorem doubledHeight_ok (h : c.nHeight < 2 ^ 30) : c.doubledHeight = .ok (c.nHeight * 2) := by
  unfold doubledHeight
  exact if_pos (by omega)

theorem doubledHeight_overflow (h : ¬ c.nHeight < 2 ^ 30) : c.doubledHeight = .error (.fault .signedOverflow) := by
  unfold doubledHeight
  exact if_neg (by omega)

/-- the first word of both stored forms, and its two parts -/
theorem Coin.Writable.code_parts (h : c.Writable) {n : Nat} (hn : n = c.nHeight * 2 + if c.fCoinBase then 1 else 0) :
    n < 2 ^ 32 ∧ n / 2 = c.nHeight ∧ decide (n % 2 = 1) = c.fCoinBase := by
  have hheight := h.height
  cases hc : c.fCoinBase with
  | false =>
    rw [hc, if_neg (by decide)] at hn
    exact ⟨by omega, by omega, decide_eq_false (by omega)⟩
  | true =>
    rw [hc, if_pos rfl] at hn
    exact ⟨by omega, by omega, decide_eq_true (by omega)⟩

theorem reads_coin (hkeys : keys.Lawful) (eof : Stop) (h : c.Writable) :
    ∃ b, c.serializeUndo keys = .ok b ∧ Reads (readTxInUndo keys eof) b c.stored := by
  obtain ⟨hlt, hhalf, hlow⟩ := h.code_parts rfl
  refine ⟨_, by rw [serializeUndo, doubledHeight_ok h.height, ok_bind], ?_⟩
  refine (reads_varInt32 eof hlt).bind ?_
  rw [hhalf, hlow]
  by_cases h0 : 0 < c.nHeight
  · rw [if_pos h0, if_pos h0]
    exact (reads_varInt32 eof (x := 0) (by omega)).bind (reads_compressedOut hkeys eof h)
  · rw [if_neg h0, if_neg h0, nil_append]
    exact reads_compressedOut hkeys eof h

theorem low_of_serializeUndo {b : Bytes} (h : c.serializeUndo keys = .ok b) : c.nHeight < 2 ^ 30 := by
  by_contra hlarge
  rw [serializeUndo, doubledHeight_overflow hlarge] at h
  cases h

/-! ## the records of a transaction and of a block -/

variable (keys)

def MAX_INPUTS_PER_BLOCK : Nat := MAX_BLOCK_WEIGHT / (WITNESS_SCALE_FACTOR * 42)

def listBytes {α : Type} (bytes : α → Res Bytes) (l : List α) : Res Bytes :=
  collect bytes l >>= fun items => .ok (compactBytes l.length ++ items.flatten)

def txUndoBytes (vprevout : List Coin) : Res Bytes := listBytes (Coin.serializeUndo keys) vprevout

def tooManyUndos : Stop := .throws "Too many input undo records"

def readTxUndo (eof : Stop) : Reader Stop (List Coin) := do
  let count ← readCompactSize eof
  if MAX_INPUTS_PER_BLOCK < count then fail tooManyUndos
  else times (fun _ => readTxInUndo keys eof) count 0

def blockUndoBytes (vtxundo : List (List Coin)) : Res Bytes := listBytes (txUndoBytes keys) vtxundo

def readBlockUndo (eof : Stop) : Reader Stop (List (List Coin)) := do
  let count ← readCompactSize eof
  times (fun _ => readTxUndo keys eof) count 0

variable {keys}

theorem reads_items {α β : Type} {r : Reader Stop α} {write : β → Bytes} {f : β → α} {l : List β}
    (h : ∀ b ∈ l, Reads r (write b) (f b)) :
    Reads (times (fun _ => r) l.length 0) (l.flatMap write) (l.map f) := by
  have hr := reads_times (r := fun _ => r) (f := fun _ b => f b) (l := l) (i := 0)
    fun j b hj => h b (mem_of_getElem? hj)
  have hmap : (l.zipIdx 0).map (fun p => f p.1) = l.map f := by
    show (l.zipIdx 0).map (f ∘ Prod.fst) = l.map f
    rw [← map_map, zipIdx_map_fst]
  rwa [hmap] at hr

theorem reads_listBytes {α β : Type} {r : Reader Stop α} {write : β → Res Bytes} {f : β → α} {l : List β}
    (h : ∀ b ∈ l, ∃ w, write b = .ok w ∧ Reads r w (f b)) :
    ∃ w, listBytes write l = .ok (compactBytes l.length ++ w) ∧
      Reads (times (fun _ => r) l.length 0) w (l.map f) := by
  let bytes : β → Bytes := fun b => (write b).toOption.getD []
  have hb : ∀ b ∈ l, write b = .ok (bytes b) ∧ Reads r (bytes b) (f b) := by
    intro b hmem
    obtain ⟨w, hw, hr⟩ := h b hmem
    have hbytes : bytes b = w := by
      show (write b).toOption.getD [] = w
      rw [hw]
      rfl
    rw [hbytes]
    exact ⟨hw, hr⟩
  refine ⟨l.flatMap bytes, ?_, ?_⟩
  · rw [listBytes, collect_of_forall fun b hmem => (hb b hmem).1, ok_bind, flatMap_def]
  · exact reads_items fun b hmem => (hb b hmem).2

theorem mem_of_listBytes {α : Type} {write : α → Res Bytes} {l : List α} {w : Bytes}
    (h : listBytes write l = .ok w) {a : α} (ha : a ∈ l) : ∃ b, write a = .ok b := by
  obtain ⟨items, hitems, -⟩ := bind_ok.1 h
  obtain ⟨n, rfl⟩ := mem_iff_get.1 ha
  have hrel := forall₂_iff_get.1 (collect_ok.1 hitems)
  exact ⟨_, hrel.2 n.1 n.2 (hrel.1 ▸ n.2)⟩

theorem reads_txUndo (hkeys : keys.Lawful) (eof : Stop) {vprevout : List Coin}
    (hlen : vprevout.length ≤ MAX_INPUTS_PER_BLOCK) (h : ∀ c ∈ vprevout, c.Writable) :
    ∃ w, txUndoBytes keys vprevout = .ok w ∧ Reads (readTxUndo keys eof) w (vprevout.map stored) := by
  have hmax : vprevout.length ≤ MAX_SIZE := le_trans hlen (by decide)
  obtain ⟨w, hw, hr⟩ := reads_listBytes fun c hc => reads_coin hkeys eof (h c hc)
  refine ⟨_, hw, (reads_compactSize eof hmax).bind ?_⟩
  rw [if_neg (by omega)]
  exact hr

structure UndoFits (vtxundo : List (List Coin)) : Prop where
  txs : vtxundo.length ≤ MAX_SIZE
  inputs : ∀ l ∈ vtxundo, l.length ≤ MAX_INPUTS_PER_BLOCK
  coins : ∀ l ∈ vtxundo, ∀ c ∈ l, c.Writable

theorem reads_blockUndo (hkeys : keys.Lawful) (eof : Stop) (h : UndoFits vtxundo) :
    ∃ w, blockUndoBytes keys vtxundo = .ok w ∧ Reads (readBlockUndo keys eof) w (vtxundo.map (map stored)) := by
  obtain ⟨w, hw, hr⟩ := reads_listBytes fun l hl => reads_txUndo hkeys eof (h.inputs l hl) (h.coins l hl)
  exact ⟨_, hw, (reads_compactSize eof h.txs).bind hr⟩

/-! ## the file -/

structure UndoHasher (H : Type) where
  checksum : H → Bytes → Bytes
  length : ∀ h b, (checksum h b).length = 32

variable {H : Type} (keys) (hasher : UndoHasher H)

def undoWriteToDisk (hashBlock : H) (vtxundo : List (List Coin)) : Res Bytes :=
  blockUndoBytes keys vtxundo >>= fun bytes => .ok (bytes ++ hasher.checksum hashBlock bytes)

def consumed (file rest : Bytes) : Bytes := file.take (file.length - rest.length)

def undoRecordFromDisk (hashBlock : H) (file : Bytes) : Option (List (List Coin)) :=
  match readBlockUndo keys CAutoFile.eof file with
  | .error _ => none
  | .ok (vtxundo, rest) =>
    match take CAutoFile.eof 32 rest with
    | .error _ => none
    | .ok (hashChecksum, _) =>
      if hashChecksum = hasher.checksum hashBlock (consumed file rest) then some vtxundo else none

variable {keys}

/-- an undo record comes back from the disk, its amounts as they are stored -/
theorem undoRecordFromDisk_undoWriteToDisk (hkeys : keys.Lawful) (hashBlock : H) (h : UndoFits vtxundo)
    (later : Bytes) : ∃ file, undoWriteToDisk keys hasher hashBlock vtxundo = .ok file ∧
      undoRecordFromDisk keys hasher hashBlock (file ++ later) = some (vtxundo.map (map stored)) := by
  obtain ⟨bytes, hwrite, hread⟩ := reads_blockUndo hkeys eof h
  have htake := reads_take eof (hasher.checksum hashBlock bytes) later
  rw [hasher.length] at htake
  refine ⟨_, by rw [undoWriteToDisk, hwrite, ok_bind], ?_⟩
  unfold undoRecordFromDisk
  rw [append_assoc, hread]
  dsimp only
  rw [htake]
  dsimp only
  rw [if_pos]
  rw [consumed, length_append, Nat.add_sub_cancel, take_left]

theorem low_of_undoWriteToDisk {hashBlock : H} {file : Bytes}
    (h : undoWriteToDisk keys hasher hashBlock vtxundo = .ok file) :
    ∀ l ∈ vtxundo, ∀ c ∈ l, c.nHeight < 2 ^ 30 := by
  intro l hl c hc
  obtain ⟨bytes, hbytes, -⟩ := bind_ok.1 h
  obtain ⟨w, hw⟩ := mem_of_listBytes hbytes hl
  obtain ⟨b, hb⟩ := mem_of_listBytes hw hc
  exact low_of_serializeUndo hb

end BitCash

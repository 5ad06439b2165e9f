import BitCash.Serialize.Undo

/-!
# The two stored forms of a coin

A coin is written into the database by `Coin::Serialize` and into an undo record by `TxInUndoSerializer`. Both begin
with `nHeight * 2`.
-/

variable {c : Coin}

namespace BitCash
open Wire Codec Machine Checks

variable (keys : KeyEnv)

def Coin.serialize (c : Coin) : Res Bytes := do
  need (!c.isSpent) (.fault .assertionFailed)
  let height ← c.doubledHeight
  .ok (varInt (height + if c.fCoinBase then 1 else 0) ++ c.outBytes keys)

def readDbCoin (eof : Stop) : Reader Stop Coin := do
  let code ← readVarInt32 eof
  readCompressedOut keys eof (code / 2) (decide (code % 2 = 1))

variable {keys}

theorem reads_dbCoin (hkeys : keys.Lawful) (eof : Stop) (hspent : c.isSpent = false) (h : c.Writable) :
    ∃ b, c.serialize keys = .ok b ∧ Reads (readDbCoin keys eof) b c.stored := by
  obtain ⟨hlt, hhalf, hlow⟩ := h.code_parts rfl
  refine ⟨_, by rw [Coin.serialize, hspent, doubledHeight_ok h.height]; rfl, ?_⟩
  refine (reads_varInt32 eof hlt).bind ?_
  rw [hhalf, hlow]
  exact reads_compressedOut hkeys eof h

theorem isSpent_of_moneyRange (h : moneyRange c.nValue) : c.isSpent = false := by
  rw [moneyRange_iff] at h
  exact decide_eq_false (by omega)

/-- **both stored forms of an unspent coin give it back, with nothing left over**, exactly when twice its height
is a signed word of 32 bits -/
theorem coin_roundTrip_iff (hkeys : keys.Lawful) (eof : Stop) (c : Coin) (hvalue : moneyRange c.nValue = true)
    (hbitcash : moneyRange c.nValueBitCash = true) (hscript : c.scriptPubKey.length ≤ MAX_SCRIPT_SIZE) :
    ((∃ b, c.serialize keys = .ok b ∧ Reads (readDbCoin keys eof) b c) ∧
      ∃ b, c.serializeUndo keys = .ok b ∧ Reads (readTxInUndo keys eof) b c) ↔ c.nHeight < 2 ^ 30 := by
  constructor
  · rintro ⟨-, b, hb, -⟩
    exact low_of_serializeUndo hb
  · intro hsmall
    have hw : c.Writable := ⟨hsmall, hscript⟩
    have hstored : c.stored = c := by
      unfold Coin.stored
      rw [storedAmount_of_moneyRange hvalue, storedAmount_of_moneyRange hbitcash]
    have hdb := reads_dbCoin hkeys eof (isSpent_of_moneyRange hvalue) hw
    have hundo := reads_coin hkeys eof hw
    rw [hstored] at hdb hundo
    exact ⟨hdb, hundo⟩

def noKeys : KeyEnv := ⟨fun _ => false, fun _ => none⟩

theorem noKeys_lawful : noKeys.Lawful := fun _ _ hno => by cases hno

def coinAt (nHeight : Nat) : Coin := ⟨5, 5, [], 0, nHeight, false⟩

theorem coin_roundTrip_atOne : (coinAt 1).nHeight < 2 ^ 31 ∧
      ((∃ b, (coinAt 1).serialize noKeys = .ok b ∧ Reads (readDbCoin noKeys CAutoFile.eof) b (coinAt 1)) ∧
        ∃ b, (coinAt 1).serializeUndo noKeys = .ok b ∧ Reads (readTxInUndo noKeys CAutoFile.eof) b (coinAt 1)) :=
  ⟨by decide, (coin_roundTrip_iff noKeys_lawful CAutoFile.eof (coinAt 1) (by decide) (by decide)
    (by decide)).2 (by decide)⟩

/-- a coin at the height `2 ^ 30` meets every bound, and is not written -/
theorem coin_high_undefined :
    moneyRange (coinAt (2 ^ 30)).nValue = true ∧ moneyRange (coinAt (2 ^ 30)).nValueBitCash = true ∧
      (coinAt (2 ^ 30)).scriptPubKey.length ≤ MAX_SCRIPT_SIZE ∧ (coinAt (2 ^ 30)).nHeight < 2 ^ 31 ∧
      (coinAt (2 ^ 30)).serialize noKeys = .error (.fault .signedOverflow) ∧
      (coinAt (2 ^ 30)).serializeUndo noKeys = .error (.fault .signedOverflow) := by
  refine ⟨by decide, by decide, by decide, by decide, ?_, ?_⟩
  · unfold Coin.serialize
    rw [doubledHeight_overflow (by decide)]
    rfl
  · unfold Coin.serializeUndo
    rw [doubledHeight_overflow (by decide)]
    rfl

end BitCash

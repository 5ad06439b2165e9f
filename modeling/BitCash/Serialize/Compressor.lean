import BitCash.Serialize.Stream

/-!
# Compressed amounts and scripts

`CompressAmount`, `CompressScript` and their readers (`compressor.cpp`, `compressor.h`), as the undo records on disk
use them.
-/

variable {script : CScript}

namespace BitCash
open Wire Codec List Nat Option

/-! ## amounts -/

def stripZeros : Nat → Nat → Nat × Nat
  | 0, n => (n, 0)
  | k + 1, n =>
    if n % 10 = 0 then ((stripZeros k (n / 10)).1, (stripZeros k (n / 10)).2 + 1) else (n, 0)

def compressAmount (n : Nat) : Nat :=
  if n = 0 then 0
  else
    let (m, e) := stripZeros 9 n
    if e < 9 then (1 + (m / 10 * 9 + m % 10 - 1) * 10 + e) % 2 ^ 64
    else (1 + (m - 1) * 10 + 9) % 2 ^ 64

def decompressAmount (x : Nat) : Nat :=
  if x = 0 then 0
  else
    let e := (x - 1) % 10
    let y := (x - 1) / 10
    (if e < 9 then y / 9 * 10 + (y % 9 + 1) else y + 1) * 10 ^ e % 2 ^ 64

theorem stripZeros_spec (k n : Nat) : (stripZeros k n).1 * 10 ^ (stripZeros k n).2 = n ∧ (stripZeros k n).2 ≤ k ∧
      ((stripZeros k n).2 < k → (stripZeros k n).1 % 10 ≠ 0) := by
  induction k generalizing n with
  | zero => exact ⟨by rw [stripZeros, pow_zero, Nat.mul_one], Nat.le_refl 0, fun h => by cases h⟩
  | succ k ih =>
    by_cases h : n % 10 = 0
    · obtain ⟨hval, hle, hlast⟩ := ih (n / 10)
      rw [stripZeros, if_pos h]
      refine ⟨?_, by omega, fun hlt => hlast (by omega)⟩
      show (stripZeros k (n / 10)).1 * 10 ^ ((stripZeros k (n / 10)).2 + 1) = n
      rw [pow_succ, ← Nat.mul_assoc, hval]
      omega
    · rw [stripZeros, if_neg h]
      exact ⟨by rw [pow_zero, Nat.mul_one], by omega, fun _ => h⟩

theorem compressAmount_lt (n : Nat) : compressAmount n < 2 ^ 64 := by
  unfold compressAmount
  split
  · omega
  · dsimp only
    split
    · exact mod_lt _ (by omega)
    · exact mod_lt _ (by omega)

theorem decompressAmount_compressAmount {n : Nat} (hn : n ≤ 100000000000000000) :
    decompressAmount (compressAmount n) = n := by
  by_cases h0 : n = 0
  · rw [h0]
    rfl
  · obtain ⟨hval, hle, hlast⟩ := stripZeros_spec 9 n
    unfold compressAmount
    rw [if_neg h0]
    generalize hm : (stripZeros 9 n).1 = m at hval hlast
    generalize he : (stripZeros 9 n).2 = e at hval hle hlast
    have hmn : m ≤ n := by
      rw [← hval]
      exact Nat.le_mul_of_pos_right m (by positivity)
    have hpos : 0 < m := by
      rcases Nat.eq_zero_or_pos m with hz | hz
      · rw [hz, Nat.zero_mul] at hval
        exact absurd hval.symm h0
      · exact hz
    -- what was added for the digit and for the zeros is taken off again
    have hback : ∀ x, x = m → x * 10 ^ e % 2 ^ 64 = n := by
      intro x hx
      rw [hx, hval]
      exact mod_eq_of_lt (by omega)
    have hpair : stripZeros 9 n = (m, e) := Prod.ext hm he
    rw [hpair]
    show decompressAmount (if e < 9 then _ else _) = n
    by_cases h9 : e < 9
    · have hd := hlast h9
      have hsmall : 1 + (m / 10 * 9 + m % 10 - 1) * 10 + e < 2 ^ 64 := by omega
      rw [if_pos h9, mod_eq_of_lt hsmall, decompressAmount, if_neg (by omega)]
      have hx : 1 + (m / 10 * 9 + m % 10 - 1) * 10 + e - 1 = (m / 10 * 9 + m % 10 - 1) * 10 + e := by
        omega
      have hmod : ((m / 10 * 9 + m % 10 - 1) * 10 + e) % 10 = e := by omega
      have hdiv : ((m / 10 * 9 + m % 10 - 1) * 10 + e) / 10 = m / 10 * 9 + m % 10 - 1 := by omega
      rw [hx, hmod, hdiv]
      show (if e < 9 then _ else _) * 10 ^ e % 2 ^ 64 = n
      rw [if_pos h9]
      exact hback _ (by omega)
    · have hsmall : 1 + (m - 1) * 10 + 9 < 2 ^ 64 := by omega
      rw [if_neg h9, mod_eq_of_lt hsmall, decompressAmount, if_neg (by omega)]
      have h9' : e = 9 := by omega
      have hx : 1 + (m - 1) * 10 + 9 - 1 = (m - 1) * 10 + 9 := by omega
      have hmod : ((m - 1) * 10 + 9) % 10 = e := by omega
      have hdiv : ((m - 1) * 10 + 9) / 10 = m - 1 := by omega
      rw [hx, hmod, hdiv]
      show (if e < 9 then _ else _) * 10 ^ e % 2 ^ 64 = n
      rw [if_neg h9]
      exact hback _ (by omega)

/-! ## scripts -/

def OP_DUP : UInt8 := 0x76
def OP_EQUAL : UInt8 := 0x87
def OP_EQUALVERIFY : UInt8 := 0x88
def OP_HASH160 : UInt8 := 0xa9

structure KeyEnv where
  isFullyValid : Bytes → Bool
  decompress : Bytes → Option Bytes

def KeyEnv.Lawful (keys : KeyEnv) : Prop :=
  ∀ xy : Bytes, xy.length = 64 → keys.isFullyValid (4 :: xy) = true →
    keys.decompress ((2 + (xy.getD 63 0 &&& 1)) :: xy.take 32) = some (4 :: xy)

def between (front back : Bytes) (n : Nat) (script : CScript) : Option Bytes :=
  if script.length = front.length + n + back.length ∧ script.take front.length = front ∧
      script.drop (front.length + n) = back then
    some ((script.drop front.length).take n)
  else none

theorem between_eq {front back m : Bytes} {n : Nat}
    (h : between front back n script = some m) : m.length = n ∧ script = front ++ m ++ back := by
  unfold between at h
  split at h
  · rename_i hs
    obtain ⟨hlen, hfront, hback⟩ := hs
    have hm : (script.drop front.length).take n = m := some.inj h
    have hrest : (script.drop front.length).drop n = back := by
      rw [drop_drop, hback]
    refine ⟨?_, ?_⟩
    · rw [← hm, length_take, length_drop]
      omega
    · calc script = script.take front.length ++ script.drop front.length :=
            (take_append_drop _ _).symm
        _ = front ++ (m ++ back) := by
            rw [hfront, ← hm, ← hrest, take_append_drop]
        _ = front ++ m ++ back := (append_assoc _ _ _).symm
  · cases h

variable (keys : KeyEnv)

def isToKeyID : CScript → Option Bytes :=
  between [OP_DUP, OP_HASH160, 20] [OP_EQUALVERIFY, OP_CHECKSIG] 20

def isToScriptID : CScript → Option Bytes := between [OP_HASH160, 20] [OP_EQUAL] 20

def isToPubKey (script : CScript) : Option Bytes :=
  ((between [33] [OP_CHECKSIG] 33 script).filter fun key =>
      key.head? == some 2 || key.head? == some 3).or
    ((between [65] [OP_CHECKSIG] 65 script).filter fun key =>
      key.head? == some 4 && keys.isFullyValid key)

/-- the short form of a key: the first coordinate, and what tells the second one -/
def compressKey : Bytes → Option Bytes
  | [] => none
  | b :: xy =>
    if b = 2 ∨ b = 3 then some (b :: xy.take 32)
    else if b = 4 then some ((4 ||| (xy.getD 63 0 &&& 1)) :: xy.take 32)
    else none

def compressScript (script : CScript) : Option Bytes :=
  ((isToKeyID script).map (0 :: ·)).or
    (((isToScriptID script).map (1 :: ·)).or ((isToPubKey keys script).bind compressKey))

def getSpecialScriptSize (nSize : Nat) : Nat :=
  if nSize = 0 ∨ nSize = 1 then 20
  else if nSize = 2 ∨ nSize = 3 ∨ nSize = 4 ∨ nSize = 5 then 32
  else 0

/-- `DecompressScript`; `none` leaves the script as it is -/
def decompressScript (nSize : Nat) (vch : Bytes) : Option CScript :=
  if nSize = 0 then some ([OP_DUP, OP_HASH160, 20] ++ vch ++ [OP_EQUALVERIFY, OP_CHECKSIG])
  else if nSize = 1 then some ([OP_HASH160, 20] ++ vch ++ [OP_EQUAL])
  else if nSize = 2 ∨ nSize = 3 then some ([33] ++ (UInt8.ofNat nSize :: vch) ++ [OP_CHECKSIG])
  else if nSize = 4 ∨ nSize = 5 then
    (keys.decompress (UInt8.ofNat (nSize - 2) :: vch)).map fun key => [65] ++ key ++ [OP_CHECKSIG]
  else none

def nSpecialScripts : Nat := 6

def scriptBytes (script : CScript) : Bytes :=
  match compressScript keys script with
  | some compr => compr
  | none => varInt ((script.length + nSpecialScripts) % 2 ^ 32) ++ script

def varIntTooLarge : Stop := .throws "ReadVarInt(): size too large"

def readVarInt32 (eof : Stop) : Reader Stop Nat := readVarInt eof varIntTooLarge (2 ^ 32 - 1) 0

def readVarInt64 (eof : Stop) : Reader Stop Nat := readVarInt eof varIntTooLarge (2 ^ 64 - 1) 0

def readScript (eof : Stop) : Reader Stop CScript := do
  let nSize ← readVarInt32 eof
  if nSize < nSpecialScripts then do
    let vch ← take eof (getSpecialScriptSize nSize)
    pure ((decompressScript keys nSize vch).getD [])
  else if MAX_SCRIPT_SIZE < nSize - nSpecialScripts then do
    let _ ← take eof (nSize - nSpecialScripts)
    pure [OP_RETURN]
  else take eof (nSize - nSpecialScripts)

structure Special (script : CScript) (compr : Bytes) : Prop where
  form : ∃ (nSize : Nat) (vch : Bytes), compr = UInt8.ofNat nSize :: vch ∧ nSize < nSpecialScripts ∧
    vch.length = getSpecialScriptSize nSize ∧ decompressScript keys nSize vch = some script

variable {keys} {compr key : Bytes} {x : Nat}

theorem parity_cases (b : UInt8) : b &&& 1 = 0 ∨ b &&& 1 = 1 := by
  have h : (b &&& 1).toNat = b.toNat % 2 := by
    rw [UInt8.toNat_and]
    exact and_one_is_mod _
  rcases mod_two_eq_zero_or_one b.toNat with h0 | h1
  · exact .inl (UInt8.toNat_inj.1 (by rw [h, h0]; rfl))
  · exact .inr (UInt8.toNat_inj.1 (by rw [h, h1]; rfl))

theorem special_short_key (hkey : between [33] [OP_CHECKSIG] 33 script = some key) (hc : compressKey key = some compr)
    (hhead : key.head? = some 2 ∨ key.head? = some 3) : Special keys script compr := by
  obtain ⟨hlen, hscript⟩ := between_eq hkey
  cases key with
  | nil => cases hlen
  | cons b xy =>
    have hxy : xy.length = 32 := by simpa using hlen
    have hb : b = 2 ∨ b = 3 := by simpa using hhead
    rw [compressKey, if_pos hb, take_of_length_le (by omega)] at hc
    cases hc
    rcases hb with rfl | rfl
    · exact ⟨2, xy, rfl, by decide, hxy, by rw [hscript]; rfl⟩
    · exact ⟨3, xy, rfl, by decide, hxy, by rw [hscript]; rfl⟩

theorem special_long_key (hkeys : keys.Lawful)
    (hkey : between [65] [OP_CHECKSIG] 65 script = some key) (hc : compressKey key = some compr)
    (hhead : key.head? = some 4) (hvalid : keys.isFullyValid key) : Special keys script compr := by
  obtain ⟨hlen, hscript⟩ := between_eq hkey
  cases key with
  | nil => cases hlen
  | cons b xy =>
    have hxy : xy.length = 64 := by simpa using hlen
    have hb : b = 4 := by simpa using hhead
    subst hb
    have hback := hkeys xy hxy hvalid
    have htake : (xy.take 32).length = 32 := by
      rw [length_take]
      omega
    rw [compressKey, if_neg (by decide), if_pos rfl] at hc
    cases hc
    rcases parity_cases (xy.getD 63 0) with hp | hp
    · rw [hp] at hback ⊢
      refine ⟨4, xy.take 32, rfl, by decide, htake, ?_⟩
      show (keys.decompress (2 :: xy.take 32)).map _ = some script
      rw [show (2 : UInt8) = 2 + 0 from rfl, hback, hscript]
      rfl
    · rw [hp] at hback ⊢
      refine ⟨5, xy.take 32, rfl, by decide, htake, ?_⟩
      show (keys.decompress (3 :: xy.take 32)).map _ = some script
      rw [show (3 : UInt8) = 2 + 1 from rfl, hback, hscript]
      rfl

/-- **the short form stands for the script** -/
theorem special_of_compressScript (hkeys : keys.Lawful)
    (h : compressScript keys script = some compr) : Special keys script compr := by
  unfold compressScript at h
  cases hid : isToKeyID script with
  | some vch =>
    rw [hid] at h
    cases h
    obtain ⟨hlen, hscript⟩ := between_eq hid
    exact ⟨0, vch, rfl, by decide, hlen, by rw [hscript]; rfl⟩
  | none =>
    rw [hid] at h
    cases hsid : isToScriptID script with
    | some vch =>
      rw [hsid] at h
      cases h
      obtain ⟨hlen, hscript⟩ := between_eq hsid
      exact ⟨1, vch, rfl, by decide, hlen, by rw [hscript]; rfl⟩
    | none =>
      rw [hsid] at h
      obtain ⟨key, hkey, hc⟩ := bind_eq_some_iff.1 h
      unfold isToPubKey at hkey
      rcases or_eq_some_iff.1 hkey with hshort | ⟨-, hlong⟩
      · obtain ⟨hb, hhead⟩ := filter_eq_some_iff.1 hshort
        rw [Bool.or_eq_true, beq_iff_eq, beq_iff_eq] at hhead
        exact special_short_key hb hc hhead
      · obtain ⟨hb, hhead⟩ := filter_eq_some_iff.1 hlong
        rw [Bool.and_eq_true, beq_iff_eq] at hhead
        exact special_long_key hkeys hb hc hhead.1 hhead.2

theorem reads_varInt32 (eof : Stop) (h : x < 2 ^ 32) : Reads (readVarInt32 eof) (varInt x) x :=
  reads_varInt (by omega) (by omega)

theorem reads_varInt64 (eof : Stop) (h : x < 2 ^ 64) : Reads (readVarInt64 eof) (varInt x) x :=
  reads_varInt (by omega) (by omega)

theorem reads_script (hkeys : keys.Lawful) (eof : Stop)
    (h : script.length ≤ MAX_SCRIPT_SIZE) : Reads (readScript keys eof) (scriptBytes keys script) script := by
  unfold scriptBytes
  cases hc : compressScript keys script with
  | some compr =>
    obtain ⟨nSize, vch, rfl, hsize, hlen, hback⟩ := (special_of_compressScript hkeys hc).form
    have hlt : nSize < 128 := lt_trans hsize (by decide)
    have hfirst : Reads (readVarInt32 eof) [UInt8.ofNat nSize] nSize := by
      have hr := reads_varInt32 eof (x := nSize) (by omega)
      rwa [varInt, if_pos hlt] at hr
    refine hfirst.bind (c := vch) ?_
    rw [if_pos hsize, ← hlen]
    have hm := (reads_take eof vch).map fun v => (decompressScript keys nSize v).getD []
    rwa [hback] at hm
  | none =>
    have hmax : script.length ≤ 10000 := h
    have hmod : (script.length + nSpecialScripts) % 2 ^ 32 = script.length + nSpecialScripts :=
      mod_eq_of_lt (by unfold nSpecialScripts; omega)
    dsimp only
    rw [hmod]
    refine (reads_varInt32 eof (by unfold nSpecialScripts; omega)).bind ?_
    rw [if_neg (by omega), Nat.add_sub_cancel, if_neg (by omega)]
    exact reads_take eof script

end BitCash

import BitCash.Wallet.Receiver

/-!
# Reference lines

A reference line is encrypted under the point that two keys share, and written in base 58.
-/

namespace BitCash
open List

structure LineCipher where
  encrypt : Bytes → Bytes → Bytes
  decrypt : Bytes → Bytes → Bytes
  length_encrypt : ∀ key plain, (encrypt key plain).length = (plain.length / 16 + 1) * 16
  decrypt_encrypt : ∀ key plain, decrypt key (encrypt key plain) = plain

def cString (s : Bytes) : Bytes := s.takeWhile (· ≠ 0)

section
variable {P : Type} [AddCommGroup P] [DecidableEq P] (W : WalletEnv P) (A : LineCipher)

/-! ## the code -/

def lineKey (pubkey : CPubKey) (privkey : CKey) : Bytes := cString (calculateEncryptionKey W pubkey privkey)

def encryptRefLineTry (referenceline : Bytes) (pubkey : CPubKey) (privkey : CKey) : Res Bytes :=
  match encodeBase58 (A.encrypt (lineKey W pubkey privkey) (cString referenceline ++ [0])) with
  | none => .error (.fault .assertionFailed)
  | some outputline => .ok outputline

/-- the loop of `EncryptRefLine`, for a line that has come down to its first `n` characters; it is shortened
before its encryption is looked at -/
def encryptRefLineLoop (referenceline : Bytes) (pubkey : CPubKey) (privkey : CKey) : Nat → Res Bytes
  | 0 => do
    let _ ← encryptRefLineTry W A [] pubkey privkey
    .error (.throws "basic_string::_M_replace_aux")
  | n + 1 => do
    let outstr ← encryptRefLineTry W A (referenceline.take (n + 1)) pubkey privkey
    if 1000 < outstr.length then encryptRefLineLoop referenceline pubkey privkey n else .ok outstr

def encryptRefLine (referenceline : Bytes) (pubkey : CPubKey) (privkey : CKey) : Res Bytes :=
  if referenceline = [] then .ok referenceline
  else encryptRefLineLoop W A (referenceline.take 1000) pubkey privkey (referenceline.take 1000).length

def decryptRefLine (referenceline : Bytes) (pubkey : CPubKey) (privkey : CKey) : Res Bytes :=
  if referenceline = [] then .ok referenceline
  else
    match decodeBase58 referenceline with
    | none => .error (.fault .assertionFailed)
    | some result =>
      -- the vector stays empty when the text is not in base 58
      if result.getD [] = [] then .error (.fault .outOfBounds)
      else
        let plaintext := A.decrypt (lineKey W pubkey privkey) (result.getD [])
        if 0 ∈ plaintext then .ok (cString plaintext) else .error (.fault .outOfBounds)

/-! ## what fits -/

def RefLineFits (referenceline : Bytes) (pubkey : CPubKey) (privkey : CKey) : Prop :=
  ∃ outstr, encryptRefLineTry W A referenceline pubkey privkey = .ok outstr ∧ outstr.length ≤ 1000

variable {W A} {referenceline s : Bytes} {pubkey : CPubKey} {privkey : CKey}

theorem cString_eq_self (h : 0 ∉ s) : cString s = s := by
  unfold cString
  refine takeWhile_eq_self fun c hc => ?_
  rw [decide_eq_true_eq]
  rintro rfl
  exact h hc

theorem cString_terminated (h : 0 ∉ s) : cString (s ++ [0]) = s := by
  have hself := cString_eq_self h
  unfold cString at hself ⊢
  rw [takeWhile_append, if_pos (by rw [hself])]
  exact append_nil s

section
variable (hnul : 0 ∉ referenceline)
include hnul

theorem encryptRefLineTry_ok (pubkey : CPubKey) (privkey : CKey) :
    ∃ outstr, encryptRefLineTry W A referenceline pubkey privkey = .ok outstr ∧
      encodeBase58 (A.encrypt (lineKey W pubkey privkey) (referenceline ++ [0])) = some outstr ∧
      outstr.length ≤ ((referenceline.length + 1) / 16 + 1) * 16 * 138 / 100 + 1 := by
  obtain ⟨outstr, hencode⟩ : ∃ outstr, encodeBase58 (A.encrypt (lineKey W pubkey privkey) (referenceline ++ [0])) =
    some outstr := ⟨_, encodeBase58_eq _⟩
  have hlen := length_encodeBase58 hencode
  rw [A.length_encrypt, length_append, length_singleton] at hlen
  unfold encryptRefLineTry
  rw [cString_eq_self hnul, hencode]
  exact ⟨outstr, rfl, rfl, hlen⟩

theorem fits_of_short (hlen : referenceline.length ≤ 718) : RefLineFits W A referenceline pubkey privkey := by
  obtain ⟨outstr, hout, -, hle⟩ := encryptRefLineTry_ok (W := W) (A := A) hnul pubkey privkey
  exact ⟨outstr, hout, by omega⟩

theorem encryptRefLineLoop_spec (pubkey : CPubKey) (privkey : CKey) (n : Nat)
    (hn : 0 < n) : ∃ k outstr, encryptRefLineLoop W A referenceline pubkey privkey n = .ok outstr ∧ k ≤ n ∧
      encryptRefLineTry W A (referenceline.take k) pubkey privkey = .ok outstr ∧ outstr.length ≤ 1000 ∧
      ∀ j, k < j → j ≤ n → ¬ RefLineFits W A (referenceline.take j) pubkey privkey := by
  induction n with
  | zero => exact absurd hn (by decide)
  | succ n ih =>
    have hnul' : 0 ∉ referenceline.take (n + 1) := fun h => hnul (mem_of_mem_take h)
    obtain ⟨outstr, hout, -, -⟩ := encryptRefLineTry_ok (W := W) (A := A) hnul' pubkey privkey
    unfold encryptRefLineLoop
    rw [hout]
    show ∃ k out, (if 1000 < outstr.length then _ else _) = _ ∧ _
    split
    · next hlong =>
      have hnot : ¬ RefLineFits W A (referenceline.take (n + 1)) pubkey privkey := by
        rintro ⟨out, hout', hle⟩
        cases hout.symm.trans hout'
        omega
      -- a single character fits, so this is not the last one
      have hpos : 0 < n := by
        rcases Nat.eq_zero_or_pos n with rfl | hpos
        · exact absurd (fits_of_short hnul' (le_trans (length_take_le _ _) (by decide))) hnot
        · exact hpos
      obtain ⟨k, out, hloop, hk, htry, hle, hmax⟩ := ih hpos
      refine ⟨k, out, hloop, Nat.le_succ_of_le hk, htry, hle, fun j hkj hj => ?_⟩
      rcases Nat.lt_or_eq_of_le hj with hlt | rfl
      · exact hmax j hkj (Nat.lt_succ_iff.1 hlt)
      · exact hnot
    · next hshort =>
      exact ⟨n + 1, outstr, rfl, le_rfl, hout, Nat.not_lt.1 hshort, fun j hkj hj => by omega⟩

theorem decryptRefLine_of_try {outstr : Bytes} {pubkey' : CPubKey} {privkey' : CKey}
    (h : encryptRefLineTry W A referenceline pubkey privkey = .ok outstr)
    (hsecret : calculateEncryptionKey W pubkey' privkey' = calculateEncryptionKey W pubkey privkey) :
    decryptRefLine W A outstr pubkey' privkey' = .ok referenceline := by
  obtain ⟨out, hout, hencode, -⟩ := encryptRefLineTry_ok (W := W) (A := A) hnul pubkey privkey
  cases h.symm.trans hout
  have hdecode := decodeBase58_encodeBase58 (A.encrypt (lineKey W pubkey privkey) (referenceline ++ [0]))
  rw [hencode, Option.bind_some] at hdecode
  have hlen := A.length_encrypt (lineKey W pubkey privkey) (referenceline ++ [0])
  have hcipher : A.encrypt (lineKey W pubkey privkey) (referenceline ++ [0]) ≠ [] := ne_nil_of_length_pos (by omega)
  have hne : outstr ≠ [] := by
    rintro rfl
    rw [show decodeBase58 [] = some (some []) by decide] at hdecode
    exact hcipher (Option.some.inj (Option.some.inj hdecode)).symm
  have hkey : lineKey W pubkey' privkey' = lineKey W pubkey privkey := congrArg cString hsecret
  have hplain := A.decrypt_encrypt (lineKey W pubkey privkey) (referenceline ++ [0])
  have hmem : 0 ∈ A.decrypt (lineKey W pubkey privkey)
      (A.encrypt (lineKey W pubkey privkey) (referenceline ++ [0])) := by
    rw [hplain]
    exact mem_append_right _ mem_cons_self
  unfold decryptRefLine
  rw [if_neg hne, hdecode, hkey]
  show (if A.encrypt (lineKey W pubkey privkey) (referenceline ++ [0]) = [] then _ else
    if 0 ∈ A.decrypt (lineKey W pubkey privkey) (A.encrypt (lineKey W pubkey privkey) (referenceline ++ [0])) then _
    else _) = _
  rw [if_neg hcipher, if_pos hmem]
  show Except.ok (cString (A.decrypt _ (A.encrypt _ _))) = _
  rw [hplain, cString_terminated hnul]

end

end

/-- **a reference line always fits, and is read as its longest prefix that fits** -/
theorem refLine_longest {P : Type} [AddCommGroup P] [DecidableEq P] (W : WalletEnv P) (A : LineCipher)
    (referenceline : Bytes) (pubkey pubkey' : CPubKey) (privkey privkey' : CKey) (hne : referenceline ≠ [])
    (hnul : 0 ∉ referenceline)
    (hsecret : calculateEncryptionKey W pubkey' privkey' = calculateEncryptionKey W pubkey privkey) :
    ∃ outstr k, encryptRefLine W A referenceline pubkey privkey = .ok outstr ∧ outstr.length ≤ 1000 ∧
      k ≤ 1000 ∧ k ≤ referenceline.length ∧ RefLineFits W A (referenceline.take k) pubkey privkey ∧
      (∀ j, j ≤ 1000 → j ≤ referenceline.length → RefLineFits W A (referenceline.take j) pubkey privkey → j ≤ k) ∧
      decryptRefLine W A outstr pubkey' privkey' = .ok (referenceline.take k) := by
  have hnul' : 0 ∉ referenceline.take 1000 := fun h => hnul (mem_of_mem_take h)
  have hlen : (referenceline.take 1000).length = min 1000 referenceline.length := length_take
  have hpos : 0 < (referenceline.take 1000).length := by
    have := length_pos_of_ne_nil hne
    omega
  obtain ⟨k, outstr, hloop, hk, htry, hle, hmax⟩ :=
    encryptRefLineLoop_spec (W := W) (A := A) hnul' pubkey privkey _ hpos
  have htake : ∀ j, j ≤ 1000 → (referenceline.take 1000).take j = referenceline.take j := by
    intro j hj
    rw [take_take, Nat.min_eq_left hj]
  rw [htake k (by omega)] at htry
  refine ⟨outstr, k, ?_, hle, by omega, by omega, ⟨outstr, htry, hle⟩, fun j hj hj' hfits => ?_, ?_⟩
  · unfold encryptRefLine
    rw [if_neg hne, hloop]
  · by_contra hlt
    refine hmax j (Nat.not_le.1 hlt) (by omega) ?_
    rwa [htake j hj]
  · exact decryptRefLine_of_try (fun h => hnul (mem_of_mem_take h)) htry hsecret

def paddingCipher : LineCipher where
  encrypt _ plain := plain ++ List.replicate (16 - plain.length % 16) (UInt8.ofNat (16 - plain.length % 16))
  decrypt _ cipher := cipher.take (cipher.length - (cipher.getLastD 0).toNat)
  length_encrypt _ plain := by
    rw [List.length_append, List.length_replicate]
    omega
  decrypt_encrypt _ plain := by
    have hlt : 16 - plain.length % 16 < 256 := by omega
    have hlast : (plain ++ List.replicate (16 - plain.length % 16) (UInt8.ofNat (16 - plain.length % 16))).getLastD 0 =
        UInt8.ofNat (16 - plain.length % 16) := by
      obtain ⟨n, hn⟩ : ∃ n, 16 - plain.length % 16 = n + 1 := ⟨15 - plain.length % 16, by omega⟩
      rw [hn, List.replicate_succ', ← List.append_assoc, List.getLastD_concat]
    rw [hlast, UInt8.toNat_ofNat', Nat.mod_eq_of_lt hlt, List.length_append, List.length_replicate,
      Nat.add_sub_cancel, List.take_left]

def longLine : Bytes := List.replicate 1200 104

/-- a line that has to be shortened -/
theorem refLine_longest_cut :
    ∃ outstr k, encryptRefLine plainWalletEnv paddingCipher longLine default default = .ok outstr ∧
      outstr.length ≤ 1000 ∧ k ≤ 1000 ∧ k ≤ longLine.length ∧
      RefLineFits plainWalletEnv paddingCipher (List.take k longLine) default default ∧
      (∀ j, j ≤ 1000 → j ≤ longLine.length →
        RefLineFits plainWalletEnv paddingCipher (List.take j longLine) default default → j ≤ k) ∧
      decryptRefLine plainWalletEnv paddingCipher outstr default default = .ok (List.take k longLine) :=
  refLine_longest plainWalletEnv paddingCipher longLine default default default default (List.cons_ne_nil _ _)
    (fun h => absurd (List.eq_of_mem_replicate h) (by decide)) rfl

end BitCash

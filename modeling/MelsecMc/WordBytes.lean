import Mathlib.Tactic

/-!
# Little-endian bytes of bit vectors

`bytesOf k v` are the `k` low bytes of a vector, least significant first, and
`ofBytes w` puts bytes back together. Masked shifts are the usual way to write
both by hand; two lemmas reduce them to bit fields.
-/
namespace MelsecMc.WordBytes

def bytesOf {w : ℕ} (k : ℕ) (v : BitVec w) : List (BitVec 8) :=
  (List.range k).map fun j => v.extractLsb' (8 * j) 8

def ofBytes (w : ℕ) : List (BitVec 8) → BitVec w
  | [] => 0
  | b :: bs => b.setWidth w ||| (ofBytes w bs <<< 8)

@[simp] theorem bytesOf_length {w : ℕ} (k : ℕ) (v : BitVec w) : (bytesOf k v).length = k := by
  simp [bytesOf]

/-- Bit `i` of the vector is bit `i % 8` of byte `i / 8`. -/
theorem getLsbD_ofBytes (w : ℕ) (bs : List (BitVec 8)) (i : ℕ) (hi : i < w) :
    (ofBytes w bs).getLsbD i = (bs.getD (i / 8) 0).getLsbD (i % 8) := by
  induction bs generalizing i with
  | nil => simp [ofBytes]
  | cons b bs ih =>
    rw [ofBytes, BitVec.getLsbD_or, BitVec.getLsbD_setWidth, BitVec.getLsbD_shiftLeft]
    by_cases h : i < 8
    · have hd : i / 8 = 0 := by omega
      have hm : i % 8 = i := by omega
      simp [h, hi, hd, hm]
    · have hd : i / 8 = (i - 8) / 8 + 1 := by omega
      have hm : i % 8 = (i - 8) % 8 := by omega
      have hb : b.getLsbD i = false := BitVec.getLsbD_of_ge b i (by omega)
      rw [ih (i - 8) (by omega), hd, hm, List.getD_cons_succ]
      simp [h, hi, hb]

theorem ofBytes_bytesOf (k : ℕ) (v : BitVec (8 * k)) : ofBytes (8 * k) (bytesOf k v) = v := by
  apply BitVec.eq_of_getLsbD_eq
  intro i hi
  have hd : i / 8 < k := by omega
  rw [getLsbD_ofBytes _ _ _ hi, bytesOf, List.getD_eq_getElem?_getD, List.getElem?_map,
    List.getElem?_range hd]
  have hm : i % 8 < 8 := Nat.mod_lt _ (by omega)
  simp [hm, Nat.div_add_mod]

/-- The mask of a byte at bit `s`. -/
theorem getLsbD_mask (w s i : ℕ) (hi : i < w) :
    ((BitVec.ofNat w 255) <<< s).getLsbD i = (decide (s ≤ i) && decide (i - s < 8)) := by
  have h255 : ∀ j, j < w → (BitVec.ofNat w 255).getLsbD j = decide (j < 8) := by
    intro j hj
    rw [BitVec.getLsbD_ofNat, show (255 : ℕ) = 2 ^ 8 - 1 by norm_num, Nat.testBit_two_pow_sub_one]
    simp [hj]
  rw [BitVec.getLsbD_shiftLeft, h255 _ (by omega)]
  by_cases hs : s ≤ i
  · simp [hi, hs]
  · simp [hs, show i < s by omega]

/-- Masking a byte field and shifting it down, as the encoders write it. -/
theorem masked_shift_down {w : ℕ} (x : BitVec w) (s : ℕ) (hs : s + 8 ≤ w) :
    (((BitVec.ofNat w 255 <<< s) &&& x) >>> s).setWidth 8 = x.extractLsb' s 8 := by
  apply BitVec.eq_of_getLsbD_eq
  intro i hi
  rw [BitVec.getLsbD_setWidth, BitVec.getLsbD_ushiftRight, BitVec.getLsbD_and,
    getLsbD_mask w s (s + i) (by omega), BitVec.getLsbD_extractLsb']
  simp [hi]

/-- Shifting down first and masking then, the other way of writing it. -/
theorem shift_down_masked {w : ℕ} (x : BitVec w) (s : ℕ) (hs : s + 8 ≤ w) :
    (BitVec.ofNat w 255 &&& x.sshiftRight s).setWidth 8 = x.extractLsb' s 8 := by
  apply BitVec.eq_of_getLsbD_eq
  intro i hi
  have hm := getLsbD_mask w 0 i (by omega)
  rw [BitVec.shiftLeft_zero] at hm
  rw [BitVec.getLsbD_setWidth, BitVec.getLsbD_and, hm, BitVec.getLsbD_sshiftRight,
    BitVec.getLsbD_extractLsb']
  simp [hi, show s + i < w by omega, show i < w by omega]

/-- Shifting a byte up leaves nothing outside the mask of its place. -/
theorem shift_up_masked {w : ℕ} (b : BitVec 8) (s : ℕ) :
    (b.setWidth w <<< s) &&& (BitVec.ofNat w 255 <<< s) = b.setWidth w <<< s := by
  apply BitVec.eq_of_getLsbD_eq
  intro i hi
  rw [BitVec.getLsbD_and, getLsbD_mask w s i hi, BitVec.getLsbD_shiftLeft,
    BitVec.getLsbD_setWidth]
  by_cases h8 : i - s < 8
  · by_cases hsi : i < s
    · simp [hsi]
    · simp [h8, show s ≤ i by omega]
  · have hb : b.getLsbD (i - s) = false := BitVec.getLsbD_of_ge b _ (by omega)
    simp [hb]

end MelsecMc.WordBytes

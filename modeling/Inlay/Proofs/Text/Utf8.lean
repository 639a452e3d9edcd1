import Inlay.Text.Utf8
import Mathlib.Algebra.Group.Nat.Defs
import Mathlib.Data.Nat.Init

/-!
The order of texts and of their bytes. A character is written as a first byte,
which tells how many bytes follow, and digits in base 64. Characters with more
bytes start with a greater byte, so that bytes compare as the texts do.
-/

namespace Inlay.Utf8

/-- The `k` bytes behind a first byte: the last digits of `n` in base 64. -/
def digits : Nat → Nat → Bytes
  | 0, _ => []
  | k + 1, n => UInt8.ofNat (n / 64 ^ k % 64 + 128) :: digits k n

def lead : Nat → Nat
  | 0 => 0
  | 1 => 0xC0
  | 2 => 0xE0
  | _ => 0xF0

def leadLimit : Nat → Nat
  | 0 => 0x7F
  | 1 => 0x1F
  | 2 => 0x0F
  | _ => 0x07

/-- A code point takes `k` bytes behind the first one, and no fewer. -/
structure Takes (n k : Nat) : Prop where
  le_three : k ≤ 3
  le_limit : n / 64 ^ k ≤ leadLimit k
  exceeds : ∀ j < k, leadLimit j < n / 64 ^ j

theorem exists_takes (c : Char) : ∃ k, Takes c.toNat k ∧
    String.utf8EncodeChar c = UInt8.ofNat (c.toNat / 64 ^ k + lead k) :: digits k c.toNat := by
  have hval : c.val.toNat = c.toNat := rfl
  have hmax : c.toNat < 0x110000 := by
    have hvalid := c.valid
    simp only [UInt32.isValidChar, Nat.isValidChar, hval] at hvalid
    omega
  simp only [String.utf8EncodeChar, hval]
  split
  · refine ⟨0, ⟨by decide, ?_, by simp⟩, by simp [lead, digits]⟩
    simpa [leadLimit]
  · split
    · have hdigit : c.toNat / 64 % 32 = c.toNat / 64 := Nat.mod_eq_of_lt (by omega)
      refine ⟨1, ⟨by decide, ?_, ?_⟩, by simp [hdigit, lead, digits]⟩
      · simp only [leadLimit]
        omega
      · simp only [Nat.forall_lt_succ_right, Nat.not_lt_zero, false_implies, implies_true,
          true_and, leadLimit]
        omega
    · split
      · have hdigit : c.toNat / 4096 % 16 = c.toNat / 4096 := Nat.mod_eq_of_lt (by omega)
        refine ⟨2, ⟨by decide, ?_, ?_⟩, by simp [hdigit, lead, digits]⟩
        · simp only [leadLimit]
          omega
        · simp only [Nat.forall_lt_succ_right, Nat.not_lt_zero, false_implies, implies_true,
            true_and, leadLimit]
          omega
      · have hdigit : c.toNat / 262144 % 8 = c.toNat / 262144 := Nat.mod_eq_of_lt (by omega)
        refine ⟨3, ⟨by decide, ?_, ?_⟩, by simp [hdigit, lead, digits]⟩
        · simp only [leadLimit]
          omega
        · simp only [Nat.forall_lt_succ_right, Nat.not_lt_zero, false_implies, implies_true,
            true_and, leadLimit]
          omega

theorem digits_append_lt {k n m : Nat} (h : n % 64 ^ k < m % 64 ^ k) (s t : Bytes) :
    digits k n ++ s < digits k m ++ t := by
  induction k with
  | zero => simp [Nat.mod_one] at h
  | succ k ih =>
      have hn := Nat.mod_lt (n / 64 ^ k) (by decide : 64 > 0)
      have hm := Nat.mod_lt (m / 64 ^ k) (by decide : 64 > 0)
      rw [Nat.mod_pow_succ, Nat.mod_pow_succ] at h
      rw [digits, digits, List.cons_append, List.cons_append, List.cons_lt_cons_iff]
      rcases Nat.lt_trichotomy (n / 64 ^ k % 64) (m / 64 ^ k % 64) with hlt | heq | hgt
      · have hsize : 64 + 128 < UInt8.size := by decide
        exact .inl ((UInt8.ofNat_lt_iff_lt (by omega) (by omega)).mpr (by omega))
      · rw [heq] at h
        exact .inr ⟨by rw [heq], ih (by omega)⟩
      · -- a greater digit weighs more than all digits behind it
        have hrest := Nat.mod_lt m (Nat.pow_pos (by decide : 0 < 64) : 64 ^ k > 0)
        have hweight := Nat.mul_le_mul_left (64 ^ k) (Nat.succ_le_of_lt hgt)
        rw [Nat.succ_eq_add_one, Nat.mul_add] at hweight
        omega

theorem Takes.lt_size {n k : Nat} (h : Takes n k) : n / 64 ^ k + lead k < UInt8.size := by
  obtain ⟨hk, hlimit, -⟩ := h
  have hsum : ∀ k ≤ 3, leadLimit k + lead k < UInt8.size := by decide
  have hroom := hsum k hk
  omega

/-- With more bytes the first one is greater. -/
theorem lead_lt {n m k l : Nat} (hn : Takes n k) (hm : Takes m l) (h : k < l) :
    n / 64 ^ k + lead k < m / 64 ^ l + lead l := by
  have hgap : ∀ l ≤ 3, ∀ k < l, leadLimit k + lead k < lead l := by decide
  calc n / 64 ^ k + lead k ≤ leadLimit k + lead k := Nat.add_le_add_right hn.le_limit _
    _ < lead l := hgap l hm.le_three k h
    _ ≤ m / 64 ^ l + lead l := Nat.le_add_left _ _

theorem utf8EncodeChar_append_lt {c d : Char} (h : c < d) (s t : Bytes) :
    String.utf8EncodeChar c ++ s < String.utf8EncodeChar d ++ t := by
  have hlt : c.toNat < d.toNat := h
  obtain ⟨k, hc, heq⟩ := exists_takes c
  obtain ⟨l, hd, heq'⟩ := exists_takes d
  rw [heq, heq', List.cons_append, List.cons_append, List.cons_lt_cons_iff,
    UInt8.ofNat_lt_iff_lt hc.lt_size hd.lt_size]
  rcases Nat.lt_trichotomy k l with hkl | rfl | hkl
  · exact .inl (lead_lt hc hd hkl)
  · rcases Nat.lt_or_eq_of_le (Nat.div_le_div_right (c := 64 ^ k) (Nat.le_of_lt hlt)) with
      hdigit | hdigit
    · exact .inl (by omega)
    · refine .inr ⟨by rw [hdigit], digits_append_lt ?_ s t⟩
      have hcut := Nat.div_add_mod c.toNat (64 ^ k)
      have hcut' := Nat.div_add_mod d.toNat (64 ^ k)
      rw [hdigit] at hcut
      omega
  · -- the smaller one does not need more bytes
    have hexceeds := hc.exceeds l hkl
    have hlimit := hd.le_limit
    have hle := Nat.div_le_div_right (c := 64 ^ l) (Nat.le_of_lt hlt)
    omega

theorem encode_lt_encode {a b : Text} (h : a < b) : encode a < encode b := by
  induction h with
  | @nil c b =>
      obtain ⟨k, -, heq⟩ := exists_takes c
      rw [encode, encode, List.flatMap_cons, heq]
      exact .nil
  | rel h => exact utf8EncodeChar_append_lt h _ _
  | cons _ ih => exact List.append_left_lt ih

end Inlay.Utf8

import Mathlib.Data.Nat.Basic
import Mathlib.Order.Bounds.Basic
import NativeBridge.Memory.Address

/-! # Rounding to a power of two

Where the alignment is a power of two, rounding gives the least multiple that is not below. The
same comes out of the arithmetic of 64-bit words, which wraps around, as long as address and
alignment together do not pass the end of the address space.
-/
namespace NativeBridge

theorem isPowerOfTwo_iff {n : Nat} : isPowerOfTwo n = true ↔ n.isPowerOfTwo := by
  by_cases h : n = 0
  · subst h
    simp only [isPowerOfTwo, ne_eq, not_true_eq_false, decide_false, Bool.false_and,
      Bool.false_eq_true, false_iff]
    rintro ⟨k, hk⟩
    exact absurd hk (Nat.ne_of_lt (Nat.two_pow_pos k))
  · have hn := Nat.and_sub_one_eq_zero_iff_isPowerOfTwo h
    simp only [isPowerOfTwo, ne_eq, h, not_false_eq_true, decide_true, Bool.true_and,
      decide_eq_true_eq]
    exact hn

theorem isPowerOfTwo_one : isPowerOfTwo 1 = true := by decide

theorem alignUp_one (address : Nat) : alignUp address 1 = address := by
  rw [alignUp, Nat.sub_self, Nat.and_zero, Nat.add_sub_cancel, Nat.sub_zero]

section
variable {alignment : Nat} (h : isPowerOfTwo alignment = true) (address : Nat)
include h

theorem alignUp_eq_sub_mod : alignUp address alignment =
    (address + alignment - 1) - (address + alignment - 1) % alignment := by
  obtain ⟨k, rfl⟩ := isPowerOfTwo_iff.1 h
  rw [alignUp, Nat.and_two_pow_sub_one_eq_mod]

theorem pos_of_isPowerOfTwo : 0 < alignment := by
  obtain ⟨k, rfl⟩ := isPowerOfTwo_iff.1 h
  exact Nat.two_pow_pos k

theorem dvd_alignUp : alignment ∣ alignUp address alignment := by
  rw [alignUp_eq_sub_mod h]
  exact Nat.dvd_sub_mod _

theorem le_alignUp : address ≤ alignUp address alignment := by
  have hp := pos_of_isPowerOfTwo h
  have hm := Nat.mod_lt (address + alignment - 1) hp
  rw [alignUp_eq_sub_mod h]
  omega

theorem alignUp_lt : alignUp address alignment < address + alignment := by
  have hp := pos_of_isPowerOfTwo h
  rw [alignUp_eq_sub_mod h]
  omega

/-- No multiple of the alignment lies between an address and what it is rounded to. -/
theorem alignUp_le_of_dvd {n : Nat} (hn : address ≤ n) (hd : alignment ∣ n) :
    alignUp address alignment ≤ n := by
  obtain ⟨c, hc⟩ := dvd_alignUp h address
  obtain ⟨m, rfl⟩ := hd
  have hlt := alignUp_lt h address
  rw [hc] at hlt ⊢
  have hcm : alignment * c < alignment * (m + 1) := by
    rw [Nat.mul_add, Nat.mul_one]
    omega
  exact Nat.mul_le_mul_left _ (Nat.lt_succ_iff.1 (Nat.lt_of_mul_lt_mul_left hcm))

theorem isLeast_alignUp :
    IsLeast {n | address ≤ n ∧ alignment ∣ n} (alignUp address alignment) :=
  ⟨⟨le_alignUp h address, dvd_alignUp h address⟩, fun _ hn => alignUp_le_of_dvd h address hn.1 hn.2⟩

end

theorem add_one_lt_addressLimit {n : Nat} (h : n ≤ greatestSpan) : n + 1 < addressLimit := by
  have hs : greatestSpan + 1 < addressLimit := by decide
  omega

/-- The greatest alignment in words is half of the address space. -/
theorem le_greatestSpan {alignment : Nat} (h : isPowerOfTwo alignment = true)
    (hlt : alignment < addressLimit) : alignment ≤ greatestSpan := by
  obtain ⟨k, rfl⟩ := isPowerOfTwo_iff.1 h
  have hk : k < 64 := (Nat.pow_lt_pow_iff_right (by decide)).1 hlt
  exact Nat.pow_le_pow_right (by decide) (Nat.le_of_lt_succ hk)

/-- In the lower half of the address space no step of rounding is out of range. -/
theorem alignWord_eq_ok {address alignment : Nat} (h : isPowerOfTwo alignment = true)
    (hlt : alignment < addressLimit) (ha : address < greatestSpan) :
    alignWord address alignment = .ok (alignUp address alignment) := by
  have hlimit : addressLimit = greatestSpan + greatestSpan := by decide
  have hsum : address + alignment < addressLimit := by
    have hhalf := le_greatestSpan h hlt
    omega
  have hpos := pos_of_isPowerOfTwo h
  rw [alignWord, if_neg (not_le.2 hsum), if_neg hpos.ne']

/-- What is left of a word outside a mask is the word without its part inside. -/
theorem and_not_eq_sub (x mask : BitVec 64) : x &&& ~~~mask = x - (x &&& mask) := by
  have hs : (x &&& ~~~mask) + (x &&& mask) = x := by
    rw [BitVec.add_eq_or_of_and_eq_zero]
    · ext i hi
      simp only [BitVec.getElem_or, BitVec.getElem_and, BitVec.getElem_not]
      cases x[i] <;> cases mask[i] <;> rfl
    · ext i hi
      simp only [BitVec.getElem_and, BitVec.getElem_not, BitVec.getElem_zero]
      cases x[i] <;> cases mask[i] <;> rfl
  exact BitVec.eq_sub_iff_add_eq.2 hs

/-- Rounding as 64-bit words do it, each step of which may wrap around. -/
theorem toNat_alignUp {address alignment : UInt64} (h : isPowerOfTwo alignment.toNat = true)
    (hs : address.toNat + alignment.toNat ≤ addressLimit) :
    ((address + alignment - 1) &&& ~~~(alignment - 1)).toNat =
      alignUp address.toNat alignment.toNat := by
  have hp := pos_of_isPowerOfTwo h
  have hlimit : addressLimit = 2 ^ 64 := rfl
  have hmask : (alignment - 1).toNat = alignment.toNat - 1 := by
    rw [UInt64.toNat_sub]
    have ha := alignment.toNat_lt
    have h1 : (1 : UInt64).toNat = 1 := rfl
    omega
  have hraised : (address + alignment - 1).toNat = address.toNat + alignment.toNat - 1 := by
    rw [UInt64.toNat_sub, UInt64.toNat_add]
    have h1 : (1 : UInt64).toNat = 1 := rfl
    omega
  rw [← UInt64.toNat_toBitVec, UInt64.toBitVec_and, UInt64.toBitVec_not, and_not_eq_sub,
    BitVec.toNat_sub_of_le, BitVec.toNat_and, UInt64.toNat_toBitVec, UInt64.toNat_toBitVec,
    hraised, hmask]
  · rfl
  · rw [BitVec.le_def, BitVec.toNat_and]
    exact Nat.and_le_left

end NativeBridge

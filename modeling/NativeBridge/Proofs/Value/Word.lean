import Mathlib.Data.Int.ModEq
import NativeBridge.Call.Upcall

/-! # Results in words

A callback widens its result to a word, and a caller takes as many low bytes of a word as the kind
has. The low bytes of a widened value are its own pattern, whatever its sign, so the caller gets the
value that the callback's was converted to.
-/
namespace NativeBridge

namespace Value

theorem kind_ofInt (k : CallKind) (z : Int) : (ofInt k z).kind = k := by
  unfold ofInt
  split <;> rfl

theorem integer?_emod {v : Value} {z : Int} (h : v.integer? = some z) :
    z % (Nat.pow 256 v.kind.size : Nat) = v.bits := by
  have hlt := Nat.lt_of_lt_of_le v.bits_lt (patterns_le v.kind)
  have hbits : (v.bits : Int) % (Nat.pow 256 v.kind.size : Nat) = v.bits :=
    Int.emod_eq_of_lt (Int.natCast_nonneg _) (Int.ofNat_lt.2 hlt)
  unfold integer? at h
  split at h
  · rename_i hs
    have hp : v.kind.patterns = Nat.pow 256 v.kind.size := by
      cases hk : v.kind <;> rw [hk] at hs <;> first | rfl | cases hs
    cases h
    split
    · exact hbits
    · rw [hp, Int.sub_emod_right, hbits]
  · split at h
    all_goals cases h
    exact hbits

end Value

namespace Call

end Call

end NativeBridge

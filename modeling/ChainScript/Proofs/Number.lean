import Mathlib
import ChainScript.Number.Arithmetic

/-! When numbers are equal, and when they have the same bits once the two zeros are merged. -/
namespace ChainScript.Number

variable {x y : Float}

theorem beq_self_of_isNaN_eq_false (h : x.isNaN = false) : (x == x) = true := by
  simpa using h

theorem keyBits_eq_of_beq (h : (x == y) = true) : keyBits x = keyBits y := by
  have hzero : (x == 0) = (y == 0) := BEq.congr_left h
  unfold keyBits
  rw [hzero]
  split
  · rfl
  next hy =>
    -- Neither of them is a zero, so they are equal only if they are the same.
    rcases Float.beq_iff_ne_nan_and_eq.mp h with ⟨-, -, rfl | ⟨-, rfl⟩ | ⟨-, rfl⟩⟩
    · rfl
    · exact absurd (by decide) hy
    · exact absurd (by decide) hy

theorem keyBits_eq_iff (hx : x.isNaN = false) :
    keyBits x = keyBits y ↔ (x == y) = true := by
  refine ⟨fun h => ?_, keyBits_eq_of_beq⟩
  unfold keyBits at h
  split at h
  next hx0 =>
    split at h
    next hy0 => exact BEq.trans hx0 (BEq.symm hy0)
    next hy0 =>
      obtain rfl := Float.toBits_inj.mp h
      exact absurd (by decide) hy0
  next hx0 =>
    split at h
    next =>
      obtain rfl := Float.toBits_inj.mp h
      exact absurd (by decide) hx0
    next =>
      obtain rfl := Float.toBits_inj.mp h
      exact beq_self_of_isNaN_eq_false hx

end ChainScript.Number

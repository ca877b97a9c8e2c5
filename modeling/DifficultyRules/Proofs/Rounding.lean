/-
# `DifficultyRules.Proofs.Rounding` — what an encoding rounds a target to

The mantissa of an encoded target counts in steps.  A size of at most three
bytes counts single units, and every byte above the third makes the step 256
times as large: this is the `grain` of the target.  Everything here follows from
two facts about it.

* To encode a target is to round it down to a multiple of its grain
  (`expand_mantissaFor`).
* Beyond three bytes the grain goes at least `0x8000` times into the target
  (`grain_mul_le`), because the size is no larger than the target needs.

They say how little is lost, and that nothing better could have been done.  A
compact value of at least the target's size counts in multiples of the grain.
One of a smaller size does not come beyond `0x8000` grains, a multiple that the
target has reached in any case (`expand_le_floor`).

The main statements are `normalized_isGreatest`, by which a normalized target is
the greatest one that can be encoded, and `encoding_canonical`, by which every
target that can be encoded has one preferred encoding, and two compact values
have equal difficulty when these agree.  The encoding takes its size from twice
the number; what that comes to, byte by byte, is `leadingBytes`.
-/
import Mathlib.Order.Bounds.Defs
import DifficultyRules.Proofs.Encoding

namespace DifficultyRules
namespace Compact

variable {value mantissa size : Nat}

/-! ## Size and mantissa of an encoding -/

theorem sizeFor_pos (h : 0 < value) : 0 < sizeFor value := by
  refine lt_byteLength_iff.2 ?_
  rw [Nat.mul_zero, Nat.shiftLeft_zero]
  omega

/-- The size is no larger than twice the number needs. -/
theorem shift_le_two_mul (h : 0 < sizeFor value) :
    1 <<< (8 * (sizeFor value - 1)) ≤ 2 * value := by
  refine lt_byteLength_iff.1 ?_
  rw [sizeFor] at h ⊢
  omega

/-- The mantissa of a positive number has at least sixteen bits. -/
theorem le_mantissaFor (h : 0 < value) : 0x8000 ≤ mantissaFor value := by
  have hpos : 0 < sizeFor value := sizeFor_pos h
  have hsize : 2 ^ (8 * (sizeFor value - 1)) ≤ 2 * value := by
    rw [← Nat.one_shiftLeft]
    exact shift_le_two_mul hpos
  have hpow : 2 ^ (8 * sizeFor value) = 2 ^ (8 * (sizeFor value - 1)) * 2 ^ 8 := by
    rw [← Nat.pow_add]
    congr 1
    omega
  rw [mantissaFor, Nat.shiftRight_eq_div_pow, Nat.le_div_iff_mul_le (Nat.two_pow_pos _),
    Nat.shiftLeft_eq, hpow]
  omega

/-! ## The encoding byte by byte -/

/-- The leading three bytes of a size of up to three have zeros behind the number. -/
theorem leading_of_le (h : size ≤ 3) :
    value <<< 24 >>> (8 * size) = value <<< (8 * (3 - size)) := by
  have hbytes : 24 = 8 * (3 - size) + 8 * size := by omega
  rw [hbytes, Nat.shiftLeft_add, Nat.shiftLeft_shiftRight]

/-- From three bytes on, the other bytes are cut off. -/
theorem leading_of_ge (h : 3 ≤ size) :
    value <<< 24 >>> (8 * size) = value >>> (8 * (size - 3)) := by
  have hbytes : 8 * size = 24 + 8 * (size - 3) := by omega
  rw [hbytes, Nat.shiftRight_add, Nat.shiftLeft_shiftRight]

/-- The leading three bytes of a number with its size.  A mantissa that would reach the sign gives
up its lowest byte. -/
def leadingBytes (value : Nat) : Nat × Nat :=
  let size := byteLength value
  let mantissa :=
    if size ≤ 3 then value <<< (8 * (3 - size)) else value >>> (8 * (size - 3))
  if mantissa < 0x800000 then (mantissa, size) else (mantissa >>> 8, size + 1)

/-- The leading bytes reach the sign when twice the number takes a further byte. -/
theorem leading_lt_iff (value : Nat) :
    value <<< 24 >>> (8 * byteLength value) < 0x800000 ↔ sizeFor value ≤ byteLength value := by
  rw [sizeFor, byteLength_le_iff, Nat.one_shiftLeft, Nat.shiftRight_eq_div_pow,
    Nat.div_lt_iff_lt_mul (Nat.two_pow_pos _), Nat.shiftLeft_eq]
  omega

theorem sizeFor_le_succ (value : Nat) : sizeFor value ≤ byteLength value + 1 := by
  have hvalue := lt_shift_byteLength value
  have hpow : 2 ^ (8 * (byteLength value + 1)) = 2 ^ (8 * byteLength value) * 2 ^ 8 :=
    Nat.pow_add 2 (8 * byteLength value) 8
  refine byteLength_le_iff.2 ?_
  rw [Nat.one_shiftLeft] at hvalue ⊢
  omega

/-- **An encoding holds the leading bytes of its target.** -/
theorem leadingBytes_eq (value : Nat) :
    leadingBytes value = (mantissaFor value, sizeFor value) := by
  have hleading : (if byteLength value ≤ 3 then value <<< (8 * (3 - byteLength value))
      else value >>> (8 * (byteLength value - 3))) = value <<< 24 >>> (8 * byteLength value) := by
    split
    · next h => exact (leading_of_le h).symm
    · next h => exact (leading_of_ge (by omega)).symm
  simp only [leadingBytes, hleading]
  by_cases h : sizeFor value ≤ byteLength value
  · have hsize : sizeFor value = byteLength value :=
      Nat.le_antisymm h (byteLength_mono (Nat.le_mul_of_pos_left value (by decide)))
    rw [if_pos ((leading_lt_iff value).2 h), mantissaFor, hsize]
  · have hsize : sizeFor value = byteLength value + 1 := by
      have := sizeFor_le_succ value
      omega
    rw [if_neg (mt (leading_lt_iff value).1 h), mantissaFor, hsize, ← Nat.shiftRight_add,
      Nat.mul_add_one]

/-! ## The grain of a target -/

/-- What the lowest bit of the mantissa stands for when `value` is encoded. -/
def grain (value : Nat) : Nat := 1 <<< (8 * (sizeFor value - 3))

theorem grain_pos (value : Nat) : 0 < grain value := by
  rw [grain, Nat.one_shiftLeft]
  exact Nat.two_pow_pos _

theorem grain_of_le (h : sizeFor value ≤ 3) : grain value = 1 := by
  rw [grain, Nat.sub_eq_zero_of_le h]
  rfl

/-- The place of the leading byte is two bytes above the grain. -/
theorem shift_eq_grain_mul (h : 3 < sizeFor value) :
    1 <<< (8 * (sizeFor value - 1)) = 2 * (grain value * 0x8000) := by
  have hbytes : 8 * (sizeFor value - 1) = 8 * (sizeFor value - 3) + 16 := by omega
  rw [grain, Nat.one_shiftLeft, Nat.one_shiftLeft, hbytes, Nat.pow_add, Nat.mul_left_comm]

/-- Beyond three bytes, a number is many times as large as its grain. -/
theorem grain_mul_le (h : 3 < sizeFor value) : grain value * 0x8000 ≤ value := by
  have hsize : 1 <<< (8 * (sizeFor value - 1)) ≤ 2 * value := shift_le_two_mul (by omega)
  rw [shift_eq_grain_mul h] at hsize
  exact Nat.le_of_mul_le_mul_left hsize (by decide)

/-- No number is more than a mantissa of grains. -/
theorem lt_grain_mul (value : Nat) : value < grain value * 0x800000 := by
  have hvalue : 2 * value < 1 <<< (8 * sizeFor value) := lt_shift_byteLength _
  have hpow : 2 ^ (8 * sizeFor value) ≤ 2 ^ (8 * (sizeFor value - 3)) * 2 ^ 24 := by
    rw [← Nat.pow_add]
    exact Nat.pow_le_pow_right (by decide) (by omega)
  rw [grain, Nat.one_shiftLeft]
  rw [Nat.one_shiftLeft] at hvalue
  omega

/-- A larger number counts in multiples of the grain of a smaller one. -/
theorem grain_dvd_grain {a b : Nat} (h : a ≤ b) : grain a ∣ grain b := by
  have hsize : sizeFor a ≤ sizeFor b := byteLength_mono (Nat.mul_le_mul_left 2 h)
  rw [grain, grain, Nat.one_shiftLeft, Nat.one_shiftLeft]
  exact Nat.pow_dvd_pow 2 (by omega)

/-- With every byte beyond the third, the grain is 256 times as large. -/
theorem grain_mul_256_le {a b : Nat} (h : sizeFor a - 3 < sizeFor b - 3) :
    grain a * 256 ≤ grain b := by
  rw [grain, grain, Nat.one_shiftLeft, Nat.one_shiftLeft]
  calc 2 ^ (8 * (sizeFor a - 3)) * 2 ^ 8 = 2 ^ (8 * (sizeFor a - 3) + 8) := (Nat.pow_add ..).symm
    _ ≤ 2 ^ (8 * (sizeFor b - 3)) := Nat.pow_le_pow_right (by decide) (by omega)

/-- The grain of a number is no more than a quarter of it, if a quarter is anything at all. -/
theorem grain_le_quarter (h : 4 ≤ value) : grain value ≤ value / 4 := by
  by_cases hsize : sizeFor value ≤ 3
  · rw [grain_of_le hsize]
    omega
  · have := grain_mul_le (Nat.lt_of_not_le hsize)
    omega

/-- Nothing is cut off a number of up to three bytes. -/
theorem floor_of_le (h : sizeFor value ≤ 3) : value / grain value * grain value = value := by
  rw [grain_of_le h, Nat.div_one, Nat.mul_one]

/-- From three bytes on, the mantissa counts grains. -/
theorem mantissaFor_of_ge (h : 3 ≤ sizeFor value) : mantissaFor value = value / grain value := by
  rw [mantissaFor, leading_of_ge h, Nat.shiftRight_eq_div_pow, grain, Nat.one_shiftLeft]

/-- To encode is to round down to a multiple of the grain. -/
theorem expand_mantissaFor (value : Nat) :
    expand (mantissaFor value) (sizeFor value) = value / grain value * grain value := by
  by_cases h : sizeFor value ≤ 3
  · rw [expand, if_pos h, mantissaFor, leading_of_le h, Nat.shiftLeft_shiftRight, floor_of_le h]
  · rw [expand, if_neg h, mantissaFor_of_ge (by omega), Nat.shiftLeft_eq, ← Nat.one_shiftLeft,
      ← grain]

/-! ## Nothing lies between a number and what it is rounded to -/

/-- What divides a number that `value` has reached also has a multiple between the two. -/
theorem le_floor_of_dvd {d a : Nat} (hdvd : d ∣ a) (h : a ≤ value) : a ≤ value / d * d :=
  calc a = a / d * d := (Nat.div_mul_cancel hdvd).symm
    _ ≤ value / d * d := Nat.mul_le_mul_right d (Nat.div_le_div_right h)

/-- A size of at least that of `value` counts in multiples of its grain. -/
theorem grain_dvd_expand (h : 3 < sizeFor value) (hsize : sizeFor value ≤ size) :
    grain value ∣ expand mantissa size := by
  rw [expand, if_neg (by omega), Nat.shiftLeft_eq, grain, Nat.one_shiftLeft]
  exact Nat.dvd_mul_left_of_dvd (Nat.pow_dvd_pow 2 (by omega)) mantissa

/-- A smaller size does not come up to the least number of the size of `value`. -/
theorem expand_le_of_size_lt (h : 3 < sizeFor value) (hsize : size < sizeFor value)
    (hmantissa : mantissa < 0x800000) : expand mantissa size ≤ grain value * 0x8000 := by
  have hpow : 2 ^ (8 * size) ≤ 2 * (grain value * 0x8000) := by
    rw [← shift_eq_grain_mul h, Nat.one_shiftLeft]
    exact Nat.pow_le_pow_right (by decide) (by omega)
  rw [expand_eq, Nat.shiftRight_eq_div_pow, Nat.shiftLeft_eq]
  refine Nat.div_le_of_le_mul ?_
  calc mantissa * 2 ^ (8 * size)
      ≤ 0x800000 * (2 * (grain value * 0x8000)) := Nat.mul_le_mul (Nat.le_of_lt hmantissa) hpow
    _ = 2 ^ 24 * (grain value * 0x8000) := (Nat.mul_assoc ..).symm

/-- What does not exceed `value` does not exceed what `value` is rounded to either, if it has a
mantissa and a size at all. -/
theorem expand_le_floor (hmantissa : mantissa < 0x800000) (hle : expand mantissa size ≤ value) :
    expand mantissa size ≤ value / grain value * grain value := by
  by_cases h : sizeFor value ≤ 3
  · rwa [floor_of_le h]
  · rw [Nat.not_le] at h
    by_cases hsize : size < sizeFor value
    · calc expand mantissa size
          ≤ grain value * 0x8000 := expand_le_of_size_lt h hsize hmantissa
        _ ≤ value / grain value * grain value :=
          le_floor_of_dvd (Nat.dvd_mul_right ..) (grain_mul_le h)
    · exact le_floor_of_dvd (grain_dvd_expand h (Nat.le_of_not_lt hsize)) hle

/-! ## Encoding again -/

/-- Rounding keeps the size. -/
theorem sizeFor_floor (value : Nat) :
    sizeFor (value / grain value * grain value) = sizeFor value := by
  by_cases h : sizeFor value ≤ 3
  · rw [floor_of_le h]
  · rw [Nat.not_le] at h
    have hle : value / grain value * grain value ≤ value := Nat.div_mul_le_self ..
    have hge : grain value * 0x8000 ≤ value / grain value * grain value :=
      le_floor_of_dvd (Nat.dvd_mul_right ..) (grain_mul_le h)
    have hlast : sizeFor value - 1 < sizeFor (value / grain value * grain value) := by
      refine lt_byteLength_iff.2 ?_
      rw [shift_eq_grain_mul h]
      exact Nat.mul_le_mul_left 2 hge
    have hmost : sizeFor (value / grain value * grain value) ≤ sizeFor value :=
      byteLength_mono (Nat.mul_le_mul_left 2 hle)
    omega

theorem grain_floor (value : Nat) : grain (value / grain value * grain value) = grain value :=
  congrArg (fun size => 1 <<< (8 * (size - 3))) (sizeFor_floor value)

theorem mantissaFor_floor (value : Nat) :
    mantissaFor (value / grain value * grain value) = mantissaFor value := by
  by_cases h : sizeFor value ≤ 3
  · rw [floor_of_le h]
  · have hsize : 3 ≤ sizeFor value := by omega
    rw [mantissaFor_of_ge (by rwa [sizeFor_floor]), grain_floor, mantissaFor_of_ge hsize,
      Nat.mul_div_cancel _ (grain_pos value)]

end Compact

/-! ## Normalized targets -/

namespace Target

open DifficultyRules.Compact

/-- A target is rounded down to a multiple of its grain. -/
theorem value_normalized (t : Target) :
    t.normalized.value = t.value / grain t.value * grain t.value :=
  expand_mantissaFor t.value

/-- Rounding loses less than one part in `0x8000`. -/
theorem sub_normalized_lt {t : Target} (h : 0 < t.value) :
    (t.value - t.normalized.value) * 0x8000 < t.value := by
  have hlost : t.value - t.normalized.value = t.value % grain t.value := by
    rw [value_normalized, Nat.mod_eq_sub_div_mul]
  rw [hlost]
  by_cases hsize : sizeFor t.value ≤ 3
  · rwa [grain_of_le hsize, Nat.mod_one, Nat.zero_mul]
  · have hgrain : grain t.value * 0x8000 ≤ t.value := grain_mul_le (by omega)
    have hmod : t.value % grain t.value < grain t.value := Nat.mod_lt _ (grain_pos _)
    omega

/-- What a compact value stands for is below a target only if it is below its normalized form. -/
theorem le_normalized {c : Compact} {v t : Target} (hc : c.toTarget = .ok v) (h : v ≤ t) :
    v ≤ t.normalized := by
  rw [le_def, value_normalized]
  rw [toTarget] at hc
  split at hc
  · cases hc
  · split at hc
    · cases hc
      exact expand_le_floor c.mantissa_lt h
    · cases hc

/-- Rounding does not turn the order of targets around. -/
theorem normalized_mono {t u : Target} (h : t ≤ u) : t.normalized ≤ u.normalized :=
  le_normalized (toTarget_ofTarget t) (Nat.le_trans t.normalized_le h)

/-- **A normalized target is the greatest one that can be encoded** without exceeding the
target, and it falls short of it by less than one part in `0x8000`. -/
theorem normalized_isGreatest (t : Target) :
    IsGreatest {v | v ≤ t ∧ ∃ c : Compact, c.toTarget = .ok v} t.normalized ∧
      (0 < t.value → (t.value - t.normalized.value) * 0x8000 < t.value) := by
  refine ⟨⟨⟨t.normalized_le, ofTarget t, toTarget_ofTarget t⟩, ?_⟩, sub_normalized_lt⟩
  rintro v ⟨hv, c, hc⟩
  exact le_normalized hc hv

example : (⟨0x12345678, by decide⟩ : Target).normalized = ⟨0x12345600, by decide⟩ := by decide

/-- A target that can be encoded is its own normalized form. -/
theorem normalized_of_toTarget {c : Compact} {v : Target} (hc : c.toTarget = .ok v) :
    v.normalized = v := by
  refine Target.ext (Nat.le_antisymm v.normalized_le ?_)
  exact le_normalized hc (Nat.le_refl _)

theorem grain_dvd_normalized (t : Target) : grain t.value ∣ t.normalized.value := by
  rw [value_normalized]
  exact Nat.dvd_mul_left ..

/-- The targets that are rounded down to an encoded one reach up to its next step. -/
theorem normalized_eq_of_lt_add_grain {c : Compact} {v t : Target} (hc : c.toTarget = .ok v)
    (h : v ≤ t) (hlt : t.value < v.value + grain v.value) : t.normalized = v := by
  have hle : v.value ≤ t.normalized.value := le_normalized hc h
  have hnormalized : t.normalized.value ≤ t.value := t.normalized_le
  -- both are multiples of the grain of `v`, and less than one grain apart
  have hstep : grain v.value ∣ t.normalized.value - v.value := by
    refine Nat.dvd_sub ?_ ?_
    · exact Nat.dvd_trans (grain_dvd_grain h) t.grain_dvd_normalized
    · have := v.grain_dvd_normalized
      rwa [normalized_of_toTarget hc] at this
  have hzero : t.normalized.value - v.value = 0 := Nat.eq_zero_of_dvd_of_lt hstep (by omega)
  exact Target.ext (by omega)

/-- The targets that reach the next step of an encoded one are rounded to something above it. -/
theorem lt_normalized_of_add_grain_le {c : Compact} {v t : Target} (hc : c.toTarget = .ok v)
    (h : v.value + grain v.value ≤ t.value) : v < t.normalized := by
  show v.value < t.normalized.value
  rw [value_normalized]
  have hsize : sizeFor v.value ≤ sizeFor t.value := byteLength_mono (by omega)
  by_cases hsame : sizeFor t.value - 3 = sizeFor v.value - 3
  · -- both count in the same steps, so `t` has room for the next one
    have hgrain : grain t.value = grain v.value := by rw [grain, grain, hsame]
    have hstep : grain t.value ∣ v.value + grain v.value := by
      have := v.grain_dvd_normalized
      rw [normalized_of_toTarget hc] at this
      rw [hgrain]
      exact Nat.dvd_add this (Nat.dvd_refl _)
    have := le_floor_of_dvd hstep h
    have := grain_pos v.value
    omega
  · calc v.value < grain v.value * 0x800000 := lt_grain_mul _
      _ = grain v.value * 256 * 0x8000 := by rw [Nat.mul_assoc]
      _ ≤ grain t.value * 0x8000 := Nat.mul_le_mul_right _ (grain_mul_256_le (by omega))
      _ ≤ t.value / grain t.value * grain t.value :=
        le_floor_of_dvd (Nat.dvd_mul_right ..) (grain_mul_le (by omega))

theorem ofTarget_normalized (t : Target) : ofTarget t.normalized = ofTarget t := by
  refine Compact.ext ?_
  simp only [ofTarget, value_normalized, sizeFor_floor, mantissaFor_floor]

end Target

namespace Compact

theorem word_ofTarget_of_zero {t : Target} (h : t.value = 0) : (ofTarget t).word = 0 := by
  have hsize : sizeFor 0 = 0 := rfl
  have hmantissa : mantissaFor 0 = 0 := rfl
  simp only [ofTarget, h, hsize, hmantissa, Nat.zero_mul, Nat.add_zero]

theorem toTarget_ofTarget_of_toTarget {c : Compact} {v : Target} (hc : c.toTarget = .ok v) :
    (ofTarget v).toTarget = .ok v := by
  rw [toTarget_ofTarget, Target.normalized_of_toTarget hc]

/-- Targets with the same encoding are the same if they can be encoded at all. -/
theorem eq_of_ofTarget_eq {a b : Compact} {s t : Target} (ha : a.toTarget = .ok s)
    (hb : b.toTarget = .ok t) (h : ofTarget s = ofTarget t) : s = t := by
  have hs := toTarget_ofTarget_of_toTarget ha
  rw [h, toTarget_ofTarget_of_toTarget hb] at hs
  exact (Except.ok.inj hs).symm

/-- **Encodings are canonical.**  The encoding of a target holds its leading bytes.  It has no
sign, a mantissa of sixteen bits or more unless the target is zero, and reads back as the
normalized target, which has the same encoding.  What a compact value stands for survives being
encoded, and two compact values have equal difficulty exactly when what they stand for is encoded
alike. -/
theorem encoding_canonical :
    (∀ t : Target, ((ofTarget t).mantissa, (ofTarget t).size) = leadingBytes t.value ∧
      (ofTarget t).signed = false ∧ (ofTarget t).toTarget = .ok t.normalized ∧
      (if t.value = 0 then (ofTarget t).word = 0 else 0x8000 ≤ (ofTarget t).mantissa) ∧
      ofTarget t.normalized = ofTarget t) ∧
    (∀ (c : Compact) (v : Target), c.toTarget = .ok v →
      v.normalized = v ∧ (ofTarget v).toTarget = .ok v) ∧
    ∀ a b : Compact, a.sameDifficulty b ↔
      ∃ s t, a.toTarget = .ok s ∧ b.toTarget = .ok t ∧ ofTarget s = ofTarget t := by
  refine ⟨fun t => ?_, ?_, ?_⟩
  · refine ⟨?_, signed_ofTarget t, toTarget_ofTarget t, ?_, t.ofTarget_normalized⟩
    · rw [leadingBytes_eq, mantissa_ofTarget, size_ofTarget]
    · split
      · next hzero => exact word_ofTarget_of_zero hzero
      · next hpos =>
          rw [mantissa_ofTarget]
          exact le_mantissaFor (Nat.pos_of_ne_zero hpos)
  · intro c v hc
    exact ⟨Target.normalized_of_toTarget hc, toTarget_ofTarget_of_toTarget hc⟩
  · intro a b
    rw [sameDifficulty_iff]
    constructor
    · rintro ⟨t, ha, hb⟩
      exact ⟨t, t, ha, hb, rfl⟩
    · rintro ⟨s, t, ha, hb, h⟩
      obtain rfl := eq_of_ofTarget_eq ha hb h
      exact ⟨s, ha, hb⟩

/-- The bits `0x1c001234` stand for the same target, and are not the preferred ones. -/
example : ofTarget ⟨0x1234 <<< 200, by decide⟩ = ⟨0x1b123400, by decide⟩ := by decide

end Compact
end DifficultyRules

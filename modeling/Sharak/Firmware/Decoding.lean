import Mathlib.Algebra.Group.Int.Defs
import Sharak.Firmware.Definitions
import Sharak.Protocol.Codec

/-!
# Firmware — decoding a raw sample

Each axis of `adxl345_decode` is the value of its own two bytes in milli-g, truncated toward zero
(`adxl345Decode_axis`).  A step of one in the value is more than a step of one in milli-g on either
side of zero and across it (`toMg_strictMono`), so no two buffers decode to one sample
(`decode_lossless`).
-/

namespace Sharak
open Memory

/-! ### Values and milli-g -/

/-- The two's-complement value of two bytes, the lower first. -/
def leInt16 (lo hi : UInt8) : Int :=
  let u : Int := lo.toNat + 256 * hi.toNat
  if u < 2 ^ 15 then u else u - 2 ^ 16

/-- A value in milli-g, truncated toward zero. -/
def toMg (v : Int) : Int := (v * 125).tdiv 32

theorem leInt16_range (lo hi : UInt8) : -2 ^ 15 ≤ leInt16 lo hi ∧ leInt16 lo hi < 2 ^ 15 := by
  have h₀ := lo.toNat_lt
  have h₁ := hi.toNat_lt
  unfold leInt16
  dsimp only
  split <;> omega

theorem leInt16_inj {lo hi lo' hi' : UInt8} (h : leInt16 lo hi = leInt16 lo' hi') :
    lo = lo' ∧ hi = hi' := by
  have h₀ := lo.toNat_lt
  have h₁ := hi.toNat_lt
  have h₀' := lo'.toNat_lt
  have h₁' := hi'.toNat_lt
  rw [← UInt8.toNat_inj, ← UInt8.toNat_inj]
  unfold leInt16 at h
  dsimp only at h
  split at h <;> split at h <;> omega

/-- Which way the quotient is truncated. -/
theorem toMg_bounds (v : Int) :
    (0 ≤ v → 32 * toMg v ≤ 125 * v ∧ 125 * v < 32 * toMg v + 32) ∧
      (v ≤ 0 → 125 * v ≤ 32 * toMg v ∧ 32 * toMg v - 32 < 125 * v) := by
  have hpos : ∀ w : Int, 0 ≤ w → 32 * toMg w ≤ 125 * w ∧ 125 * w < 32 * toMg w + 32 := by
    intro w hw
    rw [toMg, Int.tdiv_eq_ediv_of_nonneg (by omega)]
    omega
  have hneg : toMg (-v) = -toMg v := by
    rw [toMg, toMg, Int.neg_mul, Int.neg_tdiv]
  refine ⟨hpos v, ?_⟩
  intro hv
  have h := hpos (-v) (by omega)
  rw [hneg] at h
  omega

/-- The truncation takes off less than one milli-g, toward zero. -/
theorem toMg_error (v : Int) :
    (32 * toMg v - 125 * v).natAbs < 32 ∧ (32 * toMg v).natAbs ≤ 125 * v.natAbs := by
  obtain ⟨hpos, hneg⟩ := toMg_bounds v
  rcases Int.le_total 0 v with h | h
  · have := hpos h
    omega
  · have := hneg h
    omega

/-- The resolution in milli-g is finer than the sensor's, across zero too. -/
theorem toMg_strictMono {v w : Int} (h : v < w) : toMg v < toMg w := by
  obtain ⟨hv, hv'⟩ := toMg_bounds v
  obtain ⟨hw, hw'⟩ := toMg_bounds w
  rcases Int.le_total 0 v with h₀ | h₀
  · have := hv h₀
    have := hw (by omega)
    omega
  · have := hv' h₀
    rcases Int.le_total 0 w with h₁ | h₁
    · have := hw h₁
      omega
    · have := hw' h₁
      omega

theorem toMg_inj {v w : Int} (h : toMg v = toMg w) : v = w := by
  rcases Int.lt_trichotomy v w with hlt | heq | hgt
  · have := toMg_strictMono hlt
    omega
  · exact heq
  · have := toMg_strictMono hgt
    omega

/-- A value that fits `int32_t`. -/
def InInt32 (x : Int) : Prop := -2 ^ 31 ≤ x ∧ x < 2 ^ 31

/-- A raw reading in milli-g: the product does not overflow and the quotient is truncated. -/
theorem toInt_scaled (v : Int16) :
    (v.toInt32 * adxl345MgNum / adxl345MgDen).toInt = (v.toInt * 125).tdiv 32 := by
  have hlo : -2 ^ 15 ≤ v.toInt := v.le_toInt
  have hhi : v.toInt < 2 ^ 15 := v.toInt_lt
  have hnum : adxl345MgNum.toInt = 125 := rfl
  have hden : adxl345MgDen.toInt = 32 := rfl
  have hmul : (v.toInt * 125).bmod (2 ^ 32) = v.toInt * 125 :=
    Int.bmod_eq_of_le (by omega) (by omega)
  have hdiv := Int.natAbs_tdiv_le_natAbs (v.toInt * 125) 32
  rw [Int32.toInt_div, Int32.toInt_mul, Int16.toInt_toInt32, hnum, hden, hmul]
  exact Int.bmod_eq_of_le (by omega) (by omega)

/-! ### The three axes -/

/-- The value an axis is sent as: its own two bytes. -/
def rawAxis (raw : Vector UInt8 6) (k : Fin 3) : Int :=
  leInt16 raw[2 * k.val] raw[2 * k.val + 1]

def Adxl345Accel.axis (a : Adxl345Accel) : Fin 3 → Int32
  | 0 => a.xMg
  | 1 => a.yMg
  | 2 => a.zMg

/-- The narrowing to `int16_t` wraps. -/
theorem toInt_toInt16 (u : UInt16) :
    u.toInt16.toInt = if (u.toNat : Int) < 2 ^ 15 then (u.toNat : Int) else u.toNat - 2 ^ 16 := by
  have h : u.toInt16.toInt = u.toBitVec.toInt := rfl
  have hn : u.toBitVec.toNat = u.toNat := rfl
  rw [h, BitVec.toInt_eq_toNat_cond, hn]
  split <;> split <;> omega

theorem toInt16_eq_leInt16 {lo hi : UInt8} {u : UInt16}
    (h : u.toNat = lo.toNat + hi.toNat * 2 ^ 8) : u.toInt16.toInt = leInt16 lo hi := by
  have hu : (u.toNat : Int) = lo.toNat + 256 * hi.toNat := by omega
  rw [toInt_toInt16, hu]
  rfl

theorem toInt_join (lo hi : UInt8) :
    (lo.toUInt16 ||| (hi.toUInt16 <<< 8)).toInt16.toInt = leInt16 lo hi :=
  toInt16_eq_leInt16 (toNat_join16 lo hi)

/-- The driver's reading of an axis. -/
theorem getLe16_axis (raw : Vector UInt8 6) (k : Fin 3) :
    ∃ u : UInt16, getLe16 (.mem raw.toList) (2 * k.val) = .ok u ∧
      (u.toInt16.toInt32 * adxl345MgNum / adxl345MgDen).toInt = toMg (rawAxis raw k) := by
  have hl : raw.toList.length = 6 := Vector.length_toList
  refine ⟨raw[2 * k.val].toUInt16 ||| (raw[2 * k.val + 1].toUInt16 <<< 8), ?_, ?_⟩
  · rw [getLe16, Slice.read_mem (by omega), Slice.read_mem (by omega)]
    simp only [Vector.getElem_toList]
    rfl
  · rw [toInt_scaled, toInt_join]
    rfl

/-- Each axis depends on its own two bytes. -/
theorem adxl345Decode_axis (raw : Vector UInt8 6) :
    ∃ a, adxl345Decode (.mem raw.toList) = .ok a ∧
      ∀ k, (a.axis k).toInt = toMg (rawAxis raw k) := by
  obtain ⟨x, hx, hx'⟩ := getLe16_axis raw 0
  obtain ⟨y, hy, hy'⟩ := getLe16_axis raw 1
  obtain ⟨z, hz, hz'⟩ := getLe16_axis raw 2
  refine ⟨⟨x.toInt16.toInt32 * adxl345MgNum / adxl345MgDen,
    y.toInt16.toInt32 * adxl345MgNum / adxl345MgDen,
    z.toInt16.toInt32 * adxl345MgNum / adxl345MgDen⟩, ?_, ?_⟩
  · have hx₀ : getLe16 (.mem raw.toList) 0 = .ok x := hx
    have hy₀ : getLe16 (.mem raw.toList) 2 = .ok y := hy
    have hz₀ : getLe16 (.mem raw.toList) 4 = .ok z := hz
    rw [adxl345Decode, hx₀, hy₀, hz₀]
    rfl
  · intro k
    match k with
    | 0 => exact hx'
    | 1 => exact hy'
    | 2 => exact hz'

theorem rawAxis_inj {raw raw' : Vector UInt8 6} (h : ∀ k, rawAxis raw k = rawAxis raw' k) :
    raw = raw' := by
  obtain ⟨h₀, h₁⟩ := leInt16_inj (h 0)
  obtain ⟨h₂, h₃⟩ := leInt16_inj (h 1)
  obtain ⟨h₄, h₅⟩ := leInt16_inj (h 2)
  apply Vector.ext
  intro i hi
  match i with
  | 0 => exact h₀
  | 1 => exact h₁
  | 2 => exact h₂
  | 3 => exact h₃
  | 4 => exact h₄
  | 5 => exact h₅

/-- Both `int32_t` intermediates of an axis are in range. -/
theorem inInt32_axis (raw : Vector UInt8 6) (k : Fin 3) :
    InInt32 (rawAxis raw k * 125) ∧ InInt32 (toMg (rawAxis raw k)) := by
  have hrange : -2 ^ 15 ≤ rawAxis raw k ∧ rawAxis raw k < 2 ^ 15 := leInt16_range _ _
  have hmg := (toMg_error (rawAxis raw k)).2
  unfold InInt32
  omega

/-- **Decoding loses nothing.**  Every buffer decodes; each axis is the value of its own bytes in
milli-g truncated toward zero, with all intermediates in range and less than one milli-g lost; the
axes are strictly monotone in the values, and depend on nothing else; and two buffers decode to one
sample only if they are equal. -/
theorem decode_lossless :
    (∀ raw : Vector UInt8 6, ∃ a, adxl345Decode (.mem raw.toList) = .ok a ∧
      ∀ k, (a.axis k).toInt = (rawAxis raw k * 125).tdiv 32 ∧
        InInt32 (rawAxis raw k * 125) ∧ InInt32 ((rawAxis raw k * 125).tdiv 32) ∧
        (32 * (a.axis k).toInt - 125 * rawAxis raw k).natAbs < 32 ∧
        (32 * (a.axis k).toInt).natAbs ≤ 125 * (rawAxis raw k).natAbs) ∧
    ∀ (raw raw' : Vector UInt8 6) (a a' : Adxl345Accel),
      adxl345Decode (.mem raw.toList) = .ok a → adxl345Decode (.mem raw'.toList) = .ok a' →
        (∀ k, rawAxis raw k < rawAxis raw' k → (a.axis k).toInt < (a'.axis k).toInt) ∧
        (∀ k, rawAxis raw k = rawAxis raw' k → a.axis k = a'.axis k) ∧
        (a = a' ↔ raw = raw') := by
  constructor
  · intro raw
    obtain ⟨a, ha, haxis⟩ := adxl345Decode_axis raw
    refine ⟨a, ha, ?_⟩
    intro k
    have herror := toMg_error (rawAxis raw k)
    rw [← haxis k] at herror
    exact ⟨haxis k, (inInt32_axis raw k).1, (inInt32_axis raw k).2, herror⟩
  · intro raw raw' a a' ha ha'
    obtain ⟨b, hb, haxis⟩ := adxl345Decode_axis raw
    obtain ⟨b', hb', haxis'⟩ := adxl345Decode_axis raw'
    obtain rfl := Except.ok.inj (ha.symm.trans hb)
    obtain rfl := Except.ok.inj (ha'.symm.trans hb')
    refine ⟨?_, ?_, ?_⟩
    · intro k hk
      rw [haxis k, haxis' k]
      exact toMg_strictMono hk
    · intro k hk
      rw [← Int32.toInt_inj, haxis k, haxis' k, hk]
    · constructor
      · rintro rfl
        apply rawAxis_inj
        intro k
        exact toMg_inj ((haxis k).symm.trans (haxis' k))
      · rintro rfl
        exact Except.ok.inj (ha.symm.trans ha')

end Sharak

import Mathlib.Algebra.Group.Nat.Defs
import Sharak.Protocol.Encode

/-!
# Protocol — the payload codecs

A packed payload is a list of fields, each its bytes from the lowest (`accelBytes`); packing writes
that list in front of the buffer (`skPayloadPack_mem`), and unpacking reads the fields back
(`skPayloadUnpack_accel`).
-/

namespace Sharak
open Memory

/-! ### Little-endian fields -/

def le16Bytes (u : UInt16) : List UInt8 := [(u &&& 0xFF).toUInt8, ((u >>> 8) &&& 0xFF).toUInt8]

def le32Bytes (u : UInt32) : List UInt8 :=
  [(u &&& 0xFF).toUInt8, ((u >>> 8) &&& 0xFF).toUInt8, ((u >>> 16) &&& 0xFF).toUInt8,
    ((u >>> 24) &&& 0xFF).toUInt8]

/-- Bits placed above a value that ends below them. -/
theorem or_shiftLeft {a k : Nat} (b : Nat) (h : a < 2 ^ k) : a ||| b <<< k = b * 2 ^ k + a := by
  rw [Nat.or_comm, ← Nat.shiftLeft_add_eq_or_of_lt h, Nat.shiftLeft_eq]

theorem or_bytes {a b c d : Nat} (ha : a < 256) (hb : b < 256) (hc : c < 256) :
    a ||| b <<< 8 ||| c <<< 16 ||| d <<< 24 = a + b * 2 ^ 8 + c * 2 ^ 16 + d * 2 ^ 24 := by
  rw [or_shiftLeft (a := a) b (by omega), or_shiftLeft (a := b * 2 ^ 8 + a) c (by omega),
    or_shiftLeft d (by omega)]
  omega

/-- Two bytes joined, the lower first. -/
theorem toNat_join16 (b₀ b₁ : UInt8) :
    (b₀.toUInt16 ||| (b₁.toUInt16 <<< 8)).toNat = b₀.toNat + b₁.toNat * 2 ^ 8 := by
  have h₀ := b₀.toNat_lt
  have h₁ := b₁.toNat_lt
  simp only [UInt16.toNat_or, UInt16.toNat_shiftLeft, UInt8.toNat_toUInt16, UInt16.reduceToNat,
    Nat.reduceMod, Nat.shiftLeft_eq]
  rw [Nat.mod_eq_of_lt (by omega : b₁.toNat * 2 ^ 8 < 2 ^ 16), ← Nat.shiftLeft_eq,
    or_shiftLeft _ (by omega)]
  omega

/-- Four bytes joined, the lowest first. -/
theorem toNat_join32 (b₀ b₁ b₂ b₃ : UInt8) :
    (b₀.toUInt32 ||| (b₁.toUInt32 <<< 8) ||| (b₂.toUInt32 <<< 16) |||
      (b₃.toUInt32 <<< 24)).toNat =
        b₀.toNat + b₁.toNat * 2 ^ 8 + b₂.toNat * 2 ^ 16 + b₃.toNat * 2 ^ 24 := by
  have h₀ := b₀.toNat_lt
  have h₁ := b₁.toNat_lt
  have h₂ := b₂.toNat_lt
  have h₃ := b₃.toNat_lt
  simp only [UInt32.toNat_or, UInt32.toNat_shiftLeft, UInt8.toNat_toUInt32, UInt32.reduceToNat,
    Nat.reduceMod, Nat.shiftLeft_eq]
  rw [Nat.mod_eq_of_lt (by omega : b₁.toNat * 2 ^ 8 < 2 ^ 32),
    Nat.mod_eq_of_lt (by omega : b₂.toNat * 2 ^ 16 < 2 ^ 32),
    Nat.mod_eq_of_lt (by omega : b₃.toNat * 2 ^ 24 < 2 ^ 32),
    ← Nat.shiftLeft_eq, ← Nat.shiftLeft_eq, ← Nat.shiftLeft_eq, or_bytes h₀ h₁ h₂]
  simp only [Nat.shiftLeft_eq]

theorem le16_join (u : UInt16) :
    (u &&& 0xFF).toUInt8.toUInt16 ||| (((u >>> 8) &&& 0xFF).toUInt8.toUInt16 <<< 8) = u := by
  have h255 : ∀ x : Nat, x &&& 255 = x % 256 := fun x => Nat.and_two_pow_sub_one_eq_mod x 8
  have hu := u.toNat_lt
  apply UInt16.toNat_inj.mp
  simp only [toNat_join16, UInt16.toNat_toUInt8, UInt16.toNat_and, UInt16.toNat_shiftRight,
    UInt16.reduceToNat, h255, Nat.reduceMod, Nat.shiftRight_eq_div_pow]
  omega

theorem le32_join (u : UInt32) :
    (u &&& 0xFF).toUInt8.toUInt32 ||| (((u >>> 8) &&& 0xFF).toUInt8.toUInt32 <<< 8) |||
      (((u >>> 16) &&& 0xFF).toUInt8.toUInt32 <<< 16) |||
      (((u >>> 24) &&& 0xFF).toUInt8.toUInt32 <<< 24) = u := by
  have h255 : ∀ x : Nat, x &&& 255 = x % 256 := fun x => Nat.and_two_pow_sub_one_eq_mod x 8
  have hu := u.toNat_lt
  apply UInt32.toNat_inj.mp
  simp only [toNat_join32, UInt32.toNat_toUInt8, UInt32.toNat_and, UInt32.toNat_shiftRight,
    UInt32.reduceToNat, h255, Nat.reduceMod, Nat.shiftRight_eq_div_pow]
  omega

/-- Every two bytes are the bytes of what they are joined to. -/
theorem le16Bytes_join (b₀ b₁ : UInt8) :
    le16Bytes (b₀.toUInt16 ||| (b₁.toUInt16 <<< 8)) = [b₀, b₁] := by
  have h255 : ∀ x : Nat, x &&& 255 = x % 256 := fun x => Nat.and_two_pow_sub_one_eq_mod x 8
  have h₀ := b₀.toNat_lt
  have h₁ := b₁.toNat_lt
  rw [le16Bytes, List.cons.injEq, List.cons.injEq, ← UInt8.toNat_inj, ← UInt8.toNat_inj]
  simp only [UInt16.toNat_toUInt8, UInt16.toNat_and, UInt16.toNat_shiftRight, UInt16.reduceToNat,
    toNat_join16, h255, Nat.reduceMod, Nat.shiftRight_eq_div_pow, and_true]
  omega

theorem le32Bytes_join (b₀ b₁ b₂ b₃ : UInt8) :
    le32Bytes (b₀.toUInt32 ||| (b₁.toUInt32 <<< 8) ||| (b₂.toUInt32 <<< 16) |||
      (b₃.toUInt32 <<< 24)) = [b₀, b₁, b₂, b₃] := by
  have h255 : ∀ x : Nat, x &&& 255 = x % 256 := fun x => Nat.and_two_pow_sub_one_eq_mod x 8
  have h₀ := b₀.toNat_lt
  have h₁ := b₁.toNat_lt
  have h₂ := b₂.toNat_lt
  have h₃ := b₃.toNat_lt
  rw [le32Bytes, List.cons.injEq, List.cons.injEq, List.cons.injEq, List.cons.injEq,
    ← UInt8.toNat_inj, ← UInt8.toNat_inj, ← UInt8.toNat_inj, ← UInt8.toNat_inj]
  simp only [UInt32.toNat_toUInt8, UInt32.toNat_and, UInt32.toNat_shiftRight, UInt32.reduceToNat,
    toNat_join32, h255, Nat.reduceMod, Nat.shiftRight_eq_div_pow, and_true]
  omega

/-! ### Reading fields -/

section
variable {xs ys : List UInt8}

theorem getLe16_bytes (u : UInt16) :
    getLe16 (.mem (xs ++ le16Bytes u ++ ys)) xs.length = .ok u := by
  have h₀ := @Slice.read_mid _ xs (le16Bytes u) ys 0 (by simp [le16Bytes])
  have h₁ := @Slice.read_mid _ xs (le16Bytes u) ys 1 (by simp [le16Bytes])
  rw [Nat.add_zero] at h₀
  rw [getLe16, h₀, h₁]
  exact congrArg Except.ok (le16_join u)

theorem getLe32_bytes (u : UInt32) :
    getLe32 (.mem (xs ++ le32Bytes u ++ ys)) xs.length = .ok u := by
  have h₀ := @Slice.read_mid _ xs (le32Bytes u) ys 0 (by simp [le32Bytes])
  have h₁ := @Slice.read_mid _ xs (le32Bytes u) ys 1 (by simp [le32Bytes])
  have h₂ := @Slice.read_mid _ xs (le32Bytes u) ys 2 (by simp [le32Bytes])
  have h₃ := @Slice.read_mid _ xs (le32Bytes u) ys 3 (by simp [le32Bytes])
  rw [Nat.add_zero] at h₀
  rw [getLe32, h₀, h₁, h₂, h₃]
  exact congrArg Except.ok (le32_join u)

end

/-! ### Writing fields -/

theorem putLe32_overlay {xs cs : List UInt8} {off : Nat} (u : UInt32) (ho : off = xs.length)
    (h : xs.length + 4 ≤ cs.length) :
    putLe32 (.mem (overlay xs cs)) off u = .ok (.mem (overlay (xs ++ le32Bytes u) cs)) := by
  rw [putLe32, Slice.write_overlay_at _ ho (by omega), ok_bind,
    Slice.write_overlay_at _ (by simp; omega) (by simp; omega), ok_bind,
    Slice.write_overlay_at _ (by simp; omega) (by simp; omega), ok_bind,
    Slice.write_overlay_at _ (by simp; omega) (by simp; omega)]
  simp [le32Bytes]

/-- The envelope of a message. -/
def envelopeBytes (type : UInt8) (seq : UInt16) : List UInt8 := [skVer, type] ++ le16Bytes seq

theorem putEnvelope_mem {cs : List UInt8} (type : UInt8) (seq : UInt16) (h : 4 ≤ cs.length) :
    putEnvelope (.mem cs) type seq = .ok (.mem (overlay (envelopeBytes type seq) cs)) := by
  conv_lhs => rw [← overlay_nil cs]
  have e₀ : 0 = ([] : List UInt8).length := rfl
  rw [putEnvelope, Slice.write_overlay_at _ e₀ (by simp; omega), ok_bind,
    Slice.write_overlay_at _ (by simp) (by simp; omega), ok_bind,
    Slice.write_overlay_at _ (by simp) (by simp; omega), ok_bind,
    Slice.write_overlay_at _ (by simp) (by simp; omega)]
  rfl

/-! ### Accelerometer payloads -/

/-- The payload of an accelerometer sample. -/
def accelBytes (seq : UInt16) (xMg yMg zMg : Int32) : List UInt8 :=
  envelopeBytes skTypeAccel seq ++ le32Bytes xMg.toUInt32 ++ le32Bytes yMg.toUInt32 ++
    le32Bytes zMg.toUInt32

@[simp] theorem length_accelBytes (seq : UInt16) (xMg yMg zMg : Int32) :
    (accelBytes seq xMg yMg zMg).length = 16 := rfl

theorem skPayloadPack_mem {cs : List UInt8} (h : skPayloadLen ≤ cs.length) (seq : UInt16)
    (xMg yMg zMg : Int32) :
    skPayloadPack (.mem cs) seq xMg yMg zMg =
      .ok ((skPayloadLen : Nat), .mem (overlay (accelBytes seq xMg yMg zMg) cs)) := by
  have hl : ¬ ((Slice.mem cs).isNull = true ∨ (Slice.mem cs).size < skPayloadLen) := by
    simpa using h
  have h16 : 16 ≤ cs.length := h
  have e₄ : 4 = (envelopeBytes skTypeAccel seq).length := rfl
  have e₈ : 8 = (envelopeBytes skTypeAccel seq ++ le32Bytes xMg.toUInt32).length := rfl
  have e₁₂ : 12 = (envelopeBytes skTypeAccel seq ++ le32Bytes xMg.toUInt32 ++
      le32Bytes yMg.toUInt32).length := rfl
  rw [skPayloadPack, if_neg hl, putEnvelope_mem _ _ (by omega), ok_bind,
    putLe32_overlay _ e₄ (by omega), ok_bind, putLe32_overlay _ e₈ (by omega), ok_bind,
    putLe32_overlay _ e₁₂ (by omega)]
  rfl

/-- Unpacking a packed sample, in a buffer of its size or longer. -/
theorem skPayloadUnpack_append (seq : UInt16) (xMg yMg zMg : Int32) (rest : List UInt8)
    (o : AccelOut) :
    skPayloadUnpack (.mem (accelBytes seq xMg yMg zMg ++ rest)) o =
      .ok (0, { ver := assign o.ver skVer, type := assign o.type skTypeAccel,
                seq := assign o.seq seq, xMg := assign o.xMg xMg, yMg := assign o.yMg yMg,
                zMg := assign o.zMg zMg }) := by
  have hl : ¬ ((Slice.mem (accelBytes seq xMg yMg zMg ++ rest)).isNull = true ∨
      (Slice.mem (accelBytes seq xMg yMg zMg ++ rest)).size < skPayloadLen) := by
    simp [skPayloadLen, skPayloadMax]
  have hseq : getLe16 (.mem (accelBytes seq xMg yMg zMg ++ rest)) 2 = .ok seq :=
    @getLe16_bytes [skVer, skTypeAccel] (le32Bytes xMg.toUInt32 ++ le32Bytes yMg.toUInt32 ++
      le32Bytes zMg.toUInt32 ++ rest) seq
  have hx : getLe32 (.mem (accelBytes seq xMg yMg zMg ++ rest)) 4 = .ok xMg.toUInt32 :=
    @getLe32_bytes (envelopeBytes skTypeAccel seq) (le32Bytes yMg.toUInt32 ++
      le32Bytes zMg.toUInt32 ++ rest) xMg.toUInt32
  have hy : getLe32 (.mem (accelBytes seq xMg yMg zMg ++ rest)) 8 = .ok yMg.toUInt32 :=
    @getLe32_bytes (envelopeBytes skTypeAccel seq ++ le32Bytes xMg.toUInt32)
      (le32Bytes zMg.toUInt32 ++ rest) yMg.toUInt32
  have hz : getLe32 (.mem (accelBytes seq xMg yMg zMg ++ rest)) 12 = .ok zMg.toUInt32 :=
    @getLe32_bytes (envelopeBytes skTypeAccel seq ++ le32Bytes xMg.toUInt32 ++
      le32Bytes yMg.toUInt32) rest zMg.toUInt32
  rw [skPayloadUnpack, if_neg hl, getEnvelope, hseq, hx, hy, hz]
  rfl

/-- **Unpacking a packed sample.** -/
theorem skPayloadUnpack_accel (seq : UInt16) (xMg yMg zMg : Int32) (o : AccelOut) :
    skPayloadUnpack (.mem (accelBytes seq xMg yMg zMg)) o =
      .ok (0, { ver := assign o.ver skVer, type := assign o.type skTypeAccel,
                seq := assign o.seq seq, xMg := assign o.xMg xMg, yMg := assign o.yMg yMg,
                zMg := assign o.zMg zMg }) := by
  have h := skPayloadUnpack_append seq xMg yMg zMg [] o
  rwa [List.append_nil] at h

/-- The payload of an accelerometer sample, as one the encoder takes. -/
def accelPayload (seq : UInt16) (xMg yMg zMg : Int32) : Payload :=
  ⟨accelBytes seq xMg yMg zMg, by simp [skPayloadMin], by simp [skPayloadMax]⟩

end Sharak

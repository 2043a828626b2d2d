import Sharak.Protocol.Codec

/-!
# Protocol — messages

A `Message` is what a sender packs, of any of the three types.  Packing writes the message's bytes
in front of the buffer (`Message.pack_mem`), the unpack calls read them back
(`Message.readFrom_append`), and the payloads packed this way are exactly the well-formed ones
(`wellFormed_iff`).  So packing and unpacking are inverse to each other, within each type and
across them (`message_codec`).
-/

namespace Sharak
open Memory

/-- A message of one of the three types. -/
inductive Message where
  | accel (seq : UInt16) (xMg yMg zMg : Int32)
  | temp (seq : UInt16) (tempCentiC : Int16)
  | current (seq : UInt16) (currentMa : Int32)
deriving DecidableEq, Repr

namespace Message

def type : Message → UInt8
  | accel .. => 0x01
  | temp .. => 0x02
  | current .. => 0x03

def seq : Message → UInt16
  | accel seq .. => seq
  | temp seq _ => seq
  | current seq _ => seq

/-- The size of the payload. -/
def len : Message → Nat
  | accel .. => 16
  | temp .. => 6
  | current .. => 8

/-- The pack call for a message. -/
def pack (buf : Slice UInt8) : Message → Checked (Int × Slice UInt8)
  | accel seq xMg yMg zMg => skPayloadPack buf seq xMg yMg zMg
  | temp seq tempCentiC => skPackTemp buf seq tempCentiC
  | current seq currentMa => skPackCurrent buf seq currentMa

/-- The unpack call for the message's type succeeds on `buf`, and fills what it is given with the
fields of the message. -/
def BodyFrom (buf : Slice UInt8) : Message → Prop
  | accel seq xMg yMg zMg => ∀ o, skPayloadUnpack buf o =
      .ok (0, { ver := assign o.ver 1, type := assign o.type 1, seq := assign o.seq seq,
                xMg := assign o.xMg xMg, yMg := assign o.yMg yMg, zMg := assign o.zMg zMg })
  | temp _ tempCentiC => ∀ p, skUnpackTemp buf p = .ok (0, assign p tempCentiC)
  | current _ currentMa => ∀ p, skUnpackCurrent buf p = .ok (0, assign p currentMa)

/-- A receiver reads the message out of `buf`: `sk_envelope_unpack` gives version 1, the type and
the sequence number, and the unpack call for that type the rest. -/
def ReadFrom (m : Message) (buf : Slice UInt8) : Prop :=
  (∀ o, skEnvelopeUnpack buf o =
    .ok (0, { ver := assign o.ver 1, type := assign o.type m.type, seq := assign o.seq m.seq })) ∧
  m.BodyFrom buf

/-- The payload of a message. -/
def bytes : Message → List UInt8
  | accel seq xMg yMg zMg => accelBytes seq xMg yMg zMg
  | temp seq tempCentiC => envelopeBytes skTypeTemp seq ++ le16Bytes tempCentiC.toUInt16
  | current seq currentMa => envelopeBytes skTypeCurrent seq ++ le32Bytes currentMa.toUInt32

@[simp] theorem length_bytes (m : Message) : m.bytes.length = m.len := by
  cases m <;> rfl

/-! ### Packing -/

theorem pack_mem (m : Message) {cs : List UInt8} (h : m.len ≤ cs.length) :
    m.pack (.mem cs) = .ok ((m.len : Nat), .mem (overlay m.bytes cs)) := by
  have hn : ∀ k, k ≤ m.len → ¬ ((Slice.mem cs).isNull = true ∨ (Slice.mem cs).size < k) := by
    intro k hk hc
    rcases hc with hc | hc
    · cases hc
    · rw [Slice.size_mem] at hc
      omega
  cases m with
  | accel seq xMg yMg zMg => exact skPayloadPack_mem h seq xMg yMg zMg
  | temp seq tempCentiC =>
      have h6 : 6 ≤ cs.length := h
      have e₄ : 4 = (envelopeBytes skTypeTemp seq).length := rfl
      have e₅ : 5 = (envelopeBytes skTypeTemp seq ++
          [(tempCentiC.toUInt16 &&& 0xFF).toUInt8]).length := rfl
      rw [pack, skPackTemp, if_neg (hn skPayloadMin (Nat.le_refl 6)),
        putEnvelope_mem _ _ (by omega), ok_bind]
      dsimp only
      rw [Slice.write_overlay_at _ e₄ (by omega), ok_bind,
        Slice.write_overlay_at _ e₅ (by omega)]
      rfl
  | current seq currentMa =>
      have h8 : 8 ≤ cs.length := h
      have e₄ : 4 = (envelopeBytes skTypeCurrent seq).length := rfl
      rw [pack, skPackCurrent, if_neg (hn 8 (Nat.le_refl 8)), putEnvelope_mem _ _ (by omega),
        ok_bind, putLe32_overlay _ e₄ (by omega)]
      rfl

/-- Into too small a buffer, or into none, nothing is written. -/
theorem pack_short (m : Message) {buf : Slice UInt8} (h : buf.isNull ∨ buf.size < m.len) :
    m.pack buf = .ok (-1, buf) := by
  cases m <;> exact if_pos h

/-! ### Unpacking -/

theorem skEnvelopeUnpack_append (type : UInt8) (seq : UInt16) (rest : List UInt8)
    (o : EnvelopeOut) :
    skEnvelopeUnpack (.mem (envelopeBytes type seq ++ rest)) o =
      .ok (0, { ver := assign o.ver skVer, type := assign o.type type,
                seq := assign o.seq seq }) := by
  have hl : ¬ ((Slice.mem (envelopeBytes type seq ++ rest)).isNull = true ∨
      (Slice.mem (envelopeBytes type seq ++ rest)).size < skEnvelopeLen) := by
    simp [skEnvelopeLen, envelopeBytes, le16Bytes]
  have hseq : getLe16 (.mem (envelopeBytes type seq ++ rest)) 2 = .ok seq :=
    @getLe16_bytes [skVer, type] rest seq
  rw [skEnvelopeUnpack, if_neg hl, getEnvelope, hseq]
  rfl

theorem bytes_eq (m : Message) : ∃ fields, m.bytes = envelopeBytes m.type m.seq ++ fields := by
  cases m with
  | accel seq xMg yMg zMg =>
      exact ⟨_, (List.append_assoc _ _ _).trans (List.append_assoc _ _ _)⟩
  | temp seq tempCentiC => exact ⟨_, rfl⟩
  | current seq currentMa => exact ⟨_, rfl⟩

/-- A message is read back from its payload, in a buffer of its size or longer. -/
theorem readFrom_append (m : Message) (rest : List UInt8) :
    m.ReadFrom (.mem (m.bytes ++ rest)) := by
  constructor
  · intro o
    obtain ⟨fields, h⟩ := m.bytes_eq
    rw [h, List.append_assoc]
    exact skEnvelopeUnpack_append _ _ _ o
  · cases m with
    | accel seq xMg yMg zMg => exact skPayloadUnpack_append seq xMg yMg zMg rest
    | temp seq tempCentiC =>
        intro p
        have hl : ¬ ((Slice.mem ((temp seq tempCentiC).bytes ++ rest)).isNull = true ∨
            (Slice.mem ((temp seq tempCentiC).bytes ++ rest)).size < 6) := by
          simp [len]
        have ht := @getLe16_bytes (envelopeBytes skTypeTemp seq) rest tempCentiC.toUInt16
        have hat : getLe16 (.mem ((temp seq tempCentiC).bytes ++ rest)) 4 =
            .ok tempCentiC.toUInt16 := ht
        rw [skUnpackTemp, if_neg hl, hat]
        rfl
    | current seq currentMa =>
        intro p
        have hl : ¬ ((Slice.mem ((current seq currentMa).bytes ++ rest)).isNull = true ∨
            (Slice.mem ((current seq currentMa).bytes ++ rest)).size < 8) := by
          simp [len]
        have hc := @getLe32_bytes (envelopeBytes skTypeCurrent seq) rest currentMa.toUInt32
        have hat : getLe32 (.mem ((current seq currentMa).bytes ++ rest)) 4 =
            .ok currentMa.toUInt32 := hc
        rw [skUnpackCurrent, if_neg hl, hat]
        rfl

/-- What a buffer reads as is one message. -/
theorem ReadFrom.unique {m₁ m₂ : Message} {buf : Slice UInt8} (h₁ : m₁.ReadFrom buf)
    (h₂ : m₂.ReadFrom buf) : m₁ = m₂ := by
  obtain ⟨e₁, b₁⟩ := h₁
  obtain ⟨e₂, b₂⟩ := h₂
  have he := (e₁ ⟨some 0, some 0, some 0⟩).symm.trans (e₂ ⟨some 0, some 0, some 0⟩)
  simp only [Except.ok.injEq, Prod.mk.injEq, EnvelopeOut.mk.injEq, assign, Option.map_some,
    Option.some.injEq, true_and] at he
  obtain ⟨htype, hseq⟩ := he
  cases m₁ with
  | accel seq xMg yMg zMg =>
      cases m₂ with
      | accel seq' xMg' yMg' zMg' =>
          have hb := (b₁ ⟨⟨none, none, none⟩, some 0, some 0, some 0⟩).symm.trans
            (b₂ ⟨⟨none, none, none⟩, some 0, some 0, some 0⟩)
          simp [assign] at hb
          obtain ⟨rfl, rfl, rfl⟩ := hb
          cases hseq
          rfl
      | temp seq' tempCentiC' => simp [type] at htype
      | current seq' currentMa' => simp [type] at htype
  | temp seq tempCentiC =>
      cases m₂ with
      | accel seq' xMg' yMg' zMg' => simp [type] at htype
      | temp seq' tempCentiC' =>
          have hb := (b₁ (some 0)).symm.trans (b₂ (some 0))
          simp [assign] at hb
          cases hb
          cases hseq
          rfl
      | current seq' currentMa' => simp [type] at htype
  | current seq currentMa =>
      cases m₂ with
      | accel seq' xMg' yMg' zMg' => simp [type] at htype
      | temp seq' tempCentiC' => simp [type] at htype
      | current seq' currentMa' =>
          have hb := (b₁ (some 0)).symm.trans (b₂ (some 0))
          simp [assign] at hb
          cases hb
          cases hseq
          rfl

theorem bytes_injective : Function.Injective bytes := by
  intro m₁ m₂ h
  have h₁ := m₁.readFrom_append []
  rw [h] at h₁
  exact h₁.unique (m₂.readFrom_append [])

end Message

/-! ### Well-formed payloads -/

/-- A payload a sender may have packed: version 1, and the size of the type its tag names. -/
def WellFormed (bs : List UInt8) : Prop :=
  bs[0]? = some 1 ∧ (bs[1]? = some 1 ∧ bs.length = 16 ∨ bs[1]? = some 2 ∧ bs.length = 6 ∨
    bs[1]? = some 3 ∧ bs.length = 8)

/-- A well-formed buffer starts with an envelope. -/
theorem exists_envelopeBytes {bs : List UInt8} {type : UInt8} {k : Nat} (h₀ : bs[0]? = some 1)
    (h₁ : bs[1]? = some type) (hl : bs.length = 4 + k) :
    ∃ seq rest, bs = envelopeBytes type seq ++ rest ∧ rest.length = k := by
  match bs with
  | b₀ :: b₁ :: b₂ :: b₃ :: rest =>
      cases h₀
      cases h₁
      refine ⟨b₂.toUInt16 ||| (b₃.toUInt16 <<< 8), rest, ?_, by simp at hl; omega⟩
      rw [envelopeBytes, le16Bytes_join]
      rfl
  | [] | [_] | [_, _] | [_, _, _] => simp at hl; omega

theorem exists_le16Bytes {bs : List UInt8} {k : Nat} (hl : bs.length = 2 + k) :
    ∃ t : Int16, ∃ rest, bs = le16Bytes t.toUInt16 ++ rest ∧ rest.length = k := by
  match bs with
  | b₀ :: b₁ :: rest =>
      refine ⟨(b₀.toUInt16 ||| (b₁.toUInt16 <<< 8)).toInt16, rest, ?_, by simp at hl; omega⟩
      rw [UInt16.toUInt16_toInt16, le16Bytes_join]
      rfl
  | [] | [_] => simp at hl; omega

theorem exists_le32Bytes {bs : List UInt8} {k : Nat} (hl : bs.length = 4 + k) :
    ∃ v : Int32, ∃ rest, bs = le32Bytes v.toUInt32 ++ rest ∧ rest.length = k := by
  match bs with
  | b₀ :: b₁ :: b₂ :: b₃ :: rest =>
      refine ⟨(b₀.toUInt32 ||| (b₁.toUInt32 <<< 8) ||| (b₂.toUInt32 <<< 16) |||
        (b₃.toUInt32 <<< 24)).toInt32, rest, ?_, by simp at hl; omega⟩
      rw [UInt32.toUInt32_toInt32, le32Bytes_join]
      rfl
  | [] | [_] | [_, _] | [_, _, _] => simp at hl; omega

/-- **The well-formed payloads are the payloads of messages.** -/
theorem wellFormed_iff {bs : List UInt8} : WellFormed bs ↔ ∃ m : Message, m.bytes = bs := by
  constructor
  · rintro ⟨h₀, ⟨h₁, hl⟩ | ⟨h₁, hl⟩ | ⟨h₁, hl⟩⟩
    · obtain ⟨seq, r₁, rfl, hl₁⟩ := exists_envelopeBytes (k := 12) h₀ h₁ hl
      obtain ⟨x, r₂, rfl, hl₂⟩ := exists_le32Bytes (k := 8) hl₁
      obtain ⟨y, r₃, rfl, hl₃⟩ := exists_le32Bytes (k := 4) hl₂
      obtain ⟨z, r₄, rfl, hl₄⟩ := exists_le32Bytes (k := 0) hl₃
      obtain rfl := List.length_eq_zero_iff.mp hl₄
      exact ⟨.accel seq x y z, rfl⟩
    · obtain ⟨seq, r₁, rfl, hl₁⟩ := exists_envelopeBytes (k := 2) h₀ h₁ hl
      obtain ⟨t, r₂, rfl, hl₂⟩ := exists_le16Bytes (k := 0) hl₁
      obtain rfl := List.length_eq_zero_iff.mp hl₂
      exact ⟨.temp seq t, rfl⟩
    · obtain ⟨seq, r₁, rfl, hl₁⟩ := exists_envelopeBytes (k := 4) h₀ h₁ hl
      obtain ⟨c, r₂, rfl, hl₂⟩ := exists_le32Bytes (k := 0) hl₁
      obtain rfl := List.length_eq_zero_iff.mp hl₂
      exact ⟨.current seq c, rfl⟩
  · rintro ⟨m, rfl⟩
    cases m with
    | accel seq xMg yMg zMg => exact ⟨rfl, .inl ⟨rfl, rfl⟩⟩
    | temp seq tempCentiC => exact ⟨rfl, .inr (.inl ⟨rfl, rfl⟩)⟩
    | current seq currentMa => exact ⟨rfl, .inr (.inr ⟨rfl, rfl⟩)⟩

/-! ### The envelope -/

theorem getLe32_ok {bs : List UInt8} {off : Nat} (h : off + 4 ≤ bs.length) :
    ∃ u, getLe32 (.mem bs) off = .ok u := by
  rw [getLe32, Slice.read_mem (by omega), Slice.read_mem (by omega), Slice.read_mem (by omega),
    Slice.read_mem (by omega)]
  exact ⟨_, rfl⟩

theorem getEnvelope_ok {bs : List UInt8} (h : 4 ≤ bs.length) (o : EnvelopeOut) :
    ∃ env, getEnvelope (.mem bs) o = .ok env := by
  rw [getEnvelope, getLe16, Slice.read_mem (by omega), Slice.read_mem (by omega),
    Slice.read_mem (by omega), Slice.read_mem (by omega)]
  exact ⟨_, rfl⟩

/-- On a buffer long enough for both, the two readers of the envelope agree. -/
theorem skEnvelopeUnpack_of_payload {bs : List UInt8} (h : 16 ≤ bs.length) (o : AccelOut) :
    ∃ o', skPayloadUnpack (.mem bs) o = .ok (0, o') ∧
      skEnvelopeUnpack (.mem bs) o.toEnvelopeOut = .ok (0, o'.toEnvelopeOut) := by
  have hl : ¬ ((Slice.mem bs).isNull = true ∨ (Slice.mem bs).size < skPayloadLen) := by
    simpa [skPayloadLen, skPayloadMax] using h
  have hl' : ¬ ((Slice.mem bs).isNull = true ∨ (Slice.mem bs).size < skEnvelopeLen) := by
    simp [skEnvelopeLen]
    omega
  obtain ⟨env, henv⟩ := getEnvelope_ok (Nat.le_trans (by decide) h) o.toEnvelopeOut
  obtain ⟨x, hx⟩ := @getLe32_ok bs 4 (by omega)
  obtain ⟨y, hy⟩ := @getLe32_ok bs 8 (by omega)
  obtain ⟨z, hz⟩ := @getLe32_ok bs 12 (by omega)
  refine ⟨⟨env, assign o.xMg x.toInt32, assign o.yMg y.toInt32, assign o.zMg z.toInt32⟩, ?_, ?_⟩
  · rw [skPayloadUnpack, if_neg hl, henv, hx, hy, hz]
    rfl
  · rw [skEnvelopeUnpack, if_neg hl', henv]
    rfl

/-! ### The codec -/

/-- **The codec is a bijection.**  A message that fits is packed into its size many bytes, and the
unpack calls give it back; a well-formed payload is what packing its message gives; no payload is
shared by two messages; the two readers of the envelope agree; and what does not fit is refused
with nothing written. -/
theorem message_codec :
    (∀ (m : Message) (cs : List UInt8), m.len ≤ cs.length →
      m.pack (.mem cs) = .ok ((m.len : Nat), .mem (overlay m.bytes cs)) ∧
        m.bytes.length = m.len ∧ m.ReadFrom (.mem m.bytes) ∧
        m.ReadFrom (.mem (overlay m.bytes cs))) ∧
    (∀ bs, WellFormed bs → ∃ m : Message, m.ReadFrom (.mem bs) ∧
      ∀ cs : List UInt8, bs.length ≤ cs.length →
        m.pack (.mem cs) = .ok ((bs.length : Nat), .mem (overlay bs cs))) ∧
    (∀ m₁ m₂ : Message, m₁.bytes = m₂.bytes → m₁ = m₂) ∧
    (∀ (bs : List UInt8) (o : AccelOut), 16 ≤ bs.length →
      ∃ o', skPayloadUnpack (.mem bs) o = .ok (0, o') ∧
        skEnvelopeUnpack (.mem bs) o.toEnvelopeOut = .ok (0, o'.toEnvelopeOut)) ∧
    ∀ (m : Message) (buf : Slice UInt8), buf.size < m.len → m.pack buf = .ok (-1, buf) := by
  refine ⟨?_, ?_, ?_, ?_, ?_⟩
  · intro m cs h
    have hown := m.readFrom_append []
    rw [List.append_nil] at hown
    exact ⟨m.pack_mem h, m.length_bytes, hown, m.readFrom_append _⟩
  · intro bs h
    obtain ⟨m, rfl⟩ := wellFormed_iff.mp h
    have hown := m.readFrom_append []
    rw [List.append_nil] at hown
    refine ⟨m, hown, ?_⟩
    intro cs hcs
    rw [m.length_bytes] at hcs ⊢
    exact m.pack_mem hcs
  · intro m₁ m₂ h
    exact Message.bytes_injective h
  · intro bs o h
    exact skEnvelopeUnpack_of_payload h o
  · intro m buf h
    exact m.pack_short (.inr h)

end Sharak

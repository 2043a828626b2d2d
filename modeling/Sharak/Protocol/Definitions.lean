import Mathlib.Logic.Function.Iterate
import Sharak.Support.Memory

/-!
# Protocol — Definitions

`protocol.c`, function by function: the CRC, the payload codecs, the frame encoder and the
incremental decoder.  An `(uint8_t *, size_t)` argument pair is a `Slice UInt8`, a pointer to a
single object an `Option`, C's `int` an `Int`; every access to an array is checked, so a result
`.ok _` means that no index left its object.
-/

namespace Sharak
open Memory

/-! ### Sizes and constants -/

def skEnvelopeLen : Nat := 4
def skPayloadMax : Nat := 16
def skPayloadMin : Nat := 6
def skPayloadLen : Nat := skPayloadMax
def skCrcLen : Nat := 2
def skFrameInner : Nat := skPayloadMax + skCrcLen
def skFrameMax : Nat := 2 * skFrameInner + 2

def skFlag : UInt8 := 0x7E
def skEsc : UInt8 := 0x7D
def skEscXor : UInt8 := 0x20

def skVer : UInt8 := 0x01
def skTypeAccel : UInt8 := 0x01
def skTypeTemp : UInt8 := 0x02
def skTypeCurrent : UInt8 := 0x03

def skDecMore : Int := 0
def skDecErrLen : Int := -1
def skDecErrCrc : Int := -2
def skDecErrOflow : Int := -3

/-! ### CRC-16/CCITT-FALSE -/

/-- One turn of the bit loop. -/
def crcBit (crc : UInt16) : UInt16 :=
  if crc &&& 0x8000 ≠ 0 then (crc <<< 1) ^^^ 0x1021 else crc <<< 1

/-- One turn of the byte loop: the byte into the high half, then eight bits. -/
def crcByte (crc : UInt16) (b : UInt8) : UInt16 :=
  crcBit^[8] (crc ^^^ (b.toUInt16 <<< 8))

def crc16CcittFalse : Slice UInt8 → UInt16
  | .null _ => 0xFFFF
  | .mem data => data.foldl crcByte 0xFFFF

/-! ### Payload pack and unpack -/

/-- `buf[off] … buf[off+3]`, the bytes of `u` from the lowest. -/
def putLe32 (buf : Slice UInt8) (off : Nat) (u : UInt32) : Checked (Slice UInt8) := do
  let buf ← buf.write off (u &&& 0xFF).toUInt8
  let buf ← buf.write (off + 1) ((u >>> 8) &&& 0xFF).toUInt8
  let buf ← buf.write (off + 2) ((u >>> 16) &&& 0xFF).toUInt8
  buf.write (off + 3) ((u >>> 24) &&& 0xFF).toUInt8

/-- `buf[off] | buf[off+1] << 8 | buf[off+2] << 16 | buf[off+3] << 24`. -/
def getLe32 (buf : Slice UInt8) (off : Nat) : Checked UInt32 := do
  let b₀ ← buf.read off
  let b₁ ← buf.read (off + 1)
  let b₂ ← buf.read (off + 2)
  let b₃ ← buf.read (off + 3)
  pure (b₀.toUInt32 ||| (b₁.toUInt32 <<< 8) ||| (b₂.toUInt32 <<< 16) ||| (b₃.toUInt32 <<< 24))

/-- `buf[off] | buf[off+1] << 8`. -/
def getLe16 (buf : Slice UInt8) (off : Nat) : Checked UInt16 := do
  let b₀ ← buf.read off
  let b₁ ← buf.read (off + 1)
  pure (b₀.toUInt16 ||| (b₁.toUInt16 <<< 8))

/-- The first four bytes of every message. -/
def putEnvelope (buf : Slice UInt8) (type : UInt8) (seq : UInt16) : Checked (Slice UInt8) := do
  let buf ← buf.write 0 skVer
  let buf ← buf.write 1 type
  let buf ← buf.write 2 (seq &&& 0xFF).toUInt8
  buf.write 3 ((seq >>> 8) &&& 0xFF).toUInt8

def skPayloadPack (buf : Slice UInt8) (seq : UInt16) (xMg yMg zMg : Int32) :
    Checked (Int × Slice UInt8) :=
  if buf.isNull ∨ buf.size < skPayloadLen then pure (-1, buf)
  else do
    let buf ← putEnvelope buf skTypeAccel seq
    let buf ← putLe32 buf 4 xMg.toUInt32
    let buf ← putLe32 buf 8 yMg.toUInt32
    let buf ← putLe32 buf 12 zMg.toUInt32
    pure (skPayloadLen, buf)

def skPackTemp (buf : Slice UInt8) (seq : UInt16) (tempCentiC : Int16) :
    Checked (Int × Slice UInt8) :=
  if buf.isNull ∨ buf.size < skPayloadMin then pure (-1, buf)
  else do
    let buf ← putEnvelope buf skTypeTemp seq
    let ut := tempCentiC.toUInt16
    let buf ← buf.write 4 (ut &&& 0xFF).toUInt8
    let buf ← buf.write 5 ((ut >>> 8) &&& 0xFF).toUInt8
    pure (6, buf)

def skPackCurrent (buf : Slice UInt8) (seq : UInt16) (currentMa : Int32) :
    Checked (Int × Slice UInt8) :=
  if buf.isNull ∨ buf.size < 8 then pure (-1, buf)
  else do
    let buf ← putEnvelope buf skTypeCurrent seq
    let buf ← putLe32 buf 4 currentMa.toUInt32
    pure (8, buf)

/-- `if (p != NULL) *p = a;` on an out-pointer. -/
def assign {α : Type} (p : Option α) (a : α) : Option α := p.map fun _ => a

/-- The objects behind the out-pointers `ver`, `type` and `seq`; `none` is `NULL`. -/
structure EnvelopeOut where
  ver : Option UInt8
  type : Option UInt8
  seq : Option UInt16
deriving DecidableEq, Repr

/-- The envelope's out-pointers and the three of the accelerometer body. -/
structure AccelOut extends EnvelopeOut where
  xMg : Option Int32
  yMg : Option Int32
  zMg : Option Int32
deriving DecidableEq, Repr

/-- The three `if`s that fill `ver`, `type` and `seq`. -/
def getEnvelope (buf : Slice UInt8) (o : EnvelopeOut) : Checked EnvelopeOut := do
  pure { ver := assign o.ver (← buf.read 0), type := assign o.type (← buf.read 1),
         seq := assign o.seq (← getLe16 buf 2) }

def skPayloadUnpack (buf : Slice UInt8) (o : AccelOut) : Checked (Int × AccelOut) :=
  if buf.isNull ∨ buf.size < skPayloadLen then pure (-1, o)
  else do
    let env ← getEnvelope buf o.toEnvelopeOut
    let x ← getLe32 buf 4
    let y ← getLe32 buf 8
    let z ← getLe32 buf 12
    pure (0, { toEnvelopeOut := env, xMg := assign o.xMg x.toInt32,
               yMg := assign o.yMg y.toInt32, zMg := assign o.zMg z.toInt32 })

def skEnvelopeUnpack (buf : Slice UInt8) (o : EnvelopeOut) : Checked (Int × EnvelopeOut) :=
  if buf.isNull ∨ buf.size < skEnvelopeLen then pure (-1, o)
  else do pure (0, ← getEnvelope buf o)

def skUnpackTemp (buf : Slice UInt8) (tempCentiC : Option Int16) : Checked (Int × Option Int16) :=
  if buf.isNull ∨ buf.size < 6 then pure (-1, tempCentiC)
  else do
    let u ← getLe16 buf 4
    pure (0, assign tempCentiC u.toInt16)

def skUnpackCurrent (buf : Slice UInt8) (currentMa : Option Int32) :
    Checked (Int × Option Int32) :=
  if buf.isNull ∨ buf.size < 8 then pure (-1, currentMa)
  else do
    let u ← getLe32 buf 4
    pure (0, assign currentMa u.toInt32)

/-! ### Frame encode -/

/-- The stuffing loop from `i` on, with `todo` bytes of `inner` left and `n` bytes of `out`
written, and the closing FLAG behind it. -/
def stuffLoop (inner : Vector UInt8 skFrameInner) :
    (todo i n : Nat) → Slice UInt8 → Checked (Int × Slice UInt8)
  | 0, _, n, out =>
      if n + 1 > out.size then pure (-1, out)
      else do
        let out ← out.write n skFlag
        pure (((n + 1 : Nat) : Int), out)
  | todo + 1, i, n, out => do
      let b ← load inner i
      if b = skFlag ∨ b = skEsc then
        if n + 2 > out.size then pure (-1, out)
        else do
          let out ← out.write n skEsc
          let out ← out.write (n + 1) (b ^^^ skEscXor)
          stuffLoop inner todo (i + 1) (n + 2) out
      else
        if n + 1 > out.size then pure (-1, out)
        else do
          let out ← out.write n b
          stuffLoop inner todo (i + 1) (n + 1) out

def skFrameEncode (payload out : Slice UInt8) : Checked (Int × Slice UInt8) :=
  if payload.isNull ∨ out.isNull ∨ payload.size < skPayloadMin ∨ payload.size > skPayloadMax then
    pure (-1, out)
  else do
    let plen := payload.size
    -- `inner` is indeterminate at entry; the loops below read only what they wrote
    let inner ← upto plen (fun i inner => do store inner i (← payload.read i))
      (Vector.replicate skFrameInner 0)
    let crc := crc16CcittFalse payload
    let inner ← store inner plen ((crc >>> 8) &&& 0xFF).toUInt8
    let inner ← store inner (plen + 1) (crc &&& 0xFF).toUInt8
    if out.size < 1 then pure (-1, out)
    else do
      let out ← out.write 0 skFlag
      stuffLoop inner (plen + skCrcLen) 0 1 out

/-! ### Frame decode -/

/-- `sk_decoder_t`. -/
structure SkDecoder where
  inFrame : UInt8
  esc : UInt8
  overflow : UInt8
  count : UInt16
  buf : Vector UInt8 skFrameInner
deriving DecidableEq, Repr

def skDecoderInit (st : Option SkDecoder) : Option SkDecoder :=
  st.map fun st => { st with inFrame := 0, esc := 0, overflow := 0, count := 0 }

/-- Validate a just-closed frame and, if good, deliver the payload. -/
def decoderFinish (st : SkDecoder) (out : Slice UInt8) : Checked (Int × Slice UInt8) :=
  if st.overflow ≠ 0 ∨ st.count.toNat > skFrameInner then pure (skDecErrOflow, out)
  else if st.count.toNat < skPayloadMin + skCrcLen then pure (skDecErrLen, out)
  else do
    let payloadLen := st.count.toNat - skCrcLen
    let crc := crc16CcittFalse (← pass st.buf payloadLen)
    let recv := ((← load st.buf payloadLen).toUInt16 <<< 8) |||
      (← load st.buf (payloadLen + 1)).toUInt16
    if crc ≠ recv then pure (skDecErrCrc, out)
    else if out.isNull ∨ out.size < payloadLen then pure (skDecErrLen, out)
    else do
      let out ← upto payloadLen (fun i out => do out.write i (← load st.buf i)) out
      pure ((payloadLen : Int), out)

/-- `sk_decoder_feed`, past its test that `st` is not `NULL`. -/
def SkDecoder.feed (st : SkDecoder) (byte : UInt8) (out : Slice UInt8) :
    Checked (Int × SkDecoder × Slice UInt8) :=
  if byte = skFlag then do
    let (result, out) ←
      if st.inFrame ≠ 0 ∧ st.count > 0 then decoderFinish st out else pure (skDecMore, out)
    pure (result, { st with inFrame := 1, esc := 0, overflow := 0, count := 0 }, out)
  else if st.inFrame = 0 then pure (skDecMore, st, out)
  else if byte = skEsc then pure (skDecMore, { st with esc := 1 }, out)
  else do
    let (b, esc) := if st.esc ≠ 0 then (byte ^^^ skEscXor, 0) else (byte, st.esc)
    if st.count.toNat < skFrameInner then
      pure (skDecMore, { st with esc, buf := ← store st.buf st.count.toNat b,
                                 count := st.count + 1 }, out)
    else pure (skDecMore, { st with esc, overflow := 1 }, out)

def skDecoderFeed (st : Option SkDecoder) (byte : UInt8) (out : Slice UInt8) :
    Checked (Int × Option SkDecoder × Slice UInt8) :=
  match st with
  | none => pure (skDecErrLen, none, out)
  | some st => do
      let (result, st, out) ← st.feed byte out
      pure (result, some st, out)

/-! ### Runs of the decoder -/

/-- What a caller sees of one call: the result, and its buffer afterwards. -/
structure Call where
  ret : Int
  out : Slice UInt8
deriving DecidableEq, Repr

/-- The payload a call with a positive result delivers. -/
def Call.payload (c : Call) : List UInt8 := c.out.cells.take c.ret.toNat

/-- A run: the calls in order, and the decoder and buffer they leave. -/
structure Fed where
  calls : List Call
  st : Option SkDecoder
  out : Slice UInt8
deriving DecidableEq, Repr

/-- A stream fed byte by byte, one buffer throughout. -/
def feedAll (st : Option SkDecoder) (out : Slice UInt8) : List UInt8 → Checked Fed
  | [] => pure ⟨[], st, out⟩
  | b :: bs => do
      let (ret, st, out) ← skDecoderFeed st b out
      let r ← feedAll st out bs
      pure { r with calls := ⟨ret, out⟩ :: r.calls }

end Sharak

import Sharak.Protocol.Crc
import Sharak.Protocol.Streams

/-!
# Protocol — one flipped bit on the wire

A flip of one wire bit keeps the decoder from delivering anything unless it makes or breaks a FLAG
or an ESC.  `Slips` lists what is left: the frame is split at a new FLAG, a byte is swallowed by a
new ESC, or an ESC turns into a byte of the body, and what the decoder then sees ends in its own
CRC all the same.  `flip_delivers_iff` shows that these are all, and exactly, the flips behind
which something is delivered.  Some of them leave a bad escape behind, and deliver only because the
decoder does not reject one (`strict_iff`); the constructors of `Slips` say which.
-/

namespace Sharak
open Memory

/-! ### What a stream delivers -/

/-- Some segment of the stream between two FLAGs is a valid body. -/
def Delivers (bs : List UInt8) : Prop := ∃ i s, Between bs i s ∧ ValidBody (wire.unstuff s)

/-- A fresh decoder with a roomy buffer delivers something exactly if the stream has a segment
that is a valid body. -/
theorem fresh_delivers_iff (st : SkDecoder) {out : Slice UInt8} (ho : Roomy out)
    (bs : List UInt8) :
    ∃ r, feedAll (skDecoderInit (some st)) out bs = .ok r ∧
      ((∃ c ∈ r.calls, 0 < c.ret) ↔ Delivers bs) := by
  obtain ⟨cs, st', out', hr, -⟩ := feedAll_any
    { st with inFrame := 0, esc := 0, overflow := 0, count := 0 } out bs
  refine ⟨_, hr, ?_, ?_⟩
  · rintro ⟨c, hc, hp⟩
    obtain ⟨i, hi⟩ := List.mem_iff_getElem?.mp hc
    obtain ⟨s, hb⟩ := fresh_result_between hr hi (by omega)
    obtain ⟨c', hc', hret, -⟩ := call_between hr hb
    obtain rfl := Option.some.inj (hi.symm.trans hc')
    exact ⟨i, s, hb, ho.judge_pos_iff.mp (hret ▸ hp)⟩
  · rintro ⟨i, s, hb, hv⟩
    obtain ⟨c, hc, hret, -⟩ := call_between hr hb
    exact ⟨c, List.mem_of_getElem? hc, hret ▸ ho.judge_pos_iff.mpr hv⟩

/-- The first FLAG of a list splits it in one way. -/
theorem split_at_flag {s t v w : List UInt8} (hs : skFlag ∉ s) (ht : skFlag ∉ t)
    (h : s ++ skFlag :: v = t ++ skFlag :: w) : s = t ∧ v = w := by
  induction s generalizing t with
  | nil =>
      cases t with
      | nil => exact ⟨rfl, (List.cons.inj h).2⟩
      | cons b t => exact absurd (List.cons.inj h).1 (fun e => ht (e ▸ List.mem_cons_self ..))
  | cons b s ih =>
      rw [List.mem_cons, not_or] at hs
      cases t with
      | nil => exact absurd (List.cons.inj h).1.symm hs.1
      | cons c t =>
          rw [List.mem_cons, not_or] at ht
          obtain ⟨rfl, h'⟩ := List.cons.inj h
          obtain ⟨rfl, rfl⟩ := ih hs.2 ht.2 h'
          exact ⟨rfl, rfl⟩

/-- Nothing is delivered before a second FLAG. -/
theorem not_delivers_flag {s : List UInt8} (hs : skFlag ∉ s) : ¬ Delivers (skFlag :: s) := by
  rintro ⟨i, t, ⟨u, v, h, -, -⟩, -⟩
  have hmem : skFlag ∈ s := by
    cases u with
    | nil => exact (List.cons.inj h).2 ▸ by simp
    | cons b u => exact (List.cons.inj h).2 ▸ by simp
  exact hs hmem

/-- The first segment behind a FLAG, and the rest of the stream. -/
theorem delivers_cons {s v : List UInt8} (hs : skFlag ∉ s) :
    Delivers (skFlag :: (s ++ skFlag :: v)) ↔
      ValidBody (wire.unstuff s) ∨ Delivers (skFlag :: v) := by
  constructor
  · rintro ⟨i, t, ⟨u, w, h, ht, -⟩, hv⟩
    cases u with
    | nil =>
        have h' : s ++ skFlag :: v = t ++ skFlag :: w := by simpa using h
        obtain ⟨rfl, -⟩ := split_at_flag hs ht h'
        exact Or.inl hv
    | cons b u =>
        have h' : s ++ skFlag :: v = u ++ skFlag :: (t ++ skFlag :: w) := by
          simpa using (List.cons.inj h).2
        refine Or.inr ?_
        by_cases hu : skFlag ∈ u
        · obtain ⟨u₁, u₂, rfl, hu₁⟩ := List.eq_append_cons_of_mem hu
          rw [List.append_assoc, List.cons_append] at h'
          obtain ⟨-, rfl⟩ := split_at_flag hs hu₁ h'
          exact ⟨_, t, ⟨skFlag :: u₂, w, by simp, ht, rfl⟩, hv⟩
        · obtain ⟨-, rfl⟩ := split_at_flag hs hu h'
          exact ⟨_, t, ⟨[], w, by simp, ht, rfl⟩, hv⟩
  · rintro (hv | ⟨i, t, ⟨u, w, h, ht, -⟩, hv⟩)
    · exact ⟨_, s, ⟨[], v, by simp, hs, rfl⟩, hv⟩
    · refine ⟨_, t, ⟨skFlag :: (s ++ u), w, ?_, ht, rfl⟩, hv⟩
      rw [h]
      simp

/-- A frame without a FLAG inside. -/
theorem delivers_whole {s : List UInt8} (hs : skFlag ∉ s) :
    Delivers ([skFlag] ++ s ++ [skFlag]) ↔ ValidBody (wire.unstuff s) := by
  rw [show [skFlag] ++ s ++ [skFlag] = skFlag :: (s ++ skFlag :: []) from rfl, delivers_cons hs]
  exact or_iff_left (not_delivers_flag List.not_mem_nil)

/-- A frame with one FLAG inside. -/
theorem delivers_split {s t : List UInt8} (hs : skFlag ∉ s) (ht : skFlag ∉ t) :
    Delivers ([skFlag] ++ (s ++ skFlag :: t) ++ [skFlag]) ↔
      ValidBody (wire.unstuff s) ∨ ValidBody (wire.unstuff t) := by
  rw [show [skFlag] ++ (s ++ skFlag :: t) ++ [skFlag] = skFlag :: (s ++ skFlag :: (t ++ [skFlag]))
    by simp, delivers_cons hs, ← delivers_whole ht]
  rfl

/-! ### The flipped bit -/

/-- The mask of bit `k` of a byte. -/
def bit (k : Fin 8) : UInt8 := 1 <<< (UInt8.ofNat k)

theorem parity_bit : ∀ k : Fin 8, parity [bit k] = 1 := by decide

theorem parity_xor (x y : UInt8) : parity [x ^^^ y] = parity [x] + parity [y] := by
  have h : ∀ b : UInt8, parity [b] = (Cyclic.ofBits (Cyclic.bits b.toBitVec)).eval 1 := by
    intro b
    rw [Cyclic.eval_one_ofBits, parity, bitsOf, words, List.map_singleton, Cyclic.allBits_cons,
      Cyclic.allBits_nil, List.append_nil]
  rw [h, h, h, UInt8.toBitVec_xor, Cyclic.bits_xor, Cyclic.ofBits_xor (by simp),
    Polynomial.eval_add]

theorem parity_special {b : UInt8} (h : wire.Special b) : parity [b] = 0 := by
  rcases h with rfl | rfl <;> decide

theorem parity_mask (b : UInt8) : parity [wire.mask b] = parity [b] + 1 := by
  rw [show wire.mask b = b ^^^ bit 5 from rfl, parity_xor, parity_bit]

theorem parity_flip (b : UInt8) (k : Fin 8) : parity [b ^^^ bit k] = parity [b] + 1 := by
  rw [parity_xor, parity_bit]

/-- A body with one flipped bit is not valid. -/
theorem not_validBody_flip {a c : List UInt8} {x : UInt8} (h : ValidBody (a ++ x :: c))
    (k : Fin 8) : ¬ ValidBody (a ++ (x ^^^ bit k) :: c) := by
  intro hf
  have h₁ := h.parity
  have h₂ := hf.parity
  rw [parity_append, parity_cons, parity_flip] at h₂
  rw [parity_append, parity_cons] at h₁
  have : (1 : ZMod 2) = 0 := by linear_combination h₂ - h₁
  exact absurd this (by decide)

/-- The flips of bit `k` of byte `i` of a frame behind which something is still delivered, with
`a`, `x` and `c` the body bytes before, at and behind the flip. -/
inductive Slips (p : Payload) (k : Fin 8) : Nat → Prop
  /-- A plain byte becomes a FLAG, and the bytes on one side of it are a valid body. -/
  | split {a x c} (hb : body p.bytes = a ++ x :: c) (hx : ¬ wire.Special x)
      (hk : x ^^^ bit k = skFlag) (hv : ValidBody a ∨ ValidBody c) :
      Slips p k ((wire.stuff a).length + 1)
  /-- The same for the second byte of an escape pair.  With `a` valid it is a bad escape that slips
  through: the ESC of the pair stands in front of the new FLAG. -/
  | splitPair {a x c} (hb : body p.bytes = a ++ x :: c) (hx : wire.Special x)
      (hk : wire.mask x ^^^ bit k = skFlag) (hv : ValidBody a ∨ ValidBody c) :
      Slips p k ((wire.stuff a).length + 2)
  /-- A plain byte becomes an ESC, which masks the next byte: a bad escape, unless that is `5E` or
  `5D`. -/
  | swallow {a x y c} (hb : body p.bytes = a ++ x :: y :: c) (hx : ¬ wire.Special x)
      (hk : x ^^^ bit k = skEsc) (hy : ¬ wire.Special y) (hv : ValidBody (a ++ wire.mask y :: c)) :
      Slips p k ((wire.stuff a).length + 1)
  /-- The second byte of an escape pair becomes an ESC, in front of another pair: a bad escape, as
  three ESCs follow one another. -/
  | swallowPair {a x y c} (hb : body p.bytes = a ++ x :: y :: c) (hx : wire.Special x)
      (hk : wire.mask x ^^^ bit k = skEsc) (hy : wire.Special y) (hv : ValidBody (a ++ y :: c)) :
      Slips p k ((wire.stuff a).length + 2)
  /-- The ESC of an escape pair becomes a plain byte, and the second byte stays masked. -/
  | expose {a x c} (hb : body p.bytes = a ++ x :: c) (hx : wire.Special x)
      (hv : ValidBody (a ++ (skEsc ^^^ bit k) :: wire.mask x :: c)) :
      Slips p k ((wire.stuff a).length + 1)

/-- A list with the byte at `i` flipped in bit `k`. -/
def flipAt (l : List UInt8) (i : Nat) (k : Fin 8) : List UInt8 := l.set i (l.getD i 0 ^^^ bit k)

theorem flipAt_append (u v : List UInt8) (b : UInt8) (k : Fin 8) :
    flipAt (u ++ b :: v) u.length k = u ++ (b ^^^ bit k) :: v := by
  simp [flipAt]

/-- The frame with a flipped plain byte. -/
theorem flipAt_plain (p : Payload) {a c : List UInt8} {x : UInt8} (hb : body p.bytes = a ++ x :: c)
    (hx : ¬ wire.Special x) (k : Fin 8) :
    flipAt (skFrame p.bytes) ((wire.stuff a).length + 1) k =
      [skFlag] ++ (wire.stuff a ++ (x ^^^ bit k) :: wire.stuff c) ++ [skFlag] := by
  have h : skFrame p.bytes = (skFlag :: wire.stuff a) ++ x :: (wire.stuff c ++ [skFlag]) := by
    rw [skFrame_eq, frame, hb, wire.stuff_append, wire.stuff_cons, wire.unit_plain hx]
    simp
  rw [h, ← List.length_cons (a := skFlag), flipAt_append]
  simp

/-- The frame with a flipped ESC of an escape pair. -/
theorem flipAt_esc (p : Payload) {a c : List UInt8} {x : UInt8} (hb : body p.bytes = a ++ x :: c)
    (hx : wire.Special x) (k : Fin 8) :
    flipAt (skFrame p.bytes) ((wire.stuff a).length + 1) k =
      [skFlag] ++ (wire.stuff a ++ (skEsc ^^^ bit k) :: wire.mask x :: wire.stuff c) ++
        [skFlag] := by
  have h : skFrame p.bytes =
      (skFlag :: wire.stuff a) ++ skEsc :: (wire.mask x :: (wire.stuff c ++ [skFlag])) := by
    rw [skFrame_eq, frame, hb, wire.stuff_append, wire.stuff_cons, wire.unit_special hx]
    simp [wire]
  rw [h, ← List.length_cons (a := skFlag), flipAt_append]
  simp

/-- The frame with a flipped second byte of an escape pair. -/
theorem flipAt_pair (p : Payload) {a c : List UInt8} {x : UInt8} (hb : body p.bytes = a ++ x :: c)
    (hx : wire.Special x) (k : Fin 8) :
    flipAt (skFrame p.bytes) ((wire.stuff a).length + 2) k =
      [skFlag] ++ ((wire.stuff a ++ [skEsc]) ++ (wire.mask x ^^^ bit k) :: wire.stuff c) ++
        [skFlag] := by
  have h : skFrame p.bytes =
      (skFlag :: (wire.stuff a ++ [skEsc])) ++ wire.mask x :: (wire.stuff c ++ [skFlag]) := by
    rw [skFrame_eq, frame, hb, wire.stuff_append, wire.stuff_cons, wire.unit_special hx]
    simp [wire]
  have hl : (wire.stuff a).length + 2 = (skFlag :: (wire.stuff a ++ [skEsc])).length := by simp
  rw [h, hl, flipAt_append]
  simp

/-! ### What the decoder makes of it -/

/-- A damaged byte other than FLAG leaves one segment. -/
theorem delivers_hit {u v : List UInt8} {y : UInt8} (hu : skFlag ∉ u) (hv : skFlag ∉ v)
    (hy : y ≠ skFlag) :
    Delivers ([skFlag] ++ (u ++ y :: v) ++ [skFlag]) ↔
      ValidBody (wire.unstuff (u ++ y :: v)) := by
  apply delivers_whole
  intro h
  rcases List.mem_append.mp h with h | h
  · exact hu h
  · exact (List.mem_cons.mp h).elim (fun e => hy e.symm) hv

section
variable (a t : List UInt8)

theorem unstuff_esc (t : List UInt8) :
    wire.unstuff (wire.stuff a ++ skEsc :: t) = a ++ wire.unstuffFrom true t := by
  rw [wire.unstuff_stuff_append]
  exact congrArg _ (wire.unstuffFrom_esc false t)

theorem unstuff_other {y : UInt8} (hy : y ≠ skEsc) :
    wire.unstuff (wire.stuff a ++ y :: t) = a ++ y :: wire.unstuff t := by
  rw [wire.unstuff_stuff_append]
  exact congrArg _ (wire.unstuffFrom_other hy false t)

theorem unstuff_esc_esc :
    wire.unstuff ((wire.stuff a ++ [skEsc]) ++ skEsc :: t) = a ++ wire.unstuffFrom true t := by
  rw [List.append_assoc, List.singleton_append, unstuff_esc]
  exact congrArg _ (wire.unstuffFrom_esc true t)

theorem unstuff_esc_other {y : UInt8} (hy : y ≠ skEsc) :
    wire.unstuff ((wire.stuff a ++ [skEsc]) ++ y :: t) = a ++ wire.mask y :: wire.unstuff t := by
  rw [List.append_assoc, List.singleton_append, unstuff_esc]
  exact congrArg _ (wire.unstuffFrom_other hy true t)

end

/-- The parity left when `x` is swallowed and `y` arrives as `z`. -/
theorem parity_swallow {a c : List UInt8} {x y z : UInt8} (h : ValidBody (a ++ x :: y :: c))
    (h' : ValidBody (a ++ z :: c)) : parity [x] + parity [y] = parity [z] := by
  have h₁ := h.parity
  have h₂ := h'.parity
  rw [parity_append, parity_cons, parity_cons y] at h₁
  rw [parity_append, parity_cons] at h₂
  linear_combination h₁ - h₂

theorem flag_not_mem_pair {a : List UInt8} : skFlag ∉ wire.stuff a ++ [skEsc] := by
  simpa using ⟨wire.flag_not_mem_stuff a, by decide⟩

theorem flag_not_mem_mask {x : UInt8} (hx : wire.Special x) (c : List UInt8) :
    skFlag ∉ wire.mask x :: wire.stuff c := by
  rw [List.mem_cons, not_or]
  exact ⟨(wire.mask_ne_flag hx).symm, wire.flag_not_mem_stuff c⟩

/-- A flipped ESC is a plain byte. -/
theorem esc_flip_plain : ∀ k : Fin 8, skEsc ^^^ bit k ≠ skFlag ∧ skEsc ^^^ bit k ≠ skEsc := by
  decide

/-- What is delivered behind a flipped ESC of a pair. -/
theorem delivers_flip_esc (p : Payload) {a c : List UInt8} {x : UInt8}
    (hb : body p.bytes = a ++ x :: c) (hx : wire.Special x) (k : Fin 8) :
    Delivers (flipAt (skFrame p.bytes) ((wire.stuff a).length + 1) k) ↔
      ValidBody (a ++ (skEsc ^^^ bit k) :: wire.mask x :: c) := by
  have hmask : wire.unstuff (wire.mask x :: wire.stuff c) = wire.mask x :: c := by
    show wire.unstuffFrom false _ = _
    rw [wire.unstuffFrom_other (wire.mask_ne_esc hx)]
    exact congrArg _ (wire.unstuff_stuff c)
  rw [flipAt_esc p hb hx, delivers_hit (wire.flag_not_mem_stuff a) (flag_not_mem_mask hx c)
    (esc_flip_plain k).1, unstuff_other _ _ (esc_flip_plain k).2, hmask]

/-- What is delivered behind a flipped plain byte. -/
theorem delivers_flip_plain (p : Payload) {a c : List UInt8} {x : UInt8}
    (hb : body p.bytes = a ++ x :: c) (hx : ¬ wire.Special x) (k : Fin 8) :
    Delivers (flipAt (skFrame p.bytes) ((wire.stuff a).length + 1) k) ↔
      if x ^^^ bit k = skFlag then ValidBody a ∨ ValidBody c
      else if x ^^^ bit k = skEsc then ValidBody (a ++ wire.unstuffFrom true (wire.stuff c))
      else ValidBody (a ++ (x ^^^ bit k) :: c) := by
  rw [flipAt_plain p hb hx]
  split
  · rename_i h
    rw [h, delivers_split (wire.flag_not_mem_stuff a) (wire.flag_not_mem_stuff c),
      wire.unstuff_stuff, wire.unstuff_stuff]
  · rename_i h
    rw [delivers_hit (wire.flag_not_mem_stuff a) (wire.flag_not_mem_stuff c) h]
    split
    · rename_i he
      rw [he, unstuff_esc]
    · rename_i he
      rw [unstuff_other _ _ he, wire.unstuff_stuff]

/-- What is delivered behind a flipped second byte of a pair. -/
theorem delivers_flip_pair (p : Payload) {a c : List UInt8} {x : UInt8}
    (hb : body p.bytes = a ++ x :: c) (hx : wire.Special x) (k : Fin 8) :
    Delivers (flipAt (skFrame p.bytes) ((wire.stuff a).length + 2) k) ↔
      if wire.mask x ^^^ bit k = skFlag then ValidBody a ∨ ValidBody c
      else if wire.mask x ^^^ bit k = skEsc then
        ValidBody (a ++ wire.unstuffFrom true (wire.stuff c))
      else ValidBody (a ++ (x ^^^ bit k) :: c) := by
  rw [flipAt_pair p hb hx]
  split
  · rename_i h
    rw [h, delivers_split flag_not_mem_pair (wire.flag_not_mem_stuff c), unstuff_esc,
      wire.unstuffFrom_nil, List.append_nil, wire.unstuff_stuff]
  · rename_i h
    rw [delivers_hit flag_not_mem_pair (wire.flag_not_mem_stuff c) h]
    split
    · rename_i he
      rw [he, unstuff_esc_esc]
    · rename_i he
      have hm : wire.mask (wire.mask x ^^^ bit k) = x ^^^ bit k := by
        show (x ^^^ skEscXor) ^^^ bit k ^^^ skEscXor = x ^^^ bit k
        rw [UInt8.xor_assoc, UInt8.xor_comm (bit k), ← UInt8.xor_assoc, UInt8.xor_assoc x]
        simp
      rw [unstuff_esc_other _ _ he, hm, wire.unstuff_stuff]

/-! ### The flips that slip through -/

theorem Slips.delivers {p : Payload} {k : Fin 8} {i : Nat} (h : Slips p k i) :
    Delivers (flipAt (skFrame p.bytes) i k) := by
  cases h with
  | split hb hx hk hv =>
      rw [delivers_flip_plain p hb hx, if_pos hk]
      exact hv
  | splitPair hb hx hk hv =>
      rw [delivers_flip_pair p hb hx, if_pos hk]
      exact hv
  | swallow hb hx hk hy hv =>
      rw [delivers_flip_plain p hb hx, hk, if_neg (by decide), if_pos rfl,
        wire.unstuffFrom_true_stuff_cons, if_neg hy]
      exact hv
  | swallowPair hb hx hk hy hv =>
      rw [delivers_flip_pair p hb hx, hk, if_neg (by decide), if_pos rfl,
        wire.unstuffFrom_true_stuff_cons, if_pos hy]
      exact hv
  | expose hb hx hv => exact (delivers_flip_esc p hb hx k).mpr hv

/-- A new ESC at the end of a frame swallows a byte of the CRC, and the rest is not valid. -/
theorem stray_nonempty {a c : List UInt8} {x : UInt8} (h : ValidBody (a ++ x :: c)) (hx : x ≠ 0)
    (hv : ValidBody (a ++ wire.unstuffFrom true (wire.stuff c))) : ∃ y c', c = y :: c' := by
  cases c with
  | nil => exact absurd (h.snoc (by simpa using hv)) hx
  | cons y c' => exact ⟨y, c', rfl⟩

theorem slips_of_plain {p : Payload} {a c : List UInt8} {x : UInt8}
    (hb : body p.bytes = a ++ x :: c) (hx : ¬ wire.Special x) {k : Fin 8}
    (h : Delivers (flipAt (skFrame p.bytes) ((wire.stuff a).length + 1) k)) :
    Slips p k ((wire.stuff a).length + 1) := by
  have hw : ValidBody (a ++ x :: c) := hb ▸ p.validBody
  rw [delivers_flip_plain p hb hx] at h
  split at h
  · exact .split hb hx ‹_› h
  split at h
  · rename_i hk
    have hx0 : x ≠ 0 := by
      rintro rfl
      exact (by decide : ∀ k : Fin 8, (0 : UInt8) ^^^ bit k ≠ skEsc) k hk
    have hpx : parity [x] = 1 := by
      have h1 := parity_flip x k
      rw [hk, show parity [skEsc] = 0 from parity_special wire.esc_special] at h1
      have h2 : (2 : ZMod 2) = 0 := rfl
      linear_combination -h1 - h2
    obtain ⟨y, c', rfl⟩ := stray_nonempty hw hx0 h
    rw [wire.unstuffFrom_true_stuff_cons] at h
    by_cases hy : wire.Special y
    · -- the body would keep its parity without `x`, which is odd
      rw [if_pos hy] at h
      have h1 := parity_swallow hw h
      rw [hpx, add_eq_right] at h1
      exact absurd h1 (by decide)
    · rw [if_neg hy] at h
      exact .swallow hb hx hk hy h
  · exact absurd h (not_validBody_flip hw k)

theorem slips_of_pair {p : Payload} {a c : List UInt8} {x : UInt8}
    (hb : body p.bytes = a ++ x :: c) (hx : wire.Special x) {k : Fin 8}
    (h : Delivers (flipAt (skFrame p.bytes) ((wire.stuff a).length + 2) k)) :
    Slips p k ((wire.stuff a).length + 2) := by
  have hw : ValidBody (a ++ x :: c) := hb ▸ p.validBody
  rw [delivers_flip_pair p hb hx] at h
  split at h
  · exact .splitPair hb hx ‹_› h
  split at h
  · rename_i hk
    have hx0 : x ≠ 0 := by
      rintro rfl
      exact absurd hx (by decide)
    obtain ⟨y, c', rfl⟩ := stray_nonempty hw hx0 h
    rw [wire.unstuffFrom_true_stuff_cons] at h
    by_cases hy : wire.Special y
    · rw [if_pos hy] at h
      exact .swallowPair hb hx hk hy h
    · -- a masked byte changes the parity, a swallowed special one does not
      rw [if_neg hy] at h
      have h1 := parity_swallow hw h
      rw [parity_special hx, parity_mask, zero_add, left_eq_add] at h1
      exact absurd h1 (by decide)
  · exact absurd h (not_validBody_flip hw k)

/-- Inside the frame, something is delivered exactly behind the flips that slip through. -/
theorem delivers_flip_iff (p : Payload) {i : Nat} (h0 : 0 < i)
    (hi : i + 1 < (skFrame p.bytes).length) (k : Fin 8) :
    Delivers (flipAt (skFrame p.bytes) i k) ↔ Slips p k i := by
  refine ⟨?_, Slips.delivers⟩
  intro h
  obtain ⟨j, rfl⟩ : ∃ j, i = j + 1 := ⟨i - 1, by omega⟩
  have hj : j < (wire.stuff (body p.bytes)).length := by
    rw [skFrame_eq, length_frame] at hi
    omega
  obtain ⟨a, x, c, hb, ⟨hx, rfl⟩ | ⟨hx, rfl | rfl⟩⟩ := wire.stuff_locate hj
  · exact slips_of_plain hb hx h
  · exact .expose hb hx ((delivers_flip_esc p hb hx k).mp h)
  · exact slips_of_pair hb hx h

/-- **One flipped bit on the wire.**  A fresh decoder with a roomy buffer returns a positive value
somewhere on a frame with one flipped bit between its FLAGs if and only if the flip slips through:
no flip that keeps every FLAG and every ESC, and makes no new one, is ever behind a delivery. -/
theorem flip_delivers_iff (p : Payload) (st : SkDecoder) {out : List UInt8}
    (ho : skPayloadMax ≤ out.length) {i : Nat} (h0 : 0 < i)
    (hi : i + 1 < (skFrame p.bytes).length) (k : Fin 8) :
    ∃ r, feedAll (skDecoderInit (some st)) (.mem out) (flipAt (skFrame p.bytes) i k) = .ok r ∧
      ((∃ c ∈ r.calls, 0 < c.ret) ↔ Slips p k i) := by
  obtain ⟨r, hr, hd⟩ := fresh_delivers_iff st (.of_mem ho) (flipAt (skFrame p.bytes) i k)
  exact ⟨r, hr, hd.trans (delivers_flip_iff p h0 hi k)⟩

/-- A body of eight bytes at the front of a payload, and `7F` behind it: with bit 0 of that byte
flipped, the frame is split, and something is delivered. -/
theorem flip_delivers_iff_split :
    skPayloadMax ≤ (List.replicate 16 (0 : UInt8)).length ∧
      9 + 1 < (skFrame [1, 2, 0, 0, 0, 0, 0x0F, 0x33, 0x7F]).length ∧
      Slips ⟨[1, 2, 0, 0, 0, 0, 0x0F, 0x33, 0x7F], by decide, by decide⟩ 0 9 ∧
      ∃ r, feedAll (skDecoderInit (some ⟨1, 0, 0, 3, Vector.replicate skFrameInner 0⟩))
          (.mem (List.replicate 16 0))
          (flipAt (skFrame [1, 2, 0, 0, 0, 0, 0x0F, 0x33, 0x7F]) 9 0) = .ok r ∧
        ∃ c ∈ r.calls, 0 < c.ret := by
  have hin : 9 + 1 < (skFrame [1, 2, 0, 0, 0, 0, 0x0F, 0x33, 0x7F]).length := by decide +kernel
  have hvalid : ValidBody [1, 2, 0, 0, 0, 0, 0x0F, 0x33] := ⟨by decide, by decide, by decide +kernel⟩
  have hslips : Slips ⟨[1, 2, 0, 0, 0, 0, 0x0F, 0x33, 0x7F], by decide, by decide⟩ 0 9 :=
    @Slips.split _ 0 [1, 2, 0, 0, 0, 0, 0x0F, 0x33] 0x7F _ rfl (by decide) (by decide)
      (Or.inl hvalid)
  obtain ⟨r, hr, hiff⟩ := @flip_delivers_iff
    ⟨[1, 2, 0, 0, 0, 0, 0x0F, 0x33, 0x7F], by decide, by decide⟩
    ⟨1, 0, 0, 3, Vector.replicate skFrameInner 0⟩ (List.replicate 16 0) (by decide) 9 (by decide)
    hin 0
  exact ⟨by decide, hin, hslips, r, hr, hiff.mpr hslips⟩

/-- A payload that starts with the body of another one, followed by `7F`: with bit 0 of that byte
flipped into a FLAG, the other payload is delivered. -/
theorem flip_delivers_front :
    ∃ r, feedAll (skDecoderInit (some ⟨0, 0, 0, 0, Vector.replicate skFrameInner 0⟩))
        (.mem (List.replicate 16 0))
        (flipAt (skFrame [1, 2, 0, 0, 0, 0, 0x0F, 0x33, 0x7F]) 9 0) = .ok r ∧
      ∃ c ∈ r.calls, 0 < c.ret ∧ c.payload = [1, 2, 0, 0, 0, 0] := by
  have hrun : (feedAll (skDecoderInit (some ⟨0, 0, 0, 0, Vector.replicate skFrameInner 0⟩))
      (.mem (List.replicate 16 0))
      (flipAt (skFrame [1, 2, 0, 0, 0, 0, 0x0F, 0x33, 0x7F]) 9 0)).toOption.map
        (fun r => decide (∃ c ∈ r.calls, 0 < c.ret ∧ c.payload = [1, 2, 0, 0, 0, 0])) =
      some true := by decide +kernel
  obtain ⟨cs, st', out', hr, -⟩ := feedAll_any ⟨0, 0, 0, 0, Vector.replicate skFrameInner 0⟩
    (.mem (List.replicate 16 0)) (flipAt (skFrame [1, 2, 0, 0, 0, 0, 0x0F, 0x33, 0x7F]) 9 0)
  rw [show skDecoderInit _ = some _ from rfl, hr] at hrun
  exact ⟨_, hr, of_decide_eq_true (Option.some.inj hrun)⟩

end Sharak

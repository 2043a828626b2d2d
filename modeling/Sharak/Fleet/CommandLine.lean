import Mathlib.Data.List.TakeWhile
import Mathlib.Data.Nat.Digits.Lemmas
import Sharak.Firmware.Definitions

/-!
# Fleet — the command line

The arguments of the fleet simulator.  They are accepted exactly if they are settings, each a flag
and a value; the last setting of a flag counts, values are read as `strtoul` and `strtol` read them,
and the rate that comes out is positive, so that the pause between frames is defined
(`command_line`).
-/

namespace Sharak

/-! ### Numbers -/

/-- `isspace`, in the C locale. -/
def isSpace (c : UInt8) : Bool := c = 0x20 ∨ 0x09 ≤ c ∧ c ≤ 0x0D

def isDigit (c : UInt8) : Bool := 0x30 ≤ c ∧ c ≤ 0x39

/-- The value of a row of digits. -/
def digitsValue (ds : List UInt8) : Nat := ds.foldl (fun n c => 10 * n + (c.toNat - 0x30)) 0

/-- The number at the front of a text, behind white space: whether it has a minus sign, and its
magnitude, which is zero if there is none. -/
def readNumber (s : List UInt8) : Bool × Nat :=
  match s.dropWhile isSpace with
  | 0x2D :: s => (true, digitsValue (s.takeWhile isDigit))
  | 0x2B :: s => (false, digitsValue (s.takeWhile isDigit))
  | s => (false, digitsValue (s.takeWhile isDigit))

/-- `strtoul(s, NULL, 10)`, for a `long` of 64 bits: a magnitude that is out of range gives
`ULONG_MAX`, and a minus sign negates in the type of the result. -/
def strtoul (s : List UInt8) : UInt64 :=
  let (negative, n) := readNumber s
  if n ≥ 2 ^ 64 then UInt64.ofNat (2 ^ 64 - 1)
  else if negative then 0 - UInt64.ofNat n else UInt64.ofNat n

/-- `strtol(s, NULL, 10)`, which gives the nearest end of its range when it is out of range. -/
def strtol (s : List UInt8) : Int :=
  let (negative, n) := readNumber s
  max (-2 ^ 63) (min (2 ^ 63 - 1) (if negative then -n else n))

/-! ### Arguments -/

/-- What the arguments set. -/
structure Options where
  port : UInt16
  rate : Int
deriving DecidableEq, Repr

def defaultOptions : Options := ⟨5555, 100⟩

def portFlag : List UInt8 := ascii "--port"
def rateFlag : List UInt8 := ascii "--rate"

/-- The loop over the arguments behind the name of the program; `none` is the usage message. -/
def fleetArgs : List (List UInt8) → Options → Option Options
  | [], o => some o
  | [_], _ => none
  | flag :: value :: args, o =>
      if flag = portFlag then fleetArgs args { o with port := (strtoul value).toUInt16 }
      else if flag = rateFlag then
        let rate := strtol value
        fleetArgs args { o with rate := if rate < 1 then 1 else rate }
      else none

/-- `period_us`. -/
def Options.periodUs (o : Options) : Int := (1000000 : Int).tdiv o.rate

/-! ### Settings -/

/-- A flag and its value. -/
inductive Setting where
  | port (value : List UInt8)
  | rate (value : List UInt8)

def Setting.text : Setting → List (List UInt8)
  | port value => [portFlag, value]
  | rate value => [rateFlag, value]

def Setting.apply (o : Options) : Setting → Options
  | port value => { o with port := (strtoul value).toUInt16 }
  | rate value => { o with rate := max 1 (strtol value) }

def Setting.port? : Setting → Option (List UInt8)
  | port value => some value
  | rate _ => none

def Setting.rate? : Setting → Option (List UInt8)
  | port _ => none
  | rate value => some value

theorem fleetArgs_text (s : Setting) (args : List (List UInt8)) (o : Options) :
    fleetArgs (s.text ++ args) o = fleetArgs args (s.apply o) := by
  cases s with
  | port value => exact if_pos rfl
  | rate value =>
      have hne : ¬ rateFlag = portFlag := by decide
      have hmax : (if strtol value < 1 then 1 else strtol value) = max 1 (strtol value) := by
        omega
      rw [Setting.text, List.cons_append, List.cons_append, List.nil_append, fleetArgs, if_neg hne,
        if_pos rfl]
      dsimp only
      rw [hmax]
      rfl

theorem fleetArgs_settings (settings : List Setting) (o : Options) :
    fleetArgs (settings.flatMap Setting.text) o = some (settings.foldl Setting.apply o) := by
  induction settings generalizing o with
  | nil => rfl
  | cons s settings ih => rw [List.flatMap_cons, fleetArgs_text, ih, List.foldl_cons]

/-- Nothing else is accepted. -/
theorem settings_of_fleetArgs : ∀ {args : List (List UInt8)} {o o' : Options},
    fleetArgs args o = some o' → ∃ settings : List Setting, args = settings.flatMap Setting.text
  | [], _, _, _ => ⟨[], rfl⟩
  | [_], _, _, h => by cases h
  | flag :: value :: args, o, o', h => by
      rw [fleetArgs] at h
      by_cases hp : flag = portFlag
      · rw [if_pos hp] at h
        obtain ⟨settings, rfl⟩ := settings_of_fleetArgs h
        exact ⟨.port value :: settings, by rw [hp]; rfl⟩
      · rw [if_neg hp] at h
        by_cases hr : flag = rateFlag
        · rw [if_pos hr] at h
          obtain ⟨settings, rfl⟩ := settings_of_fleetArgs h
          exact ⟨.rate value :: settings, by rw [hr]; rfl⟩
        · rw [if_neg hr] at h
          cases h

/-- The last setting of a flag counts. -/
theorem foldl_apply (settings : List Setting) (o : Options) :
    (settings.foldl Setting.apply o).port =
        ((settings.filterMap Setting.port?).getLast?.map fun v => (strtoul v).toUInt16).getD o.port ∧
      (settings.foldl Setting.apply o).rate =
        ((settings.filterMap Setting.rate?).getLast?.map fun v => max 1 (strtol v)).getD o.rate := by
  induction settings generalizing o with
  | nil => exact ⟨rfl, rfl⟩
  | cons s settings ih =>
      obtain ⟨hp, hr⟩ := ih (s.apply o)
      rw [List.foldl_cons, hp, hr]
      cases s with
      | port value =>
          have hcons : (Setting.port value :: settings).filterMap Setting.port? =
              value :: settings.filterMap Setting.port? := rfl
          refine ⟨?_, rfl⟩
          rw [hcons, List.getLast?_cons]
          cases (settings.filterMap Setting.port?).getLast? <;> rfl
      | rate value =>
          have hcons : (Setting.rate value :: settings).filterMap Setting.rate? =
              value :: settings.filterMap Setting.rate? := rfl
          refine ⟨rfl, ?_⟩
          rw [hcons, List.getLast?_cons]
          cases (settings.filterMap Setting.rate?).getLast? <;> rfl

/-- A positive rate stays positive. -/
theorem rate_pos (settings : List Setting) {o : Options} (h : 1 ≤ o.rate) :
    1 ≤ (settings.foldl Setting.apply o).rate := by
  induction settings generalizing o with
  | nil => exact h
  | cons s settings ih =>
      refine ih ?_
      cases s with
      | port value => exact h
      | rate value => exact Int.le_max_left 1 _

theorem periodUs_bounds {o : Options} (h : 1 ≤ o.rate) :
    0 ≤ o.periodUs ∧ o.periodUs ≤ 1000000 :=
  ⟨Int.tdiv_nonneg (by decide) (by omega), Int.tdiv_le_self _ (by decide)⟩

/-! ### Decimal numbers -/

def digitByte (d : Nat) : UInt8 := (0x30 + d).toUInt8

/-- A number in decimal, without leading zeros. -/
def decimal (n : Nat) : List UInt8 :=
  if n = 0 then [0x30] else (Nat.digits 10 n).reverse.map digitByte

theorem digitByte_digit {d : Nat} (h : d < 10) :
    isDigit (digitByte d) = true ∧ (digitByte d).toNat - 0x30 = d := by
  interval_cases d <;> decide

theorem digitsValue_digits {ds : List Nat} (h : ∀ d ∈ ds, d < 10) :
    digitsValue (ds.reverse.map digitByte) = Nat.ofDigits 10 ds := by
  induction ds with
  | nil => rfl
  | cons d ds ih =>
      obtain ⟨hd, hds⟩ := List.forall_mem_cons.mp h
      have hval := (digitByte_digit hd).2
      rw [digitsValue] at ih ⊢
      rw [List.reverse_cons, List.map_append, List.foldl_append, ih hds, Nat.ofDigits_cons]
      simp only [List.map_cons, List.map_nil, List.foldl_cons, List.foldl_nil, hval]
      omega

/-- A decimal number is a row of digits with its value. -/
theorem decimal_digits (n : Nat) :
    decimal n ≠ [] ∧ (∀ c ∈ decimal n, isDigit c = true) ∧ digitsValue (decimal n) = n := by
  unfold decimal
  by_cases hn : n = 0
  · subst hn
    rw [if_pos rfl]
    refine ⟨List.cons_ne_nil _ _, ?_, rfl⟩
    intro c hc
    obtain rfl := List.mem_singleton.mp hc
    decide
  · have hlt : ∀ d ∈ Nat.digits 10 n, d < 10 := fun d hd => Nat.digits_lt_base (by decide) hd
    rw [if_neg hn]
    refine ⟨by simpa using Nat.digits_ne_nil_iff_ne_zero.mpr hn, ?_, ?_⟩
    · intro c hc
      obtain ⟨d, hd, rfl⟩ := List.mem_map.mp hc
      exact (digitByte_digit (hlt d (List.mem_reverse.mp hd))).1
    · rw [digitsValue_digits hlt, Nat.ofDigits_digits]

/-- A digit is neither white space nor a sign. -/
theorem digit_plain {c : UInt8} (h : isDigit c = true) :
    isSpace c = false ∧ c ≠ 0x2D ∧ c ≠ 0x2B := by
  simp only [isDigit, isSpace, decide_eq_true_eq, decide_eq_false_iff_not, UInt8.le_iff_toNat_le,
    ← UInt8.toNat_inj, ne_eq] at h ⊢
  simp only [UInt8.toNat_ofNat] at h ⊢
  omega

theorem readNumber_digits {s : List UInt8} (hne : s ≠ []) (h : ∀ c ∈ s, isDigit c = true) :
    readNumber s = (false, digitsValue s) := by
  obtain ⟨c, cs, rfl⟩ := List.exists_cons_of_ne_nil hne
  obtain ⟨hspace, hminus, hplus⟩ := digit_plain (h c List.mem_cons_self)
  have hall : (c :: cs).takeWhile isDigit = c :: cs := List.takeWhile_eq_self_iff.mpr h
  rw [readNumber, List.dropWhile_cons_of_neg (by rw [hspace]; decide)]
  split
  · rename_i heq
    exact absurd (List.cons.inj heq).1 hminus
  · rename_i heq
    exact absurd (List.cons.inj heq).1 hplus
  · rw [hall]

theorem readNumber_decimal (n : Nat) : readNumber (decimal n) = (false, n) := by
  obtain ⟨hne, hdigits, hval⟩ := decimal_digits n
  rw [readNumber_digits hne hdigits, hval]

theorem strtoul_decimal (port : UInt16) : (strtoul (decimal port.toNat)).toUInt16 = port := by
  have hlt := port.toNat_lt
  have hsmall : ¬ port.toNat ≥ 2 ^ 64 := by omega
  rw [strtoul, readNumber_decimal]
  dsimp only
  rw [if_neg hsmall, if_neg (by decide)]
  apply UInt16.toNat_inj.mp
  rw [UInt64.toNat_toUInt16, UInt64.toNat_ofNat']
  omega

theorem strtol_decimal {rate : Nat} (h : rate < 2 ^ 63) : strtol (decimal rate) = rate := by
  rw [strtol, readNumber_decimal]
  dsimp only
  rw [if_neg (by decide)]
  omega

/-! ### What the arguments come to -/

/-- **The command line.**  The arguments are refused exactly if they are not settings.  Settings
come to the port and the rate of the last one of each kind, or to the defaults, the rate is positive
and the pause between frames at most a second; and every port, and every positive rate of 63 bits,
comes out of its decimal text. -/
theorem command_line :
    (∀ args, fleetArgs args defaultOptions = none ↔
      ¬ ∃ settings : List Setting, args = settings.flatMap Setting.text) ∧
    (∀ settings : List Setting, ∃ o,
      fleetArgs (settings.flatMap Setting.text) defaultOptions = some o ∧
      o.port = ((settings.filterMap Setting.port?).getLast?.map
        fun v => (strtoul v).toUInt16).getD 5555 ∧
      o.rate = ((settings.filterMap Setting.rate?).getLast?.map
        fun v => max 1 (strtol v)).getD 100 ∧
      1 ≤ o.rate ∧ 0 ≤ o.periodUs ∧ o.periodUs ≤ 1000000) ∧
    ∀ (port : UInt16) (rate : Nat), 1 ≤ rate → rate < 2 ^ 63 →
      fleetArgs [portFlag, decimal port.toNat, rateFlag, decimal rate] defaultOptions =
        some ⟨port, rate⟩ := by
  refine ⟨?_, ?_, ?_⟩
  · intro args
    constructor
    · rintro hnone ⟨settings, rfl⟩
      rw [fleetArgs_settings] at hnone
      cases hnone
    · intro hno
      cases hargs : fleetArgs args defaultOptions with
      | none => rfl
      | some o => exact absurd (settings_of_fleetArgs hargs) hno
  · intro settings
    obtain ⟨hport, hrate⟩ := foldl_apply settings defaultOptions
    have hpos := @rate_pos settings defaultOptions (by decide)
    exact ⟨_, fleetArgs_settings settings defaultOptions, hport, hrate, hpos, periodUs_bounds hpos⟩
  · intro port rate hpos hlt
    have hsettings := fleetArgs_settings [.port (decimal port.toNat), .rate (decimal rate)]
      defaultOptions
    have hmax : max (1 : Int) rate = rate := by omega
    refine hsettings.trans ?_
    rw [List.foldl_cons, List.foldl_cons, List.foldl_nil, Setting.apply, Setting.apply,
      strtoul_decimal, strtol_decimal hlt, hmax]

/-- Port 65535, and the greatest rate. -/
theorem command_line_ends :
    fleetArgs [portFlag, decimal 65535, rateFlag, decimal (2 ^ 63 - 1)] defaultOptions =
      some ⟨65535, 2 ^ 63 - 1⟩ :=
  command_line.2.2 65535 (2 ^ 63 - 1) (by decide) (by decide)

end Sharak

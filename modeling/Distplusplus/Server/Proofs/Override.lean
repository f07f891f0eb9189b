/-
What numeric variables of the environment are taken for.

`getFromEnv` hands the variable to one of C's conversions and looks at
`errno` alone, which speaks up for numbers beyond the type and nothing
else. So a variable is settled in one of three ways: it denotes a number
and that is the setting, it is too large and refused, or it is neither and
taken for a number it does not denote (`override_exact_iff`). The last is
the way of the empty text, of trailing text, of leading white space, and,
for an unsigned setting, of negative numbers.
-/
import Distplusplus.Server.Config

namespace Distplusplus.Server.Setup

open Lib Common

variable {α : Type} {getenv : Str → Option Str} {envName value : Str}

-- ======================================================= the specification

/-- A setting read from a text is the number the text denotes. Being
refused is no setting. -/
def Exact (toInt : α → Int) (value : Str) (result : Except Exception α) :
    Prop :=
  ∀ v, result = .ok v → integer value = some (toInt v)

/-- An unsigned setting as a number. -/
def unsignedValue (v : UInt64) : Int := v.toNat

/-- The text denotes a number an unsigned setting can be asked to be, or
one beyond the type is read from it. -/
def UnsignedOverride (value : Str) : Prop :=
  (∃ n, integer value = some n ∧ 0 ≤ n) ∨
    2 ^ 64 ≤ (subject value).magnitude

/-- The text denotes a number, or one beyond the signed type is read from
it. -/
def SignedOverride (value : Str) : Prop :=
  (∃ n, integer value = some n) ∨ (subject value).value < -2 ^ 63 ∨
    2 ^ 63 ≤ (subject value).value

-- =============================================================== getFromEnv

/-- A variable that is set decides, unless its conversion fails. -/
theorem getFromEnvWith_ok {convert : Str → Converted α} {ret v : α}
    (h : getenv envName = some value) :
    getFromEnvWith convert getenv ret envName = .ok v ↔
      (convert value).errno = 0 ∧ (convert value).value = v := by
  unfold getFromEnvWith
  rw [h]
  by_cases he : (convert value).errno = 0 <;> simp [he]

/-- An override is exact when its conversion fails, or finds what the whole
text denotes. -/
theorem exact_getFromEnvWith {convert : Str → Converted α}
    {toInt : α → Int} {ret : α} (h : getenv envName = some value) :
    Exact toInt value (getFromEnvWith convert getenv ret envName) ↔
      ((convert value).errno = 0 →
        integer value = some (toInt (convert value).value)) := by
  unfold Exact
  simp only [getFromEnvWith_ok h]
  exact ⟨fun hall he => hall _ ⟨he, rfl⟩, fun himp v hv =>
    hv.2 ▸ himp hv.1⟩

/-- Exactly the variables that denote a number, or are refused. -/
theorem exact_unsigned (h : getenv envName = some value) (ret : UInt64) :
    Exact unsignedValue value (getFromEnvUInt64 getenv ret envName) ↔
      UnsignedOverride value := by
  obtain ⟨herrno, hvalue⟩ := strtoull_spec value
  unfold getFromEnvUInt64
  rw [exact_getFromEnvWith h]
  constructor
  · intro hexact
    by_cases hm : (subject value).magnitude < 2 ^ 64
    · exact .inl ⟨_, hexact (herrno.mpr hm), Int.natCast_nonneg _⟩
    · exact .inr (Nat.le_of_not_lt hm)
  · intro hcond he
    have hm := herrno.mp he
    rcases hcond with ⟨n, hn, hpos⟩ | hbig
    · have hread := value_subject hn
      have hsmall : n < 2 ^ 64 := by
        rw [← hread]
        unfold Subject.value
        split <;> omega
      rw [hn, unsignedValue, hvalue he, hread,
        Int.emod_eq_of_lt hpos hsmall]
    · exact absurd hm (Nat.not_lt.mpr hbig)

theorem exact_signed (h : getenv envName = some value) (ret : Int64) :
    Exact Int64.toInt value (getFromEnvInt64 getenv ret envName) ↔
      SignedOverride value := by
  obtain ⟨herrno, hvalue⟩ := strtoll_spec value
  unfold getFromEnvInt64
  rw [exact_getFromEnvWith h]
  constructor
  · intro hexact
    by_cases he : (strtoll value).errno = 0
    · exact .inl ⟨_, hexact he⟩
    · rw [herrno] at he
      exact .inr (by omega)
  · intro hcond he
    have hin := herrno.mp he
    rcases hcond with ⟨n, hn⟩ | hout
    · rw [hn, hvalue he, value_subject hn]
    · omega

-- ============================================================ the theorem

/-- A numeric override is exact or rejected exactly when it is a decimal
number and nothing else, not negative for the unsigned type, or when the
number that is read from it does not fit the type. -/
theorem override_exact_iff (h : getenv envName = some value) :
    (∀ ret, Exact unsignedValue value
        (getFromEnvUInt64 getenv ret envName) ↔ UnsignedOverride value) ∧
      ∀ ret, Exact Int64.toInt value
        (getFromEnvInt64 getenv ret envName) ↔ SignedOverride value :=
  ⟨exact_unsigned h, exact_signed h⟩

/-- With one that is exact. -/
theorem override_exact_eight :
    Exact unsignedValue "8".toList (getFromEnvUInt64
        (fun _ => some "8".toList) 1 "DISTPLUSPLUS_JOBS".toList) ∧
      Exact Int64.toInt "8".toList (getFromEnvInt64
        (fun _ => some "8".toList) 1 "DISTPLUSPLUS_JOBS".toList) := by
  have henv : (fun _ : Str => some "8".toList) "DISTPLUSPLUS_JOBS".toList =
      some "8".toList := rfl
  obtain ⟨hunsigned, hsigned⟩ := override_exact_iff henv
  exact ⟨(hunsigned 1).mpr (.inl ⟨8, by decide, by decide⟩),
    (hsigned 1).mpr (.inl ⟨8, by decide⟩)⟩

/-- No number at all, the front of a text and a negative number are taken
for settings; with a timeout of `-1` seconds the reaper never sleeps. -/
theorem junk_accepted :
    ¬Exact unsignedValue [] (getFromEnvUInt64 (fun _ => some []) 1
        "DISTPLUSPLUS_JOBS".toList) ∧
      ¬Exact Int64.toInt "12abc".toList (getFromEnvInt64
        (fun _ => some "12abc".toList) 1
        "DISTPLUSPLUS_COMPRESSION_LEVEL".toList) ∧
      ∃ config, getConfig 4 "zstd".toList .ok (fun envName =>
          if envName = "DISTPLUSPLUS_RESERVATION_TIMEOUT".toList then
            some "-1".toList
          else none) = .ok config ∧
        config.reservationTimeout = 18446744073709551615 ∧
        integer "-1".toList = some (-1) ∧ sleepTime config.server = 0 := by
  refine ⟨fun h => ?_, fun h => ?_, ⟨CompressionType.zstd, 1, 4,
    "127.0.0.1:3633".toList, 18446744073709551615⟩, ?_, rfl, by decide, ?_⟩
  · exact absurd (h 0 rfl) (by decide)
  · exact absurd (h 12 rfl) (by decide)
  · rfl
  · decide

end Distplusplus.Server.Setup

import Sylar.Http.Dump
import Sylar.Http.Grammar

/-! # Decimal numerals

The value of a numeral, what a stream writes for a number, and what `strtol` and `atoi` make of
digits that are followed by something else.
-/
namespace Sylar.Http
open Ragel
open Sylar.Stream (toInt toSize toInt_eq_self_iff toInt_bounds)

def decimalValue (ds : List UInt8) : ℕ := ds.foldl (fun n b => 10 * n + (b.toNat - 48)) 0

theorem decimalValue_decimal (n : ℕ) : decimalValue (decimal n) = n := by
  have hdigits : decimalValue (decimal n) = Nat.ofDigitChars 10 (Nat.toDigits 10 n) 0 := by
    rw [decimalValue, decimal, List.foldl_map, Nat.ofDigitChars_eq_foldl]
    apply List.foldl_ext
    intro k c hc
    have hdigit := Nat.isDigit_of_mem_toDigits (by decide) le_rfl hc
    rw [Char.isDigit, Bool.and_eq_true, decide_eq_true_eq, decide_eq_true_eq] at hdigit
    have hhigh : c.toNat ≤ 57 := hdigit.2
    rw [byte, UInt8.toNat_ofNat', Nat.mod_eq_of_lt (by omega)]
    rfl
  rw [hdigits, Nat.ofDigitChars_ten_toDigits]

theorem digit_facts : ∀ b ∈ Grammar.digit.members, isDigit 10 b = true ∧ isSpace b = false ∧
    b ≠ byte '-' ∧ b ≠ byte '+' ∧ (digitValue b).getD 0 = b.toNat - 48 := by
  decide +kernel

theorem mem_digit_of_mem_decimal {n : ℕ} {b : UInt8} (hb : b ∈ decimal n) :
    Grammar.digit.mem b = true := by
  have hrange := digit_of_mem_decimal hb
  rw [Grammar.digit, Grammar.range, Cls.mem, Bool.and_eq_true]
  exact ⟨decide_eq_true hrange.1, decide_eq_true hrange.2⟩

theorem skipMark_ten (bs : List UInt8) : skipMark 10 bs = bs := by
  rcases bs with _ | ⟨b, _ | ⟨c, bs⟩⟩ <;> simp [skipMark]

section Digits

variable {ds : List UInt8} (hne : ds ≠ []) (hdigits : ∀ b ∈ ds, Grammar.digit.mem b = true)
  {c : UInt8} (hc : isDigit 10 c = false) (rest : List UInt8)

include hne hdigits hc

theorem strtol_digits :
    strtol 10 (ds ++ c :: rest) = some (min (2 ^ 63 - 1) (decimalValue ds : ℤ)) := by
  have hfacts (b : UInt8) (hb : b ∈ ds) := digit_facts b (Cls.mem_members.mpr (hdigits b hb))
  have hread := readDigits_digits (fun b hb => (hfacts b hb).1) hc rest 0
  have hvalue : ds.foldl (fun n b => n * 10 + (digitValue b).getD 0) 0 = decimalValue ds := by
    apply List.foldl_ext
    intro n b hb
    rw [(hfacts b hb).2.2.2.2, Nat.mul_comm]
  rw [hvalue] at hread
  rcases List.exists_cons_of_ne_nil hne with ⟨d, ds', rfl⟩
  have hfirst := hfacts d List.mem_cons_self
  rw [List.cons_append] at hread
  rw [List.cons_append, strtol, List.dropWhile_cons, hfirst.2.1, if_neg Bool.false_ne_true]
  dsimp only
  rw [if_neg hfirst.2.2.1, if_neg hfirst.2.2.2.1, skipMark_ten, hread]
  rfl

theorem strtolInt_digits : strtolInt 10 (ds ++ c :: rest) =
    some (toInt (toSize (min (2 ^ 63 - 1) (decimalValue ds : ℤ)))) := by
  rw [strtolInt, strtol_digits hne hdigits hc]
  rfl

/-- `atoi` gives the value of the digits exactly if an `int` has it. -/
theorem strtolInt_digits_iff :
    strtolInt 10 (ds ++ c :: rest) = some (decimalValue ds : ℤ) ↔ decimalValue ds < 2 ^ 31 := by
  rw [strtolInt_digits hne hdigits hc, Option.some.injEq]
  constructor
  · intro h
    have hbound := (toInt_bounds (toSize (min (2 ^ 63 - 1) (decimalValue ds : ℤ)))).2
    rw [h] at hbound
    exact_mod_cast hbound
  · intro h
    have hmin : min (2 ^ 63 - 1) (decimalValue ds : ℤ) = decimalValue ds := min_eq_right (by omega)
    have hsize : toSize (decimalValue ds : ℤ) = decimalValue ds := by
      rw [toSize]
      omega
    rw [hmin, hsize, toInt_eq_self_iff]
    exact h

end Digits

end Sylar.Http

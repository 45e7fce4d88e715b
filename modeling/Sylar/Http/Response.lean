import Sylar.Http.Request
import Sylar.Stream.Loop

/-! # Responses

`HttpResponse`, and the numbers that the response parser reads with `strtol` and `atoi`.
-/
namespace Sylar.Http
open Sylar.Stream (toInt toSize)

/-- The status is an `int`: the parser casts whatever number it reads. -/
structure HttpResponse where
  status : ℤ
  version : UInt8
  close : Bool
  body : List UInt8
  reason : List UInt8
  headers : MapType
deriving DecidableEq

namespace HttpResponse

/-- `HttpResponse(0x11, false)`. -/
def fresh : HttpResponse := ⟨200, 0x11, false, [], [], .empty⟩

def setStatus (r : HttpResponse) (v : ℤ) : HttpResponse := { r with status := v }
def setVersion (r : HttpResponse) (v : UInt8) : HttpResponse := { r with version := v }
def setClose (r : HttpResponse) (v : Bool) : HttpResponse := { r with close := v }
def setBody (r : HttpResponse) (v : List UInt8) : HttpResponse := { r with body := v }
def setReason (r : HttpResponse) (v : List UInt8) : HttpResponse := { r with reason := v }
def setHeader (r : HttpResponse) (key val : List UInt8) : HttpResponse :=
  { r with headers := r.headers.set key val }

/-- `getHeaderAs<uint64_t>(key, def)`, for some `boost::lexical_cast<uint64_t>`. -/
def getHeaderAs (lexicalCast : List UInt8 → Option ℕ) (r : HttpResponse) (key : List UInt8)
    (default : ℕ) : ℕ :=
  match r.headers.find key with
  | none => default
  | some val => (lexicalCast val).getD default

end HttpResponse

section Numbers

def isSpace (b : UInt8) : Bool := (9 ≤ b.toNat && b.toNat ≤ 13) || b = 32

def digitValue (b : UInt8) : Option ℕ :=
  if 48 ≤ b.toNat ∧ b.toNat ≤ 57 then some (b.toNat - 48)
  else if 65 ≤ b.toNat ∧ b.toNat ≤ 90 then some (b.toNat - 55)
  else if 97 ≤ b.toNat ∧ b.toNat ≤ 122 then some (b.toNat - 87)
  else none

def isDigit (base : ℕ) (b : UInt8) : Bool := (digitValue b).any (· < base)

/-- The digits at the front of the memory, after those that give `acc`; `none` when the memory
ends with them. -/
def readDigits (base : ℕ) : ℕ → List UInt8 → Option ℕ
  | _, [] => none
  | acc, b :: bs =>
    if isDigit base b then readDigits base (acc * base + (digitValue b).getD 0) bs else some acc

/-- Past a `0x`. -/
def skipMark (base : ℕ) : List UInt8 → List UInt8
  | b :: c :: bs =>
    if base = 16 ∧ b = byte '0' ∧ (c = byte 'x' ∨ c = byte 'X') then bs else b :: c :: bs
  | bs => bs

/-- `strtol(m, NULL, base)`; `none` when it runs past the end of the memory. -/
def strtol (base : ℕ) (m : List UInt8) : Option ℤ :=
  match m.dropWhile isSpace with
  | [] => none
  | b :: bs =>
    if b = byte '-' then
      (readDigits base 0 (skipMark base bs)).map fun n : ℕ => max (-2 ^ 63) (-(n : ℤ))
    else
      (readDigits base 0 (skipMark base (if b = byte '+' then bs else b :: bs))).map
        fun n : ℕ => min (2 ^ 63 - 1) (n : ℤ)

/-- `strtol` stored in an `int`, and `atoi`. -/
def strtolInt (base : ℕ) (m : List UInt8) : Option ℤ := (strtol base m).map fun z => toInt (toSize z)

end Numbers

end Sylar.Http

/-!
Hexadecimal and binary digits.
-/

namespace Microcode

/-- Digits of `n` in a base up to sixteen, padded with zeros to at least `width`. -/
def paddedDigits (base width n : Nat) : String :=
  let digits := Nat.toDigits base n
  String.ofList (List.replicate (width - digits.length) '0' ++ digits)

def hexText (width n : Nat) : String := paddedDigits 16 width n

end Microcode

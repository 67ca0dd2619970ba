import Mathlib.Data.Char
import Tsgit.Hex

/-!
# Code Units

The strings of the platform are compared by their UTF-16 code units.
-/

namespace Tsgit

/-- The code units of a character: one, or a pair of surrogates. -/
def utf16Units (c : Char) : List ℕ :=
  if c.toNat < 0x10000 then [c.toNat]
  else [0xd800 + (c.toNat - 0x10000) / 0x400, 0xdc00 + (c.toNat - 0x10000) % 0x400]

def codeUnits (text : Text) : List ℕ := text.flatMap utf16Units

/-- `text.slice(0, units)`, without the half of a pair that it cuts. -/
def sliceUnits : ℕ → Text → Text
  | _, [] => []
  | units, c :: rest =>
    if (utf16Units c).length ≤ units then c :: sliceUnits (units - (utf16Units c).length) rest
    else []

def stringLt (a b : Text) : Bool := decide (codeUnits a < codeUnits b)

example : stringLt ['a', Char.ofNat 0x1f600] ['a', '\uFFFD'] = true := by decide

end Tsgit

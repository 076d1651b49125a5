import Kompozer.Net.Bytes
import Mathlib.Data.List.GetD
import Mathlib.Data.Nat.Bits

/-! Escaping (`nsEscape.cpp`): which characters a component of a URL may hold as they are,
and `NS_EscapeURL`, which writes the others as hexadecimal numbers. The flags that force
escapes are never given by the URL code. -/

namespace Kompozer.Net

/-- The table of `EscapeChars` up to the last character that is in use. -/
def escapeTable : List ℕ :=
  [0, 0, 0, 0, 0, 0, 0, 0, 0, 0, 0, 0, 0, 0, 0, 0,
   0, 0, 0, 0, 0, 0, 0, 0, 0, 0, 0, 0, 0, 0, 0, 0,
   0, 1023, 0, 512, 1023, 0, 1023, 1023, 1023, 1023, 1023, 1023, 1023, 1023, 953, 784,
   1023, 1023, 1023, 1023, 1023, 1023, 1023, 1023, 1023, 1023, 1008, 912, 0, 1008, 0, 768,
   1008, 1023, 1023, 1023, 1023, 1023, 1023, 1023, 1023, 1023, 1023, 1023, 1023, 1023, 1023, 1023,
   1023, 1023, 1023, 1023, 1023, 1023, 1023, 1023, 1023, 1023, 1023, 896, 896, 896, 896, 1023,
   0, 1023, 1023, 1023, 1023, 1023, 1023, 1023, 1023, 1023, 1023, 1023, 1023, 1023, 1023, 1023,
   1023, 1023, 1023, 1023, 1023, 1023, 1023, 1023, 1023, 1023, 1023, 896, 1012, 896, 1023, 0]

/-- `EscapeChars`. -/
def EscapeChars (c : UInt8) : ℕ := escapeTable.getD c.toNat 0

/-- `hexChars`. -/
def hexChars : List UInt8 := Prefs.ascii "0123456789ABCDEF"

def hexChar (n : UInt8) : UInt8 := hexChars.getD n.toNat 0

variable {mask : EscapeMask} {onlyASCII : Bool}

/-! ### What escaped text is made of -/

theorem div_lt (c : UInt8) : c / 16 < 16 := by
  rw [UInt8.lt_iff_toNat_lt, UInt8.toNat_div]
  have hc := c.toNat_lt
  change c.toNat / 16 < 16
  omega

theorem mod_lt (c : UInt8) : c % 16 < 16 := by
  rw [UInt8.lt_iff_toNat_lt, UInt8.toNat_mod]
  exact Nat.mod_lt _ (by decide)

end Kompozer.Net

/-! White space, as the property of that name in the Unicode character database. -/

namespace ClockNet.Text

/-- The 25 characters that separate words. The zero-width space and the byte order
mark are not among them. -/
def isBlank (c : Char) : Bool :=
  let n := c.toNat
  (0x9 ≤ n && n ≤ 0xd) || n == 0x20 || n == 0x85 || n == 0xa0 || n == 0x1680 ||
    (0x2000 ≤ n && n ≤ 0x200a) || n == 0x2028 || n == 0x2029 || n == 0x202f ||
    n == 0x205f || n == 0x3000

end ClockNet.Text

/-!
# Blank characters

The characters with the Unicode property White_Space: the controls from tab to carriage return,
next line, the space, the no-break space, the spaces of fixed width, the line and paragraph
separators. The information separators U+001C to U+001F, the zero-width space and the byte order
mark do not have the property.

## Main definitions

* `ContextFree.isBlank` - the character has the property.
-/

namespace ContextFree

/-- The character has the Unicode property White_Space. -/
def isBlank (c : Char) : Bool :=
  let n := c.toNat
  (0x9 ≤ n && n ≤ 0xD) || n == 0x20 || n == 0x85 || n == 0xA0 || n == 0x1680 ||
    (0x2000 ≤ n && n ≤ 0x200A) || n == 0x2028 || n == 0x2029 || n == 0x202F || n == 0x205F ||
    n == 0x3000

end ContextFree

import DiceBot.Text.Ranges

/-! # Name characters

The name of a macro ends at the first separator, control, format or private-use character: the
Unicode general categories Zs, Zl, Zp, Cc, Cf and Co. Unassigned code points may stand in a name. -/

namespace DiceBot.Text

/-- The separators: categories Zs, Zl and Zp. -/
def separatorRanges : List CodeRange :=
  [(0x20, 0x20), (0xa0, 0xa0), (0x1680, 0x1680), (0x2000, 0x200a), (0x2028, 0x2029),
    (0x202f, 0x202f), (0x205f, 0x205f), (0x3000, 0x3000)]

/-- The control characters: category Cc. -/
def controlRanges : List CodeRange := [(0x0, 0x1f), (0x7f, 0x9f)]

/-- The format characters: category Cf as of Unicode 8. -/
def formatRanges : List CodeRange :=
  [(0xad, 0xad), (0x600, 0x605), (0x61c, 0x61c), (0x6dd, 0x6dd), (0x70f, 0x70f),
    (0x180e, 0x180e), (0x200b, 0x200f), (0x202a, 0x202e), (0x2060, 0x2064), (0x2066, 0x206f),
    (0xfeff, 0xfeff), (0xfff9, 0xfffb), (0x110bd, 0x110bd), (0x1bca0, 0x1bca3),
    (0x1d173, 0x1d17a), (0xe0001, 0xe0001), (0xe0020, 0xe007f)]

/-- The private-use characters: category Co. -/
def privateRanges : List CodeRange :=
  [(0xe000, 0xf8ff), (0xf0000, 0xffffd), (0x100000, 0x10fffd)]

/-- A character that may stand in the name of a macro. -/
def isNameChar (c : Char) : Bool :=
  !(inRanges separatorRanges c || inRanges controlRanges c || inRanges formatRanges c ||
    inRanges privateRanges c)

end DiceBot.Text

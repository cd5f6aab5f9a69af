import DiceBot.Text.Basic
import DiceBot.Text.Ranges

/-! # Blanks

Two notions of white space. A *blank* has the Unicode property White_Space; expressions are trimmed
and macro inputs are split at blanks. A *gap* character is a space, a tab, a carriage return or a line
feed; only these separate the words of a command. -/

namespace DiceBot.Text

/-- The code points with the Unicode property White_Space. -/
def blankRanges : List CodeRange :=
  [(0x9, 0xd), (0x20, 0x20), (0x85, 0x85), (0xa0, 0xa0), (0x1680, 0x1680), (0x2000, 0x200a),
    (0x2028, 0x2029), (0x202f, 0x202f), (0x205f, 0x205f), (0x3000, 0x3000)]

/-- A character with the property White_Space. -/
def isBlank (c : Char) : Bool := inRanges blankRanges c

/-- A space, tab, carriage return or line feed. -/
def isGap (c : Char) : Bool := c = ' ' || c = '\t' || c = '\r' || c = '\n'

theorem isBlank_of_isGap {c : Char} (h : isGap c) : isBlank c := by
  simp only [isGap, Bool.or_eq_true, decide_eq_true_eq] at h
  rcases h with ((rfl | rfl) | rfl) | rfl <;> decide

/-- The visible characters of ASCII are not blank. -/
theorem isBlank_of_visible {c : Char} (hl : 0x20 < c.toNat) (hu : c.toNat < 0x7f) :
    isBlank c = false := by
  rw [Bool.eq_false_iff]
  intro hb
  obtain ⟨r, hr, h1, h2⟩ := inRanges_eq_true_iff.mp hb
  simp only [blankRanges, List.mem_cons, List.not_mem_nil, or_false] at hr
  rcases hr with rfl | rfl | rfl | rfl | rfl | rfl | rfl | rfl | rfl | rfl <;>
    simp only at h1 h2 <;> omega

/-- A digit is not blank. -/
theorem isBlank_of_isDigit {c : Char} (h : c.isDigit) : isBlank c = false := by
  simp only [Char.isDigit, Bool.and_eq_true, decide_eq_true_eq, UInt32.le_iff_toNat_le] at h
  have hc : c.val.toNat = c.toNat := rfl
  have e1 : '0'.val.toNat = 48 := rfl
  have e2 : '9'.val.toNat = 57 := rfl
  exact isBlank_of_visible (by omega) (by omega)

/-- The text without its blanks. -/
def removeBlanks (s : Text) : Text := s.filter fun c => !isBlank c

/-- The text without the blanks it ends in. -/
def trimEnd (s : Text) : Text := (s.reverse.dropWhile isBlank).reverse

/-- The text without the blanks it begins and ends with. -/
def trim (s : Text) : Text := trimEnd (s.dropWhile isBlank)

/-- Whether the text begins with a character that is not blank. -/
def startsWord : Text → Bool
  | [] => false
  | c :: _ => !isBlank c

/-- The maximal runs of characters that are not blank. -/
def words : Text → List Text
  | [] => []
  | c :: s =>
    if isBlank c then words s
    else match startsWord s, words s with
      | true, w :: ws => (c :: w) :: ws
      | _, ws => [c] :: ws

/-- The text without the gap characters it begins with. -/
def skipGap (s : Text) : Text := s.dropWhile isGap

/-- The text after a gap of at least one character. -/
def needGap? : Text → Option Text
  | [] => none
  | c :: s => if isGap c then some (skipGap s) else none

end DiceBot.Text

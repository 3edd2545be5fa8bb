import ProcedureIndex.Text.Basic
import ProcedureIndex.Text.IdentTable

/-!
Character classes: blanks, and the characters of names, identifiers and words.
Patterns read names and judge word boundaries by word characters; the word at a
place of a line is an identifier. Beyond ASCII the classes differ: identifiers
know more letters than names, and some characters are of names but not of words
or the other way round.
-/

namespace ProcedureIndex
namespace Text

def covers (ranges : List (Nat × Nat)) (n : Nat) : Bool :=
  ranges.any fun r => r.1 ≤ n && n ≤ r.2

/-- White space: the ASCII blanks, next-line, the no-break space and the wide blanks. -/
def blankRanges : List (Nat × Nat) :=
  [(0x9, 0xD), (0x20, 0x20), (0x85, 0x85), (0xA0, 0xA0), (0x1680, 0x1680), (0x2000, 0x200A),
   (0x2028, 0x2029), (0x202F, 0x202F), (0x205F, 0x205F), (0x3000, 0x3000)]

def isBlank (c : Char) : Bool :=
  covers blankRanges c.toNat

/-- A space or a tab: the blanks that may stand inside a one-line declaration. -/
def isSpacing (c : Char) : Bool :=
  c == ' ' || c == '\t'

def isNameStart (c : Char) : Bool :=
  if c.toNat < 0x80 then c.isAlpha || c == '_' else covers nameStartRanges c.toNat

def isNameContinue (c : Char) : Bool :=
  isNameStart c ||
    (if c.toNat < 0x80 then c.isDigit else covers nameExtendRanges c.toNat)

theorem isNameContinue_of_isNameStart {c : Char} (h : isNameStart c = true) :
    isNameContinue c = true := by
  simp [isNameContinue, h]

def isIdentStart (c : Char) : Bool :=
  isNameStart c || covers laterStartRanges c.toNat

def isIdentContinue (c : Char) : Bool :=
  isIdentStart c || isNameContinue c || covers laterExtendRanges c.toNat

theorem isIdentContinue_of_isIdentStart {c : Char} (h : isIdentStart c = true) :
    isIdentContinue c = true := by
  simp [isIdentContinue, h]

theorem isIdentStart_of_isNameStart {c : Char} (h : isNameStart c = true) :
    isIdentStart c = true := by
  simp [isIdentStart, h]

theorem isIdentContinue_of_isNameContinue {c : Char} (h : isNameContinue c = true) :
    isIdentContinue c = true := by
  simp [isIdentContinue, h]

def isWordChar (c : Char) : Bool :=
  (isNameContinue c && !covers nonWordNameRanges c.toNat) || covers nonNameWordRanges c.toNat

/-- A word boundary: exactly one of the two neighbours is a word character. -/
def isWordEdge (before after : Option Char) : Bool :=
  before.any isWordChar != after.any isWordChar

def trimStart (cs : Text) : Text :=
  cs.dropWhile isBlank

def trimEnd (cs : Text) : Text :=
  (cs.reverse.dropWhile isBlank).reverse

def trim (cs : Text) : Text :=
  trimEnd (trimStart cs)

def trimEndOf (c : Char) (cs : Text) : Text :=
  (cs.reverse.dropWhile (· == c)).reverse

end Text
end ProcedureIndex

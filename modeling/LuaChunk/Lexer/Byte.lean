/-!
Classes of bytes. Letters, digits and white space are those of ASCII; a name may also hold any
byte beyond ASCII.
-/

set_option autoImplicit false

namespace LuaChunk.Byte

def isDigit (b : UInt8) : Bool := 0x30 ≤ b && b ≤ 0x39

def isLetter (b : UInt8) : Bool := (0x41 ≤ b && b ≤ 0x5A) || (0x61 ≤ b && b ≤ 0x7A)

def isHexDigit (b : UInt8) : Bool :=
  isDigit b || (0x41 ≤ b && b ≤ 0x46) || (0x61 ≤ b && b ≤ 0x66)

def isUnderscore (b : UInt8) : Bool := b == 0x5F

def isAsciiNamePart (b : UInt8) : Bool := isLetter b || isDigit b || isUnderscore b

def isNameStart (b : UInt8) : Bool := isLetter b || isUnderscore b || 0x80 ≤ b

def isNamePart (b : UInt8) : Bool := isNameStart b || isDigit b

def isLineEnd (b : UInt8) : Bool := b == 0x0A || b == 0x0D

/-- Space, tab, line feed, form feed and carriage return: what `\z` skips. -/
def isSpace (b : UInt8) : Bool := b == 0x20 || b == 0x09 || isLineEnd b || b == 0x0C

/-- What may stand between tokens: white space, the vertical tab included. -/
def isBlank (b : UInt8) : Bool := isSpace b || b == 0x0B

/-- The byte of an ASCII character. -/
def of (c : Char) : UInt8 := UInt8.ofNat c.toNat

/-- The character with the byte's number. -/
def toChar (b : UInt8) : Char := Char.ofNat b.toNat

/-- The text of ASCII bytes. -/
def text (bytes : List UInt8) : String := String.ofList (bytes.map toChar)

end LuaChunk.Byte

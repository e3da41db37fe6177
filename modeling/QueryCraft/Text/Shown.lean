import QueryCraft.Number.Digits
import QueryCraft.Text.Extending
import QueryCraft.Text.Graphic

/-!
Text shown in messages between quotes, with everything escaped that would not show as itself.
-/

namespace QueryCraft.Text.Shown

/-- Whether a character is one of the Hangul fillers: letters that keep the place of a missing one,
the only letters that are to be ignored where they cannot be shown. -/
def isFiller (c : Char) : Bool :=
  inRanges [(0x115F, 0x1160), (0x3164, 0x3164), (0xFFA0, 0xFFA0)] c.toNat

/-- Whether a character shows as itself behind any other. -/
def isPlain (c : Char) : Bool :=
  isGraphic c && !isExtending c && !isFiller c

/-- The shown form of one character: a backslash and a letter, its code in hexadecimal digits, or
the character itself. -/
def escape (c : Char) : List Char :=
  if c = '"' then ['\\', '"']
  else if c = '\\' then ['\\', '\\']
  else if c = '\n' then ['\\', 'n']
  else if c = '\r' then ['\\', 'r']
  else if c = '\t' then ['\\', 't']
  else if c.toNat = 0 then ['\\', '0']
  else if isPlain c then [c]
  else '\\' :: 'u' :: '\x7b' :: (Nat.toDigits 16 c.toNat ++ ['\x7d'])

def write (text : String) : String :=
  String.ofList ('"' :: (text.toList.flatMap escape ++ ['"']))

end QueryCraft.Text.Shown

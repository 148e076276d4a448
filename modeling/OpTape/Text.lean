import OpTape.Text.Extending
import OpTape.Text.Unprintable
/-
  Small rules of text: fixed-width columns, quoted strings and bracketed lists.
-/
namespace OpTape.Text

/-- The text with blanks before it up to the given width; a longer text stays whole. -/
def alignRight (width : Nat) (text : String) : String :=
  "".pushn ' ' (width - text.length) ++ text

/-- The text with blanks after it up to the given width; a longer text stays whole. -/
def alignLeft (width : Nat) (text : String) : String := text.pushn ' ' (width - text.length)

/-- The texts of the items with one blank between neighbours. -/
def spaced {α : Type} (text : α → String) (items : List α) : String :=
  " ".intercalate (items.map text)

/-- The digits of a number in base sixteen, in lower case. -/
def hex (n : Nat) : String := String.ofList (Nat.toDigits 16 n)

/-- The fillers of Hangul: letters that hold the place of another letter and have no mark. -/
def fillers : Ranges := [(0x115f, 0x1160), (0x3164, 0x3164), (0xffa0, 0xffa0)]

/-- The sound marks of halfwidth katakana: they belong to the letter before them, but stand in a
cell of their own. -/
def soundMarks : Ranges := [(0xff9e, 0xff9f)]

/-- A quoted string shows the character itself: it has a mark of its own, which does not join
the one before it. -/
def isPlain (c : Char) : Bool :=
  soundMarks.contains c ||
    !extending.contains c && !unprintable.contains c && !fillers.contains c

example : isPlain '\uff9e' = true ∧ extending.contains '\uff9e' = true := by decide +kernel

example : isPlain '\uffa0' = false ∧ unprintable.contains '\uffa0' = false := by decide +kernel

/-- A character as it stands between quotes. -/
def quotedChar (c : Char) : String :=
  if c = '"' then "\\\""
  else if c = '\\' then "\\\\"
  else if c = '\t' then "\\t"
  else if c = '\n' then "\\n"
  else if c = '\r' then "\\r"
  else if c = '\x00' then "\\0"
  else if isPlain c then c.toString
  else "\\u\x7b" ++ hex c.toNat ++ "\x7d"

def quoted (text : String) : String :=
  "\"" ++ String.join (text.toList.map quotedChar) ++ "\""

example : quoted "say \"a\\b\"" = "\"say \\\"a\\\\b\\\"\"" := by decide +kernel

/-- Quoted strings in brackets, separated by commas. -/
def quotedList (texts : List String) : String :=
  "[" ++ ", ".intercalate (texts.map quoted) ++ "]"

end OpTape.Text

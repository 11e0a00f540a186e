import LineCalc.Text.Shown

/-! # Quoted text

The trace shows a text between double quotes, on one line.

* A double quote and a backslash have a backslash in front.
* The tab, the carriage return, the line feed and the null character are `\t`, `\r`, `\n` and
  `\0`.
* Any other character that does not show by itself is `\u`, its number in hexadecimal digits between
  braces.
* Every other character stands for itself. -/

namespace LineCalc

/-- How a character appears between quotes. -/
def quotedChar (c : Char) : List Char :=
  if c = '"' ∨ c = '\\' then ['\\', c]
  else if c = '\t' then ['\\', 't']
  else if c = '\r' then ['\\', 'r']
  else if c = '\n' then ['\\', 'n']
  else if c = '\x00' then ['\\', '0']
  else if isShown c then [c]
  else "\\u\x7b".toList ++ Nat.toDigits 16 c.toNat ++ "\x7d".toList

/-- A text between quotes. -/
def quoted (text : String) : String := String.ofList ('"' :: text.toList.flatMap quotedChar ++ ['"'])

example : quoted "\t1\u00a0é" = "\"\\t1\\u\x7ba0\x7dé\"" := by decide +kernel

end LineCalc

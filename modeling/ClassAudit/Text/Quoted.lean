import ClassAudit.Text.Hex
import ClassAudit.Text.Printable
import ClassAudit.Text.Utf8

/-! # Quoted text

    Text in messages is quoted so that it stays on one line and shows every character: the
    quote and the backslash are escaped, printable characters stand for themselves, and all
    others are written with a letter escape or by their code point.
-/

namespace ClassAudit.Text

def quoteChar (quote c : Char) : String :=
  if c = quote ∨ c = '\\' then String.ofList ['\\', c]
  else if isPrintable c then c.toString
  else
    match c.toNat with
    | 0x07 => "\\a"
    | 0x08 => "\\b"
    | 0x09 => "\\t"
    | 0x0a => "\\n"
    | 0x0b => "\\v"
    | 0x0c => "\\f"
    | 0x0d => "\\r"
    | n =>
      if n < 0x80 then "\\x" ++ hex 2 n
      else if n < 0x10000 then "\\u" ++ hex 4 n
      else "\\U" ++ hex 8 n

def quote (s : String) : String :=
  "\"" ++ String.join (s.toList.map (quoteChar '"')) ++ "\""

/-- Symbols in double quotes. Stray bytes are written by their number. -/
def quoteSymbols (symbols : List Symbol) : String :=
  "\"" ++ String.join (symbols.map fun
    | .char c => quoteChar '"' c
    | .stray b => "\\x" ++ hex 2 b.toNat) ++ "\""

def quoteByte (b : UInt8) : String :=
  "'" ++ quoteChar '\'' (Char.ofNat b.toNat) ++ "'"

end ClassAudit.Text

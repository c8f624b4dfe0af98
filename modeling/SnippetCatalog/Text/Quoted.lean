import SnippetCatalog.Text.Unprintable

/-!
Quoted text. A text stands between two quotes; inside, a quote and a backslash have a backslash in
front, line feed, carriage return, tab and NUL have their letters, and every other unprintable
character is written as its number in lower-case hexadecimal.
-/

namespace SnippetCatalog.Text

def escapeChar (c : Char) : List Char :=
  if c = '"' then ['\\', '"']
  else if c = '\\' then ['\\', '\\']
  else if c = '\n' then ['\\', 'n']
  else if c = '\r' then ['\\', 'r']
  else if c = '\t' then ['\\', 't']
  else if c.toNat = 0 then ['\\', '0']
  else if isUnprintable c then
    ['\\', 'u', '\x7b'] ++ Nat.toDigits 16 c.toNat ++ ['\x7d']
  else [c]

def quote (s : String) : String := .ofList ('"' :: s.toList.flatMap escapeChar ++ ['"'])

def quoteAll (l : List String) : String := ", ".intercalate (l.map quote)

end SnippetCatalog.Text

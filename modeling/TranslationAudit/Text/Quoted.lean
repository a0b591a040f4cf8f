import TranslationAudit.Text.Unseen

/-! # Texts in quotes

* `quoted`: a text as a literal, with escapes for what cannot be seen.
-/

namespace TranslationAudit.Text

def hexDigits (n : Nat) : List Char := Nat.toDigits 16 n

/-- A character within quotes. `quote` and the backslash are escaped, and so is what cannot be
seen. -/
def escapeIn (quotes : List Char) (c : Char) : List Char :=
  if quotes.contains c || c = '\\' then ['\\', c]
  else if c = '\n' then ['\\', 'n']
  else if c = '\r' then ['\\', 'r']
  else if c = '\t' then ['\\', 't']
  else if c.toNat = 0 then ['\\', '0']
  else if isUnseen c then ['\\', 'u', '\x7b'] ++ hexDigits c.toNat ++ ['\x7d']
  else [c]

def quoted (s : String) : String :=
  String.ofList ('"' :: s.toList.flatMap (escapeIn ['"']) ++ ['"'])

def quotedPath (s : String) : String :=
  String.ofList ('"' :: s.toList.flatMap (escapeIn ['"', '\'']) ++ ['"'])

end TranslationAudit.Text

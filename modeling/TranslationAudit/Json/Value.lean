/-! # JSON values

* `Json`: a value. Numbers are natural.
* `Json.pretty`: the text of a value, with two spaces for each level.
-/

namespace TranslationAudit

/-- A JSON value. The members of an object keep their order. -/
inductive Json where
  | null
  | bool (b : Bool)
  | number (n : Nat)
  | string (s : String)
  | array (items : List Json)
  | object (members : List (String × Json))
deriving Inhabited

namespace Json

def ofOption (s : Option String) : Json :=
  match s with
  | none => .null
  | some s => .string s

def strings (items : List String) : Json := .array (items.map .string)

/-! ## Text -/

/-- A hexadecimal digit in lower case. -/
def hexDigit (n : Nat) : Char := ("0123456789abcdef".toList[n]?).getD '0'

def escapeChar (c : Char) : List Char :=
  if c = '"' then ['\\', '"']
  else if c = '\\' then ['\\', '\\']
  else if c = '\n' then ['\\', 'n']
  else if c = '\r' then ['\\', 'r']
  else if c = '\t' then ['\\', 't']
  else if c = '\x08' then ['\\', 'b']
  else if c = '\x0c' then ['\\', 'f']
  else if c.toNat < 0x20 then
    ['\\', 'u', '0', '0', hexDigit (c.toNat / 16), hexDigit (c.toNat % 16)]
  else [c]

def quote (s : String) : String := String.ofList ('"' :: s.toList.flatMap escapeChar ++ ['"'])

def indent (level : Nat) : String := String.ofList (List.replicate (2 * level) ' ')

def block (opening closing : String) (level : Nat) (items : List String) : String :=
  if items.isEmpty then opening ++ closing
  else
    opening ++ "\n" ++ ",\n".intercalate (items.map fun i => indent (level + 1) ++ i) ++ "\n" ++
      indent level ++ closing

mutual

def render (level : Nat) : Json → String
  | .null => "null"
  | .bool b => if b then "true" else "false"
  | .number n => toString n
  | .string s => quote s
  | .array items => block "[" "]" level (renderItems (level + 1) items)
  | .object members => block "\x7b" "\x7d" level (renderMembers (level + 1) members)

def renderItems (level : Nat) : List Json → List String
  | [] => []
  | v :: r => render level v :: renderItems level r

def renderMembers (level : Nat) : List (String × Json) → List String
  | [] => []
  | (name, v) :: r => (quote name ++ ": " ++ render level v) :: renderMembers level r

end

def pretty (v : Json) : String := v.render 0

end Json

end TranslationAudit

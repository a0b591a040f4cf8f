import TranslationAudit.Message.Reference
import TranslationAudit.Message.Resolve
import TranslationAudit.Path

/-! # References in node type files

A node type definition marks a label for translation by the line `label: i18n`. The keys above the
label give its identifier, the name of the node type gives the package, and the place of the file
gives the source. Files are read line by line: a line `key:` opens a block, and what is indented
deeper belongs to it.

* `splitKeyLine?`: key and value of a line.
* `deriveId?`: the identifier of a label below a path of keys.
* `contexts`: the text of each node type.
* `collectNodeTypes`: the references of a file in order.
-/

namespace TranslationAudit.NodeType

/-! ## Lines -/

def isSkipped (trimmed : List Char) : Bool :=
  match trimmed with
  | [] => true
  | c :: _ => c = '#'

def indentOf (line : List Char) : Nat := (line.takeWhile (· = ' ')).length

/-- Whether a value may follow the colon of a key: nothing, or something after a blank. -/
def startsValue : List Char → Bool
  | [] => true
  | c :: _ => Text.isBlank c

def cutQuotedKey? (s : List Char) : Option (List Char × List Char) :=
  match s with
  | q :: r =>
    if q = '"' ∨ q = '\'' then
      match Text.cutAt? q r with
      | some (c :: key, ':' :: rest) =>
        if startsValue rest then some (q :: c :: key ++ [q], rest) else none
      | _ => none
    else none
  | [] => none

/-- The rest of a key from a colon on, up to the colon before the value. The parts of a key between
colons are not empty and hold no blanks. -/
def cutKeyTail? : Bool → List Char → Option (List Char × List Char)
  | _, [] => none
  | afterColon, c :: r =>
    if c = ':' then
      if afterColon then none
      else if startsValue r then some ([], r)
      else (cutKeyTail? true r).map fun (a, b) => (c :: a, b)
    else if Text.isBlank c then none
    else (cutKeyTail? false r).map fun (a, b) => (c :: a, b)

/-- A key without quotes and what follows its colon. -/
def cutPlainKey? (s : List Char) : Option (List Char × List Char) :=
  let head := s.takeWhile (· ≠ ':')
  if head.isEmpty then none
  else (cutKeyTail? false (s.drop head.length)).map fun (a, b) => (head ++ a, b)

/-- A key without the quotes around it. -/
def normalizeKey (raw : List Char) : List Char :=
  match Text.trim raw with
  | q :: c :: r => if q = '"' ∨ q = '\'' then (c :: r).dropLast else q :: c :: r
  | key => key

def splitKeyLine? (trimmed : List Char) : Option (String × List Char) :=
  ((cutQuotedKey? trimmed).or (cutPlainKey? trimmed)).map fun (key, value) =>
    (String.ofList (normalizeKey key), Text.trim value)

/-! ## Identifiers -/

/-- The identifier of a label below a path of keys, which ends in the label's own. -/
def deriveId? (path : List String) : Option String :=
  match path.filter fun s => !s.isEmpty with
  | [] => none
  | "properties" :: name :: _ => some ("properties." ++ name)
  | "ui" :: "inspector" :: "groups" :: name :: _ => some ("groups." ++ name)
  | "ui" :: "inspector" :: "tabs" :: name :: _ => some ("tabs." ++ name)
  | "ui" :: rest => some ("ui." ++ ".".intercalate rest)
  | "groups" :: name :: _ => some ("groups." ++ name)
  | all => some (".".intercalate all)

def defaultSource : String := "NodeTypes"

def directory? (s : List Char) : Option String :=
  match Text.after? "/NodeTypes/".toList s with
  | none => none
  | some rest =>
    match Text.cutAtLast? '/' rest with
    | none => none
    | some (directory, file) =>
      let stem := (Text.before? ".yaml".toList file).or (Text.before? ".yml".toList file)
      if directory.contains '\n' || (stem.getD []).isEmpty then none
      else some ("NodeTypes/" ++ String.ofList directory)

/-- The first directory of node types on a path. -/
def findDirectory? : List Char → Option String
  | [] => none
  | c :: r => (directory? (c :: r)).or (findDirectory? r)

def sourceOf (file : String) : String :=
  match findDirectory? (Path.withSlashes file).toList with
  | none => defaultSource
  | some directory =>
    String.ofList (directory.toList.map fun c => if c = '/' then '.' else c)

/-! ## Contexts -/

/-- The name that a line at the outer level gives to the block below it. -/
def blockName? (line : List Char) : Option String :=
  let trimmed := Text.trim line
  if isSkipped trimmed || indentOf line ≠ 0 then none
  else (splitKeyLine? trimmed).map Prod.fst

/-- The blocks of a file: their names and their lines. Lines before the first block are dropped. -/
def blocks : List (List Char) → List (String × List (List Char)) × List (List Char)
  | [] => ([], [])
  | line :: rest =>
    let (others, pending) := blocks rest
    match blockName? line with
    | some name => ((name, line :: pending) :: others, [])
    | none => (others, line :: pending)

/-- The text of each block by its name. Of several blocks of one name the last counts. -/
def contexts (lines : List (List Char)) : Dict String String :=
  Dict.ofList ((blocks lines).1.map fun (name, body) =>
    (name, Text.unlines (body.map String.ofList)))

/-! ## Labels -/

/-- An open block: its key and its indent. -/
structure Frame where
  key : String
  indent : Nat

/-- A label that is marked for translation: its line, counted from 1, and the keys above it, the
outermost first. -/
structure Label where
  line : Nat
  path : List String

def isMarker (key : String) (value : List Char) : Bool :=
  key = "label" &&
    Text.stripWhile (fun c => c = ' ' || c = '\t' || c = '"' || c = '\'') value = "i18n".toList

/-- The marked labels of lines, given the open blocks, the innermost first. -/
def labels (number : Nat) (opened : List Frame) : List (List Char) → List Label
  | [] => []
  | line :: rest =>
    let trimmed := Text.trim line
    if isSkipped trimmed then labels (number + 1) opened rest
    else
      let indent := indentOf line
      let opened := opened.dropWhile fun f => f.indent ≥ indent
      match splitKeyLine? trimmed with
      | none => labels (number + 1) opened rest
      | some (key, value) =>
        if value.isEmpty then labels (number + 1) (⟨key, indent⟩ :: opened) rest
        else if isMarker key value then
          ⟨number, (opened.map Frame.key).reverse⟩ :: labels (number + 1) opened rest
        else labels (number + 1) opened rest

/-- The reference of a label, if it lies in a node type with a package. -/
def reference? (file source : String) (contexts : Dict String String) (label : Label) :
    Option Reference :=
  match label.path with
  | [] => none
  | nodeType :: keys =>
    match Text.cutAt? ':' nodeType.toList with
    | none => none
    | some (package, _) =>
      match deriveId? (keys ++ ["label"]) with
      | none => none
      | some id =>
        (resolveKey id (some (String.ofList package)) (some source)).map fun key =>
          { key, file
            line := label.line
            format := .yaml
            schemaContext := contexts.get? nodeType }

end TranslationAudit.NodeType

namespace TranslationAudit

open NodeType in
def collectNodeTypes (file : String) (text : String) : List Reference :=
  let lines := Text.lines text.toList
  (labels 1 [] lines).filterMap (reference? file (sourceOf file) (contexts lines))

end TranslationAudit

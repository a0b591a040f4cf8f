import TranslationAudit.Collect.NodeType
import TranslationAudit.Text.Slice

/-! # References in node type files, by slices

The reading of a node type file with what it cuts out of its lines and keys as slices, which may
fail. The result is none if one does.

* `normalizeKey?`: a key without the quotes around it, which are taken to be one byte each.
* `contexts?`, `labels?`: the texts of node types and the marked labels of a file.
* `collectNodeTypes?`: the references of a file.
-/

namespace TranslationAudit.NodeType.Checked

open Text

def isQuote (c : Char) : Bool := c = '"' || c = '\''

def normalizeKey? (raw : List Char) : Option (List Char) :=
  let key := trim raw
  if 2 ≤ byteLength key && key.head?.any isQuote then slice? key 1 (byteLength key - 1)
  else some key

def splitKeyLine? (trimmed : List Char) : Option (Option (String × List Char)) :=
  match (cutQuotedKey? trimmed).or (cutPlainKey? trimmed) with
  | none => some none
  | some (raw, value) => (normalizeKey? raw).map fun key =>
      some (String.ofList key, trim value)

def blockName? (line : List Char) : Option (Option String) :=
  let trimmed := trim line
  if isSkipped trimmed || indentOf line ≠ 0 then some none
  else (splitKeyLine? trimmed).map fun read => read.map Prod.fst

/-- The lines between two places. -/
def lineSlice? (lines : List (List Char)) (start stop : Nat) : Option (List (List Char)) :=
  if start ≤ stop ∧ stop ≤ lines.length then some ((lines.take stop).drop start) else none

/-- The blocks from a line on, given the name and the first line of the block that is open. -/
def blocksFrom? (lines : List (List Char)) (opened : Option (String × Nat)) (index : Nat) :
    List (List Char) → Option (List (String × List (List Char)))
  | [] =>
    match opened with
    | none => some []
    | some (name, start) => (lineSlice? lines start lines.length).map fun body => [(name, body)]
  | line :: rest => do
    match ← blockName? line with
    | none => blocksFrom? lines opened (index + 1) rest
    | some name =>
      let later ← blocksFrom? lines (some (name, index)) (index + 1) rest
      match opened with
      | none => return later
      | some (previous, start) =>
        let body ← lineSlice? lines start index
        return (previous, body) :: later

def contexts? (lines : List (List Char)) : Option (Dict String String) :=
  (blocksFrom? lines none 0 lines).map fun blocks =>
    Dict.ofList (blocks.map fun (name, body) => (name, unlines (body.map String.ofList)))

def labels? (number : Nat) (opened : List Frame) : List (List Char) → Option (List Label)
  | [] => some []
  | line :: rest => do
    let trimmed := trim line
    if isSkipped trimmed then labels? (number + 1) opened rest
    else
      let indent := indentOf line
      let opened := opened.dropWhile fun f => f.indent ≥ indent
      match ← splitKeyLine? trimmed with
      | none => labels? (number + 1) opened rest
      | some (key, value) =>
        if value.isEmpty then labels? (number + 1) (⟨key, indent⟩ :: opened) rest
        else
          let later ← labels? (number + 1) opened rest
          return if isMarker key value then
            ⟨number, (opened.map Frame.key).reverse⟩ :: later
          else later

end TranslationAudit.NodeType.Checked

namespace TranslationAudit

open NodeType in
def collectNodeTypes? (file text : String) : Option (List Reference) := do
  let lines := Text.lines text.toList
  let contexts ← Checked.contexts? lines
  let labels ← Checked.labels? 1 [] lines
  return labels.filterMap (reference? file (sourceOf file) contexts)

end TranslationAudit

import TranslationAudit.Path

/-! # Trees of files

The files that a run reads and writes, as a value.

* `FileTree`: directories and files by place, where a place is the list of the names that lead to
  it from the root.
* `FileTree.read`, `FileTree.isFile`, `FileTree.walk`: what a tree holds. Paths are absolute and
  are followed step by step, so `..` leaves only directories that exist.
* `FileTree.write`, `FileTree.makeDirectories`, `FileTree.save`: how a tree changes.
-/

namespace TranslationAudit

/-- Why a file cannot be read or written. -/
inductive FileError where
  | notFound
  | isDirectory
  | notADirectory
  | exists
  | notText
deriving DecidableEq, Inhabited

def FileError.message : FileError → String
  | .notFound => "No such file or directory (os error 2)"
  | .isDirectory => "Is a directory (os error 21)"
  | .notADirectory => "Not a directory (os error 20)"
  | .exists => "File exists (os error 17)"
  | .notText => "stream did not contain valid UTF-8"

/-- What stands at a place. -/
inductive FileNode where
  | directory
  /-- A directory in which nothing can be made. -/
  | locked
  | text (contents : String)
  /-- A file that is no text. -/
  | binary (bytes : List UInt8)
deriving DecidableEq, Inhabited

namespace FileNode

def isDirectory : FileNode → Bool
  | .directory => true
  | .locked => true
  | _ => false

def isFile (n : FileNode) : Bool := !n.isDirectory

end FileNode

/-- Directories and files by place. -/
structure FileTree where
  nodes : SortedMap (List String) FileNode := .empty
deriving DecidableEq, Inhabited

namespace FileTree

def empty : FileTree := {}

/-- A list without entries that repeat the place right before them. -/
def dropRepeated : List (List String × FileNode) → List (List String × FileNode)
  | a :: b :: r => if a.1 = b.1 then dropRepeated (a :: r) else a :: dropRepeated (b :: r)
  | r => r
termination_by nodes => nodes.length

/-- The tree of a list. Of several entries for a place the first counts. -/
def ofList (nodes : List (List String × FileNode)) : FileTree :=
  ⟨⟨dropRepeated (nodes.mergeSort fun a b => compare a.1 b.1 != .gt)⟩⟩

def node? (t : FileTree) (place : List String) : Option FileNode :=
  if place.isEmpty then some .directory else t.nodes.get? place

def put (t : FileTree) (place : List String) (n : FileNode) : FileTree :=
  ⟨t.nodes.insert place n⟩

/-! ## Following paths -/

/-- Takes one step of a path. Only directories can be left. -/
def step (t : FileTree) (place : List String) (c : Path.Component) :
    Except FileError (List String) :=
  match t.node? place with
  | none => .error .notFound
  | some n =>
    if n.isDirectory then
      match c with
      | .root => .ok []
      | .current => .ok place
      | .parent => .ok place.dropLast
      | .name s => .ok (place ++ [s])
    else .error .notADirectory

/-- The place that a path leads to. Something may stand there or nothing. -/
def place (t : FileTree) (p : String) : Except FileError (List String) :=
  (Path.components p).foldlM t.step []

def find (t : FileTree) (p : String) : Except FileError FileNode :=
  (t.place p).bind fun place =>
    match t.node? place with
    | none => .error .notFound
    | some n => .ok n

def exists? (t : FileTree) (p : String) : Bool := (t.find p).toOption.isSome

def isDirectory (t : FileTree) (p : String) : Bool := (t.find p).toOption.any FileNode.isDirectory

def isFile (t : FileTree) (p : String) : Bool := (t.find p).toOption.any FileNode.isFile

def read (t : FileTree) (p : String) : Except FileError String :=
  match t.find p with
  | .error e => .error e
  | .ok (.text s) => .ok s
  | .ok (.binary _) => .error .notText
  | .ok _ => .error .isDirectory

def below? : List String → List String → Option (List String)
  | [], r => some r
  | _ :: _, [] => none
  | a :: as, b :: bs => if a = b then below? as bs else none

/-- The files that a path leads to: the file itself, or all files in the directory and in those
within it. They are spelled as the path goes on. -/
def walk (t : FileTree) (root : String) : List String :=
  match t.place root with
  | .error _ => []
  | .ok start =>
    t.nodes.entries.filterMap fun (place, n) =>
      if n.isFile then
        (below? start place).map fun names =>
          if names.isEmpty then root else Path.join root ("/".intercalate names)
      else none

/-! ## Changing files -/

def write (t : FileTree) (p text : String) : Except FileError FileTree :=
  let steps := Path.components p
  match steps.getLast? with
  | some (.name s) =>
    (steps.dropLast.foldlM t.step []).bind fun parent =>
      match t.node? parent, t.node? (parent ++ [s]) with
      | none, _ => .error .notFound
      | some .locked, none => .error .notFound
      | some .directory, none => .ok (t.put (parent ++ [s]) (.text text))
      | some _, some n =>
        if n.isDirectory then .error .isDirectory else .ok (t.put (parent ++ [s]) (.text text))
      | some _, none => .error .notADirectory
  | _ => .error .isDirectory

/-- Takes a step, and makes the directory that it leads to if nothing is there. -/
def makeStep (state : FileTree × List String) (c : Path.Component) :
    Except FileError (FileTree × List String) :=
  let (t, here) := state
  (t.step here c).bind fun next =>
    if (t.node? next).isSome then .ok (t, next)
    else if t.node? here = some .locked then .error .notFound
    else .ok (t.put next .directory, next)

/-- Makes a directory and those that lead to it, as far as they are missing. -/
def makeDirectories (t : FileTree) (p : String) : Except FileError FileTree :=
  ((Path.components p).foldlM makeStep (t, [])).bind fun (t, place) =>
    if (t.node? place).any FileNode.isDirectory then .ok t else .error .exists

def save (t : FileTree) (p text : String) : Except FileError FileTree :=
  (t.makeDirectories ((Path.parent? p).getD "")).bind fun t => t.write p text

end FileTree

end TranslationAudit

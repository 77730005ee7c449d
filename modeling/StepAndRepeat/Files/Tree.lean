import StepAndRepeat.Text.Quoted
import StepAndRepeat.Text.Utf8
import StepAndRepeat.Files.Path
import StepAndRepeat.Number.Fixed

namespace StepAndRepeat

inductive FileCause where
  | notFound
  | alreadyExists
  | notFolder
  | isFolder
  deriving DecidableEq, Repr

namespace FileCause

def number : FileCause → Nat
  | notFound => 2
  | alreadyExists => 17
  | notFolder => 20
  | isFolder => 21

def text : FileCause → Text
  | notFound => "No such file or directory".toList
  | alreadyExists => "File exists".toList
  | notFolder => "Not a directory".toList
  | isFolder => "Is a directory".toList

end FileCause

structure FileFault where
  cause : FileCause
  path : Text

namespace FileFault

def message (f : FileFault) : Text :=
  "[Errno ".toList ++ Text.ofNat f.cause.number ++ "] ".toList ++ f.cause.text ++ ": ".toList ++
    Text.quoted (.ofText f.path)

end FileFault

inductive FileTree where
  | file (content : List UInt8)
  | folder (entries : List (Text × FileTree))

namespace FileTree

def empty : FileTree := folder []

def find? (name : Text) : List (Text × FileTree) → Option FileTree
  | [] => none
  | (n, t) :: es => if n = name then some t else find? name es

def set (name : Text) (tree : FileTree) : List (Text × FileTree) → List (Text × FileTree)
  | [] => [(name, tree)]
  | (n, t) :: es => if n = name then (n, tree) :: es else (n, t) :: set name tree es

def at? : List Text → FileTree → Except FileCause FileTree
  | [], t => .ok t
  | _ :: _, file _ => .error .notFolder
  | s :: ss, folder es =>
    match find? s es with
    | none => .error .notFound
    | some t => at? ss t

def read (steps : List Text) (t : FileTree) : Except FileCause (List UInt8) :=
  match at? steps t with
  | .error e => .error e
  | .ok (file content) => .ok content
  | .ok (folder _) => .error .isFolder

/-- The tree with a file written. Its folder must be there. -/
def write (content : List UInt8) : List Text → FileTree → Except FileCause FileTree
  | [], file _ => .ok (file content)
  | [], folder _ => .error .isFolder
  | _ :: _, file _ => .error .notFolder
  | s :: ss, folder es =>
    match find? s es, ss with
    | none, [] => .ok (folder (set s (file content) es))
    | none, _ :: _ => .error .notFound
    | some t, ss => (write content ss t).map fun t ↦ folder (set s t es)

def makeFolder : List Text → FileTree → Except FileCause FileTree
  | [], file _ => .error .alreadyExists
  | [], folder es => .ok (folder es)
  | _ :: _, file _ => .error .notFolder
  | s :: ss, folder es =>
    (makeFolder ss ((find? s es).getD empty)).map fun t ↦ folder (set s t es)

mutual

def paths (before : List Text) : FileTree → List (List Text)
  | file _ => [before]
  | folder es => entryPaths before es

def entryPaths (before : List Text) : List (Text × FileTree) → List (List Text)
  | [] => []
  | (n, t) :: es => paths (before ++ [n]) t ++ entryPaths before es

end

/-- A text comes before another in the order of their code points. -/
def precedes (a b : Text) : Bool := a.lex b fun c d ↦ decide (c.toNat < d.toNat)

def files (t : FileTree) : List Text :=
  ((paths [] t).map (Text.join ['/'])).mergeSort fun a b ↦ !precedes b a

def readAt (t : FileTree) (path : Text) : Except FileFault (List UInt8) :=
  (t.read (Path.ofText path).steps).mapError fun c ↦ ⟨c, path⟩

def writeAt (t : FileTree) (path : Text) (content : List UInt8) : Except FileFault FileTree :=
  (t.write content (Path.ofText path).steps).mapError fun c ↦ ⟨c, path⟩

def makeFolderAt (t : FileTree) (path : Text) : Except FileFault FileTree :=
  (t.makeFolder (Path.ofText path).steps).mapError fun c ↦ ⟨c, path⟩

end FileTree

end StepAndRepeat

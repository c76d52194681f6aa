/-
# Where configuration documents come from

Files are known by their path; a file holds documents or cannot be read. A path
given to the loader names a file, or a directory whose files with the endings
`.yaml` and `.yml` are taken in the order of their paths. The documents of all
files are merged one after the other; empty documents are skipped.

Key definitions: `FileStore`, `FileStore.locate`, `expandPath`, `loadDocuments`.
-/
import EnergyPlan.Config.Merge

namespace EnergyPlan.Config

open Text

/-- What a file holds: its documents, or why it cannot be read. -/
inductive FileContent where
  | documents (nodes : List Node)
  | unreadable (reason : String)

/-- Files and directories by their paths, cut into segments. -/
structure FileStore where
  files : List (List String × FileContent)
  directories : List (List String)

/-- Why documents cannot be loaded. -/
inductive LoadError where
  | missingPath (path : String)
  | unreadable (file reason : String)
  | notMapping (file : String)
deriving DecidableEq, Repr

namespace LoadError

/-- What is reported when documents cannot be loaded. -/
def message : LoadError → String
  | .missingPath path => "Configuration path does not exist: " ++ path
  | .unreadable file reason => "Failed to parse configuration file " ++ file ++ ": " ++ reason
  | .notMapping file => "Configuration document in " ++ file ++ " is not a mapping"

end LoadError

/-- The steps of a path: what stands between its slashes. -/
def pathSteps (path : String) : List String :=
  (cutAt (· = '/') path.toList).map String.ofList

/-- Where a step leads: an empty one and a point stay, two points go up, a name goes down. -/
def takeStep (here : List String) (step : String) : List String :=
  if step = "" ∨ step = "." then here
  else if step = ".." then here.dropLast
  else here ++ [step]

/-- The names that lead to where a path leads. -/
def pathSegments (path : String) : List String := (pathSteps path).foldl takeStep []

namespace FileStore

/-- The store that holds the files of a list; a path that ends in a slash is a directory. -/
def ofList (files : List (String × FileContent)) : FileStore :=
  let (directories, regular) := files.partition fun f => f.1.toList.getLast? == some '/'
  ⟨regular.reverse.map fun f => (pathSegments f.1, f.2), directories.map fun f => pathSegments f.1⟩

/-- What a file holds. -/
def file? (store : FileStore) (segments : List String) : Option FileContent :=
  store.files.lookup segments

/-- Whether a directory is there: it was made, or something lies below it. -/
def hasDirectory (store : FileStore) (segments : List String) : Bool :=
  segments.isEmpty ||
    store.directories.any (fun d => segments.isPrefixOf d) ||
    store.files.any fun f => segments.isPrefixOf f.1 && f.1 != segments

/-- Where a path leads, if each of its steps starts in a directory. -/
def locate (store : FileStore) (path : String) : Option (List String) :=
  (pathSteps path).foldlM
    (fun here step => if store.hasDirectory here then some (takeStep here step) else none) []

/-- The names of the files directly in a directory. -/
def names (store : FileStore) (segments : List String) : List String :=
  store.files.filterMap fun f =>
    match segments.isPrefixOf f.1, f.1.drop segments.length with
    | true, [name] => some name
    | _, _ => none

end FileStore

/-- The part of a file name from its last point on; a point at the front starts no ending. -/
def ending (name : String) : String :=
  let reversed := name.toList.reverse
  let tail := reversed.takeWhile (· != '.')
  if tail.length + 1 < reversed.length then String.ofList ('.' :: tail.reverse) else ""

/-- Whether a file of a directory is taken. -/
def isConfigurationFile (name : String) : Bool :=
  ending name == ".yaml" || ending name == ".yml"

/-- The path of a file in a directory; below an empty path it is the name alone. -/
def joinPath (directory name : String) : String :=
  if directory.isEmpty || directory.toList.getLast? == some '/' then directory ++ name
  else directory ++ "/" ++ name

/-- The files that a path stands for, and a warning if it is a directory without any. -/
def expandPath (store : FileStore) (path : String) :
    Except LoadError (List String) × String :=
  match store.locate path with
  | none => (.error (.missingPath path), "")
  | some segments =>
    if store.hasDirectory segments then
      let files := sortedDistinct
        (((store.names segments).filter isConfigurationFile).map (joinPath path))
      (.ok files,
        if files.isEmpty then "Warning: no YAML files found in directory " ++ path ++ "\n" else "")
    else if (store.file? segments).isSome then (.ok [path], "")
    else (.error (.missingPath path), "")

/-- A document merged into the tree, if it is a mapping or empty. -/
def mergeDocument (file : String) (tree document : Node) : Except LoadError Node :=
  match document with
  | .null => .ok tree
  | .mapping _ => .ok (tree.merge document)
  | _ => .error (.notMapping file)

/-- The documents of a file merged into the tree. -/
def mergeFile (store : FileStore) (tree : Node) (file : String) : Except LoadError Node :=
  match store.file? (pathSegments file) with
  | some (.documents nodes) => nodes.foldlM (mergeDocument file) tree
  | some (.unreadable reason) => .error (.unreadable file reason)
  | none => .error (.missingPath file)

/-- The documents of several paths merged into a tree, and the warnings met. -/
def loadInto (store : FileStore) : List String → Node → Except LoadError Node × String
  | [], tree => (.ok tree, "")
  | path :: rest, tree =>
    match expandPath store path with
    | (.error error, warning) => (.error error, warning)
    | (.ok files, warning) =>
      match files.foldlM (mergeFile store) tree with
      | .error error => (.error error, warning)
      | .ok tree =>
        let (result, warnings) := loadInto store rest tree
        (result, warning ++ warnings)

/-- The merged documents of several paths, and the warnings met. -/
def loadDocuments (store : FileStore) (paths : List String) : Except LoadError Node × String :=
  loadInto store paths (.mapping [])

end EnergyPlan.Config

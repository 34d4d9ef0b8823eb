/-!
# Directories of texts

What a path leads to, and a directory whose files are held in memory.
-/

namespace BehaviorTree

/-- What a path leads to. -/
inductive FileContent where
  | missing
  | unreadable
  | text (content : String)
deriving DecidableEq, Inhabited

/-- A directory with the path by which it is known, and the text of every file in
it and below it. -/
structure Directory where
  path : String
  texts : List (String × String)

namespace Directory

/-- The names of a path one by one. -/
def steps (path : String) : List String := path.splitOn "/"

def textAt (directory : Directory) (place : List String) : Option String :=
  (directory.texts.find? (steps ·.1 = place)).map (·.2)

/-- A place is a directory if it is the top, or something lies below it. -/
def isDirectory (directory : Directory) (place : List String) : Bool :=
  place.isEmpty ||
    directory.texts.any fun (name, _) =>
      place.length < (steps name).length && place.isPrefixOf (steps name)

/-- Follows the steps of a path from a place.  Only a directory can be passed, and
nothing is known of what lies above the top. -/
def follow (directory : Directory) (place : List String) : List String → FileContent
  | [] =>
    match directory.textAt place with
    | some content => .text content
    | none => if directory.isDirectory place then .unreadable else .missing
  | step :: rest =>
    if !directory.isDirectory place then .missing
    else if step = "" || step = "." then directory.follow place rest
    else if step = ".." then
      if place.isEmpty then .missing else directory.follow place.dropLast rest
    else directory.follow (place ++ [step]) rest

/-- What a path leads to that is relative to the directory or goes through its own
path. -/
def content (directory : Directory) (path : String) : FileContent :=
  match (directory.path ++ "/").toList.isPrefixOf? path.toList with
  | some below => directory.follow [] (steps (String.ofList below))
  | none =>
    if path.isEmpty || path.startsWith "/" then .missing
    else directory.follow [] (steps path)

end Directory

end BehaviorTree

import ChoiceGrammar.Error

/-!
# Files and paths

A tree of directories and files, and what a path leads to from a place in it. A path is walked part
by part, and only a directory can be left by a further part, also by an empty one: a slash at the
end asks for a directory.
-/

namespace ChoiceGrammar

inductive FileTree where
  | file (bytes : ByteArray)
  | directory (entries : List (String × FileTree))

namespace FileTree

def maxPathSize : Nat := 4095

def maxNameSize : Nat := 255

/-- A place in a tree: what is there, and the directories above it, the nearest one first. -/
structure Location where
  here : FileTree
  above : List FileTree

namespace Location

def root (location : Location) : Location :=
  match location.above.getLast? with
  | some top => ⟨top, []⟩
  | none => location

/-- The directory above, which at the top is the top itself. -/
def parent (location : Location) : Location :=
  match location.above with
  | [] => location
  | nearest :: above => ⟨nearest, above⟩

/-- The place that one part of a path leads to. -/
def step (location : Location) (part : String) : Except ReadFailure Location :=
  match location.here with
  | file _ => .error .notADirectory
  | directory entries =>
      if part = "" ∨ part = "." then .ok location
      else if part = ".." then .ok location.parent
      else if maxNameSize < part.utf8ByteSize then .error .nameTooLong
      else
        match entries.lookup part with
        | some entry => .ok ⟨entry, location.here :: location.above⟩
        | none => .error .notFound

/-- The place that a path leads to, from the top when it starts with a slash. -/
def walk (location : Location) (path : String) : Except ReadFailure Location :=
  if path = "" then .error .notFound
  else if maxPathSize < path.utf8ByteSize then .error .nameTooLong
  else (path.splitOn "/").foldlM step (if path.startsWith "/" then location.root else location)

def read (location : Location) (path : String) : Except ReadFailure ByteArray := do
  match (← location.walk path).here with
  | file bytes => .ok bytes
  | directory _ => .error .isADirectory

end Location

end FileTree

end ChoiceGrammar

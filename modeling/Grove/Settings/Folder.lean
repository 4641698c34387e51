/-!
# Folders of texts

A folder that holds texts under names, and the way in which a name leads to one of them. The parts
of a name are divided by slashes; a point stands for the folder that has been reached so far, two
points for the one above. Only the folder and what lies in it is known, so a name that leads out of
it leads nowhere.
-/

namespace Grove
set_option autoImplicit false

/-- Texts with their names, as seen from the folder that holds them. -/
structure Folder where
  texts : List (String × String) := []

namespace Folder

/-- Whether a part of a name leaves the place as it is. -/
def isIdle (part : String) : Bool := part == "" || part == "."

def partsOf (name : String) : List String := (name.splitOn "/").filter fun part => !isIdle part

/-- Whether a place is a folder: the folder itself, or one on the way to a text. -/
def isFolder (folder : Folder) (place : List String) : Bool :=
  place.isEmpty || folder.texts.any fun (name, _) =>
    let parts := partsOf name
    place.isPrefixOf parts && place.length < parts.length

/-- The place that is reached from another one. -/
def follow (folder : Folder) : List String → List String → Option (List String)
  | place, [] => some place
  | place, part :: rest =>
    if !folder.isFolder place then none
    else if isIdle part then folder.follow place rest
    else if part == ".." then if place.isEmpty then none else folder.follow place.dropLast rest
    else folder.follow (place ++ [part]) rest

def text? (folder : Folder) (name : String) : Option String := do
  if name.startsWith "/" then none
  let place ← folder.follow [] (name.splitOn "/")
  (← folder.texts.find? fun (other, _) => partsOf other == place).2

/-- A name with an ending appended to its last part; none if that part names no text. -/
def withEnding? (ending name : String) : Option String :=
  match (name.splitOn "/").reverse.dropWhile isIdle with
  | [] => none
  | last :: front =>
    if last == ".." then none else some ("/".intercalate ((last ++ ending) :: front).reverse)

end Folder
end Grove

import SchemaForge.Command.Input

/-!
A folder of files in memory, and the paths by which files are opened and written. A path is followed to a
place, which is written by its parts as seen from the folder: a place above the folder begins with `..`,
and one that is reached from the root with an empty part. Above the folder there are only directories.
-/

namespace SchemaForge.Command

/-- Files with their contents. A name may have directories in it, which exist because of it, and may be
that of a place outside the folder. -/
structure Folder where
  files : List (String × ByteArray)

inductive Entry where
  | file (name : String)
  | directory
  | absent (name : String)

namespace Folder

def content? (folder : Folder) (name : String) : Option ByteArray := folder.files.lookup name

def parts (path : String) : List String :=
  (path.toList.splitOn '/').map String.ofList

def nameOf (parts : List String) : String := "/".intercalate parts

/-- Whether a place is the folder, or above it, or the root. -/
def isAbove (place : List String) : Bool := place.all fun part => part = ".." || part = ""

/-- The place one step up. Above the root there is the root again. -/
def stepUp (place : List String) : List String :=
  if place = [""] then [""]
  else if isAbove place then place ++ [".."]
  else place.dropLast

/-- Whether a place lies outside the folder. -/
def isOutside (place : List String) : Bool := place.head?.any fun part => part = ".." || part = ""

def hasDirectory (folder : Folder) (place : List String) : Bool :=
  isAbove place || folder.files.any fun f =>
    let fileParts := parts f.1
    place.length < fileParts.length && place.isPrefixOf fileParts

def entryAt (folder : Folder) (place : List String) : Entry :=
  if folder.hasDirectory place then .directory
  else if (folder.content? (nameOf place)).isSome then .file (nameOf place)
  else .absent (nameOf place)

def follow (folder : Folder) (reached : List String) : List String → Except Obstacle Entry
  | [] => .ok (folder.entryAt reached)
  | part :: rest =>
      match folder.entryAt reached with
      | .file _ => .error .notDirectory
      | .absent _ => .error (if rest.all (· = "") && part = "" then .isDirectory else .missing)
      | .directory =>
          if part = "" || part = "." then follow folder reached rest
          else if part = ".." then follow folder (stepUp reached) rest
          else if 255 < part.utf8ByteSize then .error .nameTooLong
          else follow folder (reached ++ [part]) rest

def find (folder : Folder) (path : String) : Except Obstacle Entry :=
  if path.toList.contains '\x00' then .error .nullCharacter
  else if path = "" then .error .missing
  else if 4096 ≤ path.utf8ByteSize then .error .nameTooLong
  else
    match parts path with
    | "" :: rest => folder.follow [""] rest
    | ps => folder.follow [] ps

def read (folder : Folder) (path : String) : Except Obstacle ByteArray :=
  match folder.find path with
  | .error .isDirectory => .error .missing
  | .error obstacle => .error obstacle
  | .ok .directory => .error .isDirectory
  | .ok (.absent _) => .error .missing
  | .ok (.file name) =>
      match folder.content? name with
      | some bytes => .ok bytes
      | none => .error .missing

/-- The files inside the folder. -/
def inside (folder : Folder) : List (String × ByteArray) :=
  folder.files.filter fun f => !isOutside (parts f.1)

def put (folder : Folder) (name : String) (bytes : ByteArray) : Folder :=
  if (folder.content? name).isSome then
    ⟨folder.files.map fun f => if f.1 = name then (name, bytes) else f⟩
  else ⟨folder.files ++ [(name, bytes)]⟩

def write (folder : Folder) (path text : String) : Except Obstacle Folder :=
  match folder.find path with
  | .error obstacle => .error obstacle
  | .ok .directory => .error .isDirectory
  | .ok (.file name) => .ok (folder.put name text.toUTF8)
  | .ok (.absent name) => .ok (folder.put name text.toUTF8)

end Folder

end SchemaForge.Command

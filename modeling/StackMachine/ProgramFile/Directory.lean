import StackMachine.Event
import StackMachine.ProgramFile.Basic

/-!
# Files

Programs are loaded from files and saved to files by their path. What that takes of a file system
is gathered in `FileSystem`, over any monad; `Directory` is one such file system: a single current
directory without subdirectories, as a list of its files.
-/

namespace StackMachine

/-! ### File systems -/

/-- The operations on files. -/
structure FileSystem (m : Type → Type) where
  /-- Open a file for reading. -/
  openFile : (path : String) → m (Except DeviceError Source)
  /-- Create a file or empty it, and write its content. -/
  storeFile : (path : String) → (content : List UInt8) → m (Except SaveError Unit)

namespace FileSystem

variable {m : Type → Type} [Monad m]

/-- Load a program from a file. -/
def load (fs : FileSystem m) (path : String) : m (Except LoadError Program) := do
  match ← fs.openFile path with
  | .ok source => return readProgram source
  | .error cause => return .error (.cannotOpen path cause)

/-- Save a program with the given code to a file. -/
def save (fs : FileSystem m) (path : String) (code : Code) : m (Except SaveError Unit) := do
  let (written, sink) := writeProgram code .unlimited
  match ← fs.storeFile path sink.taken with
  | .ok _ => return written
  | .error e => return .error e

end FileSystem

/-- What is told about loading a program. -/
def Program.loadEvents : Except LoadError Program → List Event
  | .ok program => [.loaded program.code.size program.header.version]
  | .error _ => []

/-- What is told about saving a program. -/
def Program.saveEvents (path : String) (code : Code) : Except SaveError Unit → List Event
  | .ok _ => [.saved code.size path]
  | .error _ => []

/-! ### The failures of a directory -/

namespace DeviceError

/-- A failure of the system: its description and its number. -/
def ofSystem (description : String) (number : Nat) : DeviceError :=
  { message := description ++ " (os error " ++ toString number ++ ")" }

/-- There is no file or directory of that name. -/
def noSuchFile : DeviceError := ofSystem "No such file or directory" 2

/-- A file stands where a path needs a directory. -/
def notADirectory : DeviceError := ofSystem "Not a directory" 20

/-- A directory stands where a file is needed. -/
def isADirectory : DeviceError := ofSystem "Is a directory" 21

/-- A name has more than 255 bytes, or a path more than 4095. -/
def nameTooLong : DeviceError := ofSystem "File name too long" 36

/-- A path holds the character that ends paths. -/
def nulInName : DeviceError := { message := "file name contained an unexpected NUL byte" }

/-- Text was wanted, but the bytes are none. -/
def notText : DeviceError := { message := "stream did not contain valid UTF-8" }

end DeviceError

/-! ### Directories -/

/-- A current directory: the names and contents of its files. -/
structure Directory where
  files : List (String × List UInt8)
  deriving Repr, DecidableEq

namespace Directory

/-- The content of a file by its name. -/
def content? (d : Directory) (name : String) : Option (List UInt8) := d.files.lookup name

/-- The directory with a file of the given name and content, and the other files as they are. -/
def put (d : Directory) (name : String) (content : List UInt8) : Directory :=
  { files := (name, content) :: d.files.filter (·.1 != name) }

/-- What a path leads to. -/
inductive Place where
  /-- The current directory. -/
  | current
  /-- A directory outside, in which nothing is known. -/
  | outside
  /-- A file of the current directory. -/
  | file (name : String)
  /-- A name in the current directory that no file has. -/
  | free (name : String)
  deriving Repr, DecidableEq

/-- Follow one name from a place. An empty name, as it stands between two slashes or behind the last
one, stays where it is, which must be a directory. -/
def enter (d : Directory) (place : Place) (name : String) : Except DeviceError Place :=
  match place with
  | .file _ => .error .notADirectory
  | .free _ => .error .noSuchFile
  | .current =>
    if name = "" ∨ name = "." then .ok .current
    else if name = ".." then .ok .outside
    else if 255 < name.utf8ByteSize then .error .nameTooLong
    else if (d.content? name).isSome then .ok (.file name)
    else .ok (.free name)
  | .outside =>
    if name = "" ∨ name = "." ∨ name = ".." then .ok .outside
    else if 255 < name.utf8ByteSize then .error .nameTooLong
    else .error .noSuchFile

/-- The names of a path, between its slashes. There are paths that the system does not look at. -/
def namesOf (path : String) : Except DeviceError (List String) :=
  if path.toList.contains '\x00' then .error .nulInName
  else if path = "" then .error .noSuchFile
  else if 4095 < path.utf8ByteSize then .error .nameTooLong
  else .ok (path.splitOn "/")

/-- Where a path begins: outside if a slash comes first. -/
def origin (names : List String) : Place := if names.head? = some "" then .outside else .current

/-- What a path leads to. -/
def resolve (d : Directory) (path : String) : Except DeviceError Place := do
  let names ← namesOf path
  names.foldlM d.enter (origin names)

/-- What a path leads to when a file is to be created there. If a slash follows the last name, that
name is not looked up: it can only mean a directory, whether there is one or not. -/
def resolveNew (d : Directory) (path : String) : Except DeviceError Place := do
  let names ← namesOf path
  match names.reverse.dropWhile (· = "") with
  | last :: above =>
    if names.getLast? = some "" ∧ last ≠ "." ∧ last ≠ ".." then
      let _ ← (above.reverse ++ [""]).foldlM d.enter (origin names)
      throw .isADirectory
    else d.resolve path
  | [] => d.resolve path

/-- Open a file for reading. A directory can be opened but not read. -/
def openFile (d : Directory) (path : String) : Except DeviceError Source :=
  match d.resolve path with
  | .error e => .error e
  | .ok (.file name) => .ok (.ofBytes ((d.content? name).getD []))
  | .ok (.free _) => .error .noSuchFile
  | .ok .current | .ok .outside => .ok { pieces := [], failure := some .isADirectory }

/-- Create a file or empty it, and write its content. -/
def storeFile (d : Directory) (path : String) (content : List UInt8) :
    Except SaveError Directory :=
  match d.resolveNew path with
  | .error e => .error (.cannotCreate path e)
  | .ok (.file name) | .ok (.free name) => .ok (d.put name content)
  | .ok .current | .ok .outside => .error (.cannotCreate path .isADirectory)

/-- The bytes of the file that a path leads to, if it can be read. -/
def read? (d : Directory) (path : String) : Option (List UInt8) :=
  match d.openFile path with
  | .ok source => source.readAll.toOption
  | .error _ => none

/-- The directory as a file system. -/
def fileSystem : FileSystem (StateM Directory) where
  openFile path := return (← get).openFile path
  storeFile path content := do
    match (← get).storeFile path content with
    | .ok d => set d; return .ok ()
    | .error e => return .error e

end Directory

end StackMachine

set_option autoImplicit false

/-!
Files as a program is handed them: their bytes, or why a name cannot be read. A folder holds files
under names, and a name with slashes in it leads through inner folders, part by part.
-/

namespace PlZero

inductive Refusal
  | missing
  | denied
  | notFolder
  | isFolder
  | nameTooLong
deriving DecidableEq

def Refusal.number : Refusal → Nat
  | .missing => 2
  | .denied => 13
  | .notFolder => 20
  | .isFolder => 21
  | .nameTooLong => 36

def Refusal.text : Refusal → String
  | .missing => "No such file or directory"
  | .denied => "Permission denied"
  | .notFolder => "Not a directory"
  | .isFolder => "Is a directory"
  | .nameTooLong => "File name too long"

abbrev File := Except Refusal ByteArray

structure Folder where
  files : List (List String × ByteArray) := []

namespace Folder

def parts (name : String) : List String := name.splitOn "/"

def ofNames (files : List (String × ByteArray)) : Folder :=
  ⟨files.map fun (name, content) => (parts name, content)⟩

inductive Spot
  | folder (path : List String)
  | outside
  | file (content : ByteArray)

def partLimit : Nat := 255

def nameLimit : Nat := 4095

def enter (f : Folder) (path : List String) (part : String) : Except Refusal Spot :=
  let inner := path ++ [part]
  if partLimit < part.utf8ByteSize then .error .nameTooLong
  else match f.files.lookup inner with
    | some content => .ok (.file content)
    | none => if f.files.any (inner.isPrefixOf ·.1) then .ok (.folder inner) else .error .missing

/-- Follows one part. Nothing is known of the world outside but that it has folders. -/
def follow (f : Folder) : Spot → String → Except Refusal Spot
  | .file _, _ => .error .notFolder
  | spot, "" => .ok spot
  | spot, "." => .ok spot
  | .outside, ".." => .ok .outside
  | .folder [], ".." => .ok .outside
  | .folder path, ".." => .ok (.folder path.dropLast)
  | .folder path, part => f.enter path part
  | .outside, part =>
    .error (if partLimit < part.utf8ByteSize then .nameTooLong else .missing)

def Spot.read : Spot → File
  | .file content => .ok content
  | _ => .error .isFolder

def find (f : Folder) (name : String) : File :=
  if name.isEmpty then .error .missing
  else if nameLimit < name.utf8ByteSize then .error .nameTooLong
  else do
    let start : Spot := if name.toList.head? = some '/' then .outside else .folder []
    (← (parts name).foldlM f.follow start).read

end Folder

end PlZero

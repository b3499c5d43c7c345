/-!
# File trees

A run writes its summary to a file that its user names, and fails when no file can be opened there.
This module says which paths can be opened for writing, and for what reason the others cannot.

A path is a list of names between slashes. It is walked name by name from the root, or from the
current directory when it does not begin with a slash. The first name that cannot be passed decides
the fault, so a directory that is missing hides every fault further right. The last name may be new:
the file is then created.

A `FileTree` holds what is known of a machine, and `FileTree.unix` what its kind has in common.
-/

namespace StagedQP

/-- Why a file cannot be opened or written. -/
inductive FileFault where
  /-- There is nothing of that name. -/
  | missing
  /-- There is no such device. -/
  | noDevice
  /-- It is not allowed. -/
  | denied
  /-- A name inside a path is not that of a directory. -/
  | notDirectory
  /-- The path leads to a directory. -/
  | isDirectory
  /-- The device is full. -/
  | noSpace
  /-- A name or the whole path is too long. -/
  | nameTooLong
  deriving DecidableEq

namespace FileFault

/-- The number of a fault. -/
def code : FileFault → Nat
  | missing => 2
  | noDevice => 6
  | denied => 13
  | notDirectory => 20
  | isDirectory => 21
  | noSpace => 28
  | nameTooLong => 36

/-- The fault with a given number. -/
def ofCode? : Nat → Option FileFault
  | 2 => some missing
  | 6 => some noDevice
  | 13 => some denied
  | 20 => some notDirectory
  | 21 => some isDirectory
  | 28 => some noSpace
  | 36 => some nameTooLong
  | _ => none

/-- The description of a fault. -/
def text : FileFault → String
  | missing => "No such file or directory"
  | noDevice => "No such device or address"
  | denied => "Permission denied"
  | notDirectory => "Not a directory"
  | isDirectory => "Is a directory"
  | noSpace => "No space left on device"
  | nameTooLong => "File name too long"

/-- The wording of a fault. -/
def message (f : FileFault) : String := f.text ++ " (os error " ++ toString f.code ++ ")"

theorem ofCode?_code (f : FileFault) : ofCode? f.code = some f := by
  cases f <;> rfl

end FileFault

/-- What a path leads to. -/
inductive Place where
  /-- A directory, and the fault that keeps new files out of it, if there is one. -/
  | directory (refusal : Option FileFault)
  /-- Anything else, with the faults of opening it and of writing to it. -/
  | file (opening writing : Option FileFault)
  deriving DecidableEq

/-- The places of a machine. -/
structure FileTree where
  /-- Every place other than the root, by the names that lead to it from there. -/
  places : List (List String × Place)
  /-- The directory from which a path without a leading slash starts. -/
  current : List String

namespace FileTree

/-- The place at the end of a list of names from the root. -/
def place? (t : FileTree) : List String → Option Place
  | [] => some (.directory none)
  | names => t.places.lookup names

/-- The most bytes of a name. -/
def longestName : Nat := 255

/-- The most bytes of a path. -/
def longestPath : Nat := 4095

/-- The texts before, between and after the slashes of a path. -/
def split : List Char → List (List Char)
  | [] => [[]]
  | c :: rest =>
    if c = '/' then [] :: split rest
    else
      match split rest with
      | [] => [[c]]
      | name :: names => (c :: name) :: names

/-- The names of a path; slashes in a row count as one. -/
def names (path : String) : List String :=
  ((split path.toList).filter fun name => !name.isEmpty).map String.ofList

/-- The directory that a name leads to from the directory `here`. The directory above the root is
the root. -/
def enter (t : FileTree) (here : List String) (name : String) : Except FileFault (List String) :=
  if name = "." then .ok here
  else if name = ".." then .ok here.dropLast
  else if longestName < name.utf8ByteSize then .error .nameTooLong
  else
    match t.place? (here ++ [name]) with
    | none => .error .missing
    | some (.file ..) => .error .notDirectory
    | some (.directory _) => .ok (here ++ [name])

/-- What opening `name` in the directory `here` for writing gives: the file of that name, or a new
one. -/
def openIn (t : FileTree) (here : List String) (name : String) : Except FileFault Place :=
  if longestName < name.utf8ByteSize then .error .nameTooLong
  else
    match t.place? (here ++ [name]), t.place? here with
    | some (.directory _), _ => .error .isDirectory
    | some (.file (some fault) _), _ => .error fault
    | some found, _ => .ok found
    | none, some (.directory (some fault)) => .error fault
    | none, _ => .ok (.file none none)

/-- What opening a path for writing gives. A path that ends in a slash or in a name made of dots
can only be a directory. -/
def openForWriting (t : FileTree) (path : String) : Except FileFault Place :=
  if path.isEmpty then .error .missing
  else if longestPath < path.utf8ByteSize then .error .nameTooLong
  else
    match (names path).getLast? with
    | none => .error .isDirectory
    | some last => do
      let start := if path.toList.head? = some '/' then [] else t.current
      let here ← (names path).dropLast.foldlM t.enter start
      if last = "." || last = ".." || path.toList.getLast? = some '/' then throw .isDirectory
      t.openIn here last

/-! ## What machines of one kind share -/

/-- Directories that take new files. -/
def directories : List (List String) :=
  [["bin"], ["boot"], ["dev"], ["dev", "shm"], ["etc"], ["home"], ["lib"],
    ["lib64"], ["media"], ["mnt"], ["opt"], ["root"], ["run"], ["sbin"], ["srv"], ["tmp"],
    ["usr"], ["usr", "bin"], ["usr", "lib"], ["usr", "local"], ["usr", "sbin"], ["usr", "share"],
    ["var"], ["var", "lib"], ["var", "log"], ["var", "tmp"], ["work"]]

/-- Directories that take no new files, with the fault of creating one. -/
def closedDirectories : List (List String × FileFault) :=
  [(["proc"], .missing), (["proc", "self"], .missing), (["sys"], .denied),
    (["dev", "pts"], .denied), (["dev", "fd"], .missing)]

/-- Files and devices that can be written. -/
def files : List (List String) :=
  [["bin", "sh"], ["dev", "null"], ["dev", "ptmx"], ["dev", "random"], ["dev", "stderr"],
    ["dev", "stdin"], ["dev", "stdout"], ["dev", "urandom"], ["dev", "zero"], ["etc", "group"],
    ["etc", "hostname"], ["etc", "hosts"], ["etc", "passwd"], ["proc", "cpuinfo"],
    ["proc", "version"], ["usr", "bin", "env"]]

/-- Devices that fail: one is always full, and one is a terminal where there is none. -/
def failingDevices : List (List String × Place) :=
  [(["dev", "full"], .file none (some .noSpace)), (["dev", "tty"], .file (some .noDevice) none)]

/-- The directories and devices that machines of one kind share, seen from an empty directory. -/
def unix : FileTree where
  places :=
    directories.map (fun names => (names, .directory none))
      ++ closedDirectories.map (fun p => (p.1, .directory (some p.2)))
      ++ files.map (fun names => (names, .file none none)) ++ failingDevices
  current := ["work"]

end FileTree

end StagedQP

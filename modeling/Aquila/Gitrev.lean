import Aquila.Apply
import Aquila.Cas
import Aquila.Lib.Subtree

/-! `internal/gitrev/materialize.go`: the files of a git tree, written into a new directory. A text has one
    character for each byte; the answers of git and of the system are a `Host`, and the calls that will fail are
    passed along. -/

namespace Aquila.Gitrev
open Files (Loc Errno)
open Cas (text)
open Diff (pathDir pathError errnoText)

def maxCopyBytes : Int := 80 * 2 ^ 20

/-! ### The standard library -/

/-- The number of bytes of the blank that `b` starts with, or 0. -/
def blank (b : List UInt8) : Nat :=
  (((spaceChars.map fun c => bytes (String.singleton c)).find? (·.isPrefixOf b)).map List.length).getD 0

/-- The words of `b` after the next `skip` bytes; `word` is the one that was begun. -/
def words (skip : Nat) (word : List UInt8) : List UInt8 → List (List UInt8)
  | [] => if word = [] then [] else [word]
  | x :: b =>
    match skip with
    | k + 1 => words k word b
    | 0 =>
      match blank (x :: b) with
      | 0 => words 0 (word ++ [x]) b
      | k + 1 => if word = [] then words k [] b else word :: words k [] b

/-- `strings.Fields`. -/
def fields (b : List UInt8) : List (List UInt8) := words 0 [] b

/-- `strings.Cut` at a byte. -/
def cutByte (c : UInt8) (b : List UInt8) : Option (List UInt8 × List UInt8) :=
  match b.dropWhile (· ≠ c) with
  | [] => none
  | _ :: after => some (b.takeWhile (· ≠ c), after)

/-- `filepath.Join` of two paths. -/
def pathJoin (dir name : String) : String :=
  if dir = "" then if name = "" then "" else pathClean name
  else pathClean (dir ++ "/" ++ name)

/-- The elements of a cleaned path. -/
def parts (path : String) : List String := (Diff.names (pathClean path)).filter (· ≠ ".")

/-- The way from the path `base` to another one, by their elements. -/
def relParts : (base targ : List String) → Option (List String)
  | b :: base, t :: targ =>
    if b = t then relParts base targ
    else if b = ".." then none
    else some (List.replicate (base.length + 1) ".." ++ t :: targ)
  | [], targ => some targ
  | b :: base, [] => if b = ".." then none else some (List.replicate (base.length + 1) "..")

/-- `filepath.Rel`. -/
def pathRel (base targ : String) : Option String :=
  if pathClean base = pathClean targ then some "."
  else if hasPrefix base "/" ≠ hasPrefix targ "/" then none
  else (relParts (parts base) (parts targ)).map (join "/")

/-! ### Trees -/

def objectID (s : String) : Bool :=
  (s.toList.length = 40 || s.toList.length = 64) && s.toList.all fun c => !((c < '0' || '9' < c) &&
    (c < 'a' || 'f' < c))

structure TreeEntry where
  mode : List UInt8
  blob : List UInt8
  name : String
deriving DecidableEq, Repr

def safeTreePath (name : String) : Bool :=
  if name = "" ∨ name = "." ∨ hasPrefix name "/" ∨ '\x00' ∈ name.toList then false
  else if (split name '/').any fun part => part = ".." || part = "" || part = ".git" then false
  else pathClean name = name

/-- One line of `entries`. -/
def readEntry (line : List UInt8) : Except String TreeEntry :=
  match cutByte 9 line with
  | none => .error "gitrev: snapshot: invalid tree entry"
  | some (header, name) =>
    match fields header with
    | [mode, kind, blob] =>
      if (mode ≠ bytes "100644" ∧ mode ≠ bytes "100755") ∨ kind ≠ bytes "blob" ∨ safeTreePath (text name) = false then
        .error ("gitrev: snapshot: unsupported entry " ++ text name)
      else .ok { mode, blob, name := text name }
    | _ => .error "gitrev: snapshot: invalid tree entry"

def readEntries : List (List UInt8) → Except String (List TreeEntry)
  | [] => .ok []
  | line :: lines =>
    if line = [] then readEntries lines
    else match readEntry line with
      | .error e => .error e
      | .ok entry => (readEntries lines).map (entry :: ·)

/-! ### The system -/

/-- A call that fails, after some of its work. -/
structure Fault where
  text : String
  done : Nat := 0
deriving DecidableEq, Repr

structure File where
  mode : UInt32
  data : List UInt8
deriving DecidableEq, Repr

/-- What `git cat-file --batch` does with a request: whether it reports the object missing, and the bytes of the
    answer after which it ends, if it does. -/
structure Reply where
  missing : Bool := false
  ends : Option Nat := none
deriving DecidableEq, Repr

structure State where
  disk : Files.Disk File
  -- What becomes of the next calls.
  faults : List (Option Fault) := []
  -- What the batch process has written.
  pending : List UInt8 := []
  ended : Bool := false
  replies : List Reply := []

structure Host where
  cwd : Loc
  umask : UInt32 := 0
  -- The output of `git ls-tree -r -z --full-tree`.
  lsTree : String → Except String (List UInt8)
  blob : List UInt8 → List UInt8

abbrev M := EStateM String State

def fault : M (Option Fault) := fun s =>
  match s.faults with
  | [] => .ok none s
  | f :: faults => .ok f { s with faults }

def attempt : M Unit := do
  match ← fault with
  | some f => throw f.text
  | none => pure ()

def onDisk {α : Type} (op path : String) (call : Files.Disk File → Except Errno α × Files.Disk File) : M α := fun s =>
  match call s.disk with
  | (.ok a, disk) => .ok a { s with disk }
  | (.error e, disk) => .error (pathError op path e) { s with disk }

/-- The names of a path from the root, in a working directory. -/
def namesFrom (cwd : Loc) (path : String) : List String :=
  if hasPrefix path "/" then Diff.names path else cwd ++ Diff.names path

namespace Host
variable (h : Host)

def names (path : String) : List String := namesFrom h.cwd path

def mkdir (path : String) : M Unit := do
  attempt
  if path = "" then throw (pathError "mkdir" path .noEntry)
  else onDisk "mkdir" path fun d => Files.mkdir d (h.names path)

/-- The path in an error of `os.MkdirAll`. -/
def madePath (path : String) (made : List String) : String :=
  (if hasPrefix path "/" then "/" ++ join "/" made else join "/" (made.drop h.cwd.length)) ++ if made =
    h.names path then "" else "/"

/-- `os.MkdirAll`. A call that fails has made some of the directories. -/
def mkdirAll (path : String) : M Unit := do
  match ← fault with
  | some f => fun s => .error f.text { s with
      disk := (Files.mkdirAll s.disk true ((h.names path).reverse.drop f.done)).2 }
  | none => fun s =>
    match Files.mkdirAll s.disk false (h.names path).reverse with
    | (.ok (), disk) => .ok () { s with disk }
    | (.error (made, e), disk) => .error (pathError "mkdir" (h.madePath path made) e) { s with disk }

/-- `os.OpenFile` of a new file. -/
def openFile (path : String) (mode : UInt32) : M Loc := do
  attempt
  onDisk "open" path fun d => Files.create d (h.names path) { mode := mode &&& ~~~h.umask, data := [] }

/-- `os.RemoveAll`, which succeeds. -/
def removeAll (path : String) (s : State) : State := { s with disk := Files.removeAll s.disk (h.names path) }

def answer (id : List UInt8) (missing : Bool) : List UInt8 :=
  if missing then id ++ bytes " missing" ++ [10]
  else id ++ bytes " blob " ++ bytes (itoa (h.blob id).length) ++ 10 :: (h.blob id ++ [10])

def serve (id : List UInt8) (s : State) : State :=
  if s.ended then s
  else match s.replies with
    | [] => { s with pending := s.pending ++ h.answer id false }
    | r :: replies =>
      match r.ends with
      | none => { s with replies, pending := s.pending ++ h.answer id r.missing }
      | some n => { s with replies, pending := s.pending ++ (h.answer id r.missing).take n, ended := true }

/-- `io.WriteString` of a request. -/
def request (id : List UInt8) : M Unit := do
  attempt
  modify (h.serve id)

end Host

def chmod (file : Loc) (mode : UInt32) : M Unit := do
  attempt
  modify fun s => { s with disk := Files.modify s.disk file fun f => { f with mode } }

/-- `reader.ReadString('\n')`. -/
def readLine : M (List UInt8) := fun s =>
  match s.pending.dropWhile (· ≠ 10) with
  | [] => .error "EOF" { s with pending := [] }
  | _ :: pending => .ok (s.pending.takeWhile (· ≠ 10) ++ [10]) { s with pending }

def readByte : M UInt8 := fun s =>
  match s.pending with
  | [] => .error "EOF" s
  | x :: pending => .ok x { s with pending }

/-- Copies `n` bytes of what is pending to a file. -/
def copy (file : Loc) (n : Nat) (s : State) : State :=
  { s with disk := Files.modify s.disk file fun f => { f with
    data := f.data ++ s.pending.take n }, pending := s.pending.drop n }

/-- `io.CopyN`: its error, if any. -/
def copyN (file : Loc) (n : Nat) : M (Option String) := do
  match ← fault with
  | some f => fun s => .ok (some f.text) (copy file (min f.done n) s)
  | none => fun s => .ok (if s.pending.length < n then some "EOF" else none) (copy file n s)

def close : M (Option String) := do
  match ← fault with
  | some f => pure (some f.text)
  | none => pure none

/-! ### Materialize -/

/-- The size in the header of an answer. -/
def blobSize (entry : TreeEntry) (total : Int) (header : List UInt8) : Except String Int :=
  match fields header with
  | [id, kind, size] =>
    if id ≠ entry.blob ∨ kind ≠ bytes "blob" then .error "gitrev: materialize: invalid blob response"
    else match atoi (text size) with
      | none => .error ("gitrev: materialize: tree exceeds cap " ++ itoa maxCopyBytes)
      | some n =>
        if n < 0 ∨ n > maxCopyBytes - total then .error ("gitrev: materialize: tree exceeds cap " ++ itoa maxCopyBytes)
          else .ok n
  | _ => .error "gitrev: materialize: invalid blob response"

def outside (dst target : String) : Bool :=
  match pathRel dst target with
  | none => true
  | some rel => rel = ".." || hasPrefix rel "../"

def fileMode (entry : TreeEntry) : UInt32 := if entry.mode = bytes "100755" then 0o755 else 0o644

def ofExcept {α : Type} (r : Except String α) : M α := fun s =>
  match r with
  | .ok a => .ok a s
  | .error e => .error e s

namespace Host
variable (h : Host)

def entries (tree : String) : Except String (List TreeEntry) :=
  if objectID tree = false then .error "gitrev: materialize: invalid tree"
  else match h.lsTree tree with
    | .error e => .error e
    | .ok raw => readEntries (raw.splitOn 0)

def nextBlob (total : Int) (entry : TreeEntry) : M Int := do
  attempt  -- `ctx.Err`
  h.request entry.blob
  let header ← readLine
  ofExcept (blobSize entry total header)

/-- Writes the next `n` bytes to a new file. -/
def writeBlob (target : String) (mode : UInt32) (n : Nat) : M Unit := do
  h.mkdirAll (pathDir target)
  let file ← h.openFile target mode
  chmod file mode
  let copyErr ← copyN file n
  let closeErr ← close
  ofExcept (copyErr.elim (.ok ()) .error)
  ofExcept (closeErr.elim (.ok ()) .error)
  let separator ← readByte
  if separator ≠ 10 then throw "gitrev: materialize: invalid blob separator" else pure ()

/-- One round of the loop: the bytes so far. -/
def writeEntry (dst : String) (total : Int) (entry : TreeEntry) : M Int := do
  let n ← h.nextBlob total entry
  let target := pathJoin dst entry.name
  if outside dst target then throw "gitrev: materialize: path outside destination"
  else do
    h.writeBlob target (fileMode entry) n.toNat
    pure (total + n)

def writeEntries (dst : String) : (total : Int) → List TreeEntry → M Unit
  | _, [] => pure ()
  | total, entry :: entries => do
    let total ← h.writeEntry dst total entry
    writeEntries dst total entries

/-- `StdinPipe`, `StdoutPipe` and `Start`. -/
def start : M Unit := do
  attempt
  attempt
  match ← fault with
  | some f => throw ("gitrev: materialize: " ++ f.text)
  | none => pure ()

def outcome (x : M Unit) (s : State) : Option String × State :=
  match x s with
  | .ok () s => (none, s)
  | .error e s => (some e, s)

/-- The deferred `Wait`: an error of its own is kept only if there is no other one. -/
def wait (dst : String) (r : Option String × State) : Option String × State :=
  match outcome attempt r.2 with
  | (none, s) => (r.1, s)
  | (some e, s) => if r.1 = none then (some ("gitrev: materialize: " ++ e), h.removeAll dst s) else (r.1, s)

def fill (dst : String) (entries : List TreeEntry) (s : State) : Option String × State :=
  match outcome start s with
  | (some e, s) => (some e, s)
  | (none, s) => h.wait dst (outcome (h.writeEntries dst 0 entries) s)

/-- The deferred removal of the directory. -/
def cleanup (dst : String) (r : Option String × State) : Option String × State :=
  if r.1 = none then r else (r.1, h.removeAll dst r.2)

/-- The deferred wrapping of the error. -/
def wrap (e : String) : String := if hasPrefix e "gitrev: materialize:" then e else "gitrev: materialize: " ++ e

def materialize (tree dst : String) (s : State) : Option String × State :=
  match h.entries tree with
  | .error e => (some (wrap e), s)
  | .ok entries =>
    match outcome (h.mkdir dst) s with
    | (some e, s) => (some (wrap ("gitrev: materialize: " ++ e)), s)
    | (none, s) =>
      let r := h.cleanup dst (h.fill dst entries s)
      (r.1.map wrap, r.2)

end Host

end Aquila.Gitrev

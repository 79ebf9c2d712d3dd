import Aquila.Diff
import Aquila.Lib.Files

/-! `internal/diff/apply.go`: a unified diff applied to the files of a directory. The disk is passed along; paths
    are texts, as the calls of `os` take them. -/

namespace Aquila.Diff
open Files (Entry Errno)

def maxApplyFile : Nat := 2 * 2 ^ 20

/-! ### Collecting -/

structure ApplyHunk where
  oldStart : Int := 0
  lines : List String := []
deriving DecidableEq, Repr

structure ApplyFile where
  path : String := ""
  status : Status := .modify
  binary : Bool := false
  hunks : List ApplyHunk := []
deriving DecidableEq, Repr

/-- The state of `collectApply` between two lines. -/
structure Collector where
  files : List ApplyFile := []
  cur : Option ApplyFile := none
  inHunk : Bool := false
  hunk : ApplyHunk := {}
deriving DecidableEq, Repr

/-- `hunkOldStart`: the number after the first `-`. -/
def hunkOldStart (line : String) : Option Int :=
  match cut line "-" with
  | none => none
  | some (_, rest) =>
    if !containsAny rest " ," then none
    else (atoi (.ofList (rest.toList.takeWhile fun c => c ≠ ' ' && c ≠ ','))).filter fun n => 0 ≤ n

namespace Collector

def onFile (c : Collector) (f : ApplyFile → ApplyFile) : Collector := { c with cur := c.cur.map f }

def flushHunk (c : Collector) : Collector :=
  match c.cur with
  | none => c
  | some f => if c.inHunk then { c with
      cur := some { f with hunks := f.hunks ++ [c.hunk] }, hunk := {}, inHunk := false } else c

/-- A file without a path, or with an invalid one, is dropped. -/
def flushFile (c : Collector) : Collector :=
  let c := c.flushHunk
  match c.cur with
  | none => c
  | some f =>
    if f.path = "" then { c with cur := none }
    else match canonicalPath f.path with
      | none => { c with cur := none }
      | some p => { c with files := c.files ++ [{ f with path := p }], cur := none }

def startFile (c : Collector) : Collector := { c.flushFile with cur := some {} }

def bodyLine (c : Collector) (line : String) : Collector :=
  match line.toList with
  | [] => { c with hunk := { c.hunk with lines := c.hunk.lines ++ [" "] } }
  | '\\' :: _ => c
  | ch :: _ =>
    if ch ∈ ['+', '-', ' ', '\t'] then { c with hunk := { c.hunk with lines := c.hunk.lines ++ [line] } }
      else c.flushHunk

end Collector

def ApplyFile.plusLine (f : ApplyFile) (p : String) : ApplyFile :=
  if p ≠ "/dev/null" ∧ p ≠ "" then { f with path := p }
  else if p = "/dev/null" then { f with status := .delete }
  else f

def ApplyFile.minusLine (f : ApplyFile) (p : String) : ApplyFile :=
  let f := if f.path = "" ∧ p ≠ "/dev/null" then { f with path := p } else f
  if p = "/dev/null" then { f with status := .add } else f

/-- One line of `collectApply`. -/
def collect (c : Collector) (line : String) : Except String Collector :=
  let c := if c.inHunk && !hunkBodyLine line then c.flushHunk else c
  let rest := fun n : Nat => String.ofList (line.toList.drop n)
  if hasPrefix line "diff --git " then
    let (a, b) := gitPaths (rest 11)
    .ok (c.startFile.onFile fun f => { f with path := if b ≠ "" then b else a })
  else if c.cur.isSome && hasPrefix line "new file mode" then .ok (c.onFile fun f => { f with status := .add })
  else if c.cur.isSome && hasPrefix line "deleted file mode" then .ok (c.onFile fun f => { f with status := .delete })
  else if c.cur.isSome && (hasPrefix line "rename from " || hasPrefix line "rename to ") then
    .error "diff: apply: rename not supported"
  else if c.cur.isSome && (hasPrefix line "Binary files " || line = "GIT binary patch") then
    .ok { c.onFile fun f => { f with binary := true } with inHunk := false }
  else if hasPrefix line "+++ " then
    let c := if c.cur.isNone then c.startFile else c
    .ok (c.onFile fun f => f.plusLine (headerPath (rest 4)))
  else if hasPrefix line "--- " then
    let c := if c.cur.isNone then c.startFile else c
    .ok (c.onFile fun f => f.minusLine (headerPath (rest 4)))
  else if hasPrefix line "@@ " then
    match c.cur with
    | none => .error "diff: apply: hunk without file header"
    | some f =>
      if f.binary then .ok c
      else match hunkOldStart line with
        | none => .error "diff: bad hunk header"
        | some n => .ok { c.flushHunk with inHunk := true, hunk := { oldStart := n } }
  else if c.inHunk && c.cur.any fun f => !f.binary then .ok (c.bodyLine line)
  else .ok c

def collectLines (lines : List String) : Except String (List ApplyFile) :=
  match lines.foldlM collect {} with
  | .error e => .error e
  | .ok c => .ok c.flushFile.files

/-- `collectApply`, after `Parse` has found the data to be UTF-8. -/
def collectApply (data : List UInt8) : Except String (List ApplyFile) :=
  let cs := (Utf8.runes data).filterMap id
  if '\n' ∉ cs ∧ data.length = maxBytes then .error "diff: apply: bufio.Scanner: token too long"
  else collectLines ((scanLines cs).map .ofList)

/-! ### Patching a text -/

/-- The state of `applyToLines`: what is written, what is left of the old lines, and the number of the next one. -/
structure Patcher where
  out : List String := []
  rest : List String
  cursor : Int := 1
deriving DecidableEq, Repr

def copyTo (start : Int) : (out rest : List String) → (cursor : Int) → Except String Patcher
  | out, [], cursor => if cursor < start then .error "hunk past end of file" else .ok { out, rest := [], cursor }
  | out, l :: rest, cursor =>
    if cursor < start then copyTo start (out ++ [l]) rest (cursor + 1) else .ok { out, rest := l :: rest, cursor }

/-- A line of a hunk that must be the next old line. -/
def Patcher.expect (p : Patcher) (want : String) (keep : Bool) : Except String Patcher :=
  match p.rest with
  | [] => .error "context mismatch"
  | l :: rest =>
    if l ≠ want then .error "context mismatch"
    else .ok { out := if keep then p.out ++ [l] else p.out, rest, cursor := p.cursor + 1 }

def Patcher.line (p : Patcher) (ln : String) : Except String Patcher :=
  match (if ln = "" then " " else ln).toList with
  | ' ' :: want | '\t' :: want => p.expect (.ofList want) true
  | '-' :: want => p.expect (.ofList want) false
  | '+' :: new => .ok { p with out := p.out ++ [.ofList new] }
  | _ => .ok p

def Patcher.hunk (p : Patcher) (h : ApplyHunk) : Except String Patcher :=
  let start := if h.oldStart = 0 then 1 else h.oldStart
  if start < p.cursor then .error "hunks out of order"
  else match copyTo start p.out p.rest p.cursor with
    | .error e => .error e
    | .ok p => h.lines.foldlM Patcher.line p

def applyToLines (orig : List String) (hunks : List ApplyHunk) : Except String String :=
  match hunks.foldlM Patcher.hunk { rest := orig } with
  | .error e => .error e
  | .ok p =>
    let out := p.out ++ p.rest
    let body := join "\n" out
    .ok (if orig ≠ [] ∨ out ≠ [] then body ++ "\n" else body)

def splitLines (text : String) : List String :=
  if text = "" then []
  else
    let s := trimSuffix text "\n"
    if s = "" then [""] else split s '\n'

/-! ### Files -/

abbrev Disk := Files.Disk (List UInt8)

def errnoText : Errno → String
  | .noEntry => "no such file or directory"
  | .notDir => "not a directory"
  | .isDir => "is a directory"
  | .occupied => "file exists"
  | .notEmpty => "directory not empty"
  | .busy => "device or resource busy"
  | .loop => "too many levels of symbolic links"
  | .invalid => "invalid argument"
  | .tooLong => "file name too long"

/-- The text of a `PathError`. -/
def pathError (op path : String) (e : Errno) : String := op ++ " " ++ path ++ ": " ++ errnoText e

/-- The names of an absolute path. -/
def names (path : String) : List String := (split path '/').filter (· ≠ "")

namespace Os

/-- The bytes that a name may have, and those of a path with the one that ends it. -/
def maxName : Nat := 255
def maxPath : Nat := 4096

def pathOf (ns : List String) (slash : Bool) : String := "/" ++ join "/" ns ++ if slash then "/" else ""

/-- A path that the system does not refuse for what is written in it. -/
def Takes (ns : List String) (slash : Bool := false) : Prop :=
  (∀ n ∈ ns, '\x00' ∉ n.toList ∧ byteLen n ≤ maxName) ∧ byteLen (pathOf ns slash) < maxPath

instance (ns : List String) (slash : Bool) : Decidable (Takes ns slash) := inferInstanceAs (Decidable (_ ∧ _))

section
variable (t : Files.Tree (List UInt8))

def refusal (ns : List String) (slash : Bool := false) : Errno :=
  if ∃ n ∈ ns, '\x00' ∈ n.toList then .invalid
  else if maxPath ≤ byteLen (pathOf ns slash) then .tooLong
  else
    -- the length of a name is noticed when the way has led to it
    match Files.enter t "" (Files.resolve t true (ns.takeWhile fun n => byteLen n ≤ maxName)) with
    | .error e => e
    | .ok _ => .tooLong

def call {β : Type} (path : String) (f : List String → Except Errno β) : Except Errno β :=
  if Takes (names path) then f (names path) else .error (refusal t (names path))

def stat (path : String) : Except String (Entry (List UInt8)) :=
  (call t path (Files.stat t)).mapError (pathError "stat" path)

def lstat (path : String) : Except String (Entry (List UInt8)) :=
  (call t path (Files.lstat t)).mapError (pathError "lstat" path)

def readFile (path : String) : Except String (List UInt8) :=
  match call t path (Files.stat t) with
  | .error e => .error (pathError "open" path e)
  | .ok (.file data) => .ok data
  | .ok _ => .error (pathError "read" path .isDir)

end

def change (op : String) (d : Disk) (path : String) (f : Disk → List String → Except Errno Unit × Disk) :
    Except String Unit × Disk :=
  match if Takes (names path) then f d (names path) else (.error (refusal d.tree (names path)), d) with
  | (.ok (), d) => (.ok (), d)
  | (.error e, d) => (.error (pathError op path e), d)

def writeFile (d : Disk) (path : String) (data : List UInt8) : Except String Unit × Disk :=
  change "open" d path fun d ns => Files.write d ns data

def remove (d : Disk) (path : String) : Except String Unit × Disk := change "remove" d path Files.remove

/-- `os.MkdirAll`. A path that is refused is not found, so what is above it is made before it is refused again. -/
def makeDirs (d : Disk) (slash : Bool) : (rev : List String) → Except (List String × Errno) Unit × Disk
  | [] => (.ok (), d)
  | n :: up =>
    if Takes (n :: up).reverse slash then Files.mkdirAll d slash (n :: up)
    else match makeDirs d true up with
      | (.error e, d) => (.error e, d)
      | (.ok (), d) => (.error ((n :: up).reverse, refusal d.tree (n :: up).reverse slash), d)

def mkdirAll (d : Disk) (path : String) : Except String Unit × Disk :=
  match makeDirs d false (names path).reverse with
  | (.ok (), d) => (.ok (), d)
  | (.error (made, e), d) => (.error (pathError "mkdir" (pathOf made (made ≠ names path)) e), d)

end Os

/-- The size of a file. That of a directory depends on the system and is below the limit. -/
def size : Entry (List UInt8) → Nat
  | .file data => data.length
  | .dir => 0
  | .link _ target => byteLen (join "/" target)

/-! ### Applying -/

/-- `filepath.Abs`, in the working directory `cwd`. -/
def absPath (cwd path : String) : String :=
  if hasPrefix path "/" then pathClean path else pathClean (cwd ++ "/" ++ path)

/-- `filepath.Dir`. -/
def pathDir (path : String) : String := pathClean (.ofList (path.toList.reverse.dropWhile (· ≠ '/')).reverse)

def containedPath (root rel : String) : Except String String :=
  if rel = "" then .error "diff: apply: empty path"
  else
    -- `root` is absolute, so that both calls of `filepath.Abs` only clean
    let clean := pathClean (pathClean (root ++ "/" ++ rel))
    let rootAbs := pathClean root
    if clean ≠ rootAbs ∧ hasPrefix clean (rootAbs ++ "/") = false then .error "diff: apply: path escapes root"
    else .ok clean

def applyAdd (dest : String) (f : ApplyFile) (d : Disk) : Except String Unit × Disk :=
  match Os.lstat d.tree dest with
  | .ok _ => (.error ("diff: apply: " ++ f.path ++ " already exists"), d)
  | .error _ =>
    match applyToLines [] f.hunks with
    | .error e => (.error ("diff: apply " ++ f.path ++ ": " ++ e), d)
    | .ok out =>
      match Os.mkdirAll d (pathDir dest) with
      | (.error e, d) => (.error ("diff: apply: " ++ e), d)
      | (.ok (), d) => Os.writeFile d dest (bytes out)

def applyDelete (dest : String) (d : Disk) : Except String Unit × Disk :=
  match Os.remove d dest with
  | (.error e, d) => (.error ("diff: apply: " ++ e), d)
  | (.ok (), d) => (.ok (), d)

def applyModify (dest : String) (f : ApplyFile) (d : Disk) : Except String Unit × Disk :=
  match Os.lstat d.tree dest with
  | .error e => (.error ("diff: apply: " ++ f.path ++ ": " ++ e), d)
  | .ok (.link _ _) => (.error ("diff: apply: refusing symlink " ++ f.path), d)
  | .ok st =>
    if size st > maxApplyFile then (.error ("diff: apply: " ++ f.path ++ " too large"), d)
    else match Os.readFile d.tree dest with
      | .error e => (.error ("diff: apply: " ++ e), d)
      | .ok raw =>
        match decodeText raw with
        | none => (.error ("diff: apply: " ++ f.path ++ " is not utf-8"), d)
        | some cs =>
          match applyToLines (splitLines (.ofList cs)) f.hunks with
          | .error e => (.error ("diff: apply " ++ f.path ++ ": " ++ e), d)
          | .ok out => Os.writeFile d dest (bytes out)

def applyOne (root : String) (f : ApplyFile) (d : Disk) : Except String Unit × Disk :=
  if f.binary then (.error "diff: apply: binary not supported", d)
  else match containedPath root f.path with
    | .error e => (.error e, d)
    | .ok dest =>
      match f.status with
      | .add => applyAdd dest f d
      | .delete => applyDelete dest d
      | _ => applyModify dest f d

def applyAll (root : String) : List ApplyFile → Disk → Except String Unit × Disk
  | [], d => (.ok (), d)
  | f :: fs, d =>
    match applyOne root f d with
    | (.error e, d) => (.error e, d)
    | (.ok (), d) => applyAll root fs d

/-- `Apply`, in the working directory `cwd`. -/
def apply (lib : Lib) (cwd root : String) (data : List UInt8) (d : Disk) : Except String Unit × Disk :=
  match parse lib data with
  | .error e => (.error e, d)
  | .ok _ =>
    let abs := absPath cwd root
    match Os.stat d.tree abs with
    | .error e => (.error ("diff: apply: " ++ e), d)
    | .ok .dir =>
      match collectApply data with
      | .error e => (.error e, d)
      | .ok files => if files = [] then (.error "diff: apply: no files", d) else applyAll abs files d
    | .ok _ => (.error ("diff: apply: " ++ root ++ " is not a directory"), d)

end Aquila.Diff

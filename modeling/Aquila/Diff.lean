import Aquila.Go

/-! `internal/diff/parse.go`: the files that a unified diff touches, and the new lines it touches in them. -/

namespace Aquila
namespace Diff

def maxBytes : Nat := 2 ^ 20
def maxFiles : Nat := 500
def maxHunks : Nat := 4000

inductive Status where
  | modify
  | add
  | delete
  | rename
deriving DecidableEq, Repr

structure File where
  path : String := ""
  status : Status := .modify
  binary : Bool := false
  lines : List Int := []
deriving DecidableEq, Repr

end Diff

/-- A parsed unified diff. -/
structure Diff where
  files : List Diff.File := []
deriving DecidableEq, Repr

namespace Diff

/-! ### Paths -/

/-- `CanonicalPath`: the path without the prefixes of git and of the shop, unless it leaves its directory. -/
def canonicalPath (raw : String) : Option String :=
  let s := replaceAll (trimSpace raw) '\\' '/'
  let s := pathClean (trimPrefix (trimPrefix s "a/") "b/")
  if s = "." ∨ s = "/" ∨ hasPrefix s "../" ∨ contains s "/../" ∨ contains s ".." then none
  else
    let s := trimPrefix (trimPrefix s "/") "examples/shop/"
    if s = "" then none else some s

def headerPath (rest : String) : String := cutBefore (cutBefore (trimSpace rest) '\t') ' '

def gitPaths (rest : String) : String × String :=
  match fields rest with
  | [] => ("", "")
  | [a] => (a, "")
  | a :: b :: more => (a, (b :: more).getLast (by simp))

/-! ### Hunks -/

/-- `hunkNewStart`: the number after the first ` +`. -/
def hunkNewStart (line : String) : Option Int :=
  match cut line " +" with
  | none => none
  | some (_, rest) =>
    let rest :=
      if rest.toList.contains ' ' then cutBefore rest ' '
      else match cut rest "@@" with
        | some (before, _) => before
        | none => rest
    let rest : String := .ofList (trimBoth (fun c => c = ' ' || c = '@') rest.toList)
    (atoi (cutBefore rest ',')).filter fun n => 0 ≤ n

def hunkBodyLine (line : String) : Bool :=
  match line.toList with
  | [] => true
  | c :: _ => c ∈ [' ', '\t', '+', '-', '\\']

/-- `uniqueInts`: the positive numbers, sorted, each once. -/
def uniqueInts (ns : List Int) : List Int := (ns.filter (0 < ·)).dedup.insertionSort (· ≤ ·)

/-! ### Parsing -/

/-- The state of `Parse` between two lines. -/
structure Reader where
  files : List File := []
  cur : Option File := none
  inHunk : Bool := false
  newLn : Int := 0
  hunks : Nat := 0
deriving DecidableEq, Repr

def Reader.onFile (r : Reader) (f : File → File) : Reader := { r with cur := r.cur.map f }

/-- `flush`: the current file is done. -/
def flush (lib : Lib) (r : Reader) : Except String Reader :=
  match r.cur with
  | none => .ok r
  | some f =>
    if f.path = "" then .error "diff: file missing path"
    else match canonicalPath f.path with
      | none => .error ("diff: invalid path " ++ lib.quote f.path)
      | some p =>
        if r.files.length + 1 > maxFiles then .error ("diff: file cap " ++ itoa maxFiles ++ " exceeded")
        else .ok { r with files := r.files ++ [{ f with
          path := p, lines := uniqueInts f.lines }], cur := none, inHunk := false }

def startFile (lib : Lib) (r : Reader) : Except String Reader :=
  match flush lib r with
  | .error e => .error e
  | .ok r => .ok { r with cur := some {} }

def File.plusLine (f : File) (p : String) : File :=
  if p ≠ "/dev/null" ∧ p ≠ "" then { f with path := p }
  else if p = "/dev/null" then { f with status := .delete }
  else f

def File.minusLine (f : File) (p : String) : File :=
  let f := if f.path = "" ∧ p ≠ "/dev/null" then { f with path := p } else f
  if p = "/dev/null" then { f with status := .add } else f

def bodyLine (r : Reader) (line : String) : Reader :=
  match line.toList with
  | [] => { r with newLn := int64 (r.newLn + 1) }
  | '+' :: _ => { r.onFile fun f => { f with lines := f.lines ++ [r.newLn] } with newLn := int64 (r.newLn + 1) }
  | '-' :: _ => r.onFile fun f => { f with lines := f.lines ++ [r.newLn] }
  | ' ' :: _ | '\t' :: _ => { r with newLn := int64 (r.newLn + 1) }
  | '\\' :: _ => r
  | _ => { r with inHunk := false }

/-- One line of `Parse`. -/
def step (lib : Lib) (r : Reader) (line : String) : Except String Reader :=
  let r := if r.inHunk && !hunkBodyLine line then { r with inHunk := false } else r
  let rest := fun n : Nat => String.ofList (line.toList.drop n)
  if hasPrefix line "diff --git " then
    match startFile lib r with
    | .error e => .error e
    | .ok r =>
      let (a, b) := gitPaths (rest 11)
      .ok (r.onFile fun f => { f with path := if b ≠ "" then b else a })
  else if r.cur.isSome && hasPrefix line "new file mode" then .ok (r.onFile fun f => { f with status := .add })
  else if r.cur.isSome && hasPrefix line "deleted file mode" then .ok (r.onFile fun f => { f with status := .delete })
  else if r.cur.isSome && (hasPrefix line "rename from " || hasPrefix line "rename to ") then
    .ok (r.onFile fun f =>
      { f with status := .rename, path := if hasPrefix line "rename to " then trimSpace (rest 10) else f.path })
  else if r.cur.isSome && (hasPrefix line "Binary files " || line = "GIT binary patch") then
    .ok { r.onFile fun f => { f with binary := true } with inHunk := false }
  else if hasPrefix line "+++ " then
    match (if r.cur.isNone then startFile lib r else .ok r) with
    | .error e => .error e
    | .ok r => .ok (r.onFile fun f => f.plusLine (headerPath (rest 4)))
  else if hasPrefix line "--- " then
    match (if r.cur.isNone then startFile lib r else .ok r) with
    | .error e => .error e
    | .ok r => .ok (r.onFile fun f => f.minusLine (headerPath (rest 4)))
  else if hasPrefix line "@@ " then
    match r.cur with
    | none => .error "diff: hunk without file header"
    | some f =>
      if f.binary then .ok r
      else match hunkNewStart line with
        | none => .error "diff: bad hunk header"
        | some n =>
          if r.hunks + 1 > maxHunks then .error ("diff: hunk cap " ++ itoa maxHunks ++ " exceeded")
          else .ok { r with hunks := r.hunks + 1, inHunk := true, newLn := n }
  else if r.inHunk && r.cur.any fun f => !f.binary then .ok (bodyLine r line)
  else .ok r

/-- `bufio.ScanLines`: the lines without their ends. -/
def scanLines (cs : List Char) : List (List Char) :=
  let pieces := splitChars '\n' cs
  let pieces := if pieces.getLast? = some [] then pieces.dropLast else pieces
  pieces.map fun l => if l.getLast? = some '\r' then l.dropLast else l

def decodeText (data : List UInt8) : Option (List Char) :=
  if none ∈ Utf8.runes data then none else some ((Utf8.runes data).filterMap id)

/-- The lines of a text, one after the other, and the end of the last file. -/
def read (lib : Lib) (lines : List String) : Except String Diff :=
  match lines.foldlM (step lib) {} with
  | .error e => .error e
  | .ok r =>
    match flush lib r with
    | .error e => .error e
    | .ok r => .ok { files := r.files }

def parse (lib : Lib) (data : List UInt8) : Except String Diff :=
  if data.length > maxBytes then .error ("diff: exceeds " ++ itoa maxBytes ++ " bytes")
  else if data.length = 0 then .ok {}
  else match decodeText data with
    | none => .error "diff: not utf-8"
    | some cs =>
      -- a line that fills the buffer of the scanner is all of the data
      if '\n' ∉ cs ∧ data.length = maxBytes then .error "diff: scan: bufio.Scanner: token too long"
      else read lib ((scanLines cs).map .ofList)

end Diff
end Aquila

import Aquila.Graph
import Aquila.Impact
import Aquila.Lib.Sweep
import Aquila.Locate

/-! `internal/investigate`: the observed facts that match a question. -/

namespace Aquila.Investigate
open Impact (Finding)

/-- The classes of characters of `unicode`. -/
structure Unicode where
  isLetter : Char → Bool
  isNumber : Char → Bool

def maxQuestion : Nat := 2048

structure Report where
  question : String := ""
  origin : String := ""
  hits : List String := []
  notes : List String := []
deriving DecidableEq, Repr

structure Hop where
  src : String
  dst : String
  provenance : String := ""
deriving DecidableEq, Repr

structure Path where
  services : List String
  provenance : String := ""
deriving DecidableEq, Repr

structure Bind where
  service : String := ""
  name : String := ""
  file : String := ""
  route : String := ""
  provenance : String := ""
  line : Int := 0
deriving DecidableEq, Repr

structure Input where
  question : String := ""
  origin : String := ""
  services : List String := []
  hops : List Hop := []
  paths : List Path := []
  routes : List String := []
  binds : List Bind := []
  impact : Option Impact.Report := none
deriving DecidableEq, Repr

/-! ### Tokens -/

def stop (t : String) : Bool :=
  t ∈ ["the", "and", "for", "how", "what", "why", "can", "this", "that", "with", "from", "are", "was", "does", "did",
    "not", "our", "any"]

def tokens (lib : Lib) (u : Unicode) (q : String) : List String :=
  let words := (((lib.toLower q).toList.splitOnP fun c => !u.isLetter c && !u.isNumber c).filter
    (· ≠ [])).map String.ofList
  words.foldl (fun out t => if byteLen t < 3 || stop t || t ∈ out then out else out ++ [t]) []

/-- `match`. -/
def match_ (lib : Lib) (fact : String) (tokens : List String) : Bool :=
  tokens.any fun t => contains (lib.toLower fact) t

/-! ### Lines -/

def label (kind text prov : String) : String :=
  let text := trimSpace text
  if text = "" then "" else if prov = "" then kind ++ "  " ++ text else kind ++ "  " ++ text ++ "  " ++ prov

def formatHop (h : Hop) : String :=
  label "hop" (h.src ++ " -> " ++ h.dst) (if h.provenance = "" then Graph.provenanceObservedParent else h.provenance)

def formatPath (p : Path) : String :=
  label "path" (join " -> " p.services) (if p.provenance = "" then Graph.provenanceObservedParent else p.provenance)

def formatBind (b : Bind) : String :=
  let text := trimSpace (b.service ++ " " ++ b.name ++ " " ++ b.file)
  let text := if b.line > 0 then text ++ ":" ++ itoa b.line else text
  let route := trimSpace b.route
  let text := if route ≠ "" then text ++ " " ++ route else text
  label "bind" text (if b.provenance = "" then Locate.provenanceCodeAttrs else b.provenance)

def findingText (f : Finding) : String :=
  let loc := trimSpace (f.name ++ " " ++ f.file)
  if f.line > 0 then loc ++ ":" ++ itoa f.line else loc

def provenanceOr (got fallback : String) : String :=
  let got := trimSpace got
  if got = "" then fallback else got

def impactFacts (rep : Impact.Report) : List String :=
  rep.files.map (fun f => label "file" f "changed_lines") ++
  rep.direct.map (fun f => label "direct" (findingText f) (provenanceOr f.reason "changed_lines")) ++
  rep.likely.map (fun f => label "likely" (findingText f) (provenanceOr f.provenance "typed_call")) ++
  rep.runtime.map (fun f =>
    label "runtime" (trimSpace (f.route ++ " " ++ f.path ++ " " ++ f.name))
      (provenanceOr f.provenance Graph.provenanceObservedParent)) ++
  rep.unobserved.map fun f => label "unobserved" (findingText f) (provenanceOr f.reason "unobserved")

/-! ### The join of the tokens with the facts -/

section
variable (lib : Lib) (inp : Input) (tokens : List String)

/-- The services that a token names, by themselves or by a fact about them. -/
def matched : List String :=
  inp.services.filter (match_ lib · tokens) ++
  inp.hops.flatMap (fun h => [h.src, h.dst].filter (match_ lib · tokens)) ++
  inp.paths.flatMap (fun p => p.services.filter (match_ lib · tokens)) ++
  (inp.binds.filter fun b => (match_ lib b.service tokens || match_ lib b.name tokens || match_ lib b.file tokens ||
    match_ lib b.route tokens) && b.service ≠ "").map (·.service) ++
  (inp.impact.elim [] fun rep =>
    (rep.direct.filter fun f => (match_ lib f.name tokens || match_ lib f.file tokens || match_ lib f.service tokens ||
      match_ lib f.route tokens) && f.service ≠ "").map (·.service) ++
    (rep.runtime.filter fun f => (match_ lib f.name tokens || match_ lib f.path tokens || match_ lib f.service tokens ||
      match_ lib f.route tokens) && f.service ≠ "").map (·.service))

def Hop.ends (h : Hop) : String × String := (h.src, h.dst)

/-- The services that are cited: those that are matched, and those that one pass over the hops adds. -/
def seeds : Finset String := Sweep.sweep (matched lib inp tokens).toFinset (inp.hops.map Hop.ends)

def pathTouches (services : List String) (seed : Finset String) : Bool := services.any (· ∈ seed)

def impactTouches (rep : Impact.Report) (seed : Finset String) : Bool :=
  rep.files.any (match_ lib · tokens) ||
  (rep.direct ++ (rep.likely ++ (rep.runtime ++ rep.unobserved))).any fun f =>
    (decide (f.service ∈ seed) && f.service ≠ "") || match_ lib f.name tokens || match_ lib f.file tokens || match_ lib
      f.route tokens ||
      match_ lib f.path tokens

/-- The lines of the facts that are cited for some services, in order. -/
def lines (seed : Finset String) : List String :=
  (inp.services.filter (· ∈ seed)).map (label "service" · "") ++
  (inp.hops.filter fun h => decide (h.src ∈ seed) || decide (h.dst ∈ seed)).map formatHop ++
  (inp.paths.filter fun p => pathTouches p.services seed).map formatPath ++
  inp.routes.filter (match_ lib · tokens) ++
  (inp.binds.filter fun b => decide (b.service ∈ seed) || match_ lib b.name tokens || match_ lib b.file tokens ||
    match_ lib b.route tokens).map formatBind ++
  inp.impact.elim [] fun rep => if impactTouches lib tokens rep seed then impactFacts rep else []

/-- A line is added once, unless it is empty. -/
def add (out : List String) (line : String) : List String := if line = "" ∨ line ∈ out then out else out ++ [line]

/-- `join`. -/
def joined : List String := (lines lib inp tokens (seeds lib inp tokens)).foldl add []

end

/-- `Search`. -/
def search (lib : Lib) (u : Unicode) (inp : Input) : Except String Report :=
  let q := trimSpace inp.question
  if q = "" then
    match inp.impact with
    | none => .error "investigate: empty question"
    | some rep =>
      let hits := impactFacts rep
      let notes := ["facts only. not a patch. not validated.", "question omitted: citing the local worktree"]
      .ok { question := "local edit", origin := inp.origin, hits,
            notes := if hits = [] then notes ++ ["no local-edit facts"] else notes }
  else if byteLen q > maxQuestion then .error "investigate: question too large"
  else
    let tokens := tokens lib u q
    let notes := ["facts only. not a patch. not validated."]
    if tokens = [] then .ok { question := q, origin := inp.origin, notes := notes ++ ["no searchable token"] }
    else
      let hits := joined lib inp tokens
      .ok { question := q, origin := inp.origin, hits,
            notes := if hits = [] then notes ++ ["no token matched observed facts"] else notes }

end Aquila.Investigate

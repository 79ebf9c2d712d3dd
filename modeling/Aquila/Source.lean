import Aquila.Go
import Aquila.Lib.Keyed

/-! `internal/source`: the graph of the packages, files and functions of a Go module; what `go/packages` and
    `go/types` say about it is the record `Module`. -/

namespace Aquila.Source

def maxNodes : Nat := 20000
def maxEdges : Nat := 80000

inductive NodeKind where
  | package
  | file
  | function
deriving DecidableEq, Repr

inductive EdgeKind where
  | imports
  | contains
  | calls
deriving DecidableEq, Repr

def EdgeKind.text : EdgeKind → String
  | imports => "imports"
  | contains => "contains"
  | calls => "calls"

/-- `ProvenanceTypes` and `ProvenanceSyntax`. -/
inductive Provenance where
  | types
  | ast
deriving DecidableEq, Repr

structure Node where
  id : String
  kind : NodeKind
  name : String := ""
  pkg : String := ""
  file : String := ""
  line : Int := 0
  -- The closing line of a function body, zero when unknown.
  endLine : Int := 0
deriving DecidableEq, Repr

structure Edge where
  src : String
  dst : String
  kind : EdgeKind
  provenance : Provenance
deriving DecidableEq, Repr

/-- The key of `seenE`. -/
def Edge.key (e : Edge) : String := e.src ++ "\x00" ++ e.dst ++ "\x00" ++ e.kind.text

structure Snapshot where
  module : String
  nodes : List Node := []
  edges : List Edge := []
deriving DecidableEq, Repr

/-! ### Traversal -/

inductive Direction where
  | incoming
  | outgoing
deriving DecidableEq, Repr

def Direction.text : Direction → String
  | incoming => "in"
  | outgoing => "out"

structure Neighbor where
  node : Node
  kind : EdgeKind
  direction : Direction
deriving DecidableEq, Repr

namespace Snapshot

/-- `Node`: the last node that was indexed under the id. -/
def node (g : Snapshot) (id : String) : Option Node := Keyed.get (·.id) g.nodes.reverse id

/-- `Neighbors`: the edges from and to a node, by direction, kind and id. -/
def neighbors (g : Snapshot) (id : String) : Option (List Neighbor) :=
  if (g.node id).isNone then none
  else
    let out := (g.edges.filter (·.src = id)).filterMap fun e =>
      (g.node e.dst).map fun node => { node, kind := e.kind, direction := .outgoing }
    let in' := (g.edges.filter (·.dst = id)).filterMap fun e =>
      (g.node e.src).map fun node => { node, kind := e.kind, direction := .incoming }
    some ((out ++ in').insertionSort fun a b : Neighbor =>
      a.direction.text < b.direction.text ∨ a.direction = b.direction ∧
        (a.kind.text < b.kind.text ∨ a.kind = b.kind ∧ a.node.id ≤ b.node.id))

end Snapshot

/-! ### Modules -/

/-- A function of the type checker, with the file and the line of its position. -/
structure Func where
  fullName : String
  name : String := ""
  pkg : Option String
  filename : String
  line : Int
deriving DecidableEq, Repr

/-- The declaration of a function, the line where it ends, and the functions that its body calls, if it has one. -/
structure FuncDecl where
  func : Func
  stop : Int
  body : Option (List Func) := none
  positive : 1 ≤ func.line
  ordered : func.line ≤ stop

structure SourceFile where
  -- The compiled file, empty if there is none.
  abs : String
  decls : List FuncDecl
  placed : ∀ d ∈ decls, d.func.filename = abs

structure Package where
  pkgPath : String
  name : String := ""
  module : Option String
  errors : List String := []
  -- Whether the package has its types.
  typed : Bool := true
  -- The import paths, with the name of the package where it was loaded.
  imports : List (String × Option String) := []
  files : List SourceFile

structure Module where
  root : String
  -- `filepath.Rel` from the root, with slashes.
  rel : String → Option String
  named : ∀ abs, rel abs ≠ some ""
  pkgs : List Package

/-- The first module path that a package names. -/
def Module.path (m : Module) : String := ((m.pkgs.filterMap (·.module)).find? (· ≠ "")).getD ""

def inModule (pkgPath modulePath : String) : Bool := pkgPath = modulePath || hasPrefix pkgPath (modulePath ++ "/")

def relFile (m : Module) (abs : String) : Option String :=
  if abs = "" then none
  else match m.rel abs with
    | none => none
    | some rel => if rel = "." ∨ hasPrefix rel "../" then none else some rel

def pkgID (pkgPath : String) : String := "pkg:" ++ pkgPath
def fileID (rel : String) : String := "file:" ++ rel
def funcID (fullName : String) : String := "func:" ++ fullName

/-! ### The builder -/

/-- `seenN` and `seenE` are the ids of the nodes and the keys of the edges. -/
structure Builder where
  nodes : List Node := []
  edges : List Edge := []
  ends : List (String × Int) := []
  funcs : Nat := 0
deriving DecidableEq, Repr

namespace Builder

def node (b : Builder) (n : Node) : Except String Builder :=
  if n.id = "" then .error "source: empty node id"
  else if n.id ∈ b.nodes.map (·.id) then .ok b
  else if b.nodes.length + 1 > maxNodes then .error ("source: node cap " ++ itoa maxNodes ++ " exceeded")
  else .ok { b with nodes := b.nodes ++ [n] }

def edge (b : Builder) (e : Edge) : Except String Builder :=
  if e.src = "" ∨ e.dst = "" ∨ e.src = e.dst then .ok b
  else if e.key ∈ b.edges.map Edge.key then .ok b
  else if b.edges.length + 1 > maxEdges then .error ("source: edge cap " ++ itoa maxEdges ++ " exceeded")
  else .ok { b with edges := b.edges ++ [e] }

/-- The count and the end line of a declaration. -/
def declare (b : Builder) (id : String) (stop : Int) : Builder :=
  { b with funcs := b.funcs + 1, ends := Keyed.put (·.1) b.ends (id, stop) }

/-- The nodes with their end lines and the edges, sorted. -/
def graph (b : Builder) (module : String) : Snapshot :=
  let nodes := b.nodes.map fun n => { n with endLine := ((Keyed.get (·.1) b.ends n.id).map (·.2)).getD n.endLine }
  { module
    nodes := nodes.insertionSort fun n n' => n.id ≤ n'.id
    edges := b.edges.insertionSort fun e e' =>
      e.src < e'.src ∨ e.src = e'.src ∧ (e.dst < e'.dst ∨ e.dst = e'.dst ∧ e.kind.text ≤ e'.kind.text) }

end Builder

def funcNode (m : Module) (fn : Func) : Except String Node :=
  match fn.pkg with
  | none => .error ("source: function " ++ fn.fullName ++ " has no package")
  | some pkg => .ok
    { id := funcID fn.fullName, kind := .function, name := fn.name, pkg, file := (relFile m
      fn.filename).getD "", line := fn.line }

/-- Whether a call of the function is followed: it has a package, which is one of the module's. -/
def followed (m : Module) (callee : Func) : Bool :=
  match callee.pkg with
  | none => false
  | some pkg => inModule pkg m.path

/-- A call in the body of the function `fnID`. -/
def walkCall (m : Module) (fnID : String) (b : Builder) (callee : Func) : Except String Builder :=
  if !followed m callee then .ok b
  else do
    let cnode ← funcNode m callee
    let b ← b.node cnode
    b.edge { src := fnID, dst := cnode.id, kind := .calls, provenance := .types }

/-- A function declaration of the file `fid`. -/
def walkDecl (m : Module) (fid : String) (b : Builder) (fn : FuncDecl) : Except String Builder := do
  let fnNode ← funcNode m fn.func
  let b ← b.node fnNode
  let b ← (b.declare fnNode.id fn.stop).edge { src := fid, dst := fnNode.id, kind := .contains, provenance := .ast }
  (fn.body.getD []).foldlM (walkCall m fnNode.id) b

def addImport (m : Module) (pkgPath : String) (b : Builder) (imp : String × Option String) : Except String Builder :=
  match imp with
  | (_, none) => .ok b
  | (importPath, some name) =>
    if !inModule importPath m.path then .ok b
    else do
      let b ← b.node
        { id := pkgID importPath, kind := .package, name := if name = "" then importPath else name, pkg := importPath }
      b.edge { src := pkgID pkgPath, dst := pkgID importPath, kind := .imports, provenance := .types }

/-- A file of the package; files outside of the module are passed over. -/
def addFile (m : Module) (pkgPath : String) (b : Builder) (file : SourceFile) : Except String Builder :=
  match relFile m file.abs with
  | none => .ok b
  | some rel => do
    let b ← b.node { id := fileID rel, kind := .file, name := pathBase rel, pkg := pkgPath, file := rel }
    let b ← b.edge { src := pkgID pkgPath, dst := fileID rel, kind := .contains, provenance := .ast }
    file.decls.foldlM (walkDecl m (fileID rel)) b

def addPackage (m : Module) (b : Builder) (pkg : Package) : Except String Builder :=
  if !pkg.typed then .error ("source: package " ++ pkg.pkgPath ++ " missing types")
  else do
    let b ← b.node
      { id := pkgID pkg.pkgPath, kind := .package, name := if pkg.name = "" then pkg.pkgPath else pkg.name,
        pkg := pkg.pkgPath }
    let b ← pkg.imports.foldlM (addImport m pkg.pkgPath) b
    pkg.files.foldlM (addFile m pkg.pkgPath) b

/-- The packages that are added. -/
def Module.own (m : Module) : List Package := m.pkgs.filter fun pkg => inModule pkg.pkgPath m.path

/-- `Load`, from the packages that were read. -/
def load (m : Module) : Except String Snapshot :=
  let errs := m.pkgs.flatMap (·.errors)
  if m.pkgs.isEmpty then .error ("source: no packages in " ++ m.root)
  else if errs ≠ [] then .error ("source: load: " ++ join "\n" errs)
  else if m.path = "" then .error ("source: module path missing in " ++ m.root)
  else do
    let b ← m.own.foldlM (addPackage m) {}
    if b.funcs = 0 then .error ("source: no functions in " ++ m.path) else .ok (b.graph m.path)

end Aquila.Source

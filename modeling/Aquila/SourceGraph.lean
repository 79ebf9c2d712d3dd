import Aquila.Lib.Index
import Aquila.Source

/-! `internal/source/graph.go` and `snapshot.go`: source graphs with their indexes, and graphs built from snapshots. -/

namespace Aquila.Source

def NodeKind.text : NodeKind → String
  | package => "package"
  | file => "file"
  | function => "function"

def NodeKind.ofText (s : String) : Option NodeKind := [package, file, function].find? (·.text = s)

def EdgeKind.ofText (s : String) : Option EdgeKind := [imports, contains, calls].find? (·.text = s)

def Provenance.text : Provenance → String
  | types => "types"
  | ast => "syntax"

def Provenance.ofText (s : String) : Option Provenance := [types, ast].find? (·.text = s)

/-! ### Graphs -/

structure Graph where
  module : String
  nodes : List Node
  edges : List Edge
  byID : List (String × Nat)
  out : List (String × List Nat)
  into : List (String × List Nat)
deriving DecidableEq, Repr

namespace Graph

/-- `index`. -/
def index (module : String) (nodes : List Node) (edges : List Edge) : Graph :=
  { module, nodes, edges, byID := Index.last Node.id nodes, out := Index.all Edge.src edges,
    into := Index.all Edge.dst edges }

/-- `Node`. -/
def node (g : Graph) (id : String) : Option Node := (Keyed.get (·.1) g.byID id).bind fun x => g.nodes[x.2]?

/-- The neighbors at the other ends of some edges. -/
def hops (g : Graph) (edges : List Nat) (other : Edge → String) (direction : Direction) : List Neighbor :=
  (edges.filterMap (g.edges[·]?)).filterMap fun e => (g.node (other e)).map fun node =>
    { node, kind := e.kind, direction }

/-- `Neighbors`. -/
def neighbors (g : Graph) (id : String) : Option (List Neighbor) :=
  if (Keyed.get (·.1) g.byID id).isNone then none
  else
    some ((g.hops (Index.under g.out id) Edge.dst .outgoing ++ g.hops (Index.under g.into id) Edge.src
      .incoming).insertionSort
      fun a b : Neighbor => a.direction.text < b.direction.text ∨ a.direction = b.direction ∧
        (a.kind.text < b.kind.text ∨ a.kind = b.kind ∧ a.node.id ≤ b.node.id))

end Graph

/-- `builder.graph`, with its indexes. -/
def Builder.indexed (b : Builder) (module : String) : Graph :=
  .index module (b.graph module).nodes (b.graph module).edges

/-! ### Snapshots -/

namespace Raw

structure Node where
  id : String := ""
  kind : String := ""
  name : String := ""
  pkg : String := ""
  file : String := ""
  line : Int := 0
  endLine : Int := 0
deriving DecidableEq, Repr

structure Edge where
  src : String := ""
  dst : String := ""
  kind : String := ""
  provenance : String := ""
deriving DecidableEq, Repr

structure Snapshot where
  module : String := ""
  nodes : List Node := []
  edges : List Edge := []
deriving DecidableEq, Repr

end Raw

def Node.raw (n : Node) : Raw.Node :=
  { id := n.id, kind := n.kind.text, name := n.name, pkg := n.pkg, file := n.file, line := n.line,
    endLine := n.endLine }

def Edge.raw (e : Edge) : Raw.Edge :=
  { src := e.src, dst := e.dst, kind := e.kind.text, provenance := e.provenance.text }

/-- `Snapshot`. -/
def Graph.snapshot (g : Graph) : Raw.Snapshot :=
  { module := g.module, nodes := g.nodes.map Node.raw, edges := g.edges.map Edge.raw }

section
variable (lib : Lib)

def validateNode (n : Raw.Node) : Except String Node :=
  if n.id = "" then .error "source: node missing id"
  else match NodeKind.ofText n.kind with
    | none => .error ("source: unknown node kind " ++ lib.quote n.kind)
    | some kind => .ok { id := n.id, kind, name := n.name, pkg := n.pkg, file := n.file, line := n.line,
                         endLine := n.endLine }

def validateEdge (nodes : List String) (e : Raw.Edge) : Except String Edge :=
  if e.src ∉ nodes then .error ("source: dangling edge from " ++ e.src)
  else if e.dst ∉ nodes then .error ("source: dangling edge to " ++ e.dst)
  else match EdgeKind.ofText e.kind with
    | none => .error ("source: unknown edge kind " ++ lib.quote e.kind)
    | some kind => match Provenance.ofText e.provenance with
      | none => .error ("source: unknown provenance " ++ lib.quote e.provenance)
      | some provenance => .ok { src := e.src, dst := e.dst, kind, provenance }

/-- A node is valid and new among those that were seen. -/
def seeNode (seen : List Node) (n : Raw.Node) : Except String (List Node) := do
  let n ← validateNode lib n
  if n.id ∈ seen.map (·.id) then .error ("source: duplicate node " ++ n.id) else .ok (seen ++ [n])

/-- `FromSnapshot`. -/
def fromSnapshot (snap : Raw.Snapshot) : Except String Graph :=
  if trimSpace snap.module = "" then .error "source: snapshot missing module"
  else if snap.nodes.length > maxNodes then .error ("source: snapshot node cap " ++ itoa maxNodes ++ " exceeded")
  else if snap.edges.length > maxEdges then .error ("source: snapshot edge cap " ++ itoa maxEdges ++ " exceeded")
  else do
    let nodes ← snap.nodes.foldlM (seeNode lib) []
    let edges ← snap.edges.mapM (validateEdge lib (nodes.map (·.id)))
    .ok (.index snap.module nodes edges)

end

end Aquila.Source

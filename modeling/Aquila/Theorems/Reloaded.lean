import Aquila.Net
import Aquila.SourceGraph
import Aquila.Theorems.Extents

/-! Source graphs are closed, and survive their snapshots. -/

namespace Aquila.Source

/-! ### What the builder keeps -/

def Builder.ids (b : Builder) : List String := b.nodes.map (·.id)

/-- The nodes and the edges are distinct and within the limits, the edges join nodes, and there are nodes with the
    ids in `X`. -/
structure Holds (X : List String) (b : Builder) : Prop where
  distinct : b.ids.Nodup
  named : "" ∉ b.ids
  joined : ∀ e ∈ b.edges, e.src ∈ b.ids ∧ e.dst ∈ b.ids
  once : (b.edges.map Edge.key).Nodup
  nodeCap : b.nodes.length ≤ maxNodes
  edgeCap : b.edges.length ≤ maxEdges
  known : X ⊆ b.ids

namespace Holds
variable {m : Module} {X : List String} {b b' : Builder}

theorem mono {Y : List String} (h : Holds Y b) (sub : X ⊆ Y) : Holds X b :=
  { h with known := fun _ hx => h.known (sub hx) }

theorem node {n : Node} (h : Holds X b) (ok : b.node n = .ok b') : Holds (n.id :: X) b' := by
  unfold Builder.node at ok
  split_ifs at ok with empty seen cap
  · obtain rfl := Except.ok.inj ok
    exact { h with known := List.cons_subset.mpr ⟨seen, h.known⟩ }
  · obtain rfl := Except.ok.inj ok
    have ids : Builder.ids { b with nodes := b.nodes ++ [n] } = b.ids ++ [n.id] := by simp [Builder.ids]
    constructor
    · rw [ids]
      exact List.nodup_append.mpr ⟨h.distinct, List.nodup_singleton _,
        fun a ha c hc same => seen (List.mem_singleton.mp hc ▸ same ▸ ha)⟩
    · rw [ids]
      simpa using ⟨h.named, empty⟩
    · intro e he
      rw [ids]
      exact ⟨List.mem_append_left _ (h.joined e he).1, List.mem_append_left _ (h.joined e he).2⟩
    · exact h.once
    · simp only [List.length_append, List.length_singleton]
      omega
    · exact h.edgeCap
    · rw [ids]
      exact List.cons_subset.mpr ⟨by simp, fun x hx => List.mem_append_left _ (h.known hx)⟩

theorem edge {e : Edge} (h : Holds X b) (src : e.src ∈ X) (dst : e.dst ∈ X) (ok : b.edge e = .ok b') : Holds X b' := by
  unfold Builder.edge at ok
  split_ifs at ok with skipped seen cap
  · obtain rfl := Except.ok.inj ok
    exact h
  · obtain rfl := Except.ok.inj ok
    exact h
  · obtain rfl := Except.ok.inj ok
    refine { h with joined := fun f hf => ?_, once := ?_, edgeCap := ?_ }
    · rcases List.mem_append.mp hf with hf | hf
      · exact h.joined f hf
      · rw [List.mem_singleton.mp hf]
        exact ⟨h.known src, h.known dst⟩
    · simp only [List.map_append, List.map_cons, List.map_nil]
      exact List.nodup_append.mpr ⟨h.once,
        List.nodup_singleton _, by simpa using fun a ha same => seen (List.mem_map.mpr ⟨a, ha, same⟩)⟩
    · simp only [List.length_append, List.length_singleton]
      omega

theorem declare (h : Holds X b) (id : String) (stop : Int) : Holds X (b.declare id stop) :=
  ⟨h.distinct, h.named, h.joined, h.once, h.nodeCap, h.edgeCap, h.known⟩

theorem walkCall {fnID : String} {callee : Func} (fn : fnID ∈ X) (h : Holds X b)
    (ok : walkCall m fnID b callee = .ok b') : Holds X b' := by
  unfold Source.walkCall at ok
  split_ifs at ok
  · obtain rfl := Except.ok.inj ok
    exact h
  · obtain ⟨n, -, ok⟩ := Fold.bind_ok ok
    obtain ⟨next, added, ok⟩ := Fold.bind_ok ok
    exact ((h.node added).edge (List.mem_cons_of_mem _ fn) List.mem_cons_self ok).mono (List.subset_cons_self _ _)

theorem walkDecl {fid : String} {d : FuncDecl} (file : fid ∈ X) (h : Holds X b) (ok : walkDecl m fid b d = .ok b') :
    Holds X b' := by
  unfold Source.walkDecl at ok
  obtain ⟨n, -, ok⟩ := Fold.bind_ok ok
  obtain ⟨met, added, ok⟩ := Fold.bind_ok ok
  obtain ⟨next, joined, ok⟩ := Fold.bind_ok ok
  have declared := ((h.node added).declare n.id d.stop).edge (List.mem_cons_of_mem _ file) List.mem_cons_self joined
  exact (Fold.keep (walkCall List.mem_cons_self) declared ok).mono (List.subset_cons_self _ _)

theorem addImport {path : String} {imp : String × Option String} (pkg : pkgID path ∈ X) (h : Holds X b)
    (ok : addImport m path b imp = .ok b') : Holds X b' := by
  unfold Source.addImport at ok
  split at ok
  · obtain rfl := Except.ok.inj ok
    exact h
  · split at ok
    · obtain rfl := Except.ok.inj ok
      exact h
    · obtain ⟨next, added, ok⟩ := Fold.bind_ok ok
      exact ((h.node added).edge (List.mem_cons_of_mem _ pkg) List.mem_cons_self ok).mono (List.subset_cons_self _ _)

theorem addFile {path : String} {file : SourceFile} (pkg : pkgID path ∈ X) (h : Holds X b)
    (ok : addFile m path b file = .ok b') :
    Holds X b' := by
  unfold Source.addFile at ok
  split at ok
  · obtain rfl := Except.ok.inj ok
    exact h
  · obtain ⟨next, added, ok⟩ := Fold.bind_ok ok
    obtain ⟨joined, contained, ok⟩ := Fold.bind_ok ok
    have inside := (h.node added).edge (List.mem_cons_of_mem _ pkg) List.mem_cons_self contained
    exact (Fold.keep (walkDecl List.mem_cons_self) inside ok).mono (List.subset_cons_self _ _)

theorem addPackage {pkg : Package} (h : Holds X b) (ok : addPackage m b pkg = .ok b') : Holds X b' := by
  unfold Source.addPackage at ok
  split at ok
  · cases ok
  · obtain ⟨next, added, ok⟩ := Fold.bind_ok ok
    obtain ⟨imported, imports, ok⟩ := Fold.bind_ok ok
    have named := Fold.keep (addImport List.mem_cons_self) (h.node added) imports
    exact (Fold.keep (addFile List.mem_cons_self) named ok).mono (List.subset_cons_self _ _)

theorem of_packages {pkgs : List Package} (ok : pkgs.foldlM (Source.addPackage m) {} = .ok b) : Holds [] b := by
  have empty : Holds [] {} := ⟨List.nodup_nil,
    List.not_mem_nil, by simp, List.nodup_nil, Nat.zero_le _, Nat.zero_le _, List.nil_subset _⟩
  exact Fold.keep addPackage empty ok

end Holds

/-! ### Queries -/

section
variable {module : String} {nodes : List Node} {edges : List Edge}

theorem node_index (id : String) :
    (Graph.index module nodes edges).node id = ({ module, nodes, edges } : Snapshot).node id :=
  Index.get_last nodes id

theorem neighbors_index (id : String) :
    (Graph.index module nodes edges).neighbors id = ({ module, nodes, edges } : Snapshot).neighbors id := by
  have known : (Keyed.get (·.1) (Graph.index module nodes edges).byID id).isNone =
    (({ module, nodes, edges } : Snapshot).node id).isNone :=
    Index.isNone_last nodes id
  have out : (Index.under (Graph.index module nodes edges).out id).filterMap (edges[·]?) = edges.filter (·.src = id) :=
    Index.filterMap_under_all edges id
  have into : (Index.under (Graph.index module nodes edges).into id).filterMap (edges[·]?) = edges.filter
    (·.dst = id) :=
    Index.filterMap_under_all edges id
  have same : (Graph.index module nodes edges).edges = edges := rfl
  simp only [Graph.neighbors, Snapshot.neighbors, Graph.hops, known, same, out, into, node_index]

end

namespace Snapshot
variable {g : Snapshot}

theorem node_eq_some (distinct : (g.nodes.map (·.id)).Nodup) {id : String} {n : Node} : g.node id = some n ↔
    n ∈ g.nodes ∧ n.id = id := by
  have reversed : (g.nodes.reverse.map (·.id)).Nodup := by
    rw [List.map_reverse]
    exact List.nodup_reverse.mpr distinct
  constructor
  · intro h
    obtain ⟨hn, rfl⟩ := Keyed.get_eq_some h
    exact ⟨List.mem_reverse.mp hn, rfl⟩
  · rintro ⟨hn, rfl⟩
    exact Keyed.get_of_mem reversed (List.mem_reverse.mpr hn)

theorem mem_neighbors (distinct : (g.nodes.map (·.id)).Nodup) {n : Node} (hn : n ∈ g.nodes) {x : Neighbor} :
    x ∈ (g.neighbors n.id).getD [] ↔ x.node ∈ g.nodes ∧ ∃ e ∈ g.edges, e.kind = x.kind ∧
      ((x.direction = .outgoing ∧ e.src = n.id ∧ e.dst = x.node.id) ∨
        (x.direction = .incoming ∧ e.dst = n.id ∧ e.src = x.node.id)) := by
  have known : (g.node n.id).isNone = false := by
    rw [(node_eq_some distinct).mpr ⟨hn, rfl⟩]
    rfl
  unfold neighbors
  rw [known, if_neg Bool.false_ne_true, Option.getD_some, (List.perm_insertionSort _ _).mem_iff]
  simp only [List.mem_append, List.mem_filterMap, List.mem_filter, Option.map_eq_some_iff, decide_eq_true_eq,
    node_eq_some distinct]
  constructor
  · rintro (⟨e, ⟨he, src⟩, m, ⟨hm, dst⟩, rfl⟩ | ⟨e, ⟨he, dst⟩, m, ⟨hm, src⟩, rfl⟩)
    · exact ⟨hm, e, he, rfl, .inl ⟨rfl, src, dst.symm⟩⟩
    · exact ⟨hm, e, he, rfl, .inr ⟨rfl, dst, src.symm⟩⟩
  · obtain ⟨m, k, d⟩ := x
    rintro ⟨hm, e, he, rfl, ⟨rfl, src, dst⟩ | ⟨rfl, dst, src⟩⟩
    · exact .inl ⟨e, ⟨he, src⟩, m, ⟨hm, dst.symm⟩, rfl⟩
    · exact .inr ⟨e, ⟨he, dst⟩, m, ⟨hm, src.symm⟩, rfl⟩

end Snapshot

/-! ### Closed graphs -/

/-- The nodes are distinct, and the edges are distinct and join them in both directions. -/
structure Graph.Closed (g : Graph) : Prop where
  distinct : (g.nodes.map (·.id)).Nodup
  joined : ∀ e ∈ g.edges, e.src ∈ g.nodes.map (·.id) ∧ e.dst ∈ g.nodes.map (·.id)
  once : (g.edges.map fun e => (e.src, e.dst, e.kind)).Nodup
  symmetric : ∀ n m k, (n ∈ g.nodes ∧ ⟨m, k, .outgoing⟩ ∈ (g.neighbors n.id).getD []) ↔
    (m ∈ g.nodes ∧ ⟨n, k, .incoming⟩ ∈ (g.neighbors m.id).getD [])

theorem closed_index {module : String} {nodes : List Node} {edges : List Edge} (distinct : (nodes.map (·.id)).Nodup)
    (joined : ∀ e ∈ edges, e.src ∈ nodes.map (·.id) ∧ e.dst ∈ nodes.map (·.id)) (once : (edges.map Edge.key).Nodup) :
    (Graph.index module nodes edges).Closed := by
  refine ⟨distinct, joined, ?_, fun n m k => ?_⟩
  · have keys : edges.map Edge.key = (edges.map fun e => (e.src, e.dst, e.kind)).map
        fun t => t.1 ++ "\x00" ++ t.2.1 ++ "\x00" ++ t.2.2.text := by
      rw [List.map_map]
      rfl
    rw [keys] at once
    exact once.of_map
  · have out {n : Node} (hn : n ∈ nodes) := Snapshot.mem_neighbors (g := { module, nodes, edges }) distinct hn
      (x := ⟨m, k, .outgoing⟩)
    have into {m : Node} (hm : m ∈ nodes) := Snapshot.mem_neighbors (g := { module, nodes, edges }) distinct hm
      (x := ⟨n, k, .incoming⟩)
    simp only [true_and, reduceCtorEq, false_and, or_false, false_or] at out into
    rw [neighbors_index, neighbors_index]
    constructor
    · rintro ⟨hn, there⟩
      obtain ⟨hm, e, he, kind, src, dst⟩ := (out hn).mp there
      exact ⟨hm, (into hm).mpr ⟨hn, e, he, kind, dst, src⟩⟩
    · rintro ⟨hm, there⟩
      obtain ⟨hn, e, he, kind, dst, src⟩ := (into hm).mp there
      exact ⟨hn, (out hn).mpr ⟨hm, e, he, kind, src, dst⟩⟩

/-! ### Reloading -/

section
variable (lib : Lib)

theorem validateNode_raw {n : Node} (named : n.id ≠ "") : validateNode lib n.raw = .ok n := by
  have kind : NodeKind.ofText n.kind.text = some n.kind := by cases n.kind <;> decide
  simp [validateNode, Node.raw, named, kind]

theorem validateEdge_raw {ids : List String} {e : Edge} (src : e.src ∈ ids) (dst : e.dst ∈ ids) :
    validateEdge lib ids e.raw = .ok e := by
  have kind : EdgeKind.ofText e.kind.text = some e.kind := by cases e.kind <;> decide
  have provenance : Provenance.ofText e.provenance.text = some e.provenance := by cases e.provenance <;> decide
  simp [validateEdge, Edge.raw, src, dst, kind, provenance]

theorem foldlM_seeNode {nodes seen : List Node} (distinct : ((seen ++ nodes).map (·.id)).Nodup)
    (named : "" ∉ nodes.map (·.id)) :
    (nodes.map Node.raw).foldlM (seeNode lib) seen = .ok (seen ++ nodes) := by
  induction nodes generalizing seen with
  | nil => simp [pure, Except.pure]
  | cons n nodes ih =>
    rw [List.map_cons, List.mem_cons, not_or] at named
    have fresh : n.id ∉ seen.map (·.id) := by
      intro old
      rw [List.map_append, List.map_cons] at distinct
      exact (List.nodup_append.mp distinct).2.2 _ old _ List.mem_cons_self rfl
    have next : seeNode lib seen n.raw = .ok (seen ++ [n]) := by
      rw [seeNode, validateNode_raw lib (Ne.symm named.1)]
      exact if_neg fresh
    have whole : seen ++ [n] ++ nodes = seen ++ n :: nodes := by simp
    rw [List.map_cons, List.foldlM_cons, next, ← whole]
    exact ih (whole ▸ distinct) named.2

theorem mapM_validateEdge {ids : List String} {edges : List Edge} (joined : ∀ e ∈ edges, e.src ∈ ids ∧ e.dst ∈ ids) :
    (edges.map Edge.raw).mapM (validateEdge lib ids) = .ok edges := by
  induction edges with
  | nil => rfl
  | cons e edges ih =>
    have first := validateEdge_raw lib (joined e List.mem_cons_self).1 (joined e List.mem_cons_self).2
    rw [List.map_cons, List.mapM_cons, first, ih fun f hf => joined f (List.mem_cons_of_mem e hf)]
    rfl

/-- A graph within the limits whose edges join its distinct nodes is what its snapshot gives back. -/
theorem fromSnapshot_index {module : String} {nodes : List Node} {edges : List Edge} (blank : trimSpace module ≠ "")
    (nodeCap : nodes.length ≤ maxNodes) (edgeCap : edges.length ≤ maxEdges) (distinct : (nodes.map (·.id)).Nodup)
    (named : "" ∉ nodes.map (·.id)) (joined : ∀ e ∈ edges, e.src ∈ nodes.map (·.id) ∧ e.dst ∈ nodes.map (·.id)) :
    fromSnapshot lib (Graph.index module nodes edges).snapshot = .ok (.index module nodes edges) := by
  have snapshot : (Graph.index module nodes edges).snapshot = ⟨module, nodes.map Node.raw, edges.map Edge.raw⟩ := rfl
  have fewNodes : ¬(nodes.map Node.raw).length > maxNodes := by simpa using nodeCap
  have fewEdges : ¬(edges.map Edge.raw).length > maxEdges := by simpa using edgeCap
  have seen : (nodes.map Node.raw).foldlM (seeNode lib) [] = .ok ([] ++ nodes) := foldlM_seeNode lib distinct named
  rw [snapshot, fromSnapshot]
  dsimp only
  rw [if_neg blank, if_neg fewNodes, if_neg fewEdges, seen, List.nil_append]
  exact congrArg (fun r => r >>= fun es => Except.ok (Graph.index module nodes es)) (mapM_validateEdge lib joined)

end

/-- The graph of the packages of a module is closed, and its snapshot gives it back. -/
theorem indexed_closed_and_reloaded (lib : Lib) {m : Module} {pkgs : List Package} {b : Builder}
    (ok : pkgs.foldlM (addPackage m) {} = .ok b) (blank : trimSpace m.path ≠ "") :
    (b.indexed m.path).Closed ∧ ∃ g, fromSnapshot lib (b.indexed m.path).snapshot = .ok g ∧
      ∀ id, g.node id = (b.indexed m.path).node id ∧ g.neighbors id = (b.indexed m.path).neighbors id := by
  have holds := Holds.of_packages ok
  have ids : ((b.graph m.path).nodes.map (·.id)).Perm b.ids := by
    have sorted := (List.perm_insertionSort (fun n n' : Node => n.id ≤ n'.id)
      (b.nodes.map fun n => { n with endLine := ((Keyed.get (·.1) b.ends n.id).map (·.2)).getD n.endLine })).map (·.id)
    rw [List.map_map] at sorted
    exact sorted
  have edges : (b.graph m.path).edges.Perm b.edges := List.perm_insertionSort _ _
  have distinct := ids.nodup_iff.mpr holds.distinct
  have joined : ∀ e ∈ (b.graph m.path).edges, e.src ∈ (b.graph m.path).nodes.map (·.id) ∧
    e.dst ∈ (b.graph m.path).nodes.map (·.id) := by
    intro e he
    have ends := holds.joined e (edges.mem_iff.mp he)
    exact ⟨ids.mem_iff.mpr ends.1, ids.mem_iff.mpr ends.2⟩
  have nodeCap : (b.graph m.path).nodes.length ≤ maxNodes := by
    have length := ids.length_eq
    rw [List.length_map, Builder.ids, List.length_map] at length
    exact length ▸ holds.nodeCap
  refine ⟨closed_index distinct joined ((edges.map Edge.key).nodup_iff.mpr holds.once), b.indexed m.path, ?_,
    fun id => ⟨rfl, rfl⟩⟩
  exact fromSnapshot_index lib blank nodeCap (edges.length_eq ▸ holds.edgeCap) distinct
    (fun empty => holds.named (ids.mem_iff.mp empty)) joined

/-- A module with a call. -/
theorem indexed_closed_and_reloaded_calls : ∃ b, Sample.calls.own.foldlM (addPackage Sample.calls) {} = .ok b ∧
    (b.indexed "m").Closed ∧ ∃ g, fromSnapshot Lib.plain (b.indexed "m").snapshot = .ok g ∧
      ∀ id, g.node id = (b.indexed "m").node id ∧ g.neighbors id = (b.indexed "m").neighbors id := by
  have built : (Sample.calls.own.foldlM (addPackage Sample.calls) {}).toOption.isSome = true := by decide +kernel
  cases ok : Sample.calls.own.foldlM (addPackage Sample.calls) {} with
  | error e =>
    rw [ok] at built
    cases built
  | ok b =>
    have path : Sample.calls.path = "m" := by decide +kernel
    exact ⟨b, rfl, path ▸ indexed_closed_and_reloaded Lib.plain ok (by decide +kernel)⟩

end Aquila.Source

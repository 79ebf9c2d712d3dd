import Aquila.Source
import Aquila.Lib.Fold

/-! The extents of the functions of a source graph: a node has the position of the function that was met first under
    its full name, and the end line of the last declaration under it. -/

namespace Aquila.Source
variable {v : Func} {stop : Int} {name path : String} {n : Node} {d : String × FuncDecl} {g : Snapshot}

/-! ### What the builder meets -/

/-- The files of the module, with their paths in it. -/
def Module.files (m : Module) : List (String × SourceFile) :=
  m.own.flatMap fun pkg => pkg.files.filterMap fun file => (relFile m file.abs).map (·, file)

/-- The declarations of the module, with the paths of their files. -/
def Module.decls (m : Module) : List (String × FuncDecl) := m.files.flatMap fun file => file.2.decls.map (file.1, ·)

/-- The function that is declared, with its end line, and the functions that its body calls. -/
def FuncDecl.met (m : Module) (d : FuncDecl) : List (Func × Option Int) :=
  (d.func, some d.stop) :: ((d.body.getD []).filter (followed m)).map (·, none)

def Module.met (m : Module) : List (Func × Option Int) := m.decls.flatMap fun d => d.2.met m

/-- The function that was met first under a full name. -/
def firstMet (tr : List (Func × Option Int)) (name : String) : Option Func := (tr.map (·.1)).find? (·.fullName = name)

/-- The end line of the last declaration under a full name. -/
def lastStop (tr : List (Func × Option Int)) (name : String) : Option Int :=
  ((tr.filter (·.1.fullName = name)).filterMap (·.2)).getLast?

theorem firstMet_append {tr : List (Func × Option Int)} {stop : Option Int} :
    firstMet (tr ++ [(v, stop)]) name = (firstMet tr name).or (if v.fullName = name then some v else none) := by
  simp only [firstMet, List.map_append, List.find?_append, List.map_cons, List.map_nil, List.find?_singleton,
    decide_eq_true_eq]

theorem lastStop_call {tr : List (Func × Option Int)} :
    lastStop (tr ++ [(v, none)]) name = lastStop tr name := by
  by_cases h : v.fullName = name <;> simp [lastStop, h]

theorem lastStop_decl_of_ne {tr : List (Func × Option Int)} (h : v.fullName ≠ name) :
    lastStop (tr ++ [(v, some stop)]) name = lastStop tr name := by
  simp [lastStop, h]

theorem lastStop_decl_self {tr : List (Func × Option Int)} :
    lastStop (tr ++ [(v, some stop)]) v.fullName = some stop := by
  simp [lastStop]

/-! ### Ids -/

theorem funcID_injective {name' : String} (h : funcID name = funcID name') : name = name' := by
  simpa [funcID] using h

theorem pkgID_ne_funcID (path name : String) : pkgID path ≠ funcID name := by
  intro h
  have := congrArg String.toList h
  simp [pkgID, funcID] at this

theorem fileID_ne_funcID (rel name : String) : fileID rel ≠ funcID name := by
  intro h
  have := congrArg String.toList h
  simp [fileID, funcID] at this

/-! ### Steps of the builder -/

/-- The node of a function with a package. -/
def nodeOf (m : Module) (fn : Func) : Node :=
  { id := funcID fn.fullName, kind := .function, name := fn.name, pkg := fn.pkg.getD "",
    file := (relFile m fn.filename).getD "", line := fn.line }

theorem funcNode_ok {m : Module} {fn : Func} (ok : funcNode m fn = .ok n) : n = nodeOf m fn := by
  unfold funcNode at ok
  split at ok
  · exact nomatch ok
  · rename_i pkg known
    rw [← Except.ok.inj ok, nodeOf, known, Option.getD_some]

theorem node_ok {b b' : Builder} (ok : b.node n = .ok b') :
    b'.ends = b.ends ∧ ((n.id ∈ b.nodes.map (·.id) ∧ b'.nodes = b.nodes) ∨
      (n.id ∉ b.nodes.map (·.id) ∧ b'.nodes = b.nodes ++ [n])) := by
  unfold Builder.node at ok
  split_ifs at ok with empty seen cap
  · obtain rfl := Except.ok.inj ok
    exact ⟨rfl, .inl ⟨seen, rfl⟩⟩
  · obtain rfl := Except.ok.inj ok
    exact ⟨rfl, .inr ⟨seen, rfl⟩⟩

theorem edge_ok {b b' : Builder} {e : Edge} (ok : b.edge e = .ok b') : b'.ends = b.ends ∧ b'.nodes = b.nodes := by
  unfold Builder.edge at ok
  split_ifs at ok
  all_goals
    obtain rfl := Except.ok.inj ok
    exact ⟨rfl, rfl⟩

/-- What the builder holds of the functions that it met. -/
structure Built (m : Module) (tr : List (Func × Option Int)) (b : Builder) : Prop where
  distinct : (b.nodes.map (·.id)).Nodup
  ids : ∀ n ∈ b.nodes, n.kind = .function → ∃ name, n.id = funcID name
  first : ∀ name, Keyed.get (·.id) b.nodes (funcID name) = (firstMet tr name).map (nodeOf m)
  last : ∀ name, (Keyed.get (·.1) b.ends (funcID name)).map (·.2) = lastStop tr name

namespace Built
variable {m : Module} {tr : List (Func × Option Int)} {b b' : Builder}

theorem edge {e : Edge} (h : Built m tr b) (ok : b.edge e = .ok b') : Built m tr b' := by
  obtain ⟨ends, nodes⟩ := edge_ok ok
  constructor
  · rw [nodes]; exact h.distinct
  · rw [nodes]; exact h.ids
  · rw [nodes]; exact h.first
  · rw [ends]; exact h.last

theorem other {n : Node} (h : Built m tr b) (ok : b.node n = .ok b') (kind : n.kind ≠ .function)
    (id : ∀ name, n.id ≠ funcID name) : Built m tr b' := by
  obtain ⟨ends, ⟨_, nodes⟩ | ⟨fresh, nodes⟩⟩ := node_ok ok
  · exact ⟨nodes ▸ h.distinct, nodes ▸ h.ids, nodes ▸ h.first, ends ▸ h.last⟩
  · refine ⟨?_, ?_, fun name => ?_, ends ▸ h.last⟩
    · rw [nodes, List.map_append]
      exact List.nodup_append_comm.mp (List.nodup_cons.mpr ⟨fresh, h.distinct⟩)
    · intro x hx function
      rw [nodes] at hx
      rcases List.mem_append.mp hx with old | new
      · exact h.ids x old function
      · exact absurd (List.mem_singleton.mp new ▸ function) kind
    · rw [nodes, ← h.first name, Keyed.get, List.find?_append]
      simp [Keyed.get, id name]

theorem meet (h : Built m tr b) (ok : b.node (nodeOf m v) = .ok b') : Built m (tr ++ [(v, none)]) b' := by
  obtain ⟨ends, seen⟩ := node_ok ok
  have last : ∀ name, (Keyed.get (·.1) b'.ends (funcID name)).map (·.2) = lastStop (tr ++ [(v, none)]) name := by
    intro name
    rw [ends, lastStop_call]
    exact h.last name
  rcases seen with ⟨seen, nodes⟩ | ⟨fresh, nodes⟩
  · refine ⟨nodes ▸ h.distinct, nodes ▸ h.ids, fun name => ?_, last⟩
    rw [nodes, h.first name, firstMet_append]
    by_cases same : v.fullName = name
    · -- The name was met before, so the first function met under it stays.
      have known : Keyed.get (·.id) b.nodes (funcID name) ≠ none := by
        rw [Ne, Keyed.get_eq_none_iff, not_not]
        exact same ▸ seen
      rw [h.first name] at known
      cases met : firstMet tr name with
      | none => exact absurd (by rw [met]; rfl) known
      | some w => rfl
    · rw [if_neg same, Option.or_none]
  · refine ⟨?_, ?_, fun name => ?_, last⟩
    · rw [nodes, List.map_append]
      exact List.nodup_append_comm.mp (List.nodup_cons.mpr ⟨fresh, h.distinct⟩)
    · intro x hx function
      rw [nodes] at hx
      rcases List.mem_append.mp hx with old | new
      · exact h.ids x old function
      · exact ⟨v.fullName, by rw [List.mem_singleton.mp new]; rfl⟩
    · have old := h.first name
      rw [Keyed.get] at old
      rw [nodes, firstMet_append, Keyed.get, List.find?_append, old]
      have hit : ((nodeOf m v).id = funcID name) ↔ v.fullName = name := ⟨funcID_injective, congrArg funcID⟩
      rw [List.find?_singleton, Option.map_or]
      simp only [hit, decide_eq_true_eq]
      split_ifs <;> rfl

theorem declare (h : Built m (tr ++ [(v, none)]) b) :
    Built m (tr ++ [(v, some stop)]) (b.declare (funcID v.fullName) stop) := by
  refine ⟨h.distinct, h.ids, fun name => ?_, fun name => ?_⟩
  · have same : firstMet (tr ++ [(v, some stop)]) name = firstMet (tr ++ [(v, none)]) name := by
      rw [firstMet_append, firstMet_append]
    rw [same]
    exact h.first name
  · by_cases same : v.fullName = name
    · subst same
      rw [lastStop_decl_self, Builder.declare, Keyed.get_put_self]
      rfl
    · have apart : funcID name ≠ (funcID v.fullName, stop).1 := fun e => same (funcID_injective e).symm
      rw [lastStop_decl_of_ne same, ← lastStop_call (v := v), ← h.last name]
      exact congrArg (Option.map (·.2)) (Keyed.get_put_of_ne apart)

/-! ### The walk -/

theorem walkCall {fnID : String} {callee : Func} (h : Built m tr b) (ok : walkCall m fnID b callee = .ok b') :
    Built m (tr ++ ([callee].filter (followed m)).map (·, none)) b' := by
  unfold Source.walkCall at ok
  cases known : followed m callee with
  | false =>
    rw [known] at ok
    obtain rfl := Except.ok.inj ok
    simpa [known] using h
  | true =>
    rw [known] at ok
    obtain ⟨n, node, ok⟩ := Fold.bind_ok ok
    obtain ⟨next, added, ok⟩ := Fold.bind_ok ok
    rw [funcNode_ok node] at added
    simpa [known] using (h.meet added).edge ok

theorem walkDecl {fid : String} {d : FuncDecl} (h : Built m tr b) (ok : walkDecl m fid b d = .ok b') :
    Built m (tr ++ d.met m) b' := by
  unfold Source.walkDecl at ok
  obtain ⟨n, node, ok⟩ := Fold.bind_ok ok
  obtain ⟨met, added, ok⟩ := Fold.bind_ok ok
  obtain ⟨next, joined, ok⟩ := Fold.bind_ok ok
  rw [funcNode_ok node] at added joined
  have declared := (h.meet added).declare.edge joined
  have called := Fold.trace walkCall declared ok
  have calls : (d.body.getD []).flatMap (fun callee => ([callee].filter (followed m)).map (·, (none : Option Int))) =
      ((d.body.getD []).filter (followed m)).map (·, none) := by
    induction d.body.getD [] with
    | nil => rfl
    | cons c cs ih => cases known : followed m c <;> simp_all
  rw [calls, List.append_assoc] at called
  exact called

theorem addImport {imp : String × Option String} (h : Built m tr b)
    (ok : addImport m path b imp = .ok b') : Built m tr b' := by
  unfold Source.addImport at ok
  split at ok
  · obtain rfl := Except.ok.inj ok
    exact h
  · split at ok
    · obtain rfl := Except.ok.inj ok
      exact h
    · obtain ⟨next, added, ok⟩ := Fold.bind_ok ok
      exact (h.other added (by simp) (pkgID_ne_funcID _)).edge ok

/-- What the builder meets in a file. -/
def inFile (m : Module) (file : SourceFile) : List (Func × Option Int) :=
  match relFile m file.abs with
  | none => []
  | some _ => file.decls.flatMap (·.met m)

theorem addFile {file : SourceFile} (h : Built m tr b) (ok : addFile m path b file = .ok b') :
    Built m (tr ++ inFile m file) b' := by
  unfold Source.addFile at ok
  unfold inFile
  cases inside : relFile m file.abs with
  | none =>
    rw [inside] at ok
    obtain rfl := Except.ok.inj ok
    simpa using h
  | some rel =>
    rw [inside] at ok
    obtain ⟨next, added, ok⟩ := Fold.bind_ok ok
    obtain ⟨joined, contained, ok⟩ := Fold.bind_ok ok
    exact Fold.trace walkDecl ((h.other added (by simp) (fileID_ne_funcID rel)).edge contained) ok

theorem addPackage {pkg : Package} (h : Built m tr b) (ok : addPackage m b pkg = .ok b') :
    Built m (tr ++ pkg.files.flatMap (inFile m)) b' := by
  unfold Source.addPackage at ok
  split at ok
  · exact nomatch ok
  · obtain ⟨next, added, ok⟩ := Fold.bind_ok ok
    obtain ⟨imported, imports, ok⟩ := Fold.bind_ok ok
    have named := h.other added (by simp) (pkgID_ne_funcID _)
    exact Fold.trace addFile (Fold.keep addImport named imports) ok

end Built

theorem met_eq (m : Module) : m.met = m.own.flatMap fun pkg => pkg.files.flatMap (Built.inFile m) := by
  unfold Module.met Module.decls Module.files
  rw [List.flatMap_assoc, List.flatMap_assoc]
  refine List.flatMap_congr fun pkg _ => ?_
  induction pkg.files with
  | nil => rfl
  | cons file files ih =>
    cases inside : relFile m file.abs with
    | none => simpa [Built.inFile, inside] using ih
    | some rel => simpa [Built.inFile, inside, List.flatMap_map] using ih

theorem load_built {m : Module} (ok : load m = .ok g) : ∃ b, Built m m.met b ∧ g = b.graph m.path := by
  unfold load at ok
  dsimp only at ok
  split_ifs at ok
  obtain ⟨b, added, ok⟩ := Fold.bind_ok ok
  split_ifs at ok
  refine ⟨b, ?_, (Except.ok.inj ok).symm⟩
  have empty : Built m [] {} := ⟨List.nodup_nil, nofun, fun _ => rfl, fun _ => rfl⟩
  rw [met_eq]
  exact Fold.trace Built.addPackage empty added

/-! ### The functions of the graph -/

/-- The file, the line and the end line of a function node. -/
def Node.extent (n : Node) : String × Int × Int := (n.file, n.line, n.endLine)

/-- The file, the line and the end line of a declaration. -/
def extent (d : String × FuncDecl) : String × Int × Int := (d.1, d.2.func.line, d.2.stop)

/-- The node that the graph has for the function that was met first under its full name. -/
def nodeFor (m : Module) (v : Func) : Node := { nodeOf m v with endLine := (lastStop m.met v.fullName).getD 0 }

theorem fullName_of_firstMet {tr : List (Func × Option Int)} (h : firstMet tr name = some v) :
    v.fullName = name := by
  simpa using List.find?_some h

theorem mem_graph {b : Builder} :
    n ∈ (b.graph path).nodes ↔
      ∃ x ∈ b.nodes, { x with endLine := ((Keyed.get (·.1) b.ends x.id).map (·.2)).getD x.endLine } = n := by
  unfold Builder.graph
  rw [List.mem_insertionSort, List.mem_map]

theorem mem_functions {m : Module} (ok : load m = .ok g) :
    (n ∈ g.nodes ∧ n.kind = .function) ↔ ∃ v, firstMet m.met v.fullName = some v ∧ n = nodeFor m v := by
  obtain ⟨b, built, rfl⟩ := load_built ok
  rw [mem_graph]
  constructor
  · rintro ⟨⟨x, hx, rfl⟩, function⟩
    obtain ⟨name, id⟩ := built.ids x hx function
    have found : Keyed.get (·.id) b.nodes (funcID name) = some x := id ▸ Keyed.get_of_mem built.distinct hx
    rw [built.first name] at found
    obtain ⟨v, met, rfl⟩ := Option.map_eq_some_iff.mp found
    obtain rfl := fullName_of_firstMet met
    refine ⟨v, met, ?_⟩
    rw [nodeFor, ← built.last]
    rfl
  · rintro ⟨v, met, rfl⟩
    have found : Keyed.get (·.id) b.nodes (funcID v.fullName) = some (nodeOf m v) := by rw [built.first, met]; rfl
    refine ⟨⟨nodeOf m v, (Keyed.get_eq_some found).1, ?_⟩, rfl⟩
    rw [nodeFor, ← built.last]
    rfl

/-! ### Declarations -/

theorem relFile_of_mem_files {m : Module} {file : String × SourceFile} (h : file ∈ m.files) :
    relFile m file.2.abs = some file.1 := by
  obtain ⟨pkg, _, h⟩ := List.mem_flatMap.mp h
  obtain ⟨source, _, h⟩ := List.mem_filterMap.mp h
  obtain ⟨rel, known, rfl⟩ := Option.map_eq_some_iff.mp h
  exact known

theorem mem_decls {m : Module} (hd : d ∈ m.decls) :
    relFile m d.2.func.filename = some d.1 ∧ d.1 ∈ m.files.map (·.1) := by
  unfold Module.decls at hd
  obtain ⟨⟨rel, file⟩, hfile, hd⟩ := List.mem_flatMap.mp hd
  obtain ⟨decl, hdecl, rfl⟩ := List.mem_map.mp hd
  refine ⟨?_, List.mem_map.mpr ⟨_, hfile, rfl⟩⟩
  rw [file.placed decl hdecl]
  exact relFile_of_mem_files hfile

theorem relFile_ne_empty {m : Module} {abs : String} : relFile m abs ≠ some "" := by
  intro h
  unfold relFile at h
  split at h
  · exact nomatch h
  · split at h
    · exact nomatch h
    · rename_i rel known
      split at h
      · exact nomatch h
      · exact m.named abs (known.trans h)

theorem relFile_of_getD {m : Module} {abs rel : String} (h : (relFile m abs).getD "" = rel) (named : rel ≠ "") :
    relFile m abs = some rel := by
  cases known : relFile m abs with
  | none => exact absurd (by rw [← h, known]; rfl) named
  | some rel' => rw [← h, known]; rfl

theorem mem_met_of_mem_decls {m : Module} (hd : d ∈ m.decls) : (d.2.func, some d.2.stop) ∈ m.met :=
  List.mem_flatMap.mpr ⟨d, hd, List.mem_cons_self⟩

theorem mem_stops_iff {m : Module} :
    stop ∈ (m.met.filter (·.1.fullName = name)).filterMap (·.2) ↔
      ∃ d ∈ m.decls, d.2.func.fullName = name ∧ d.2.stop = stop := by
  constructor
  · intro h
    obtain ⟨e, he, stopped⟩ := List.mem_filterMap.mp h
    obtain ⟨he, named⟩ := List.mem_filter.mp he
    obtain ⟨d, hd, he⟩ := List.mem_flatMap.mp he
    rcases List.mem_cons.mp he with rfl | call
    · exact ⟨d, hd, by simpa using named, Option.some.inj stopped⟩
    · obtain ⟨callee, _, rfl⟩ := List.mem_map.mp call
      exact nomatch stopped
  · rintro ⟨d, hd, named, rfl⟩
    exact List.mem_filterMap.mpr ⟨_, List.mem_filter.mpr ⟨mem_met_of_mem_decls hd, by simpa using named⟩, rfl⟩

theorem lastStop_of_declared {m : Module} (hd : d ∈ m.decls) :
    ∃ d' ∈ m.decls, d'.2.func.fullName = d.2.func.fullName ∧ lastStop m.met d.2.func.fullName = some d'.2.stop := by
  cases last : lastStop m.met d.2.func.fullName with
  | none =>
    have listed := mem_stops_iff.mpr ⟨d, hd, rfl, rfl⟩
    rw [List.getLast?_eq_none_iff.mp last] at listed
    exact nomatch listed
  | some stop =>
    obtain ⟨d', hd', named, stopped⟩ := mem_stops_iff.mp (List.mem_of_getLast? last)
    exact ⟨d', hd', named, by rw [stopped]⟩

theorem declared_of_lastStop {m : Module} (h : (lastStop m.met name).getD 0 ≠ 0) :
    ∃ d ∈ m.decls, d.2.func.fullName = name := by
  cases last : lastStop m.met name with
  | none => exact absurd (by rw [last]; rfl) h
  | some stop =>
    obtain ⟨d, hd, named, _⟩ := mem_stops_iff.mp (List.mem_of_getLast? last)
    exact ⟨d, hd, named⟩

theorem firstMet_of_declared {m : Module} (hd : d ∈ m.decls) :
    ∃ v, firstMet m.met d.2.func.fullName = some v := by
  have listed : d.2.func ∈ m.met.map (·.1) := List.mem_map.mpr ⟨_, mem_met_of_mem_decls hd, rfl⟩
  exact Option.isSome_iff_exists.mp (List.find?_isSome.mpr ⟨_, listed, by simp⟩)

/-! ### Real extents -/

/-- The function nodes in the files of the module have the extents of declarations, and the node of each declaration
    has its extent. -/
structure RealExtents (m : Module) (g : Snapshot) : Prop where
  declared : ∀ n ∈ g.nodes, n.kind = .function → n.file ∈ m.files.map (·.1) → ∃ d ∈ m.decls, n.extent = extent d
  noded : ∀ d ∈ m.decls, ∃ n ∈ g.nodes, n.kind = .function ∧ n.id = funcID d.2.func.fullName ∧ n.extent = extent d

/-- Full names tell the functions of the module apart: declarations under one name have one extent, and the function
    that is met first under a name is where the declarations under it are, and declared if it is in a file of the
    module. -/
structure NamesTell (m : Module) : Prop where
  same : ∀ d ∈ m.decls, ∀ d' ∈ m.decls, d.2.func.fullName = d'.2.func.fullName → extent d = extent d'
  placed : ∀ v, firstMet m.met v.fullName = some v → ∀ d ∈ m.decls, d.2.func.fullName = v.fullName →
    relFile m v.filename = some d.1 ∧ v.line = d.2.func.line
  known : ∀ v, firstMet m.met v.fullName = some v → ∀ rel ∈ m.files.map (·.1), relFile m v.filename = some rel →
    ∃ d ∈ m.decls, d.2.func.fullName = v.fullName

theorem extent_nodeFor {m : Module} (h : NamesTell m)
    (met : firstMet m.met v.fullName = some v) (hd : d ∈ m.decls) (named : d.2.func.fullName = v.fullName) :
    (nodeFor m v).extent = extent d := by
  obtain ⟨file, line⟩ := h.placed v met d hd named
  obtain ⟨d', hd', named', last⟩ := lastStop_of_declared hd
  have same := h.same d' hd' d hd named'
  have stops : d'.2.stop = d.2.stop := congrArg (·.2.2) same
  simp only [Node.extent, extent, nodeFor, nodeOf, file, line, ← named, last, stops, Option.getD_some]

theorem noded_of_extents {m : Module} (ok : load m = .ok g) (h : RealExtents m g)
    (met : firstMet m.met v.fullName = some v) (hd : d ∈ m.decls)
    (named : d.2.func.fullName = v.fullName) : (nodeFor m v).extent = extent d := by
  obtain ⟨n, hn, function, id, real⟩ := h.noded d hd
  obtain ⟨w, first, rfl⟩ := (mem_functions ok).mp ⟨hn, function⟩
  have name : w.fullName = v.fullName := (funcID_injective id).trans named
  rw [name, met] at first
  rw [Option.some.inj first]
  exact real

/-- The extents of the graph are those of the declarations if and only if full names tell the functions apart. -/
theorem load_extents_exact {m : Module} {g : Snapshot} (ok : load m = .ok g) : RealExtents m g ↔ NamesTell m := by
  constructor
  · intro h
    refine ⟨fun d hd d' hd' named => ?_, fun v met d hd named => ?_, fun v met rel hrel inside => ?_⟩
    · obtain ⟨v, met⟩ := firstMet_of_declared hd
      have name := fullName_of_firstMet met
      rw [← name] at met
      rw [← noded_of_extents ok h met hd name.symm, ← noded_of_extents ok h met hd' (named.symm.trans name.symm)]
    · have real := noded_of_extents ok h met hd named
      have inside := (mem_decls hd).1
      have nonempty : d.1 ≠ "" := fun empty => relFile_ne_empty (empty ▸ inside)
      exact ⟨relFile_of_getD (congrArg (·.1) real) nonempty, congrArg (·.2.1) real⟩
    · obtain ⟨listed, function⟩ := (mem_functions ok).mpr ⟨v, met, rfl⟩
      have file : (nodeFor m v).file = rel := by simp [nodeFor, nodeOf, inside]
      obtain ⟨d, hd, real⟩ := h.declared _ listed function (file ▸ hrel)
      -- A declaration ends at a positive line, so the end line is not the missing one.
      have stop : (lastStop m.met v.fullName).getD 0 = d.2.stop := congrArg (·.2.2) real
      have ended : (lastStop m.met v.fullName).getD 0 ≠ 0 := by
        have := d.2.positive
        have := d.2.ordered
        omega
      exact declared_of_lastStop ended
  · intro h
    refine ⟨fun n hn function inside => ?_, fun d hd => ?_⟩
    · obtain ⟨v, met, rfl⟩ := (mem_functions ok).mp ⟨hn, function⟩
      have nonempty : (nodeFor m v).file ≠ "" := by
        obtain ⟨file, hfile, same⟩ := List.mem_map.mp inside
        intro empty
        exact relFile_ne_empty ((relFile_of_mem_files hfile).trans (congrArg some (same.trans empty)))
      obtain ⟨d, hd, named⟩ := h.known v met _ inside (relFile_of_getD rfl nonempty)
      exact ⟨d, hd, extent_nodeFor h met hd named⟩
    · obtain ⟨v, met⟩ := firstMet_of_declared hd
      have name := fullName_of_firstMet met
      rw [← name] at met
      obtain ⟨listed, function⟩ := (mem_functions ok).mpr ⟨v, met, rfl⟩
      refine ⟨nodeFor m v, listed, function, ?_, extent_nodeFor h met hd name.symm⟩
      rw [← name]
      rfl

namespace Sample

def func (fullName : String) (line : Int) : Func := { fullName, pkg := some "m", filename := "/m/a.go", line }

def module (decls : List FuncDecl) (placed : ∀ d ∈ decls, d.func.filename = "/m/a.go") : Module :=
  { root := "/m"
    rel := fun abs => if abs = "/m/a.go" then some "a.go" else none
    named := by intro abs; split_ifs <;> simp
    pkgs := [{ pkgPath := "m", name := "m", module := some "m", files := [{ abs := "/m/a.go", decls, placed }] }] }

def inits : Module :=
  module [{ func := func "m.init" 1, stop := 3, positive := by decide, ordered := by decide },
    { func := func "m.init" 5, stop := 7, positive := by decide, ordered := by decide }] (by decide)

def calls : Module :=
  module [{ func := func "m.main" 1, stop := 3, body := some [func "m.work" 5], positive := by decide,
            ordered := by decide },
    { func := func "m.work" 5, stop := 7, positive := by decide, ordered := by decide }] (by decide)

def initsGraph : Snapshot :=
  { module := "m"
    nodes := [{ id := "file:a.go", kind := .file, name := "a.go", pkg := "m", file := "a.go" },
      { id := "func:m.init", kind := .function, pkg := "m", file := "a.go", line := 1, endLine := 7 },
      { id := "pkg:m", kind := .package, name := "m", pkg := "m" }]
    edges := [{ src := "file:a.go", dst := "func:m.init", kind := .contains, provenance := .ast },
      { src := "pkg:m", dst := "file:a.go", kind := .contains, provenance := .ast }] }

def callsGraph : Snapshot :=
  { module := "m"
    nodes := [{ id := "file:a.go", kind := .file, name := "a.go", pkg := "m", file := "a.go" },
      { id := "func:m.main", kind := .function, pkg := "m", file := "a.go", line := 1, endLine := 3 },
      { id := "func:m.work", kind := .function, pkg := "m", file := "a.go", line := 5, endLine := 7 },
      { id := "pkg:m", kind := .package, name := "m", pkg := "m" }]
    edges := [{ src := "file:a.go", dst := "func:m.main", kind := .contains, provenance := .ast },
      { src := "file:a.go", dst := "func:m.work", kind := .contains, provenance := .ast },
      { src := "func:m.main", dst := "func:m.work", kind := .calls, provenance := .types },
      { src := "pkg:m", dst := "file:a.go", kind := .contains, provenance := .ast }] }

theorem load_inits : load inits = .ok initsGraph := by decide +kernel

theorem load_calls : load calls = .ok callsGraph := by decide +kernel

theorem firstMet_calls (h : firstMet calls.met v.fullName = some v) :
    v = func "m.main" 1 ∨ v = func "m.work" 5 := by
  have met : calls.met.map (·.1) = [func "m.main" 1, func "m.work" 5, func "m.work" 5] := by decide +kernel
  have listed := List.mem_of_find?_eq_some h
  rw [met] at listed
  simpa using listed

theorem names_calls : NamesTell calls := by
  refine ⟨by decide +kernel, fun v met => ?_, fun v met => ?_⟩
  · rcases firstMet_calls met with rfl | rfl <;> decide +kernel
  · rcases firstMet_calls met with rfl | rfl
    · exact fun _ _ _ => ⟨_, List.mem_cons_self, rfl⟩
    · exact fun _ _ _ => ⟨_, List.mem_cons_of_mem _ List.mem_cons_self, rfl⟩

end Sample

/-- Two `init` functions of one file become one node, from the first line of the one to the last line of the other. -/
theorem load_extents_inits : load Sample.inits = .ok Sample.initsGraph ∧
    Sample.inits.decls.map extent = [("a.go", 1, 3), ("a.go", 5, 7)] ∧
    (Sample.initsGraph.nodes.filter (·.kind = .function)).map Node.extent = [("a.go", 1, 7)] ∧
    ¬RealExtents Sample.inits Sample.initsGraph := by
  refine ⟨Sample.load_inits, by decide +kernel, by decide +kernel, fun real => ?_⟩
  have none : ¬∃ n ∈ Sample.initsGraph.nodes, n.extent = ("a.go", 1, 3) := by decide +kernel
  obtain ⟨n, hn, _, _, extent⟩ := real.noded _ List.mem_cons_self
  exact none ⟨n, hn, extent⟩

theorem load_extents_calls : load Sample.calls = .ok Sample.callsGraph ∧ RealExtents Sample.calls Sample.callsGraph :=
  ⟨Sample.load_calls, (load_extents_exact Sample.load_calls).mpr Sample.names_calls⟩

end Aquila.Source

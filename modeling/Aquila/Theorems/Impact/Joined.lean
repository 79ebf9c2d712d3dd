import Mathlib.Data.Set.Card
import Aquila.Theorems.Entries
import Aquila.Theorems.Impact.Classified
import Aquila.Theorems.Impact.Routes

/-! The routes that `Analyze` joins to a change, in which order and within which limits. -/

namespace Aquila

namespace Locate
open Ingest (Span)
open Source (Node)

/-! ### Bindings -/

/-- The spans with ids that are attached to a function. -/
def attached (g : Source.Snapshot) (spans : List Span) : List (Span × Node) :=
  (spans.filter fun sp => sp.traceID ≠ "" ∧ sp.spanID ≠ "").filterMap fun sp => (attach g sp).toOption.map (sp, ·)

theorem mem_attached {g : Source.Snapshot} {spans : List Span} {t : Span × Node} :
    t ∈ attached g spans ↔ t.1 ∈ spans ∧ t.1.traceID ≠ "" ∧ t.1.spanID ≠ "" ∧ attach g t.1 = .ok t.2 := by
  unfold attached
  rw [List.mem_filterMap]
  constructor
  · rintro ⟨sp, listed, found⟩
    obtain ⟨fn, ok, rfl⟩ := Option.map_eq_some_iff.mp found
    obtain ⟨listed, named⟩ := List.mem_filter.mp listed
    obtain ⟨trace, span⟩ := of_decide_eq_true named
    refine ⟨listed, trace, span, ?_⟩
    cases answer : attach g sp with
    | error reason => rw [answer] at ok; exact nomatch ok
    | ok fn' => rw [answer] at ok; rw [Option.some.inj ok]
  · rintro ⟨listed, trace, span, ok⟩
    exact ⟨t.1, List.mem_filter.mpr ⟨listed, decide_eq_true ⟨trace, span⟩⟩, by rw [ok]; rfl⟩

theorem attach_ok {g : Source.Snapshot} {sp : Span} {fn : Node} (h : attach g sp = .ok fn) :
    fn ∈ g.nodes ∧ fn.kind = .function := by
  unfold attach at h
  split at h
  · exact nomatch h
  · split at h
    · exact nomatch h
    · rename_i file _
      split at h
      · exact nomatch h
      · split at h
        · exact nomatch h
        · rename_i fn' found
          obtain rfl := Except.ok.inj h
          have listed : fn' ∈ funcs g file := List.mem_of_mem_filter (found ▸ List.mem_singleton_self fn')
          obtain ⟨node, function⟩ := List.mem_filter.mp listed
          simp only [Bool.and_eq_true, decide_eq_true_eq] at function
          exact ⟨node, function.1.1⟩
        · exact nomatch h

theorem foldl_collect (g : Source.Snapshot) (spans : List Span) (out : Snapshot) :
    (spans.foldl (collect (bindOne g)) out).bindings =
      ((attached g spans).map fun t => binding t.1 t.2).foldl
        (fun dst b => if dst.length ≥ maxBindings then dst else dst ++ [b]) out.bindings := by
  induction spans generalizing out with
  | nil => rfl
  | cons sp spans ih =>
    rw [List.foldl_cons, ih]
    unfold collect attached bindOne
    by_cases named : sp.traceID = "" ∨ sp.spanID = ""
    · have skip : ¬(sp.traceID ≠ "" ∧ sp.spanID ≠ "") := fun both => named.elim both.1 both.2
      rw [if_pos named, List.filter_cons_of_neg (by simpa using skip)]
    · obtain ⟨trace, span⟩ := not_or.mp named
      rw [if_neg named, List.filter_cons_of_pos (by simpa using ⟨trace, span⟩)]
      cases answer : attach g sp with
      | error reason => rw [List.filterMap_cons_none (by rw [answer]; rfl)]
      | ok fn =>
        simp only [answer, List.filterMap_cons, Except.toOption, Option.map_some, List.map_cons, List.foldl_cons]
        by_cases room : out.bindings.length < maxBindings
        · rw [if_pos room, if_neg (not_le.mpr room)]
        · rw [if_neg room, if_pos (not_lt.mp room)]

theorem bindings_perm (g : Source.Snapshot) (spans : List Span) :
    (bind (some g) spans).bindings.Perm (((attached g spans).take maxBindings).map fun t => binding t.1 t.2) := by
  refine (List.perm_insertionSort _ _).trans (List.Perm.of_eq ?_)
  rw [foldl_collect, Fold.capped (fun _ _ => rfl), List.map_take]
  rfl

theorem bindings_sorted (g : Source.Snapshot) (spans : List Span) :
    (bind (some g) spans).bindings.Pairwise fun a b => a.traceID < b.traceID ∨ a.traceID = b.traceID ∧
    a.spanID ≤ b.spanID :=
  Lists.pairwise_insertionSort_lex Binding.traceID Binding.spanID _

end Locate

namespace Impact
open Source (Node)
variable {t id r : String} {fn : Node} {x : Finding} {done : List (String × Finding)} {out : Joined}

/-! ### The functions that a change reaches -/

/-- A changed line is given to the function: the function is the first one that the line lies in, in a text file
    that the graph knows. -/
def Given (g : Source.Snapshot) (d : Diff) (fn : Node) : Prop :=
  ∃ f ∈ d.files, f.binary = false ∧ (fileNode g f.path).isSome ∧
    ∃ ln ∈ f.lines, hitOf (funcSpans (funcs g f.path)) ln = some fn

/-- A changed line lies in the function. -/
def Touched (g : Source.Snapshot) (d : Diff) (fn : Node) : Prop :=
  ∃ f ∈ d.files, fn.file = f.path ∧ ∃ ln ∈ f.lines, Inside g fn ln

/-- A changed line lies in the function with the id, or in one that it calls. -/
def Impacted (g : Source.Snapshot) (d : Diff) (id : String) : Prop :=
  ∃ fn ∈ g.nodes, fn.kind = .function ∧ Touched g d fn ∧ (fn.id = id ∨ ∃ e ∈ g.edges, e.kind = .calls ∧ e.src = id ∧
    e.dst = fn.id)

/-- A changed line is given to the function with the id, or to one that it calls. -/
def Reached (g : Source.Snapshot) (d : Diff) (id : String) : Prop :=
  ∃ fn, Given g d fn ∧ (fn.id = id ∨ ∃ e ∈ g.edges, e.kind = .calls ∧ e.src = id ∧ e.dst = fn.id)

section
variable {g : Source.Snapshot} {d : Diff}

theorem mem_directID {id : String} : id ∈ (changedFiles g d).directID ↔ ∃ fn, Given g d fn ∧ fn.id = id := by
  rw [mem_changed_ids]
  constructor
  · rintro ⟨f, hf, hit, listed, rfl⟩
    unfold hits at listed
    split_ifs at listed with known
    · obtain ⟨line, found⟩ := mem_hits listed
      exact ⟨hit.1, ⟨f, hf, known.2, known.1, hit.2, line, found⟩, rfl⟩
    · exact nomatch listed
  · rintro ⟨fn, ⟨f, hf, text, known, ln, hln, found⟩, rfl⟩
    obtain ⟨hit, listed, same⟩ := List.mem_map.mp (id_mem_hits hln found)
    exact ⟨f, hf, hit, by rw [hits, if_pos ⟨known, text⟩]; exact listed, same⟩

theorem Given.touched (h : Given g d fn) : fn ∈ g.nodes ∧ fn.kind = .function ∧ Touched g d fn := by
  obtain ⟨f, hf, _, _, ln, hln, found⟩ := h
  obtain ⟨member, inside⟩ := hitOf_inside found
  obtain ⟨node, function, _, path⟩ := mem_funcs.mp member
  exact ⟨node, function, f, hf, path, ln, hln, inside⟩

theorem Reached.impacted (h : Reached g d id) : Impacted g d id := by
  obtain ⟨fn, given, near⟩ := h
  obtain ⟨node, function, touched⟩ := given.touched
  exact ⟨fn, node, function, touched, near⟩

theorem node_isSome_iff : (g.node id).isSome = true ↔ id ∈ g.nodes.map (·.id) := by
  rw [Source.Snapshot.node, ← Option.ne_none_iff_isSome, Ne, Keyed.get_eq_none_iff, not_not, List.map_reverse,
    List.mem_reverse]

theorem node_id {n : Node} (h : g.node id = some n) : n.id = id := (Keyed.get_eq_some h).2

theorem mem_callers {caller : String} : caller ∈ (callers g id).map (·.id) ↔
    id ∈ g.nodes.map (·.id) ∧ caller ∈ g.nodes.map (·.id) ∧ ∃ e ∈ g.edges, e.kind = .calls ∧ e.src = caller ∧
    e.dst = id := by
  unfold callers Source.Snapshot.neighbors
  by_cases known : id ∈ g.nodes.map (·.id)
  · have some : (g.node id).isNone = false := by
      rw [Option.isNone_eq_false_iff, node_isSome_iff]
      exact known
    rw [some, if_neg Bool.false_ne_true, Option.getD_some]
    constructor
    · intro h
      obtain ⟨n, hn, rfl⟩ := List.mem_map.mp h
      obtain ⟨neighbor, listed, rfl⟩ := List.mem_map.mp hn
      obtain ⟨listed, shape⟩ := List.mem_filter.mp listed
      simp only [Bool.and_eq_true, decide_eq_true_eq] at shape
      rw [List.mem_insertionSort] at listed
      rcases List.mem_append.mp listed with out | into
      · obtain ⟨e, _, found⟩ := List.mem_filterMap.mp out
        obtain ⟨n, _, rfl⟩ := Option.map_eq_some_iff.mp found
        exact nomatch shape.1
      · obtain ⟨e, he, found⟩ := List.mem_filterMap.mp into
        obtain ⟨n, here, rfl⟩ := Option.map_eq_some_iff.mp found
        obtain ⟨he, target⟩ := List.mem_filter.mp he
        refine ⟨known, ?_, e, he, shape.2, (node_id here).symm, by simpa using target⟩
        rw [node_id here, ← node_isSome_iff, here]
        rfl
    · rintro ⟨_, member, e, he, kind, rfl, rfl⟩
      obtain ⟨n, here⟩ := Option.isSome_iff_exists.mp (node_isSome_iff.mpr member)
      refine List.mem_map.mpr ⟨n, List.mem_map.mpr ⟨{ node := n, kind := e.kind, direction := .incoming }, ?_,
        rfl⟩, node_id here⟩
      rw [List.mem_filter, List.mem_insertionSort]
      refine ⟨List.mem_append_right _ (List.mem_filterMap.mpr ⟨e, List.mem_filter.mpr ⟨he, by simp⟩,
        ?_⟩), by simp [kind]⟩
      rw [here]
      rfl
  · have none : (g.node id).isNone = true := by
      rw [Option.isNone_iff_eq_none, ← Option.not_isSome_iff_eq_none, node_isSome_iff]
      exact known
    rw [none, if_pos rfl]
    exact iff_of_false (by simp) fun h => known h.1

theorem mem_likely {ids : List String} :
    id ∈ (likely g ids).map (·.id) ↔ id ∉ ids ∧ ∃ target ∈ ids, id ∈ (callers g target).map (·.id) := by
  have run : ∀ l out : List Node,
      id ∈ (l.foldl (fun out n => if n.id ∈ ids ∨ n.id ∈ out.map (·.id) then out else out ++ [n]) out).map (·.id) ↔
        id ∈ out.map (·.id) ∨ id ∉ ids ∧ id ∈ l.map (·.id) := by
    intro l
    induction l with
    | nil => simp
    | cons n l ih =>
      intro out
      rw [List.foldl_cons, ih, List.map_cons, List.mem_cons]
      split_ifs with seen
      · constructor
        · rintro (old | ⟨fresh, later⟩)
          · exact .inl old
          · exact .inr ⟨fresh, .inr later⟩
        · rintro (old | ⟨fresh, rfl | later⟩)
          · exact .inl old
          · exact .inl (seen.resolve_left fresh)
          · exact .inr ⟨fresh, later⟩
      · obtain ⟨fresh, _⟩ := not_or.mp seen
        rw [List.map_append, List.mem_append, List.map_singleton, List.mem_singleton, or_assoc]
        refine or_congr_right ⟨?_, ?_⟩
        · rintro (rfl | ⟨fresh, later⟩)
          · exact ⟨fresh, .inl rfl⟩
          · exact ⟨fresh, .inr later⟩
        · rintro ⟨fresh, rfl | later⟩
          · exact .inl rfl
          · exact .inr ⟨fresh, later⟩
  rw [likely, run, List.map_flatMap, List.mem_flatMap]
  simp

theorem callerTargets_ne_nil {ids : List String} :
    callerTargets g ids id ≠ [] ↔ ∃ target ∈ ids, id ∈ (callers g target).map (·.id) := by
  rw [callerTargets, Ne, List.filter_eq_nil_iff]
  push Not
  refine exists_congr fun target => and_congr_right fun _ => ?_
  rw [Bool.and_eq_true, decide_eq_true_eq, node_isSome_iff]
  exact ⟨And.right, fun h => ⟨(mem_callers.mp h).1, h⟩⟩

theorem watched_iff {id : String} (node : id ∈ g.nodes.map (·.id)) :
    (id ∈ (changedFiles g d).directID ∨ id ∈ (likely g (changedFiles g d).directID).map (·.id)) ↔ Reached g d id := by
  rw [mem_likely]
  constructor
  · rintro (direct | ⟨_, target, changed, calls⟩)
    · obtain ⟨fn, given, rfl⟩ := mem_directID.mp direct
      exact ⟨fn, given, .inl rfl⟩
    · obtain ⟨fn, given, rfl⟩ := mem_directID.mp changed
      exact ⟨fn, given, .inr (mem_callers.mp calls).2.2⟩
  · rintro ⟨fn, given, rfl | edge⟩
    · exact .inl (mem_directID.mpr ⟨fn, given, rfl⟩)
    · refine (em _).imp_right fun fresh => ⟨fresh, fn.id, mem_directID.mpr ⟨fn, given, rfl⟩, ?_⟩
      exact mem_callers.mpr ⟨List.mem_map_of_mem given.touched.1, node, edge⟩

end

/-! ### Findings of bindings -/

section
variable (lib : Lib) (g : Source.Snapshot) (d : Diff) (rt : Graph.Snapshot)

def labelOf (b : Locate.Binding) : String :=
  let entry := (rt.entryForSpan b.traceID b.spanID).getD {}
  routeLabel lib entry.method entry.route

/-- The findings that a binding is joined with. -/
def joins (b : Locate.Binding) : List Finding :=
  if b.sourceID ∈ (changedFiles g d).directID ∨ b.sourceID ∈ (likely g (changedFiles g d).directID).map (·.id) then
    (findingsOf lib g (changedFiles g d).directID rt b).filter fun f => ¬(f.service = "" ∧ f.route = "")
  else []

variable {lib g d rt} {b : Locate.Binding}

theorem mem_boundFindings {entry : Graph.EntryRoute} {direct : Bool} {targets : List String}
    (h : x ∈ boundFindings lib b entry direct targets) :
    x.route = routeLabel lib entry.method entry.route ∧ x.name = b.sourceName ∧ x.service = b.serviceName := by
  unfold boundFindings at h
  dsimp only at h
  have fields : (boundFinding lib b entry).route = routeLabel lib entry.method entry.route ∧
      (boundFinding lib b entry).name = b.sourceName ∧ (boundFinding lib b entry).service = b.serviceName := by
    simp only [boundFinding, and_self]
  generalize boundFinding lib b entry = f at h fields
  split_ifs at h
  all_goals
    simp only [List.mem_append, List.mem_singleton, List.not_mem_nil, or_false, false_or] at h
  · rw [h]
    exact fields
  · rw [h]
    exact fields
  · rcases h with h | h <;> rw [h] <;> exact fields
  · rw [h]
    exact fields

theorem boundFindings_ne_nil {entry : Graph.EntryRoute} {direct : Bool} {targets : List String}
    (h : direct = true ∨ targets ≠ []) : boundFindings lib b entry direct targets ≠ [] := by
  unfold boundFindings
  generalize boundFinding lib b entry = f
  by_cases unrouted : f.route = ""
  · simp [unrouted]
  · rcases h with direct | targets
    · simp [unrouted, direct]
    · simp [unrouted, targets]

theorem mem_joins (h : x ∈ joins lib g d rt b) :
    x.route = labelOf lib rt b ∧ x.name = b.sourceName ∧ ¬(b.serviceName = "" ∧ labelOf lib rt b = "") ∧
      (b.sourceID ∈ (changedFiles g d).directID ∨ b.sourceID ∈ (likely g (changedFiles g d).directID).map (·.id)) := by
  unfold joins at h
  split_ifs at h with watched
  · obtain ⟨listed, shown⟩ := List.mem_filter.mp h
    obtain ⟨route, name, service⟩ := mem_boundFindings listed
    have shown := of_decide_eq_true shown
    rw [route, service] at shown
    exact ⟨route, name, shown, watched⟩
  · exact nomatch h

theorem joins_ne_nil (watched : b.sourceID ∈ (changedFiles g d).directID ∨
    b.sourceID ∈ (likely g (changedFiles g d).directID).map (·.id)) (routed : labelOf lib rt b ≠ "") :
    joins lib g d rt b ≠ [] := by
  have found : findingsOf lib g (changedFiles g d).directID rt b ≠ [] := by
    apply boundFindings_ne_nil
    rcases watched with direct | calling
    · exact .inl (decide_eq_true direct)
    · exact .inr (callerTargets_ne_nil.mpr (mem_likely.mp calling).2)
  obtain ⟨x, hx⟩ := List.exists_mem_of_ne_nil _ found
  rw [joins, if_pos watched]
  refine List.ne_nil_of_mem (List.mem_filter.mpr ⟨hx, decide_eq_true fun none => routed ?_⟩)
  exact (mem_boundFindings hx).1.symm.trans none.2

end

/-! ### The pass over the bindings -/

/-- What the pass holds after the findings `done`, each with its trace. -/
structure Tracks (done : List (String × Finding)) (out : Joined) : Prop where
  seen : out.seenBind = (Keyed.firsts Finding.key (done.map (·.2))).map Finding.key
  runtime : out.runtime = (Keyed.firsts Finding.key (done.map (·.2))).take maxFindings
  distinct : out.routeTraces.Nodup
  traces : ∀ r t, (r, t) ∈ out.routeTraces ↔ r ≠ "" ∧ t ≠ "" ∧ ∃ x, (t, x) ∈ done ∧ x.route = r

theorem appendFinding_take (l : List Finding) (f : Finding) :
    appendFinding (l.take maxFindings) f = (l ++ [f]).take maxFindings := by
  unfold appendFinding
  split_ifs with full
  · rw [List.length_take] at full
    rw [List.take_append_of_le_length (by omega)]
  · rw [List.length_take] at full
    rw [List.take_of_length_le (by omega),
      List.take_of_length_le (by rw [List.length_append, List.length_singleton]; omega)]

theorem nodup_addNew {α : Type} [DecidableEq α] {l : List α} {a : α} (h : l.Nodup) : (addNew l a).Nodup := by
  unfold addNew
  split_ifs with seen
  · exact h
  · exact List.nodup_append_comm.mp (List.nodup_cons.mpr ⟨seen, h⟩)

theorem mem_addNew {α : Type} [DecidableEq α] {l : List α} {a x : α} : x ∈ addNew l a ↔ x ∈ l ∨ x = a := by
  unfold addNew
  split_ifs with seen
  · exact ⟨.inl, fun h => h.elim id fun same => same ▸ seen⟩
  · rw [List.mem_append, List.mem_singleton]

theorem joinFinding_eq (t : String) (out : Joined) {f : Finding} (shown : ¬(f.service = "" ∧ f.route = "")) :
    (joinFinding t out f).routeTraces = (if f.route ≠ "" ∧ t ≠ "" then addNew out.routeTraces (f.route, t)
      else out.routeTraces) ∧ (joinFinding t out f).seenBind = (if f.key ∈ out.seenBind then out.seenBind
      else out.seenBind ++ [f.key]) ∧ (joinFinding t out f).runtime = if f.key ∈ out.seenBind then out.runtime
      else appendFinding out.runtime f := by
  unfold joinFinding
  rw [if_neg shown]
  by_cases traced : f.route ≠ "" ∧ t ≠ ""
  · rw [if_pos traced, if_pos traced]
    by_cases seen : f.key ∈ out.seenBind
    · simp only [seen, if_true, and_self]
    · simp only [seen, if_false, and_self]
  · rw [if_neg traced, if_neg traced]
    by_cases seen : f.key ∈ out.seenBind
    · simp only [seen, if_true, and_self]
    · simp only [seen, if_false, and_self]

theorem Tracks.join (h : Tracks done out) {f : Finding}
    (shown : ¬(f.service = "" ∧ f.route = "")) : Tracks (done ++ [(t, f)]) (joinFinding t out f) := by
  obtain ⟨traces, seen, runtime⟩ := joinFinding_eq t out shown
  rw [h.seen] at seen runtime
  refine ⟨?_, ?_, ?_, fun r t' => ?_⟩
  · rw [seen, List.map_append, List.map_singleton, Keyed.firsts_snoc]
    split_ifs
    · rfl
    · rw [List.map_append, List.map_singleton]
  · rw [runtime, h.runtime, List.map_append, List.map_singleton, Keyed.firsts_snoc, appendFinding_take]
    split_ifs <;> rfl
  · rw [traces]
    split_ifs
    · exact nodup_addNew h.distinct
    · exact h.distinct
  · have old := h.traces r t'
    have last : (∃ x, (t', x) ∈ done ++ [(t, f)] ∧ x.route = r) ↔ (∃ x, (t', x) ∈ done ∧ x.route = r) ∨ t' = t ∧
      f.route = r := by
      simp only [List.mem_append, List.mem_singleton, Prod.mk.injEq]
      constructor
      · rintro ⟨x, hx | ⟨rfl, rfl⟩, route⟩
        · exact .inl ⟨x, hx, route⟩
        · exact .inr ⟨rfl, route⟩
      · rintro (⟨x, hx, route⟩ | ⟨rfl, route⟩)
        · exact ⟨x, .inl hx, route⟩
        · exact ⟨f, .inr ⟨rfl, rfl⟩, route⟩
    rw [traces, last]
    split_ifs with traced
    · rw [mem_addNew, old, Prod.mk.injEq]
      constructor
      · rintro (⟨route, trace, found⟩ | ⟨rfl, rfl⟩)
        · exact ⟨route, trace, .inl found⟩
        · exact ⟨traced.1, traced.2, .inr ⟨rfl, rfl⟩⟩
      · rintro ⟨route, trace, found | ⟨rfl, rfl⟩⟩
        · exact .inl ⟨route, trace, found⟩
        · exact .inr ⟨rfl, rfl⟩
    · rw [old]
      refine and_congr_right fun route => and_congr_right fun trace => (or_iff_left ?_).symm
      rintro ⟨rfl, rfl⟩
      exact traced ⟨route, trace⟩

theorem Tracks.services (h : Tracks done out) (services : List String) :
    Tracks done { out with services } := ⟨h.seen, h.runtime, h.distinct, h.traces⟩

section
variable {lib : Lib} {g : Source.Snapshot} {d : Diff} {rt : Graph.Snapshot}

theorem Tracks.findings {fs : List Finding} : ∀ {done : List (String × Finding)} {out : Joined}, Tracks done out →
    Tracks (done ++ (fs.filter fun f => ¬(f.service = "" ∧ f.route = "")).map (t, ·))
    (fs.foldl (joinFinding t) out) := by
  induction fs with
  | nil =>
    intro done out h
    simpa using h
  | cons f fs ih =>
    intro done out h
    by_cases shown : f.service = "" ∧ f.route = ""
    · have skip : joinFinding t out f = out := by rw [joinFinding, if_pos shown]
      rw [List.foldl_cons, skip, List.filter_cons_of_neg (by simpa using shown)]
      exact ih h
    · have kept : decide (¬(f.service = "" ∧ f.route = "")) = true := decide_eq_true shown
      rw [List.foldl_cons, List.filter_cons, if_pos kept, List.map_cons, List.append_cons]
      exact ih (h.join shown)

theorem Tracks.binding (h : Tracks done out) (b : Locate.Binding) :
    Tracks (done ++ (joins lib g d rt b).map (b.traceID, ·))
      (joinBinding lib g (changedFiles g d).directID ((likely g (changedFiles g d).directID).map (·.id)) rt out b) := by
  unfold joinBinding joins
  by_cases watched : b.sourceID ∈ (changedFiles g d).directID ∨
    b.sourceID ∈ (likely g (changedFiles g d).directID).map (·.id)
  · have joined : ¬(b.sourceID ∉ (changedFiles g d).directID ∧
      b.sourceID ∉ (likely g (changedFiles g d).directID).map (·.id)) :=
      fun none => watched.elim none.1 none.2
    rw [if_neg joined, if_pos watched]
    apply Tracks.findings
    split_ifs
    · exact h.services _
    · exact h
  · rw [if_pos (not_or.mp watched), if_neg watched, List.map_nil, List.append_nil]
    exact h

theorem tracks_run (bindings : List Locate.Binding) :
    Tracks (bindings.flatMap fun b => (joins lib g d rt b).map (b.traceID, ·))
      (bindings.foldl (joinBinding lib g (changedFiles g d).directID ((likely g (changedFiles g d).directID).map
        (·.id)) rt) {}) := by
  have start : Tracks [] {} := ⟨rfl, rfl, List.nodup_nil, by simp⟩
  induction bindings using List.reverseRecOn with
  | nil => exact start
  | append_singleton bindings b ih =>
    rw [List.flatMap_append, List.foldl_append, List.flatMap_singleton]
    exact ih.binding b

/-! ### The report -/

theorem runtimeLabel_pathFinding (p : Graph.Path) : runtimeLabel lib (pathFinding p) = none := by
  have blank : trimSpace "" = "" := by decide
  unfold runtimeLabel pathFinding
  rw [blank, if_pos rfl]
  rfl

theorem mem_runtimeRoutes {rep : Report} : r ∈ runtimeRoutes lib rep ↔
    ∃ x ∈ rep.runtime, runtimeLabel lib x = some r := by
  rw [runtimeRoutes, List.mem_insertionSort, List.mem_dedup, List.mem_filterMap]

theorem mem_routes {loc : Locate.Snapshot} :
    r ∈ runtimeRoutes lib (analyze lib (some g) d loc rt) ↔
      ∃ x ∈ (Keyed.firsts Finding.key (loc.bindings.flatMap (joins lib g d rt))).take maxFindings,
      runtimeLabel lib x = some r := by
  have tracks := @tracks_run lib g d rt loc.bindings
  have all : (loc.bindings.flatMap fun b => (joins lib g d rt b).map (b.traceID, ·)).map (·.2) = loc.bindings.flatMap
    (joins lib g d rt) := by
    rw [List.map_flatMap]
    refine List.flatMap_congr fun b _ => ?_
    rw [List.map_map]
    exact List.map_id _
  have runtime := tracks.runtime
  rw [all] at runtime
  rw [mem_runtimeRoutes, analyze]
  dsimp only
  simp only [sortFindings, List.mem_insertionSort, foldl_appendFinding, List.mem_append, runtime]
  constructor
  · rintro ⟨x, kept | path, read⟩
    · exact ⟨x, kept, read⟩
    · obtain ⟨p, _, rfl⟩ := List.mem_map.mp (List.mem_of_mem_take path)
      rw [runtimeLabel_pathFinding] at read
      cases read
  · rintro ⟨x, kept, read⟩
    exact ⟨x, .inl kept, read⟩

theorem mem_routeTraceCounts {loc : Locate.Snapshot}
    (ran : loc.bindings.foldl (joinBinding lib g (changedFiles g d).directID ((likely g (changedFiles g d).directID).map
      (·.id)) rt) {} = out)
    (listed : r ∈ runtimeRoutes lib (analyze lib (some g) d loc rt)) (counted : out.routeTraces.filter (·.1 = r) ≠ []) :
    { route := r, traces := (out.routeTraces.filter (·.1 = r)).length } ∈
    (analyze lib (some g) d loc rt).routeTraceCounts := by
  rw [mem_runtimeRoutes] at listed
  unfold analyze at listed ⊢
  dsimp only at listed ⊢
  rw [ran] at listed ⊢
  have positive : (0 : Int) < (out.routeTraces.filter (·.1 = r)).length := by
    exact_mod_cast List.length_pos_of_ne_nil counted
  refine List.mem_filter.mpr ⟨List.mem_map.mpr ⟨r, mem_runtimeRoutes.mpr ?_, rfl⟩, decide_eq_true positive⟩
  obtain ⟨x, hx, read⟩ := listed
  exact ⟨x, (List.mem_insertionSort _).mp hx, read⟩

theorem labelOf_of_none {b : Locate.Binding} (h : rt.entryForSpan b.traceID b.spanID = none) :
    labelOf lib rt b = "" := by
  have blank : trimSpace "" = "" := by decide
  have empty : lib.toUpper "" = "" := by rw [← String.toList_inj, toList_toUpper]; simp
  rw [labelOf, h, Option.getD_none, routeLabel, blank, empty, if_pos (.inl rfl)]

theorem runtimeLabel_of_name (route : x.route = "") (name : ' ' ∉ x.name.toList) : runtimeLabel lib x = none := by
  have blank : trimSpace "" = "" := by decide
  unfold runtimeLabel
  rw [route, blank, if_pos rfl]
  dsimp only
  rw [splitN2_of_not_mem fun h => name (trimSpace_subset _ h)]

end

section
variable {lib : Lib} {g : Source.Snapshot} {d : Diff} {spans : List Ingest.Span}

theorem source_of_mem_bindings {b : Locate.Binding} (hb : b ∈ (Locate.bind (some g) spans).bindings) :
    b.sourceID ∈ g.nodes.map (·.id) := by
  obtain ⟨t, ht, rfl⟩ := List.mem_map.mp ((Locate.bindings_perm g spans).mem_iff.mp hb)
  obtain ⟨_, _, _, ok⟩ := Locate.mem_attached.mp (List.mem_of_mem_take ht)
  exact List.mem_map_of_mem (Locate.attach_ok ok).1

theorem trace_of_mem_bindings {b : Locate.Binding} (hb : b ∈ (Locate.bind (some g) spans).bindings) :
    b.traceID ≠ "" := by
  obtain ⟨t, ht, rfl⟩ := List.mem_map.mp ((Locate.bindings_perm g spans).mem_iff.mp hb)
  exact (Locate.mem_attached.mp (List.mem_of_mem_take ht)).2.1

theorem label_of_joins (std : lib.Uppercase) (names : ∀ n ∈ g.nodes, n.kind = .function → ' ' ∉ n.name.toList)
    (routes : ∀ s ∈ spans, trimSpace s.httpRoute = s.httpRoute ∧ '?' ∉ s.httpRoute.toList)
    (methods : ∀ s ∈ spans, '?' ∉ s.httpMethod.toList) {b : Locate.Binding}
    (hb : b ∈ (Locate.bind (some g) spans).bindings)
    (hx : x ∈ joins lib g d (Graph.build lib spans) b) (read : runtimeLabel lib x = some r) :
    ∃ e, (Graph.build lib spans).entryForSpan b.traceID b.spanID = some e ∧ r = routeLabel lib e.method e.route ∧
      labelOf lib (Graph.build lib spans) b = r ∧ r ≠ "" := by
  obtain ⟨route, name, _, _⟩ := mem_joins hx
  obtain ⟨t, ht, rfl⟩ := List.mem_map.mp ((Locate.bindings_perm g spans).mem_iff.mp hb)
  obtain ⟨_, _, _, ok⟩ := Locate.mem_attached.mp (List.mem_of_mem_take ht)
  obtain ⟨node, function⟩ := Locate.attach_ok ok
  have named : labelOf lib (Graph.build lib spans) (Locate.binding t.1 t.2) ≠ "" := by
    intro empty
    rw [runtimeLabel_of_name (route.trans empty) (name ▸ names t.2 node function)] at read
    exact nomatch read
  cases entry : (Graph.build lib spans).entryForSpan (Locate.binding t.1 t.2).traceID
    (Locate.binding t.1 t.2).spanID with
  | none => exact absurd (labelOf_of_none entry) named
  | some e =>
    have label : labelOf lib (Graph.build lib spans) (Locate.binding t.1 t.2) = routeLabel lib e.method e.route := by
      rw [labelOf, entry, Option.getD_some]
    rw [label] at named route
    obtain ⟨s, hs, method, path⟩ := Graph.span_of_entryForSpan entry
    obtain ⟨trimmed, query⟩ := path ▸ routes s hs
    obtain ⟨chars, shape, text⟩ := label_of_route std trimmed query named
    have mark : '?' ∉ (trimSpace e.method).toList.map lib.upper := by
      intro h
      obtain ⟨c, hc, same⟩ := List.mem_map.mp h
      refine std.upper_ne_mark (fun eq => methods s hs ?_) same
      rw [← method, ← eq]
      exact trimSpace_subset _ hc
    have same : r = routeLabel lib e.method e.route := by
      rw [runtimeLabel_of_label shape mark (route.trans text) read, route]
    exact ⟨e, rfl, same, label.trans same.symm, same ▸ named⟩

theorem reached_of_joins {b : Locate.Binding} (hb : b ∈ (Locate.bind (some g) spans).bindings) {rt : Graph.Snapshot}
    (hx : x ∈ joins lib g d rt b) : Reached g d b.sourceID := by
  obtain ⟨_, _, _, watched⟩ := mem_joins hx
  exact (watched_iff (source_of_mem_bindings hb)).mp watched

/-- The traces of a route are those of the bindings that the change reaches. -/
theorem mem_traces_iff {rt : Graph.Snapshot} (named : r ≠ "")
    (tracks : Tracks ((Locate.bind (some g) spans).bindings.flatMap fun b =>
      (joins lib g d rt b).map (b.traceID, ·)) out) :
    (r, t) ∈ out.routeTraces ↔
      ∃ b ∈ (Locate.bind (some g) spans).bindings, b.traceID = t ∧ Reached g d b.sourceID ∧ labelOf lib rt b = r := by
  rw [tracks.traces]
  constructor
  · rintro ⟨_, _, x, listed, rfl⟩
    obtain ⟨b, hb, pair⟩ := List.mem_flatMap.mp listed
    obtain ⟨y, hy, same⟩ := List.mem_map.mp pair
    obtain ⟨rfl, rfl⟩ := Prod.mk.inj same
    exact ⟨b, hb, rfl, reached_of_joins hb hy, (mem_joins hy).1.symm⟩
  · rintro ⟨b, hb, rfl, reached, rfl⟩
    have watched := (watched_iff (source_of_mem_bindings hb)).mpr reached
    obtain ⟨x, hx⟩ := List.exists_mem_of_ne_nil _ (joins_ne_nil watched named)
    exact ⟨named, trace_of_mem_bindings hb, x, List.mem_flatMap.mpr ⟨b, hb, List.mem_map_of_mem hx⟩, (mem_joins hx).1⟩

theorem length_filter_eq_ncard {l : List (String × String)} (distinct : l.Nodup) (r : String) :
    (l.filter (·.1 = r)).length = {t | (r, t) ∈ l}.ncard := by
  have same : {t | (r, t) ∈ l} = ↑((l.filter (·.1 = r)).map (·.2)).toFinset := by
    ext t
    simp
  rw [same, Set.ncard_coe_finset, List.toFinset_card_of_nodup, List.length_map]
  refine (distinct.filter _).map_on fun p hp q hq eq => ?_
  have first : p.1 = r := by simpa using (List.mem_filter.mp hp).2
  have first' : q.1 = r := by simpa using (List.mem_filter.mp hq).2
  exact Prod.ext (first.trans first'.symm) eq

/-- No route is invented: every route of the report is the label of the entry of a binding that the change impacts,
    with the traces that reach it. -/
theorem runtimeRoutes_joined (std : lib.Uppercase) (names : ∀ n ∈ g.nodes, n.kind = .function → ' ' ∉ n.name.toList)
    (routes : ∀ s ∈ spans, trimSpace s.httpRoute = s.httpRoute ∧ '?' ∉ s.httpRoute.toList)
    (methods : ∀ s ∈ spans, '?' ∉ s.httpMethod.toList) {r : String}
    (listed : r ∈ runtimeRoutes lib (analyze lib (some g) d (Locate.bind (some g) spans) (Graph.build lib spans))) :
    (∃ b ∈ (Locate.bind (some g) spans).bindings, Reached g d b.sourceID ∧ Impacted g d b.sourceID ∧
      ∃ e, (Graph.build lib spans).entryForSpan b.traceID b.spanID = some e ∧ r = routeLabel lib e.method e.route) ∧
    { route := r
      traces := {t | ∃ b ∈ (Locate.bind (some g) spans).bindings, b.traceID = t ∧ Reached g d b.sourceID ∧
        labelOf lib (Graph.build lib spans) b = r}.ncard } ∈
      (analyze lib (some g) d (Locate.bind (some g) spans) (Graph.build lib spans)).routeTraceCounts := by
  obtain ⟨x, kept, read⟩ := mem_routes.mp listed
  obtain ⟨_, _, split, _⟩ := Keyed.mem_take_firsts.mp kept
  have member : x ∈ (Locate.bind (some g) spans).bindings.flatMap (joins lib g d (Graph.build lib spans)) := by
    rw [split]
    simp
  obtain ⟨b, hb, hx⟩ := List.mem_flatMap.mp member
  have reached := reached_of_joins hb hx
  obtain ⟨e, entry, label, label', named⟩ := label_of_joins std names routes methods hb hx read
  refine ⟨⟨b, hb, reached, reached.impacted, e, entry, label⟩, ?_⟩
  have tracks := @tracks_run lib g d (Graph.build lib spans) (Locate.bind (some g) spans).bindings
  have traces : ∀ t, _ := fun t => mem_traces_iff (t := t) named tracks
  have count := length_filter_eq_ncard tracks.distinct r
  simp only [traces] at count
  rw [← count]
  have traced := (traces b.traceID).mpr ⟨b, hb, rfl, reached, label'⟩
  refine mem_routeTraceCounts rfl listed (List.ne_nil_of_mem (a := (r, b.traceID)) ?_)
  exact List.mem_filter.mpr ⟨traced, decide_eq_true rfl⟩

end

namespace Sample

def span (traceID method route function : String) : Ingest.Span :=
  { traceID, spanID := "a", serviceName := "shop", kind := "server", httpMethod := method, httpRoute := route
    codeFunction := function, codeFile := "a.go" }

def spans : List Ingest.Span := [span "t1" "GET" "/orders" "m.load", span "t2" "GET" "/orders" "m.serve"]

def oneLine : Source.Snapshot :=
  { module := "m"
    nodes := [{ id := "file:a.go", kind := .file, name := "a.go", pkg := "m", file := "a.go" },
      { id := "func:m.load", kind := .function, name := "load", pkg := "m", file := "a.go", line := 4, endLine := 4 },
      { id := "func:m.save", kind := .function, name := "save", pkg := "m", file := "a.go", line := 4, endLine := 4 }] }

def twice : List Ingest.Span := [span "t1" "GET" "/x" "m.load", span "t2" "GET" "/x" "m.save"]

theorem touched_oneLine (h : fn ∈ oneLine.nodes.tail) : Touched oneLine diff fn := by
  have shape : ∀ fn ∈ oneLine.nodes.tail, fn.file = "a.go" ∧ fn.line ≤ 4 ∧ closed fn = true ∧
    4 ≤ fn.endLine := by decide
  obtain ⟨file, first, known, last⟩ := shape fn h
  exact ⟨_, List.mem_cons_self, file, 4, List.mem_cons_self, first, by rw [if_pos known]; exact last⟩

def report (g : Source.Snapshot) (spans : List Ingest.Span) : Report :=
  analyze Lib.plain (some g) diff (Locate.bind (some g) spans) (Graph.build Lib.plain spans)

theorem uppercase_plain : Lib.plain.Uppercase := by
  refine ⟨fun c _ blank => blank, fun c high => ?_, fun c high => if_neg (not_lt.mpr high)⟩
  rintro rfl
  exact absurd high (by decide)

end Sample

theorem runtimeRoutes_joined_sample :
    runtimeRoutes Lib.plain (Sample.report Sample.graph Sample.spans) = ["GET /orders"] ∧
      (∃ b ∈ (Locate.bind (some Sample.graph) Sample.spans).bindings, Reached Sample.graph Sample.diff b.sourceID ∧
        Impacted Sample.graph Sample.diff b.sourceID ∧
        ∃ e, (Graph.build Lib.plain Sample.spans).entryForSpan b.traceID b.spanID = some e ∧
          "GET /orders" = routeLabel Lib.plain e.method e.route) ∧
      { route := "GET /orders"
        traces := {t | ∃ b ∈ (Locate.bind (some Sample.graph) Sample.spans).bindings, b.traceID = t ∧
          Reached Sample.graph Sample.diff b.sourceID ∧
            labelOf Lib.plain (Graph.build Lib.plain Sample.spans) b = "GET /orders"}.ncard } ∈
        (Sample.report Sample.graph Sample.spans).routeTraceCounts :=
  ⟨by decide +kernel, runtimeRoutes_joined Sample.uppercase_plain (by decide) (by decide) (by decide)
    (by decide +kernel)⟩

/-- A method with a question mark is read as a method and a path, and of two functions on one line only the first one's
    traces are counted. -/
theorem runtimeRoutes_invented :
    (runtimeRoutes Lib.plain (Sample.report Sample.graph [Sample.span "t1" "GET /a?" "/b" "m.load"]) = ["GET /A"] ∧
      (Locate.bind (some Sample.graph) [Sample.span "t1" "GET /a?" "/b" "m.load"]).bindings.map
        (labelOf Lib.plain (Graph.build Lib.plain [Sample.span "t1" "GET /a?" "/b" "m.load"])) = ["GET /A? /b"]) ∧
    (Sample.report Sample.oneLine Sample.twice).routeTraceCounts = [⟨"GET /x", 1⟩] ∧
      (Locate.bind (some Sample.oneLine) Sample.twice).bindings.map
        (fun b => (b.traceID, labelOf Lib.plain (Graph.build Lib.plain Sample.twice) b)) = [("t1", "GET /x"),
          ("t2", "GET /x")] ∧
      ∀ b ∈ (Locate.bind (some Sample.oneLine) Sample.twice).bindings,
      Impacted Sample.oneLine Sample.diff b.sourceID := by
  refine ⟨⟨by decide +kernel, by decide +kernel⟩, by decide +kernel, by decide +kernel, fun b hb => ?_⟩
  have sources : ∀ b ∈ (Locate.bind (some Sample.oneLine) Sample.twice).bindings,
      b.sourceID = "func:m.load" ∨ b.sourceID = "func:m.save" := by decide +kernel
  rcases sources b hb with same | same <;> rw [same]
  · exact ⟨_, List.mem_cons_of_mem _ List.mem_cons_self, rfl, Sample.touched_oneLine (by decide), .inl rfl⟩
  · exact ⟨_, List.mem_cons_of_mem _ (List.mem_cons_of_mem _ List.mem_cons_self), rfl,
      Sample.touched_oneLine (by decide), .inl rfl⟩

end Impact

end Aquila

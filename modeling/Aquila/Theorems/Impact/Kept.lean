import Aquila.Theorems.Impact.Joined

/-! Which routes of bound spans the report keeps: those that are read back from a join that comes before the limits
    are reached. -/

namespace Aquila.Impact
open Source (Node)
open Ingest (Span)

/-! ### Joins -/

section
variable (lib : Lib) (g : Source.Snapshot) (d : Diff) (spans : List Span)

/-- The spans that are bound, up to the limit. -/
def boundSpans : List (Span × Node) := (Locate.attached g spans).take Locate.maxBindings

/-- The label of the entry of a span, empty if it has none. -/
def entryLabel (s : Span) : String :=
  let entry := ((Graph.build lib spans).entryForSpan s.traceID s.spanID).getD {}
  routeLabel lib entry.method entry.route

/-- The text that joins are told apart by: the function, the label and the provenance. -/
def joinKey (t : Span × Node) (provenance : String) : String :=
  t.2.id ++ "\x00" ++ entryLabel lib spans t.1 ++ "\x00" ++ provenance

/-- The joins of a bound span: with its service alone if its entry has no label, and else as a span of a changed
    function and as one of a caller. -/
def Joins (t : Span × Node) (key : String) : Prop :=
  (entryLabel lib spans t.1 = "" ∧ t.1.serviceName ≠ "" ∧ Reached g d t.2.id ∧
    key = joinKey lib spans t Locate.provenanceCodeAttrs) ∨
  (entryLabel lib spans t.1 ≠ "" ∧ (∃ fn, Given g d fn ∧ fn.id = t.2.id) ∧
    key = joinKey lib spans t provenanceTraceEntry) ∨
  (entryLabel lib spans t.1 ≠ "" ∧ (∃ fn, Given g d fn ∧ ∃ e ∈ g.edges, e.kind = .calls ∧ e.src = t.2.id ∧
    e.dst = fn.id) ∧ key = joinKey lib spans t provenanceTraceEntryCaller)

/-- The order of the bindings. -/
def Before (s s' : Span) : Prop := s.traceID < s'.traceID ∨ s.traceID = s'.traceID ∧ s.spanID < s'.spanID

/-- The joins of the bound spans before a span. -/
def joinsBefore (s : Span) : Set String := {key | ∃ t ∈ boundSpans g spans, Before t.1 s ∧ Joins lib g d spans t key}

/-- A text is read as a route: up to the first blank it is a method of capital letters, and what follows starts with a
    slash and has no blank before its query. -/
def ReadAs (text route : String) : Prop :=
  ∃ method path, trimSpace text = method ++ " " ++ path ∧ ' ' ∉ method.toList ∧ hasPrefix (trimSpace path) "/" = true ∧
    isMethod (lib.toUpper (trimSpace method)) = true ∧ ' ' ∉ (cutBefore (trimSpace path) '?').toList ∧
    route = lib.toUpper (trimSpace method) ++ " " ++ cutBefore (trimSpace path) '?'

/-- The text that a route is read from: the label of the entry, or the name of the function if there is none. -/
def shownText (t : Span × Node) : String :=
  if trimSpace (entryLabel lib spans t.1) = "" then t.2.name else entryLabel lib spans t.1

/-- The route is read back from a join of a bound span that no span before it has, with fewer than 500 joins before
    it. -/
def Kept (r : String) : Prop :=
  ∃ t ∈ boundSpans g spans, ReadAs lib (shownText lib spans t) r ∧ ∃ key, Joins lib g d spans t key ∧
    key ∉ joinsBefore lib g d spans t.1 ∧ (joinsBefore lib g d spans t.1).ncard < maxFindings

end

section
variable {lib : Lib} {g : Source.Snapshot} {d : Diff} {spans : List Span}

theorem node_of_mem_boundSpans {t : Span × Node} (h : t ∈ boundSpans g spans) : t.2 ∈ g.nodes :=
  (Locate.attach_ok (Locate.mem_attached.mp (List.mem_of_mem_take h)).2.2.2).1

theorem labelOf_binding (t : Span × Node) :
    labelOf lib (Graph.build lib spans) (Locate.binding t.1 t.2) = entryLabel lib spans t.1 := by
  unfold labelOf entryLabel Locate.binding
  rfl

theorem targets_iff {id : String} (node : id ∈ g.nodes.map (·.id)) :
    callerTargets g (changedFiles g d).directID id ≠ [] ↔ ∃ fn, Given g d fn ∧ ∃ e ∈ g.edges, e.kind = .calls ∧
    e.src = id ∧ e.dst = fn.id := by
  rw [callerTargets_ne_nil]
  constructor
  · rintro ⟨target, changed, calls⟩
    obtain ⟨fn, given, rfl⟩ := mem_directID.mp changed
    exact ⟨fn, given, (mem_callers.mp calls).2.2⟩
  · rintro ⟨fn, given, edge⟩
    exact ⟨fn.id, mem_directID.mpr ⟨fn, given, rfl⟩, mem_callers.mpr ⟨List.mem_map_of_mem given.touched.1, node, edge⟩⟩

theorem mem_keys_boundFindings {b : Locate.Binding} {entry : Graph.EntryRoute} {direct : Bool} {targets : List String}
    {key : String} :
    key ∈ (boundFindings lib b entry direct targets).map Finding.key ↔
      (routeLabel lib entry.method entry.route = "" ∧
        key = b.sourceID ++ "\x00" ++ routeLabel lib entry.method entry.route ++ "\x00" ++ Locate.provenanceCodeAttrs) ∨
      (routeLabel lib entry.method entry.route ≠ "" ∧ direct = true ∧
        key = b.sourceID ++ "\x00" ++ routeLabel lib entry.method entry.route ++ "\x00" ++ provenanceTraceEntry) ∨
      (routeLabel lib entry.method entry.route ≠ "" ∧ targets ≠ [] ∧
        key = b.sourceID ++ "\x00" ++ routeLabel lib entry.method entry.route ++ "\x00" ++
        provenanceTraceEntryCaller) := by
  have route : (boundFinding lib b entry).route = routeLabel lib entry.method entry.route := by simp only [boundFinding]
  have source : (boundFinding lib b entry).sourceID = b.sourceID := rfl
  have marked : (boundFinding lib b entry).provenance = Locate.provenanceCodeAttrs := rfl
  unfold boundFindings
  generalize boundFinding lib b entry = f at route source marked ⊢
  rw [← route, ← source, ← marked]
  by_cases unrouted : f.route = ""
  · simp [unrouted, Finding.key]
  · cases direct <;> by_cases none : targets = [] <;> simp [unrouted, none, Finding.key]

theorem joins_eq (b : Locate.Binding) (rt : Graph.Snapshot) : joins lib g d rt b =
    if (b.sourceID ∈ (changedFiles g d).directID ∨ b.sourceID ∈ (likely g (changedFiles g d).directID).map (·.id)) ∧
      ¬(b.serviceName = "" ∧ labelOf lib rt b = "") then findingsOf lib g (changedFiles g d).directID rt b else [] := by
  have fields : ∀ x ∈ findingsOf lib g (changedFiles g d).directID rt b, x.service = b.serviceName ∧
    x.route = labelOf lib rt b :=
    fun x hx => ⟨(mem_boundFindings hx).2.2, (mem_boundFindings hx).1⟩
  unfold joins
  by_cases watched : b.sourceID ∈ (changedFiles g d).directID ∨
    b.sourceID ∈ (likely g (changedFiles g d).directID).map (·.id)
  · rw [if_pos watched]
    by_cases hidden : b.serviceName = "" ∧ labelOf lib rt b = ""
    · rw [if_neg fun h => h.2 hidden, List.filter_eq_nil_iff]
      intro x hx
      rw [(fields x hx).1, (fields x hx).2]
      simpa using hidden
    · rw [if_pos ⟨watched, hidden⟩, List.filter_eq_self]
      intro x hx
      rw [(fields x hx).1, (fields x hx).2]
      exact decide_eq_true hidden
  · rw [if_neg watched, if_neg fun h => watched h.1]

theorem joins_iff {t : Span × Node} (node : t.2 ∈ g.nodes) {key : String} :
    key ∈ (joins lib g d (Graph.build lib spans) (Locate.binding t.1 t.2)).map Finding.key ↔
    Joins lib g d spans t key := by
  have member : t.2.id ∈ g.nodes.map (·.id) := List.mem_map_of_mem node
  have direct := @mem_directID g d t.2.id
  have targets := @targets_iff g d t.2.id member
  have watched := @watched_iff g d t.2.id member
  have keys : key ∈ (findingsOf lib g (changedFiles g d).directID (Graph.build lib spans) (Locate.binding t.1 t.2)).map
    Finding.key ↔ _ :=
    mem_keys_boundFindings
  have source : (Locate.binding t.1 t.2).sourceID = t.2.id := rfl
  have service : (Locate.binding t.1 t.2).serviceName = t.1.serviceName := rfl
  rw [source, decide_eq_true_iff] at keys
  rw [joins_eq, labelOf_binding, source, service]
  constructor
  · intro h
    split_ifs at h with shown
    · obtain ⟨watch, shown⟩ := shown
      rcases keys.mp h with ⟨none, rfl⟩ | ⟨some, dir, rfl⟩ | ⟨some, tgt, rfl⟩
      · exact .inl ⟨none, fun empty => shown ⟨empty, none⟩, watched.mp watch, rfl⟩
      · exact .inr (.inl ⟨some, direct.mp dir, rfl⟩)
      · exact .inr (.inr ⟨some, targets.mp tgt, rfl⟩)
    · exact nomatch h
  · rintro (⟨none, serviced, reached, rfl⟩ | ⟨some, given, rfl⟩ | ⟨some, calls, rfl⟩)
    · rw [if_pos ⟨watched.mpr reached, fun h => serviced h.1⟩]
      exact keys.mpr (.inl ⟨none, rfl⟩)
    · obtain ⟨fn, changed, same⟩ := given
      rw [if_pos ⟨watched.mpr ⟨fn, changed, .inl same⟩, fun h => some h.2⟩]
      exact keys.mpr (.inr (.inl ⟨some, direct.mpr ⟨fn, changed, same⟩, rfl⟩))
    · obtain ⟨fn, changed, edge⟩ := calls
      rw [if_pos ⟨watched.mpr ⟨fn, changed, .inr edge⟩, fun h => some h.2⟩]
      exact keys.mpr (.inr (.inr ⟨some, targets.mpr ⟨fn, changed, edge⟩, rfl⟩))

/-! ### Order -/

theorem attached_sublist (spans : List Span) : ((Locate.attached g spans).map (·.1)).Sublist spans := by
  unfold Locate.attached
  induction spans with
  | nil => exact List.Sublist.slnil
  | cons s spans ih =>
    rw [List.filter_cons]
    split_ifs
    · rw [List.filterMap_cons]
      cases Locate.attach g s with
      | error reason => exact ih.cons s
      | ok fn => exact ih.cons_cons s
    · exact ih.cons s

theorem bindings_distinct (distinct : (spans.map fun s => (s.traceID, s.spanID)).Nodup) :
    ((Locate.bind (some g) spans).bindings.map fun b => (b.traceID, b.spanID)).Nodup := by
  have perm := (Locate.bindings_perm g spans).map fun b => (b.traceID, b.spanID)
  rw [perm.nodup_iff, List.map_map]
  have ids : ((boundSpans g spans).map (·.1)).Sublist spans := by
    rw [boundSpans, List.map_take]
    exact (List.take_sublist _ _).trans (attached_sublist spans)
  have kept := distinct.sublist (ids.map fun s => (s.traceID, s.spanID))
  rw [List.map_map] at kept
  exact kept

theorem mem_before_iff (distinct : (spans.map fun s => (s.traceID, s.spanID)).Nodup)
    {before after : List Locate.Binding}
    {t t' : Span × Node} (split : (Locate.bind (some g) spans).bindings = before ++ Locate.binding t.1 t.2 :: after)
    (ht' : t' ∈ boundSpans g spans) : Locate.binding t'.1 t'.2 ∈ before ↔ Before t'.1 t.1 := by
  have ids := bindings_distinct (g := g) distinct
  have sorted := Locate.bindings_sorted g spans
  rw [split] at ids sorted
  obtain ⟨_, tail, across⟩ := List.pairwise_append.mp sorted
  obtain ⟨later, _⟩ := List.pairwise_cons.mp tail
  constructor
  · intro earlier
    have le : t'.1.traceID < t.1.traceID ∨ t'.1.traceID = t.1.traceID ∧ t'.1.spanID ≤ t.1.spanID :=
      across _ earlier _ List.mem_cons_self
    refine le.imp_right fun ⟨trace, le⟩ => ⟨trace, lt_of_le_of_ne le fun span => ?_⟩
    rw [List.map_append, List.map_cons] at ids
    refine (List.nodup_cons.mp (List.nodup_middle.mp ids)).1
      (List.mem_append_left _ (List.mem_map.mpr ⟨_, earlier, ?_⟩))
    exact Prod.ext trace span
  · intro earlier
    have listed : Locate.binding t'.1 t'.2 ∈ (Locate.bind (some g) spans).bindings :=
      (Locate.bindings_perm g spans).mem_iff.mpr (List.mem_map_of_mem ht')
    have apart : ¬(t.1.traceID < t'.1.traceID ∨ t.1.traceID = t'.1.traceID ∧ t.1.spanID ≤ t'.1.spanID) := by
      rcases earlier with lt | ⟨eq, lt⟩
      · rintro (lt' | ⟨eq', _⟩)
        · exact lt_asymm lt lt'
        · exact lt_irrefl _ (eq' ▸ lt)
      · rintro (lt' | ⟨_, le⟩)
        · exact lt_irrefl _ (eq ▸ lt')
        · exact not_le_of_gt lt le
    rw [split] at listed
    rcases List.mem_append.mp listed with here | rest
    · exact here
    · rcases List.mem_cons.mp rest with same | after
      · have trace : t'.1.traceID = t.1.traceID := congrArg Locate.Binding.traceID same
        have span : t'.1.spanID = t.1.spanID := congrArg Locate.Binding.spanID same
        exact absurd (.inr ⟨trace.symm, span.symm.le⟩) apart
      · exact absurd (later _ after) apart

theorem joinsBefore_eq (distinct : (spans.map fun s => (s.traceID, s.spanID)).Nodup)
    {before after : List Locate.Binding}
    {t : Span × Node} (split : (Locate.bind (some g) spans).bindings = before ++ Locate.binding t.1 t.2 :: after) :
    joinsBefore lib g d spans t.1 = {key | key ∈ (before.flatMap (joins lib g d (Graph.build lib spans))).map
      Finding.key} := by
  ext key
  simp only [joinsBefore, Set.mem_ofPred_eq, List.map_flatMap, List.mem_flatMap]
  constructor
  · rintro ⟨t', ht', earlier, join⟩
    exact ⟨_, (mem_before_iff distinct split ht').mpr earlier, (joins_iff (node_of_mem_boundSpans ht')).mpr join⟩
  · rintro ⟨b, hb, join⟩
    have listed : b ∈ (Locate.bind (some g) spans).bindings := split ▸ List.mem_append_left _ hb
    obtain ⟨t', ht', rfl⟩ := List.mem_map.mp ((Locate.bindings_perm g spans).mem_iff.mp listed)
    exact ⟨t', ht', (mem_before_iff distinct split ht').mp hb, (joins_iff (node_of_mem_boundSpans ht')).mp join⟩

theorem ncard_mem_list (l : List String) : {x | x ∈ l}.ncard = l.dedup.length := by
  have same : {x | x ∈ l} = ↑l.toFinset := by
    ext x
    simp
  rw [same, Set.ncard_coe_finset, List.card_toFinset]

/-! ### Routes -/

theorem runtimeLabel_eq_some_iff {x : Finding} {r : String} :
    runtimeLabel lib x = some r ↔ ReadAs lib (if trimSpace x.route = "" then x.name else x.route) r := by
  have raw : (if trimSpace x.route = "" then trimSpace x.name else trimSpace x.route) =
      trimSpace (if trimSpace x.route = "" then x.name else x.route) := by split_ifs <;> rfl
  unfold runtimeLabel ReadAs
  rw [raw]
  generalize (if trimSpace x.route = "" then x.name else x.route) = text
  have again : trimSpace (trimSpace text) = trimSpace text := by
    have same := (trimmed_trimSpace text).trimSpace
    rwa [String.ofList_toList] at same
  have pieces {m p : String} : trimSpace text = m ++ " " ++ p ∧ ' ' ∉ m.toList ↔
    splitN2 (trimSpace text) ' ' = [m, p] := by
    rw [splitN2_eq_pair_iff, ← String.toList_inj]
    simp
  by_cases pair : ∃ m p, splitN2 (trimSpace text) ' ' = [m, p]
  · obtain ⟨m, p, pair⟩ := pair
    have alone {m' p' : String} (h : trimSpace text = m' ++ " " ++ p') (fresh : ' ' ∉ m'.toList) : m' = m ∧ p' = p := by
      have same := (pieces.mp ⟨h, fresh⟩).symm.trans pair
      exact ⟨(List.cons.inj same).1, (List.cons.inj (List.cons.inj same).2).1⟩
    have clear : contains (cutBefore (trimSpace p) '?') " " = false ↔ ' ' ∉ (cutBefore (trimSpace p) '?').toList := by
      rw [← Bool.not_eq_true, contains_iff]
      exact not_congr (List.singleton_infix_iff _ _)
    obtain ⟨whole, fresh⟩ := pieces.mpr pair
    unfold splitRoute
    dsimp only
    rw [again, pair]
    dsimp only
    by_cases rooted : hasPrefix (trimSpace p) "/" = true
    · have path : cutBefore (trimSpace p) '?' ≠ "" := by
        intro empty
        have := cutBefore_rooted rooted
        rw [empty] at this
        cases this
      rw [rooted, if_neg (by decide), cutBefore_rooted rooted, if_pos rfl]
      by_cases method : lib.toUpper (trimSpace m) = ""
      · rw [if_pos (.inl method)]
        refine iff_of_false (fun h => by cases h) ?_
        rintro ⟨m', p', h, fresh', -, named, -⟩
        rw [(alone h fresh').1, method] at named
        cases named
      · rw [if_neg (not_or.mpr ⟨method, path⟩)]
        dsimp only
        rw [Option.ite_none_right_eq_some, Bool.and_eq_true, Bool.not_eq_true', clear, Option.some.injEq]
        constructor
        · rintro ⟨⟨named, blank⟩, rfl⟩
          exact ⟨m, p, whole, fresh, rooted, named, blank, rfl⟩
        · rintro ⟨m', p', h, fresh', -, named, blank, rfl⟩
          obtain ⟨rfl, rfl⟩ := alone h fresh'
          exact ⟨⟨named, blank⟩, rfl⟩
    · rw [if_pos (by simpa using rooted)]
      refine iff_of_false (fun h => by cases h) ?_
      rintro ⟨m', p', h, fresh', rooted', -⟩
      exact rooted ((alone h fresh').2 ▸ rooted')
  · refine iff_of_false (fun h => ?_) ?_
    · dsimp only at h
      split at h
      · rename_i m p found
        exact pair ⟨m, p, found⟩
      · cases h
    · rintro ⟨m, p, h, fresh, -⟩
      exact pair ⟨m, p, pieces.mp ⟨h, fresh⟩⟩

/-- The routes of the report, exactly. -/
theorem mem_routes_iff_kept (distinct : (spans.map fun s => (s.traceID, s.spanID)).Nodup) {r : String} :
    r ∈ runtimeRoutes lib (analyze lib (some g) d (Locate.bind (some g) spans) (Graph.build lib spans)) ↔
    Kept lib g d spans r := by
  have text : ∀ {b : Locate.Binding} {x : Finding}, x ∈ joins lib g d (Graph.build lib spans) b →
      x.route = labelOf lib (Graph.build lib spans) b ∧ x.name = b.sourceName :=
        fun hx => ⟨(mem_joins hx).1, (mem_joins hx).2.1⟩
  have read {t : Span × Node} {x : Finding} (hx : x ∈ joins lib g d (Graph.build lib spans) (Locate.binding t.1 t.2)) :
      runtimeLabel lib x = some r ↔ ReadAs lib (shownText lib spans t) r := by
    rw [runtimeLabel_eq_some_iff, (text hx).1, (text hx).2, labelOf_binding]
    rfl
  have alike : ∀ b, ∀ x ∈ joins lib g d (Graph.build lib spans) b, ∀ y ∈ joins lib g d (Graph.build lib spans) b,
      runtimeLabel lib x = some r → runtimeLabel lib y = some r := by
    intro b x hx y hy
    rw [runtimeLabel_eq_some_iff, runtimeLabel_eq_some_iff, (text hx).1, (text hx).2, (text hy).1, (text hy).2]
    exact id
  rw [mem_routes, Keyed.exists_mem_take_firsts alike]
  constructor
  · rintro ⟨before, b, after, split, few, x, hx, fresh, same⟩
    have listed : b ∈ (Locate.bind (some g) spans).bindings := by rw [split]; simp
    obtain ⟨t, ht, rfl⟩ := List.mem_map.mp ((Locate.bindings_perm g spans).mem_iff.mp listed)
    have earlier : joinsBefore lib g d spans t.1 = _ := joinsBefore_eq distinct split
    refine ⟨t, ht, (read hx).mp same, x.key,
      (joins_iff (node_of_mem_boundSpans ht)).mp (List.mem_map_of_mem hx), ?_, ?_⟩
    · rw [earlier]
      exact fresh
    · rw [earlier, ncard_mem_list]
      exact few
  · rintro ⟨t, ht, same, key, join, fresh, few⟩
    have listed : Locate.binding t.1 t.2 ∈ (Locate.bind (some g) spans).bindings :=
      (Locate.bindings_perm g spans).mem_iff.mpr (List.mem_map_of_mem ht)
    obtain ⟨before, after, split⟩ := List.append_of_mem listed
    have earlier : joinsBefore lib g d spans t.1 = _ := joinsBefore_eq distinct split
    rw [earlier] at fresh few
    rw [ncard_mem_list] at few
    obtain ⟨x, hx, rfl⟩ := List.mem_map.mp ((joins_iff (node_of_mem_boundSpans ht)).mpr join)
    exact ⟨before, _, after, split, few, x, hx, fresh, (read hx).mpr same⟩

end

/-- The route is the label of the entry of a span that is bound to a function that the change impacts. -/
def ImpactedRoute (lib : Lib) (g : Source.Snapshot) (d : Diff) (spans : List Span) (r : String) : Prop :=
  ∃ s ∈ spans, s.traceID ≠ "" ∧ s.spanID ≠ "" ∧ ∃ b, Locate.bindOne g s = .ok b ∧ Impacted g d b.sourceID ∧
    ∃ e, (Graph.build lib spans).entryForSpan s.traceID s.spanID = some e ∧ r = routeLabel lib e.method e.route ∧ r ≠ ""

/-- An impacted route is lost by a blank in its path or a method that is not of capital letters, by the limits of
    2000 bound spans and of 500 joins, or because each of its joins has the key of an earlier one. -/
theorem impacted_routes_exact (lib : Lib) (g : Source.Snapshot) (d : Diff) (spans : List Span)
    (distinct : (spans.map fun s => (s.traceID, s.spanID)).Nodup) :
    (∀ r, ImpactedRoute lib g d spans r →
      r ∈ runtimeRoutes lib (analyze lib (some g) d (Locate.bind (some g) spans) (Graph.build lib spans))) ↔
    ∀ r, ImpactedRoute lib g d spans r → Kept lib g d spans r :=
  forall_congr' fun _ => imp_congr_right fun _ => mem_routes_iff_kept distinct

namespace Sample

def blank : List Span := [span "t1" "GET" "/a b" "m.load"]

theorem impacted_load : Impacted graph diff "func:m.load" := by
  refine ⟨_, List.mem_cons_of_mem _ List.mem_cons_self, rfl, ?_, .inl rfl⟩
  exact ⟨_, List.mem_cons_self, rfl, 4, List.mem_cons_self, by decide, by rw [if_pos (by decide)]; decide⟩

theorem impacted_spans {r : String} (h : ImpactedRoute Lib.plain graph diff spans r) : r = "GET /orders" := by
  obtain ⟨s, hs, _, _, _, _, _, e, entry, label, _⟩ := h
  have labels : ∀ s ∈ spans, ((Graph.build Lib.plain spans).entryForSpan s.traceID s.spanID).map
      (fun e => routeLabel Lib.plain e.method e.route) = some "GET /orders" := by decide +kernel
  have here := labels s hs
  rw [entry] at here
  rw [label]
  exact Option.some.inj here

end Sample

/-- A route with a blank in its path is lost. -/
theorem impacted_routes_blank : (Sample.blank.map fun s => (s.traceID, s.spanID)).Nodup ∧
    ImpactedRoute Lib.plain Sample.graph Sample.diff Sample.blank "GET /a b" ∧
    runtimeRoutes Lib.plain (Sample.report Sample.graph Sample.blank) = [] := by
  refine ⟨by decide, ⟨_, List.mem_cons_self, by decide, by decide, ?_⟩, by decide +kernel⟩
  refine ⟨Locate.binding (Sample.span "t1" "GET" "/a b" "m.load")
    { id := "func:m.load", kind := .function, name := "load", pkg := "m", file := "a.go", line := 3, endLine := 5 },
    by decide +kernel, Sample.impacted_load,
      ⟨"t1", "a", "GET", "/a b"⟩, by decide +kernel, by decide +kernel, by decide⟩

theorem impacted_routes_sample : (Sample.spans.map fun s => (s.traceID, s.spanID)).Nodup ∧
    ∀ r, ImpactedRoute Lib.plain Sample.graph Sample.diff Sample.spans r →
    Kept Lib.plain Sample.graph Sample.diff Sample.spans r := by
  refine ⟨by decide, (impacted_routes_exact Lib.plain Sample.graph Sample.diff Sample.spans (by decide)).mp
    fun r impacted => ?_⟩
  rw [Sample.impacted_spans impacted]
  decide +kernel

end Aquila.Impact

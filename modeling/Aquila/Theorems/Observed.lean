import Mathlib.Data.List.Destutter
import Mathlib.Data.Set.Card
import Aquila.Lib.Lists
import Aquila.Theorems.Entries
import Aquila.Theorems.Text

/-! The runtime graph counts what was observed: an edge once for each span with a parent in its trace, and a path
    once for each trace with a chain along it. -/

namespace Aquila.Graph
open Ingest (Span)
variable {s span : Span} {key : String} {services visiting : List String}

/-- Spans with ids of their own and names that can be joined. -/
structure Recorded (spans : List Span) : Prop where
  named : ∀ s ∈ spans, s.traceID ≠ "" ∧ s.spanID ≠ ""
  distinct : (spans.map fun s => (s.traceID, s.spanID)).Nodup
  plain : ∀ s ∈ spans, '\x00' ∉ s.serviceName.toList

/-! ### Traces -/

/-- The spans of a trace by their ids. -/
def spansOf (spans : List Span) (traceID : String) : List (String × Span) :=
  (spans.filter fun s => s.traceID = traceID).map fun s => (s.spanID, s)

/-- The traces hold the spans. -/
structure Grouped (spans : List Span) (traces : List (String × Trace)) : Prop where
  keys : (traces.map (·.1)).Nodup
  holds : ∀ p ∈ traces, p.2.spans = spansOf spans p.1
  listed : ∀ traceID, traceID ∈ traces.map (·.1) ↔ ∃ s ∈ spans, s.traceID = traceID

theorem spansOf_snoc (spans : List Span) (s : Span) (traceID : String) :
    spansOf (spans ++ [s]) traceID = if s.traceID = traceID then spansOf spans traceID ++ [(s.spanID, s)]
    else spansOf spans traceID := by
  rw [spansOf, List.filter_append, List.map_append]
  split_ifs with same
  · rw [List.filter_cons_of_pos (by simpa using same)]
    rfl
  · rw [List.filter_cons_of_neg (by simpa using same)]
    exact List.append_nil _

theorem spansOf_eq_nil {spans : List Span} {traceID : String} (h : ¬∃ s ∈ spans, s.traceID = traceID) :
    spansOf spans traceID = [] := by
  rw [spansOf, List.map_eq_nil_iff, List.filter_eq_nil_iff]
  exact fun s hs same => h ⟨s, hs, of_decide_eq_true same⟩

theorem Grouped.put {spans : List Span} {traces : List (String × Trace)} (h : Grouped spans traces)
    (named : s.spanID ≠ "")
    (fresh : ∀ x ∈ spans, x.traceID = s.traceID → x.spanID ≠ s.spanID) :
    Grouped (spans ++ [s]) (Keyed.put (·.1) traces (s.traceID, ((find traces s.traceID).getD {}).put s named)) := by
  have joined : (((find traces s.traceID).getD {}).put s named).spans = spansOf (spans ++ [s]) s.traceID := by
    have old : ((find traces s.traceID).getD {}).spans = spansOf spans s.traceID := by
      cases known : find traces s.traceID with
      | none =>
        have missing : s.traceID ∉ traces.map (·.1) := Keyed.get_eq_none_iff.mp (Option.map_eq_none_iff.mp known)
        exact (spansOf_eq_nil ((h.listed _).not.mp missing)).symm
      | some t =>
        obtain ⟨p, found, rfl⟩ := Option.map_eq_some_iff.mp known
        obtain ⟨mem, same⟩ := Keyed.get_eq_some found
        rw [← same]
        exact h.holds p mem
    have free : s.spanID ∉ (spansOf spans s.traceID).map (·.1) := by
      intro mem
      obtain ⟨p, hp, same⟩ := List.mem_map.mp mem
      obtain ⟨x, hx, rfl⟩ := List.mem_map.mp hp
      obtain ⟨hx, trace⟩ := List.mem_filter.mp hx
      exact fresh x hx (of_decide_eq_true trace) same
    show Keyed.put (·.1) ((find traces s.traceID).getD {}).spans (s.spanID, s) = _
    rw [old, Keyed.put_of_not_mem free, spansOf_snoc, if_pos rfl]
  have keys := Keyed.nodup_put (a := (s.traceID, ((find traces s.traceID).getD {}).put s named)) h.keys
  refine ⟨keys, fun p hp => ?_, fun traceID => ?_⟩
  · by_cases same : p.1 = s.traceID
    · have self := (Keyed.get_eq_some (@Keyed.get_put_self _ _ _ (fun p : String × Trace => p.1) traces
        (s.traceID, ((find traces s.traceID).getD {}).put s named))).1
      rw [Keyed.eq_of_key keys hp self same]
      exact joined
    · rw [spansOf_snoc, if_neg (Ne.symm same)]
      refine h.holds p ((Keyed.mem_or_eq_of_mem_put hp).resolve_right ?_)
      rintro rfl
      exact same rfl
  · rw [Keyed.mem_map_put, h.listed]
    simp only [List.mem_append, List.mem_singleton, or_and_right, exists_or, exists_eq_left]
    exact or_congr_right eq_comm

theorem grouped_group {spans : List Span} (named : ∀ s ∈ spans, s.traceID ≠ "" ∧ s.spanID ≠ "")
    (distinct : (spans.map fun s => (s.traceID, s.spanID)).Nodup) : Grouped spans (group spans) := by
  unfold group
  induction spans using List.reverseRecOn with
  | nil => exact ⟨List.nodup_nil, nofun, by simp⟩
  | append_singleton spans s ih =>
    obtain ⟨others, first⟩ := List.forall_mem_append.mp named
    obtain ⟨trace, span⟩ := first s (List.mem_singleton_self s)
    rw [List.map_append, List.nodup_append'] at distinct
    rw [List.foldl_append, List.foldl_cons, List.foldl_nil, dif_neg (not_or.mpr ⟨trace, span⟩)]
    refine (ih others distinct.1).put span fun x hx same id => ?_
    exact distinct.2.2 (List.mem_map_of_mem hx) (by simp [same, id])

section
variable {spans : List Span} {traceID : String} {t : Trace}

theorem mem_spans_iff (holds : t.spans = spansOf spans traceID) {p : String × Span} :
    p ∈ t.spans ↔ p.2 ∈ spans ∧ p.2.traceID = traceID ∧ p.1 = p.2.spanID := by
  rw [holds]
  constructor
  · intro mem
    obtain ⟨x, hx, rfl⟩ := List.mem_map.mp mem
    obtain ⟨hx, trace⟩ := List.mem_filter.mp hx
    exact ⟨hx, of_decide_eq_true trace, rfl⟩
  · rintro ⟨hs, trace, id⟩
    exact List.mem_map.mpr ⟨p.2, List.mem_filter.mpr ⟨hs, by simpa using trace⟩, by rw [← id]⟩

theorem get_iff (holds : t.spans = spansOf spans traceID) {id : String} :
    t.get id = some s ↔ s ∈ spans ∧ s.traceID = traceID ∧ s.spanID = id := by
  rw [Trace.get_eq_some_iff, mem_spans_iff holds, @eq_comm _ id]

end

/-- Part by part, the traces are the spans. -/
theorem perm_group {spans : List Span} {traces : List (String × Trace)} (h : Grouped spans traces) :
    (traces.flatMap fun p => p.2.spans.map (·.2)).Perm spans := by
  have parts : (traces.flatMap fun p => p.2.spans.map (·.2)) =
      (traces.map (·.1)).flatMap fun traceID => spans.filter fun s => s.traceID = traceID := by
    rw [List.flatMap_map]
    refine List.flatMap_congr fun p hp => ?_
    rw [h.holds p hp, spansOf, List.map_map]
    exact List.map_id _
  have all : (spans.filter fun s => s.traceID ∈ traces.map (·.1)) = spans :=
    List.filter_eq_self.mpr fun s hs => decide_eq_true ((h.listed _).mpr ⟨s, hs, rfl⟩)
  have perm := Lists.perm_flatMap_filter Span.traceID spans h.keys
  rwa [all, ← parts] at perm

/-! ### Edges -/

/-- A span of one service whose parent is of another. -/
def isEdge (spans : List Span) (src dst : String) (s : Span) : Bool :=
  s.serviceName = dst && src ≠ "" && dst ≠ "" && src ≠ dst &&
    spans.any fun p => p.traceID = s.traceID && p.spanID = s.parentSpanID && p.serviceName = src

/-- How many spans of a service have a parent of another. -/
def edgeCount (spans : List Span) (src dst : String) : Nat := spans.countP (isEdge spans src dst)

theorem isEdge_iff {spans : List Span} {src dst : String} : isEdge spans src dst s = true ↔
    s.serviceName = dst ∧ src ≠ "" ∧ dst ≠ "" ∧ src ≠ dst ∧
      ∃ p ∈ spans, p.traceID = s.traceID ∧ p.spanID = s.parentSpanID ∧ p.serviceName = src := by
  simp only [isEdge, Bool.and_eq_true, decide_eq_true_eq, List.any_eq_true, and_assoc]

theorem cut_key {a : String} (plain : '\x00' ∉ a.toList) (b : String) :
    cut (a ++ "\x00" ++ b) "\x00" = some (a, b) := by
  have text : (a ++ "\x00" ++ b).toList = a.toList ++ ("\x00".toList ++ b.toList) := by
    rw [String.toList_append, String.toList_append, List.append_assoc]
  have found := cutChars_append plain [] b.toList
  rw [cut, text]
  show Option.map _ (cutChars ['\x00'] (a.toList ++ (['\x00'] ++ b.toList))) = _
  rw [found]
  simp

theorem key_inj {a a' b b' : String} (plain : '\x00' ∉ a.toList) (plain' : '\x00' ∉ a'.toList) :
    a ++ "\x00" ++ b = a' ++ "\x00" ++ b' ↔ a = a' ∧ b = b' := by
  constructor
  · intro same
    have := (cut_key plain b).symm.trans ((congrArg (cut · "\x00") same).trans (cut_key plain' b'))
    simpa using this
  · rintro ⟨rfl, rfl⟩
    rfl

section
variable {spans : List Span} {traceID : String} {t : Trace} {src dst : String}

theorem count_edgeKeys (h : Recorded spans) (holds : t.spans = spansOf spans traceID) (plain : '\x00' ∉ src.toList) :
    (edgeKeys t).count (src ++ "\x00" ++ dst) = (t.spans.map (·.2)).countP (isEdge spans src dst) := by
  rw [edgeKeys, List.count_filterMap, List.countP_map]
  refine List.countP_congr fun p hp => ?_
  obtain ⟨id, node⟩ := p
  obtain ⟨here, trace, -⟩ := (mem_spans_iff holds).mp hp
  rw [Function.comp_apply, isEdge_iff, beq_iff_eq]
  dsimp only at here trace ⊢
  by_cases root : node.parentSpanID = ""
  · rw [if_pos root]
    refine iff_of_false nofun ?_
    rintro ⟨-, -, -, -, p, hp, -, id, -⟩
    exact (h.named p hp).2 (id.trans root)
  · rw [if_neg root]
    cases found : t.get node.parentSpanID with
    | none =>
      refine iff_of_false nofun ?_
      rintro ⟨-, -, -, -, p, hp, same, id, -⟩
      rw [(get_iff holds).mpr ⟨hp, same.trans trace, id⟩] at found
      cases found
    | some parent =>
      obtain ⟨there, trace', id'⟩ := (get_iff holds).mp found
      have only : (∃ p ∈ spans, p.traceID = node.traceID ∧ p.spanID = node.parentSpanID ∧ p.serviceName = src) ↔
          parent.serviceName = src := by
        constructor
        · rintro ⟨p, hp, same, id, name⟩
          have := (get_iff holds).mpr ⟨hp, same.trans trace, id⟩
          rw [found] at this
          cases this
          exact name
        · intro name
          exact ⟨parent, there, trace'.trans trace.symm, id', name⟩
      rw [only]
      dsimp only
      by_cases none : parent.serviceName = "" ∨ node.serviceName = "" ∨ parent.serviceName = node.serviceName
      · rw [if_pos none]
        refine iff_of_false nofun ?_
        rintro ⟨rfl, some', some'', apart, rfl⟩
        exact none.elim some' fun h => h.elim some'' apart
      · rw [if_neg none, Option.some.injEq, key_inj (h.plain parent there) plain]
        simp only [not_or] at none
        constructor
        · rintro ⟨rfl, rfl⟩
          exact ⟨rfl, none.1, none.2.1, none.2.2, rfl⟩
        · rintro ⟨rfl, -, -, -, rfl⟩
          exact ⟨rfl, rfl⟩

theorem exists_of_mem_edgeKeys (h : Recorded spans) (holds : t.spans = spansOf spans traceID) (mem : key ∈ edgeKeys t) :
    ∃ src dst, '\x00' ∉ src.toList ∧ key = src ++ "\x00" ++ dst := by
  obtain ⟨⟨id, node⟩, hp, made⟩ := List.mem_filterMap.mp mem
  dsimp only at made
  split_ifs at made
  cases found : t.get node.parentSpanID with
  | none =>
    rw [found] at made
    cases made
  | some parent =>
    rw [found] at made
    dsimp only at made
    split_ifs at made
    exact ⟨_, _, h.plain parent ((get_iff holds).mp found).1, (Option.some.inj made).symm⟩

end

def allEdges (traces : List (String × Trace)) : List String := traces.flatMap fun p => edgeKeys p.2

section
variable {spans : List Span} {traces : List (String × Trace)}

theorem count_allEdges (h : Recorded spans) (grouped : Grouped spans traces) {src : String}
    (plain : '\x00' ∉ src.toList)
    (dst : String) : (allEdges traces).count (src ++ "\x00" ++ dst) = edgeCount spans src dst := by
  rw [allEdges, List.count_flatMap, edgeCount, ← (perm_group grouped).countP_eq, List.countP_flatMap]
  refine congrArg List.sum (List.map_congr_left fun p hp => ?_)
  exact count_edgeKeys h (grouped.holds p hp) plain

theorem exists_of_mem_allEdges (h : Recorded spans) (grouped : Grouped spans traces) (mem : key ∈ allEdges traces) :
    ∃ src dst, '\x00' ∉ src.toList ∧ key = src ++ "\x00" ++ dst := by
  obtain ⟨p, hp, mem⟩ := List.mem_flatMap.mp mem
  exact exists_of_mem_edgeKeys h (grouped.holds p hp) mem

theorem plain_of_edgeCount (h : Recorded spans) {src dst : String} (pos : 0 < edgeCount spans src dst) :
    '\x00' ∉ src.toList := by
  obtain ⟨s, -, edge⟩ := List.countP_pos_iff.mp pos
  obtain ⟨-, -, -, -, parent, hp, -, -, rfl⟩ := isEdge_iff.mp edge
  exact h.plain parent hp

theorem mem_allEdges_iff (h : Recorded spans) (grouped : Grouped spans traces) {src : String}
    (plain : '\x00' ∉ src.toList) (dst : String) :
    src ++ "\x00" ++ dst ∈ (allEdges traces).dedup ↔ 0 < edgeCount spans src dst := by
  rw [List.mem_dedup, ← List.count_pos_iff, count_allEdges h grouped plain]

theorem encard_edges (h : Recorded spans) (grouped : Grouped spans traces) :
    {p : String × String | 0 < edgeCount spans p.1 p.2}.encard = (allEdges traces).dedup.length := by
  have read := fun key (mem : key ∈ (allEdges traces).dedup) => exists_of_mem_allEdges h grouped (List.mem_dedup.mp mem)
  refine Lists.encard_eq_length (fun key => (cut key "\x00").getD ("", "")) ((List.nodup_dedup _).map_on ?_) ?_
  · intro key mem key' mem' same
    obtain ⟨src, dst, plain, rfl⟩ := read key mem
    obtain ⟨src', dst', plain', rfl⟩ := read key' mem'
    rw [cut_key plain, cut_key plain'] at same
    obtain ⟨rfl, rfl⟩ := Prod.mk.inj same
    rfl
  · rintro ⟨src, dst⟩
    rw [Set.mem_ofPred_eq, List.mem_map]
    constructor
    · intro pos
      have plain := plain_of_edgeCount h pos
      exact ⟨_, (mem_allEdges_iff h grouped plain dst).mpr pos, by rw [cut_key plain]; rfl⟩
    · rintro ⟨key, mem, made⟩
      obtain ⟨src, dst, plain, rfl⟩ := read key mem
      rw [cut_key plain] at made
      cases made
      exact (mem_allEdges_iff h grouped plain dst).mp mem

theorem edgesFromCount_iff (h : Recorded spans) (grouped : Grouped spans traces)
    (bound : {p : String × String | 0 < edgeCount spans p.1 p.2}.encard ≤ maxEdges) {src dst : String} {n : Nat} :
    { src, dst, count := n } ∈ edgesFromCount (counts (allEdges traces)) ↔ 0 < n ∧ n = edgeCount spans src dst := by
  rw [edgesFromCount, Lists.mem_take_insertionSort, List.mem_filterMap]
  · constructor
    · rintro ⟨p, hp, made⟩
      obtain ⟨key, mem, rfl⟩ := List.mem_map.mp hp
      obtain ⟨src, dst, plain, rfl⟩ := exists_of_mem_allEdges h grouped (List.mem_dedup.mp mem)
      dsimp only at made
      rw [cut_key plain, count_allEdges h grouped plain] at made
      cases made
      exact ⟨(mem_allEdges_iff h grouped plain dst).mp mem, rfl⟩
    · rintro ⟨pos, rfl⟩
      have plain := plain_of_edgeCount h pos
      refine ⟨_, List.mem_map.mpr ⟨_, (mem_allEdges_iff h grouped plain dst).mpr pos, rfl⟩, ?_⟩
      dsimp only
      rw [cut_key plain, count_allEdges h grouped plain]
      rfl
  · rw [encard_edges h grouped, Nat.cast_le] at bound
    refine (List.length_filterMap_le _ _).trans ?_
    rwa [counts, List.length_map]

end

/-! ### Ways down -/

/-- The services of a path with the next one. -/
def addName (services : List String) (name : String) : List String :=
  if name ≠ "" ∧ services.getLast? ≠ some name then services ++ [name] else services

/-- The service names along a chain, without empty ones and without a name twice in a row. -/
def names (chain : List Span) : List String := ((chain.map (·.serviceName)).filter (· ≠ "")).destutter (· ≠ ·)

/-- The spans from `id` down to one without children. -/
inductive Down (t : Trace) : String → List Span → Prop where
  | leaf {id : String} {span : Span} : t.get id = some span → t.children id = [] → Down t id [span]
  | step {id child : String} {span : Span} {chain : List Span} :
    t.get id = some span → child ∈ t.children id → Down t child chain → Down t id (span :: chain)

section
variable {t : Trace} {id last : String}

theorem addName_snoc (services : List String) (a : String) {name : String} (some' : name ≠ "") :
    addName (services ++ [a]) name = if a ≠ name then services ++ [a] ++ [name] else services ++ [a] := by
  simp [addName, some']

theorem foldl_addName_snoc (l services : List String) (a : String) :
    l.foldl addName (services ++ [a]) = services ++ (l.filter (· ≠ "")).destutter' (· ≠ ·) a := by
  induction l generalizing services a with
  | nil => rfl
  | cons name l ih =>
    rw [List.foldl_cons]
    by_cases empty : name = ""
    · rw [List.filter_cons_of_neg (by simpa using empty), addName, if_neg (fun h => h.1 empty), ih]
    · rw [List.filter_cons_of_pos (by simpa using empty), addName_snoc _ _ empty, List.destutter']
      split_ifs
      · rw [ih, List.append_assoc]
        rfl
      · rw [ih]

theorem foldl_addName (l : List String) : l.foldl addName [] = (l.filter (· ≠ "")).destutter (· ≠ ·) := by
  induction l with
  | nil => rfl
  | cons name l ih =>
    rw [List.foldl_cons]
    by_cases empty : name = ""
    · rw [List.filter_cons_of_neg (by simpa using empty), addName, if_neg (fun h => h.1 empty), ih]
    · rw [List.filter_cons_of_pos (by simpa using empty), addName, if_pos ⟨empty, nofun⟩, foldl_addName_snoc]
      rfl

theorem Trace.mem_children_iff (found : t.get id = some span) {child : String} :
    child ∈ t.children id ↔ ∃ c, t.get child = some c ∧ c.parentSpanID = id := by
  rw [children, if_pos (mem_ids found)]
  constructor
  · intro mem
    obtain ⟨p, hp, rfl⟩ := List.mem_map.mp mem
    obtain ⟨hp, parent⟩ := List.mem_filter.mp hp
    exact ⟨p.2, get_eq_some_iff.mpr hp, of_decide_eq_true parent⟩
  · rintro ⟨c, found, parent⟩
    exact List.mem_map.mpr ⟨_, List.mem_filter.mpr ⟨get_eq_some_iff.mp found, decide_eq_true parent⟩, rfl⟩

theorem walkPaths_succ (found : t.get id = some span) (new : id ∉ visiting) (fuel : Nat) :
    walkPaths t (fuel + 1) id services visiting =
      if t.children id = [] then
        if addName services span.serviceName = [] then [] else [join "\x00" (addName services span.serviceName)]
      else (t.children id).flatMap fun child => walkPaths t fuel child (addName services span.serviceName)
      (id :: visiting) := by
  rw [walkPaths, found]
  exact if_neg new

/-- A walk does not need more fuel than the trace has spans, whatever the parents are. -/
theorem walkPaths_add (fuel k : Nat) (nodup : visiting.Nodup) (sub : ∀ x ∈ visiting, x ∈ t.ids)
    (enough : t.spans.length < fuel + visiting.length) :
    walkPaths t (fuel + k) id services visiting = walkPaths t fuel id services visiting := by
  induction fuel generalizing id services visiting with
  | zero =>
    have short := Trace.length_le nodup sub
    omega
  | succ fuel ih =>
    rw [Nat.add_right_comm]
    cases found : t.get id with
    | none => rw [walkPaths, walkPaths, found]
    | some span =>
      by_cases seen : id ∈ visiting
      · simp only [walkPaths, found, if_pos seen]
      · rw [walkPaths_succ found seen, walkPaths_succ found seen]
        refine congrArg (ite _ _) (List.flatMap_congr fun child _ => ih (List.nodup_cons.mpr ⟨seen, nodup⟩) ?_ ?_)
        · exact List.forall_mem_cons.mpr ⟨Trace.mem_ids found, sub⟩
        · rw [List.length_cons]
          omega

theorem Down.eq_leaf {chain : List Span} (h : Down t id chain) (found : t.get id = some span)
    (leaf : t.children id = []) :
    chain = [span] := by
  cases h with
  | leaf found' _ =>
    cases found.symm.trans found'
    rfl
  | step _ child _ =>
    rw [leaf] at child
    cases child

/-- The spans above `id` lead out of the trace, so that the walk from `id` meets none of them again. -/
theorem mem_walkPaths (out : t.get last = none) (fuel : Nat) (links : Links t id (id :: visiting) last)
    (enough : t.spans.length < fuel + visiting.length) : key ∈ walkPaths t fuel id services visiting ↔
      ∃ chain, Down t id chain ∧ (chain.map (·.serviceName)).foldl addName services ≠ [] ∧
        key = join "\x00" ((chain.map (·.serviceName)).foldl addName services) := by
  have nodup := links.nodup out
  induction fuel generalizing id services visiting with
  | zero =>
    have short := Trace.length_le nodup links.subset
    rw [List.length_cons] at short
    omega
  | succ fuel ih =>
    obtain ⟨span, found⟩ := Trace.exists_get (links.subset id List.mem_cons_self)
    rw [walkPaths_succ found (List.nodup_cons.mp nodup).1]
    split_ifs with leaf none
    · refine iff_of_false List.not_mem_nil ?_
      rintro ⟨chain, down, some', -⟩
      rw [down.eq_leaf found leaf] at some'
      exact some' none
    · rw [List.mem_singleton]
      constructor
      · rintro rfl
        exact ⟨[span], .leaf found leaf, none, rfl⟩
      · rintro ⟨chain, down, -, rfl⟩
        rw [down.eq_leaf found leaf]
        rfl
    · have up : ∀ child ∈ t.children id, Links t child (child :: id :: visiting) last := by
        intro child mem
        obtain ⟨c, found', parent⟩ := (Trace.mem_children_iff found).mp mem
        exact .link found' (parent.symm ▸ links)
      have enough' : t.spans.length < fuel + (id :: visiting).length := by
        rw [List.length_cons]
        omega
      rw [List.mem_flatMap]
      constructor
      · rintro ⟨child, mem, walked⟩
        obtain ⟨chain, down, rest⟩ := (ih (up child mem) enough' ((up child mem).nodup out)).mp walked
        exact ⟨span :: chain, .step found mem down, rest⟩
      · rintro ⟨chain, down, rest⟩
        cases down with
        | leaf _ none => exact absurd none leaf
        | @step _ child _ chain found' mem down =>
          cases found.symm.trans found'
          exact ⟨child, mem, (ih (up child mem) enough' ((up child mem).nodup out)).mpr ⟨chain, down, rest⟩⟩

end

/-! ### Paths -/

/-- A chain of spans of a trace, from one without a parent down to one without children. -/
structure Chain (spans : List Span) (traceID : String) (chain : List Span) : Prop where
  members : ∀ s ∈ chain, s ∈ spans ∧ s.traceID = traceID
  links : chain.IsChain fun p s => s.parentSpanID = p.spanID
  top : ∃ s, chain.head? = some s ∧ (s.parentSpanID = "" ∨ ∀ p ∈ spans, p.traceID = traceID → p.spanID ≠ s.parentSpanID)
  bottom : ∃ s, chain.getLast? = some s ∧ ∀ c ∈ spans, c.traceID = traceID → c.parentSpanID ≠ s.spanID

/-- The traces with a chain along these services. -/
def tracesWith (spans : List Span) (services : List String) : Set String :=
  {traceID | ∃ chain, Chain spans traceID chain ∧ names chain = services}

section
variable {spans : List Span} {traceID : String} {t : Trace}

theorem children_eq_nil_iff (holds : t.spans = spansOf spans traceID) {id : String} (found : t.get id = some span) :
    t.children id = [] ↔ ∀ c ∈ spans, c.traceID = traceID → c.parentSpanID ≠ id := by
  rw [List.eq_nil_iff_forall_not_mem]
  constructor
  · intro none c hc trace parent
    exact none c.spanID ((Trace.mem_children_iff found).mpr ⟨c, (get_iff holds).mpr ⟨hc, trace, rfl⟩, parent⟩)
  · intro none child mem
    obtain ⟨c, found', parent⟩ := (Trace.mem_children_iff found).mp mem
    obtain ⟨hc, trace, -⟩ := (get_iff holds).mp found'
    exact none c hc trace parent

theorem Down.head {id : String} {chain : List Span} (h : Down t id chain) : ∃ s, chain.head? = some s ∧
    t.get id = some s := by
  cases h with
  | leaf found _ => exact ⟨_, rfl, found⟩
  | step found _ _ => exact ⟨_, rfl, found⟩

theorem Down.chain (holds : t.spans = spansOf spans traceID) {id : String} {chain : List Span} (h : Down t id chain) :
    (∀ s ∈ chain, s ∈ spans ∧ s.traceID = traceID) ∧ (chain.IsChain fun p s => s.parentSpanID = p.spanID) ∧
      ∃ s, chain.getLast? = some s ∧ ∀ c ∈ spans, c.traceID = traceID → c.parentSpanID ≠ s.spanID := by
  induction h with
  | @leaf id span found none =>
    obtain ⟨here, trace, rfl⟩ := (get_iff holds).mp found
    exact ⟨by simpa using ⟨here, trace⟩, .singleton _, span, rfl, (children_eq_nil_iff holds found).mp none⟩
  | @step id child span chain found mem down ih =>
    obtain ⟨members, links, s, final, bottom⟩ := ih
    obtain ⟨here, trace, rfl⟩ := (get_iff holds).mp found
    obtain ⟨c, head, found'⟩ := down.head
    obtain ⟨c', found'', parent⟩ := (Trace.mem_children_iff found).mp mem
    cases found'.symm.trans found''
    refine ⟨List.forall_mem_cons.mpr ⟨⟨here, trace⟩, members⟩, List.isChain_cons.mpr ⟨?_, links⟩, s, ?_, bottom⟩
    · rw [head]
      rintro x ⟨⟩
      exact parent
    · rw [List.getLast?_cons, final]
      rfl

theorem down_of_chain (holds : t.spans = spansOf spans traceID) {chain : List Span}
    (members : ∀ x ∈ s :: chain, x ∈ spans ∧ x.traceID = traceID)
    (links : (s :: chain).IsChain fun p s => s.parentSpanID = p.spanID)
    (bottom : ∃ x, (s :: chain).getLast? = some x ∧ ∀ c ∈ spans, c.traceID = traceID → c.parentSpanID ≠ x.spanID) :
    Down t s.spanID (s :: chain) := by
  induction chain generalizing s with
  | nil =>
    obtain ⟨⟨here, trace⟩, -⟩ := List.forall_mem_cons.mp members
    have found := (get_iff holds).mpr ⟨here, trace, rfl⟩
    obtain ⟨x, ⟨⟩, none⟩ := bottom
    exact .leaf found ((children_eq_nil_iff holds found).mpr none)
  | cons c chain ih =>
    obtain ⟨⟨here, trace⟩, members⟩ := List.forall_mem_cons.mp members
    obtain ⟨parent, links⟩ := List.isChain_cons_cons.mp links
    have found := (get_iff holds).mpr ⟨here, trace, rfl⟩
    obtain ⟨here', trace'⟩ := members c List.mem_cons_self
    have below := (Trace.mem_children_iff found).mpr ⟨c, (get_iff holds).mpr ⟨here', trace', rfl⟩, parent⟩
    rw [List.getLast?_cons_cons] at bottom
    exact .step found below (ih members links bottom)

theorem get_parent_eq_none_iff (holds : t.spans = spansOf spans traceID) : t.get s.parentSpanID = none ↔
    s.parentSpanID = "" ∨ ∀ p ∈ spans, p.traceID = traceID → p.spanID ≠ s.parentSpanID := by
  constructor
  · intro out
    refine .inr fun p hp trace id => ?_
    rw [(get_iff holds).mpr ⟨hp, trace, id⟩] at out
    cases out
  · rintro (root | absent)
    · rw [root]
      exact t.get_empty
    · refine Option.eq_none_iff_forall_ne_some.mpr fun p found => ?_
      obtain ⟨hp, trace, id⟩ := (get_iff holds).mp found
      exact absent p hp trace id

theorem mem_walkPaths_root {id : String} (found : t.get id = some s) (out : t.get s.parentSpanID = none) :
    key ∈ walkPaths t (t.spans.length + 1) id [] [] ↔ ∃ chain, Down t id chain ∧ names chain ≠ [] ∧
    key = join "\x00" (names chain) := by
  rw [mem_walkPaths out (t.spans.length + 1) (.link found (.refl _)) (by simp)]
  simp only [foldl_addName]
  rfl

theorem mem_pathKeys (holds : t.spans = spansOf spans traceID) :
    key ∈ pathKeys t ↔ ∃ chain, Chain spans traceID chain ∧ names chain ≠ [] ∧ key = join "\x00" (names chain) := by
  rw [pathKeys, List.mem_flatMap]
  constructor
  · rintro ⟨⟨id, s⟩, mem, walked⟩
    obtain ⟨mem, root⟩ := List.mem_filter.mp mem
    obtain ⟨here, trace, same⟩ := (mem_spans_iff holds).mp mem
    have found : t.get id = some s := (get_iff holds).mpr ⟨here, trace, same.symm⟩
    have out : t.get s.parentSpanID = none := by
      rcases (Bool.or_eq_true _ _).mp root with root | absent
      · exact (get_parent_eq_none_iff holds).mpr (.inl (of_decide_eq_true root))
      · exact Option.isNone_iff_eq_none.mp absent
    obtain ⟨chain, down, rest⟩ := (mem_walkPaths_root found out).mp walked
    obtain ⟨members, links, bottom⟩ := down.chain holds
    obtain ⟨s', head, found'⟩ := down.head
    cases found.symm.trans found'
    exact ⟨chain, ⟨members, links, ⟨s, head, (get_parent_eq_none_iff holds).mp out⟩, bottom⟩, rest⟩
  · rintro ⟨chain, ⟨members, links, ⟨s, head, top⟩, bottom⟩, rest⟩
    obtain ⟨chain, rfl⟩ := List.head?_eq_some_iff.mp head
    obtain ⟨here, trace⟩ := members s List.mem_cons_self
    have found := (get_iff holds).mpr ⟨here, trace, rfl⟩
    have out := (get_parent_eq_none_iff holds).mpr top
    refine ⟨(s.spanID, s), List.mem_filter.mpr ⟨(mem_spans_iff holds).mpr ⟨here, trace, rfl⟩, ?_⟩, ?_⟩
    · dsimp only
      rw [out, Option.isNone_none, Bool.or_true]
    · exact (mem_walkPaths_root found out).mpr ⟨s :: chain, down_of_chain holds members links bottom, rest⟩

theorem mem_names (h : Recorded spans) {chain : List Span} (members : ∀ s ∈ chain, s ∈ spans ∧ s.traceID = traceID) :
    ∀ name ∈ names chain, name ≠ "" ∧ '\x00' ∉ name.toList := by
  intro name mem
  obtain ⟨mem, some'⟩ := List.mem_filter.mp ((List.destutter_sublist _ _).subset mem)
  obtain ⟨s, hs, rfl⟩ := List.mem_map.mp mem
  exact ⟨of_decide_eq_true some', h.plain s (members s hs).1⟩

end

theorem services_of_key (ne : services ≠ []) (plain : ∀ name ∈ services, name ≠ "" ∧ '\x00' ∉ name.toList) :
    (if join "\x00" services = "" then [] else split (join "\x00" services) '\x00') = services := by
  have back : split (join "\x00" services) '\x00' = services :=
    split_join_sep (by decide) (fun name mem => (plain name mem).2) ne
  rw [if_neg, back]
  intro empty
  rw [empty] at back
  exact (plain "" (back ▸ (by decide : "" ∈ split "" '\x00'))).1 rfl

def allPaths (traces : List (String × Trace)) : List (String × String) :=
  traces.flatMap fun p => (pathKeys p.2).dedup.map fun key => (key, p.1)

theorem countP_allPaths (traces : List (String × Trace)) (key : String) :
    (allPaths traces).countP (fun p => p.1 = key) = traces.countP fun p => key ∈ pathKeys p.2 := by
  induction traces with
  | nil => rfl
  | cons p traces ih =>
    have once : ((pathKeys p.2).dedup.map fun key => (key, p.1)).countP (fun p => p.1 = key) = if key ∈
      pathKeys p.2 then 1 else 0 := by
      rw [List.countP_map, ← List.count_dedup, List.count]
      exact List.countP_congr fun key' _ => by simp
    rw [allPaths, List.flatMap_cons, List.countP_append, once, List.countP_cons, ← allPaths, ih, Nat.add_comm]
    simp only [decide_eq_true_eq]

section
variable {spans : List Span} {traces : List (String × Trace)}

theorem Chain.listed {traceID : String} {chain : List Span} (h : Chain spans traceID chain)
    (grouped : Grouped spans traces) :
    ∃ p ∈ traces, p.1 = traceID := by
  obtain ⟨s, head, -⟩ := h.top
  obtain ⟨here, trace⟩ := h.members s (List.mem_of_mem_head? head)
  exact List.mem_map.mp ((grouped.listed traceID).mpr ⟨s, here, trace⟩)

theorem mem_allPaths_iff (grouped : Grouped spans traces) : key ∈ ((allPaths traces).map (·.1)).dedup ↔
    ∃ services, services ≠ [] ∧ (tracesWith spans services).Nonempty ∧ key = join "\x00" services := by
  rw [List.mem_dedup]
  constructor
  · intro mem
    obtain ⟨pair, listed, rfl⟩ := List.mem_map.mp mem
    obtain ⟨p, hp, listed⟩ := List.mem_flatMap.mp listed
    obtain ⟨key, walked, rfl⟩ := List.mem_map.mp listed
    obtain ⟨chain, made, ne, rfl⟩ := (mem_pathKeys (grouped.holds p hp)).mp (List.mem_dedup.mp walked)
    exact ⟨names chain, ne, ⟨p.1, chain, made, rfl⟩, rfl⟩
  · rintro ⟨services, ne, ⟨traceID, chain, made, rfl⟩, rfl⟩
    obtain ⟨p, hp, rfl⟩ := made.listed grouped
    have walked := (mem_pathKeys (grouped.holds p hp)).mpr ⟨chain, made, ne, rfl⟩
    exact List.mem_map.mpr ⟨_, List.mem_flatMap.mpr ⟨p, hp, List.mem_map.mpr ⟨_, List.mem_dedup.mpr walked, rfl⟩⟩, rfl⟩

theorem plain_of_tracesWith (h : Recorded spans) (some' : (tracesWith spans services).Nonempty) :
    ∀ name ∈ services, name ≠ "" ∧ '\x00' ∉ name.toList := by
  obtain ⟨traceID, chain, made, rfl⟩ := some'
  exact mem_names h made.members

theorem encard_paths (h : Recorded spans) (grouped : Grouped spans traces) :
    {services : List String | services ≠ [] ∧ (tracesWith spans services).Nonempty}.encard =
      ((allPaths traces).map (·.1)).dedup.length := by
  refine Lists.encard_eq_length (fun key => if key = "" then [] else split key '\x00')
    ((List.nodup_dedup _).map_on ?_) ?_
  · intro key mem key' mem' same
    obtain ⟨services, ne, some', rfl⟩ := (mem_allPaths_iff grouped).mp mem
    obtain ⟨services', ne', some'', rfl⟩ := (mem_allPaths_iff grouped).mp mem'
    rw [services_of_key ne (plain_of_tracesWith h some'), services_of_key ne' (plain_of_tracesWith h some'')] at same
    rw [same]
  · intro services
    rw [Set.mem_ofPred_eq, List.mem_map]
    constructor
    · rintro ⟨ne, some'⟩
      exact ⟨_, (mem_allPaths_iff grouped).mpr ⟨services, ne, some', rfl⟩,
        services_of_key ne (plain_of_tracesWith h some')⟩
    · rintro ⟨key, mem, rfl⟩
      obtain ⟨services, ne, some', rfl⟩ := (mem_allPaths_iff grouped).mp mem
      rw [services_of_key ne (plain_of_tracesWith h some')]
      exact ⟨ne, some'⟩

theorem encard_tracesWith (h : Recorded spans) (grouped : Grouped spans traces) (ne : services ≠ [])
    (plain : ∀ name ∈ services, name ≠ "" ∧ '\x00' ∉ name.toList) :
    (tracesWith spans services).encard = (allPaths traces).countP (fun p => p.1 = join "\x00" services) := by
  rw [countP_allPaths, List.countP_eq_length_filter]
  refine Lists.encard_eq_length (·.1) (grouped.keys.sublist (List.filter_sublist.map _)) fun traceID => ?_
  constructor
  · rintro ⟨chain, made, rfl⟩
    obtain ⟨p, hp, rfl⟩ := made.listed grouped
    have walked := (mem_pathKeys (grouped.holds p hp)).mpr ⟨chain, made, ne, rfl⟩
    exact List.mem_map.mpr ⟨p, List.mem_filter.mpr ⟨hp, decide_eq_true walked⟩, rfl⟩
  · intro mem
    obtain ⟨p, hp, rfl⟩ := List.mem_map.mp mem
    obtain ⟨hp, walked⟩ := List.mem_filter.mp hp
    obtain ⟨chain, made, ne', same⟩ := (mem_pathKeys (grouped.holds p hp)).mp (of_decide_eq_true walked)
    refine ⟨chain, made, ?_⟩
    rw [← services_of_key ne plain, same, services_of_key ne' (mem_names h made.members)]

theorem pathsFromTraces_iff (h : Recorded spans) (grouped : Grouped spans traces)
    (bound : {services : List String | services ≠ [] ∧ (tracesWith spans services).Nonempty}.encard ≤ maxPaths)
    (ne : services ≠ []) {n : Nat} :
    { services, traces := n } ∈ pathsFromTraces (allPaths traces) ↔ 0 < n ∧ (tracesWith spans services).encard = n := by
  rw [pathsFromTraces, Lists.mem_take_insertionSort, List.mem_map]
  · constructor
    · rintro ⟨key, mem, made⟩
      obtain ⟨services, ne, some', rfl⟩ := (mem_allPaths_iff grouped).mp mem
      have count := encard_tracesWith h grouped ne (plain_of_tracesWith h some')
      rw [services_of_key ne (plain_of_tracesWith h some')] at made
      cases made
      refine ⟨?_, count⟩
      rw [← Set.encard_pos, count] at some'
      exact_mod_cast some'
    · rintro ⟨pos, count⟩
      have some' : (tracesWith spans services).Nonempty := by
        rw [← Set.encard_pos, count]
        exact_mod_cast pos
      rw [encard_tracesWith h grouped ne (plain_of_tracesWith h some'), Nat.cast_inj] at count
      refine ⟨join "\x00" services, (mem_allPaths_iff grouped).mpr ⟨services, ne, some', rfl⟩, ?_⟩
      rw [services_of_key ne (plain_of_tracesWith h some'), count]
  · rw [encard_paths h grouped, Nat.cast_le] at bound
    rwa [List.length_map]

end

/-! ### The graph -/

/-- Building the graph comes to an end, since neither the way up nor the walk down needs more than the spans of a
    trace; and as long as nothing is cut off, an edge is listed exactly with the number of its spans and a path with the
    number of its traces. -/
theorem build_counts (lib : Lib) (spans : List Span) (h : Recorded spans) :
    (∀ p ∈ group spans, (∀ order, order.Perm p.2.ids → (traceEntries lib p.1 p.2 order).isSome) ∧
      ∀ id k, walkPaths p.2 (p.2.spans.length + 1 + k) id [] [] = walkPaths p.2 (p.2.spans.length + 1) id [] []) ∧
    ({p : String × String | 0 < edgeCount spans p.1 p.2}.encard ≤ maxEdges →
      {services : List String | services ≠ [] ∧ (tracesWith spans services).Nonempty}.encard ≤ maxPaths →
      (∀ src dst (n : Nat), { src, dst, count := n } ∈ (build lib spans).edges ↔ 0 < n ∧ n = edgeCount spans src dst) ∧
      ∀ services (n : Nat), services ≠ [] →
        ({ services, traces := n } ∈ (build lib spans).paths ↔ 0 < n ∧ (tracesWith spans services).encard = n)) := by
  have grouped := grouped_group h.named h.distinct
  refine ⟨fun p _ => ⟨fun order perm => ?_, fun id k => ?_⟩,
    fun edges paths => ⟨fun src dst n => ?_, fun services n ne => ?_⟩⟩
  · have start : Good lib p.1 p.2 [] := ⟨by simp, by simp [find, Keyed.get]⟩
    obtain ⟨resolved, ran, -, -⟩ := resolve_run start fun id (mem : id ∈ order) => perm.mem_iff.mp mem
    rw [traceEntries, ran]
    rfl
  · exact walkPaths_add _ k List.nodup_nil (fun _ h => absurd h List.not_mem_nil) (by simp)
  · exact edgesFromCount_iff h grouped edges
  · exact pathsFromTraces_iff h grouped paths ne

namespace Sample

def spans : List Span :=
  [{ traceID := "1", spanID := "a", serviceName := "web" },
    { traceID := "1", spanID := "b", parentSpanID := "a", serviceName := "web" },
    { traceID := "1", spanID := "c", parentSpanID := "b", serviceName := "db" },
    { traceID := "2", spanID := "a", parentSpanID := "x", serviceName := "web" },
    { traceID := "2", spanID := "b", parentSpanID := "a", serviceName := "db" },
    { traceID := "3", spanID := "a", parentSpanID := "b", serviceName := "web" },
    { traceID := "3", spanID := "b", parentSpanID := "a", serviceName := "db" }]

theorem recorded : Recorded spans := ⟨by decide, by decide, by decide⟩

end Sample

theorem build_counts_sample : Recorded Sample.spans ∧
    { src := "web", dst := "db", count := 3 } ∈ (build Lib.plain Sample.spans).edges ∧
    (tracesWith Sample.spans ["web", "db"]).encard = 2 := by
  have grouped := grouped_group Sample.recorded.named Sample.recorded.distinct
  have edges : {p : String × String | 0 < edgeCount Sample.spans p.1 p.2}.encard ≤ maxEdges := by
    rw [encard_edges Sample.recorded grouped, Nat.cast_le]
    decide +kernel
  have paths : {services : List String | services ≠ [] ∧ (tracesWith Sample.spans services).Nonempty}.encard ≤
    maxPaths := by
    rw [encard_paths Sample.recorded grouped, Nat.cast_le]
    decide +kernel
  obtain ⟨-, counted⟩ := build_counts Lib.plain Sample.spans Sample.recorded
  obtain ⟨edge, path⟩ := counted edges paths
  refine ⟨Sample.recorded, (edge "web" "db" 3).mpr (by decide +kernel), ?_⟩
  exact ((path ["web", "db"] 2 (by decide)).mp (by decide +kernel)).2

end Aquila.Graph

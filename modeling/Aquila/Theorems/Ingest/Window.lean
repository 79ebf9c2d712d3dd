import Mathlib.Data.String.Basic
import Aquila.Ingest.Window
import Aquila.Lib.Groups

/-! The window of the newest traces: the first ones of their ranking until there are enough traces or spans. -/

namespace Aquila.Ingest
variable {service : List UInt8}

/-- Spans in traces. -/
def spanKeys : Groups.Keys StoredSpan String Time String :=
  { group := fun s => s.traceID, time := fun s => s.startTime, id := fun s => s.spanID }

@[simp] theorem group_spanKeys (s : StoredSpan) : spanKeys.group s = s.traceID := rfl

variable {lib : Lib} {spans : List StoredSpan} {s : StoredSpan} {id : String}

/-! ### Traces -/

/-- What is known of a trace when all of some spans have been seen. -/
def traceInfo (spans : List StoredSpan) (id : String) : TraceInfo :=
  { id, last := (spanKeys.latest spans id).unbotD 0, spans := spanKeys.members spans id }

theorem members_snoc : spanKeys.members (spans ++ [s]) id = spanKeys.members spans id ++ if s.traceID = id then [s]
    else [] := by
  rw [Groups.Keys.members, List.filter_append]
  by_cases same : s.traceID = id <;> simp [Groups.Keys.members, same]

theorem members_eq_nil_iff : spanKeys.members spans id = [] ↔ id ∉ spans.map (·.traceID) := by
  rw [Groups.Keys.members, List.filter_eq_nil_iff]
  simp only [decide_eq_true_eq, List.mem_map, not_exists, not_and]
  rfl

theorem coe_traceInfo_last (known : id ∈ spans.map (·.traceID)) :
    ((traceInfo spans id).last : WithBot Time) = spanKeys.latest spans id := by
  have some : spanKeys.latest spans id ≠ ⊥ := by
    refine List.maximum_ne_bot_of_ne_nil fun none => members_eq_nil_iff.mp ?_ known
    exact List.map_eq_nil_iff.mp none
  obtain ⟨t, ht⟩ := WithBot.ne_bot_iff_exists.mp some
  rw [traceInfo, ← ht]
  rfl

theorem traceInfo_snoc (known : id ∈ spans.map (·.traceID)) (same : s.traceID = id) : traceInfo (spans ++ [s]) id =
    { traceInfo spans id with
      spans := (traceInfo spans id).spans ++ [s]
      last := if s.startTime.after (traceInfo spans id).last then s.startTime else (traceInfo spans id).last } := by
  have last := coe_traceInfo_last known
  have both : spanKeys.latest (spans ++ [s]) id = max (spanKeys.latest spans id) (s.startTime : WithBot Time) := by
    rw [Groups.Keys.latest, members_snoc, if_pos same, List.map_append, List.maximum_append]
    rfl
  rw [traceInfo, both, ← last, members_snoc, if_pos same, ← WithBot.coe_max, WithBot.unbotD_coe]
  congr 1
  unfold Time.after
  simp only [decide_eq_true_eq]
  split_ifs with later
  · exact max_eq_right later.le
  · exact max_eq_left (not_lt.mp later)

theorem traceInfo_first (new : id ∉ spans.map (·.traceID)) (same : s.traceID = id) :
    traceInfo (spans ++ [s]) id = { id, last := s.startTime, spans := [s] } := by
  have none := members_eq_nil_iff.mpr new
  rw [traceInfo, Groups.Keys.latest, members_snoc, none, if_pos same]
  rfl

/-- The map of the traces after some spans. -/
structure Grouped (spans : List StoredSpan) (traces : List TraceInfo) : Prop where
  nodup : (traces.map TraceInfo.id).Nodup
  get : ∀ id, Keyed.get TraceInfo.id traces id = if id ∈ spans.map (·.traceID) then some (traceInfo spans id) else none

theorem Grouped.addTrace {traces : List TraceInfo} (h : Grouped spans traces) (named : s.traceID ≠ "") :
    Grouped (spans ++ [s]) (addTrace traces s) := by
  rw [Ingest.addTrace, if_neg named, h.get]
  dsimp only
  generalize info : TraceInfo.mk _ _ _ = t
  have key : t.id = s.traceID := by
    rw [← info]
    dsimp only
    split_ifs <;> rfl
  refine ⟨Keyed.nodup_put h.nodup, fun id => ?_⟩
  by_cases same : s.traceID = id
  · subst same
    have whole : t = traceInfo (spans ++ [s]) s.traceID := by
      rw [← info]
      by_cases known : s.traceID ∈ spans.map (·.traceID)
      · rw [if_pos known]
        exact (traceInfo_snoc known rfl).symm
      · rw [if_neg known, traceInfo_first known rfl]
        simp [Time.after]
    rw [if_pos (by simp), ← whole, ← key, Keyed.get_put_self]
  · have other : id ≠ t.id := fun eq => same (eq.trans key).symm
    have kept : traceInfo (spans ++ [s]) id = traceInfo spans id := by
      rw [traceInfo, traceInfo, Groups.Keys.latest, Groups.Keys.latest, members_snoc, if_neg same, List.append_nil]
    rw [Keyed.get_put_of_ne other, h.get, kept]
    simp [Ne.symm same]

theorem grouped_foldl (named : ∀ s ∈ spans, s.traceID ≠ "") : Grouped spans (spans.foldl addTrace []) := by
  induction spans using List.reverseRecOn with
  | nil => exact ⟨List.nodup_nil, fun id => by simp [Keyed.get]⟩
  | append_singleton spans s ih =>
    rw [List.foldl_append]
    exact (ih fun t ht => named t (List.mem_append_left _ ht)).addTrace (named s (by simp))

theorem groupTraces_eq (named : ∀ s ∈ spans, s.traceID ≠ "") :
    groupTraces spans = (spanKeys.ranking (fun _ => true) spans).map (traceInfo spans) := by
  have grouped := grouped_foldl named
  rw [groupTraces]
  generalize spans.foldl addTrace [] = traces at grouped ⊢
  have ids (id : String) : id ∈ traces.map TraceInfo.id ↔ id ∈ spans.map (·.traceID) := by
    have known := grouped.get id
    rw [← not_iff_not, ← Keyed.get_eq_none_iff, known]
    simp
  have whole : traces = (traces.map TraceInfo.id).map (traceInfo spans) := by
    rw [List.map_map]
    refine (List.map_id traces).symm.trans (List.map_congr_left fun t ht => ?_)
    have found := Keyed.get_of_mem grouped.nodup ht
    rw [grouped.get, if_pos ((ids t.id).mp (List.mem_map_of_mem ht))] at found
    exact (Option.some.inj found).symm
  have ranked : (traces.map TraceInfo.id).insertionSort (spanKeys.rank spans · ≤ spanKeys.rank spans ·) =
    spanKeys.ranking (fun _ => true) spans := by
    refine Groups.Keys.eq_ranking (Groups.Keys.pairwise_insertionSort_rank grouped.nodup) fun id => ?_
    rw [List.mem_insertionSort, ids]
    exact (and_iff_left rfl).symm
  rw [whole, ← ranked]
  refine (List.map_insertionSort _ _ _ _ fun a ha b hb => ?_).symm
  rw [Groups.Keys.rank_le_iff, ← coe_traceInfo_last ((ids a).mp ha), ← coe_traceInfo_last ((ids b).mp hb),
    WithBot.coe_lt_coe, WithBot.coe_inj]
  rfl

/-! ### The window -/

/-- The traces that a window is of. -/
def wanted (lib : Lib) (service : List UInt8) (spans : List StoredSpan) : Bool :=
  spans.any (fun s => !probeRoute lib s) && traceTouches spans service

theorem wanted_eq : wanted lib service spans = (!probeOnly lib spans && traceTouches spans service) := by
  rw [wanted, probeOnly, List.not_all_eq_any_not]

theorem keepTraces_take {n : Int} {service : List UInt8} : ∀ {infos : List TraceInfo} {kept : Int}
    {out : List StoredSpan}, kept < n → out.length < maxWindowSpans →
    (keepTraces lib n service infos kept out).take maxWindowSpans =
      (out ++ ((infos.filter fun info => wanted lib service info.spans).take (n - kept).toNat).flatMap fun info =>
        sortTraceSpans info.spans).take
        maxWindowSpans
  | [], _, _, _, _ => by simp [keepTraces]
  | info :: infos, kept, out, more, room => by
    have skip (h : wanted lib service info.spans = false) :
        (info :: infos).filter (fun info => wanted lib service info.spans) = infos.filter fun info =>
        wanted lib service info.spans :=
      List.filter_cons_of_neg (by simp [h])
    rw [keepTraces]
    by_cases probe : probeOnly lib info.spans = true
    · rw [if_pos probe, keepTraces_take more room, skip (by simp [wanted_eq, probe])]
    rw [if_neg probe]
    by_cases touches : traceTouches info.spans service = true
    · have keep : wanted lib service info.spans = true := by simp [wanted_eq, probe, touches]
      have next : (n - kept).toNat = (n - (kept + 1)).toNat + 1 := by omega
      have first : (info :: infos).filter (fun info => wanted lib service info.spans) =
          info :: infos.filter fun info => wanted lib service info.spans := List.filter_cons_of_pos (by simp [keep])
      rw [if_neg (by simp [touches]), first, next, List.take_succ_cons, List.flatMap_cons, ← List.append_assoc]
      dsimp only
      split_ifs with enough
      · rcases enough with traces | long
        · rw [show (n - (kept + 1)).toNat = 0 by omega, List.take_zero, List.flatMap_nil, List.append_nil]
        · rw [List.take_append_of_le_length long]
      · exact keepTraces_take (by omega) (by omega)
    · rw [if_pos (by simp [touches]), keepTraces_take more room, skip (by simp [wanted_eq, touches])]

theorem normalizeTraceWindow_pos (n : Int) : 0 < normalizeTraceWindow n := by
  unfold normalizeTraceWindow defaultTraceWindow maxTraceWindow
  split_ifs <;> omega

theorem sortTraceSpans_members : sortTraceSpans (spanKeys.members spans id) = spanKeys.sorted spans id := by
  have order (a b : StoredSpan) : a.older b ↔ spanKeys.age a ≤ spanKeys.age b := by
    rw [Groups.Keys.age, Groups.Keys.age, Prod.Lex.toLex_le_toLex]
    rfl
  have same := List.map_insertionSort StoredSpan.older (spanKeys.age · ≤ spanKeys.age ·) (fun s => s)
    (spanKeys.members spans id)
    fun a _ b _ => order a b
  rwa [List.map_id', List.map_id'] at same

theorem selectWindow_eq (named : ∀ s ∈ spans, s.traceID ≠ "") (maxTraces : Int) (service : List UInt8) :
    selectWindow lib spans maxTraces service =
      (((spanKeys.ranking (wanted lib (clipService service)) spans).take (normalizeTraceWindow maxTraces).toNat).flatMap
        (spanKeys.sorted spans)).take maxWindowSpans := by
  have cut (l : List StoredSpan) : (if l.length > maxWindowSpans then l.take maxWindowSpans else l) =
    l.take maxWindowSpans := by
    split_ifs with long
    · rfl
    · exact (List.take_of_length_le (not_lt.mp long)).symm
  have kept : (spanKeys.ranking (fun _ => true) spans).filter (fun id => wanted lib (clipService service)
    (spanKeys.members spans id)) =
      spanKeys.ranking (wanted lib (clipService service)) spans := by
    refine Groups.Keys.eq_ranking (Groups.Keys.pairwise_ranking.sublist List.filter_sublist) fun id => ?_
    rw [List.mem_filter, Groups.Keys.mem_ranking]
    simp
  rw [selectWindow, cut, keepTraces_take (normalizeTraceWindow_pos maxTraces) (by decide), groupTraces_eq named,
    List.filter_map, ← kept, Int.sub_zero, ← List.map_take, List.flatMap_map, List.nil_append]
  simp only [traceInfo, sortTraceSpans_members]
  rfl

theorem wanted_perm {spans' : List StoredSpan} (perm : spans.Perm spans') :
    wanted lib service spans = wanted lib service spans' := by
  rw [wanted, wanted, traceTouches, traceTouches, perm.any_eq, perm.any_eq]

theorem wanted_members : wanted lib service (spanKeys.members spans id) = true ↔
    (∃ s ∈ spans, s.traceID = id ∧ probeRoute lib s = false) ∧ (service ≠ [] → ∃ s ∈ spans, s.traceID = id ∧
      bytes s.serviceName = service) := by
  simp only [wanted, traceTouches, Bool.and_eq_true, List.any_eq_true, Bool.or_eq_true, decide_eq_true_eq,
    Groups.Keys.mem_members, group_spanKeys, Bool.not_eq_true', and_assoc, or_iff_not_imp_left, ne_eq]

/-! ### The newest traces -/

/-- The start of the newest span of a trace. -/
def Latest (spans : List StoredSpan) (id : String) (t : Time) : Prop :=
  IsGreatest {t | ∃ s ∈ spans, s.traceID = id ∧ s.startTime = t} t

/-- The traces with a span that is no probe and a span of the service, the newest first. -/
structure Ranked (lib : Lib) (service : List UInt8) (spans : List StoredSpan) (ids : List String) : Prop where
  mem : ∀ id, id ∈ ids ↔ (∃ s ∈ spans, s.traceID = id ∧ probeRoute lib s = false) ∧
    (service ≠ [] → ∃ s ∈ spans, s.traceID = id ∧ bytes s.serviceName = service)
  order : ids.Pairwise fun a b => ∃ t u, Latest spans a t ∧ Latest spans b u ∧ (u < t ∨ t = u ∧ b < a)

/-- All the spans of each trace, the oldest first. -/
structure Bodies (spans : List StoredSpan) (body : String → List StoredSpan) : Prop where
  perm : ∀ id, (body id).Perm (spans.filter (·.traceID = id))
  order : ∀ id, (body id).Pairwise fun s t => s.startTime < t.startTime ∨ s.startTime = t.startTime ∧
    s.spanID < t.spanID

theorem latest_iff {t : Time} : spanKeys.latest spans id = t ↔ Latest spans id t := by
  rw [Groups.Keys.latest, List.maximum_eq_coe_iff]
  simp only [List.mem_map, Groups.Keys.mem_members, Latest, IsGreatest, mem_upperBounds, Set.mem_ofPred_eq, and_assoc]
  rfl

theorem ranked_ranking : Ranked lib service spans (spanKeys.ranking (wanted lib service) spans) := by
  have known {id : String} (h : id ∈ spanKeys.ranking (wanted lib service) spans) : ∃ t :
    Time, spanKeys.latest spans id = t :=
    ⟨_, (coe_traceInfo_last (Groups.Keys.mem_ranking.mp h).1).symm⟩
  refine ⟨fun id => ?_, Groups.Keys.pairwise_ranking.imp_of_mem fun {a b} ha hb lt => ?_⟩
  · rw [Groups.Keys.mem_ranking, ← wanted_members, and_iff_right_iff_imp, wanted_members]
    rintro ⟨⟨s, hs, rfl, -⟩, -⟩
    exact List.mem_map_of_mem hs
  · obtain ⟨t, ht⟩ := known ha
    obtain ⟨u, hu⟩ := known hb
    rw [Groups.Keys.rank_lt_iff, ht, hu, WithBot.coe_lt_coe, WithBot.coe_inj] at lt
    exact ⟨t, u, latest_iff.mp ht, latest_iff.mp hu, lt⟩

theorem bodies_sorted (distinct : spanKeys.Distinct spans) : Bodies spans (spanKeys.sorted spans) := by
  refine ⟨fun id => List.perm_insertionSort _ _, fun id => (Groups.Keys.pairwise_sorted distinct).imp fun lt => ?_⟩
  exact Prod.Lex.toLex_lt_toLex.mp lt

/-- The window has the spans of the newest traces, trace by trace; only the last trace can be cut. -/
theorem selectWindow_newest (lib : Lib) (spans : List StoredSpan) (named : ∀ s ∈ spans, s.traceID ≠ "")
    (distinct : (spans.map fun s => (s.traceID, s.spanID)).Nodup) (maxTraces : Int) (service : List UInt8) :
    ∃ ids body, Ranked lib (clipService service) spans ids ∧ Bodies spans body ∧
      selectWindow lib spans maxTraces service = ((ids.take (normalizeTraceWindow maxTraces).toNat).flatMap body).take
      maxWindowSpans ∧ (ids.take (normalizeTraceWindow maxTraces).toNat = [] ∨
        ∃ front id part, front ++ [id] <+: ids.take (normalizeTraceWindow maxTraces).toNat ∧ part <+: body id ∧
          selectWindow lib spans maxTraces service = front.flatMap body ++ part) ∧
      ∀ spans', spans'.Perm spans → selectWindow lib spans' maxTraces service =
      selectWindow lib spans maxTraces service := by
  refine ⟨_, _, ranked_ranking, bodies_sorted distinct, selectWindow_eq named maxTraces service, ?_,
    fun spans' perm => ?_⟩
  · rw [selectWindow_eq named]
    exact Lists.take_flatMap _ _ _
  · have named' : ∀ s ∈ spans', s.traceID ≠ "" := fun s hs => named s (perm.mem_iff.mp hs)
    have distinct' : spanKeys.Distinct spans' := Groups.Keys.Distinct.perm distinct perm.symm
    have sorted : spanKeys.sorted spans' = spanKeys.sorted spans :=
      funext fun id => Groups.Keys.sorted_perm distinct' perm
    rw [selectWindow_eq named, selectWindow_eq named', Groups.Keys.ranking_perm perm wanted_perm, sorted]

def sampleSpans : List StoredSpan :=
  [{ traceID := "b", spanID := "1", httpRoute := "/invoice", startTime := 3 },
    { traceID := "a", spanID := "1", httpRoute := "/healthz", startTime := 5 },
    { traceID := "b", spanID := "2", name := "charge", startTime := 4 }]

theorem selectWindow_newest_sample : (∀ s ∈ sampleSpans, s.traceID ≠ "") ∧
    (sampleSpans.map fun s => (s.traceID, s.spanID)).Nodup ∧ ∀ spans', spans'.Perm sampleSpans →
    selectWindow Lib.plain spans' 1 [] = selectWindow Lib.plain sampleSpans 1 [] := by
  have named : ∀ s ∈ sampleSpans, s.traceID ≠ "" := by decide
  have distinct : (sampleSpans.map fun s => (s.traceID, s.spanID)).Nodup := by decide
  obtain ⟨_, _, -, -, -, -, perm⟩ := selectWindow_newest Lib.plain sampleSpans named distinct 1 []
  exact ⟨named, distinct, perm⟩

end Aquila.Ingest

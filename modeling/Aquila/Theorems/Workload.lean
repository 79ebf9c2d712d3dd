import Mathlib.Data.Finset.Card
import Aquila.Impact
import Aquila.Theorems.Text
import Aquila.Workload

/-! Route templates in workloads. A template in braces is never replayed; a segment that starts with a colon is
    replayed as it is written. -/

namespace Aquila.Replay
open Ingest (Span)
open Impact (Finding wildSegment replayLabel replayableRoutes)

/-! ### Segments -/

/-- The segments of a path, as `RouteMatches` splits it. -/
def segments (path : String) : List String := split (trim path '/') '/'

/-- A path with a segment that `RouteMatches` takes for a wildcard. -/
def Templated (path : String) : Prop := ∃ seg ∈ segments path, wildSegment seg = true

/-- A path with a segment of the form `:name`. -/
def Coloned (path : String) : Prop := ∃ seg ∈ segments path, hasPrefix seg ":" = true

theorem mem_of_mem_segments {path seg : String} (h : seg ∈ segments path) {x : Char} (hx : x ∈ seg.toList) :
    x ∈ path.toList := by
  obtain ⟨s, hs, rfl⟩ := List.mem_map.mp h
  rw [String.toList_ofList] at hx
  have mem := mem_of_mem_splitChars hs hx
  rw [trim, String.toList_ofList] at mem
  exact trimBoth_subset mem

theorem templated_iff {path : String} (plain : containsAny path "\x7b\x7d*" = false) : Templated path ↔
    Coloned path := by
  refine exists_congr fun seg => and_congr_right fun hs => ?_
  have brace : hasPrefix seg "\x7b" = false := by
    by_contra open_
    obtain ⟨rest, shape⟩ := hasPrefix_iff.mp (Bool.eq_true_of_not_eq_false open_)
    have mem : '\x7b' ∈ path.toList := mem_of_mem_segments hs (by rw [← shape]; simp)
    have found : containsAny path "\x7b\x7d*" = true := List.any_eq_true.mpr ⟨_, mem, by decide⟩
    rw [plain] at found
    cases found
  simp [wildSegment, brace]

/-! ### Requests -/

section
variable {lib : Lib}

theorem spanRequest_safe {s : Span} {r : String × String} (h : spanRequest lib s = some r) :
    safeReplay r.1 r.2 = true := by
  unfold spanRequest at h
  split_ifs at h
  split at h
  · split_ifs at h with safe
    cases h
    exact safe
  · cases h

theorem safeReplay_plain {method path : String} (h : safeReplay method path = true) :
    method ∈ ["GET", "HEAD", "OPTIONS"] ∧ containsAny path "\x7b\x7d*" = false := by
  simp only [safeReplay, safePath, Bool.and_eq_true, Bool.not_eq_true', decide_eq_true_eq] at h
  exact ⟨h.1, h.2.1.2⟩

theorem blank_not_mem {method : String} (h : method ∈ ["GET", "HEAD", "OPTIONS"]) : ' ' ∉ method.toList := by
  revert method
  decide

theorem request_text_inj {m m' p p' : String} (hm : m ∈ ["GET", "HEAD", "OPTIONS"])
    (hm' : m' ∈ ["GET", "HEAD", "OPTIONS"])
    (h : m ++ " " ++ p = m' ++ " " ++ p') : m = m' ∧ p = p' := by
  have text (m p : String) : m ++ " " ++ p = .ofList (m.toList ++ ' ' :: p.toList) := by
    rw [← String.toList_inj]
    simp
  have methods : m = m' := by
    have := congrArg (cutBefore · ' ') h
    simpa only [text, cutBefore_append (blank_not_mem hm), cutBefore_append (blank_not_mem hm'),
      String.ofList_toList] using this
  refine ⟨methods, ?_⟩
  rw [methods, ← String.toList_inj] at h
  simpa [String.toList_inj] using h

def requests (steps : List Step) : List (String × String) := steps.map fun st => (st.method, st.path)

/-- The steps hold the requests of the spans before, each once, and there is room for more. -/
structure Taken (lib : Lib) (before : List Span) (steps : List Step) : Prop where
  distinct : (requests steps).Nodup
  same : ∀ r, r ∈ requests steps ↔ r ∈ before.filterMap (spanRequest lib)
  room : steps.length < maxSteps

namespace Taken
variable {before : List Span} {steps : List Step} {s : Span} {method path : String}

theorem length_eq (taken : Taken lib before steps) :
    (before.filterMap (spanRequest lib)).dedup.length = steps.length := by
  have perm : (before.filterMap (spanRequest lib)).dedup.Perm (requests steps) :=
    (List.perm_ext_iff_of_nodup (List.nodup_dedup _) taken.distinct).mpr fun r => by rw [List.mem_dedup, taken.same]
  rw [perm.length_eq, requests, List.length_map]

theorem text_mem_iff (taken : Taken lib before steps) (new : spanRequest lib s = some (method, path)) :
    method ++ " " ++ path ∈ (steps.map fun st => st.method ++ " " ++ st.path) ↔ (method, path) ∈ requests steps := by
  have safe {r : String × String} (h : ∃ s, spanRequest lib s = some r) : r.1 ∈ ["GET", "HEAD", "OPTIONS"] :=
    (safeReplay_plain (spanRequest_safe h.choose_spec)).1
  constructor
  · intro h
    obtain ⟨st, mem, text⟩ := List.mem_map.mp h
    have listed : (st.method, st.path) ∈ requests steps := List.mem_map_of_mem mem
    obtain ⟨s', -, from'⟩ := List.mem_filterMap.mp ((taken.same _).mp listed)
    obtain ⟨hm, hp⟩ := request_text_inj (safe ⟨s', from'⟩) (safe ⟨s, new⟩) text
    have same : (st.method, st.path) = (method, path) := Prod.ext hm hp
    exact same ▸ listed
  · intro h
    obtain ⟨st, mem, same⟩ := List.mem_map.mp h
    obtain ⟨hm, hp⟩ := Prod.mk.inj same
    exact List.mem_map.mpr ⟨st, mem, by rw [hm, hp]⟩

theorem skip (taken : Taken lib before steps) (old : ∀ r, spanRequest lib s = some r → r ∈ requests steps) :
    Taken lib (before ++ [s]) steps where
  distinct := taken.distinct
  room := taken.room
  same := fun r => by
    rw [List.filterMap_append, List.mem_append, ← taken.same r, List.mem_filterMap]
    refine ⟨.inl, fun h => h.elim id ?_⟩
    rintro ⟨x, mem, new⟩
    exact old r (List.mem_singleton.mp mem ▸ new)

theorem snoc (taken : Taken lib before steps) (new : spanRequest lib s = some (method, path))
    (fresh : (method, path) ∉ requests steps)
    (st : Step) (made : (st.method, st.path) = (method, path)) (room : steps.length + 1 < maxSteps) :
    Taken lib (before ++ [s]) (steps ++ [st]) where
  distinct := by
    rw [requests, List.map_append, List.map_singleton, made, List.nodup_append]
    refine ⟨taken.distinct, List.nodup_singleton _, ?_⟩
    rintro x hx y hy rfl
    exact fresh (List.mem_singleton.mp hy ▸ hx)
  room := by simpa using room
  same := fun r => by
    rw [requests, List.map_append, List.map_singleton, made, List.filterMap_append, List.mem_append, List.mem_append,
      ← taken.same r]
    simp [requests, new]

end Taken

/-- The steps are the requests of the spans as long as there is room. -/
theorem mem_fromSpansLoop {before spans : List Span} {steps : List Step} (taken : Taken lib before steps)
    {r : String × String} :
    r ∈ requests (fromSpansLoop lib spans steps) ↔ r ∈ requests steps ∨ ∃ pre s post, spans = pre ++ s :: post ∧
      ((before ++ pre).filterMap (spanRequest lib)).dedup.length < maxSteps ∧ spanRequest lib s = some r := by
  induction spans generalizing before steps with
  | nil =>
    refine ⟨.inl, fun h => h.elim id ?_⟩
    rintro ⟨pre, s, post, split, -⟩
    simp at split
  | cons s spans ih =>
    -- the spans behind `s` are those of the list, with `s` among the spans before
    have behind : (∃ pre x post, s :: spans = pre ++ x :: post ∧
          ((before ++ pre).filterMap (spanRequest lib)).dedup.length < maxSteps ∧ spanRequest lib x = some r) ↔
        spanRequest lib s = some r ∨ ∃ pre x post, spans = pre ++ x :: post ∧
          ((before ++ [s] ++ pre).filterMap (spanRequest lib)).dedup.length < maxSteps ∧
            spanRequest lib x = some r := by
      constructor
      · rintro ⟨pre, x, post, split, room, new⟩
        cases pre with
        | nil =>
          cases split
          exact .inl new
        | cons y pre =>
          cases split
          exact .inr ⟨pre, x, post, rfl, by simpa using room, new⟩
      · rintro (new | ⟨pre, x, post, rfl, room, new⟩)
        · exact ⟨[], s, spans, rfl, by rw [List.append_nil, taken.length_eq]; exact taken.room, new⟩
        · exact ⟨s :: pre, x, post, rfl, by simpa using room, new⟩
    rw [behind]
    unfold fromSpansLoop
    cases new : spanRequest lib s with
    | none =>
      rw [ih (taken.skip fun r h => by rw [new] at h; cases h)]
      simp
    | some m =>
      obtain ⟨method, path⟩ := m
      simp only [taken.text_mem_iff new]
      split_ifs with known full
      · rw [ih (taken.skip fun r h => by rw [new] at h; cases h; exact known)]
        constructor
        · exact fun h => h.imp_right .inr
        · rintro (h | same | h)
          · exact .inl h
          · cases same
            exact .inl known
          · exact .inr h
      · have added : r ∈ requests (steps ++
          [{ method, path, provenance := provenanceSpanRoute, service := s.serviceName }]) ↔
            r ∈ requests steps ∨ some (method, path) = some r := by simp [requests, eq_comm]
        rw [added]
        refine ⟨fun h => h.imp_right .inl, fun h => h.imp_right fun h => h.resolve_right ?_⟩
        rintro ⟨pre, x, post, -, room, -⟩
        have distinct : ((method, path) :: requests steps).Nodup := List.nodup_cons.mpr ⟨known, taken.distinct⟩
        have among : (method, path) :: requests steps ⊆ ((before ++ [s] ++ pre).filterMap (spanRequest lib)).dedup := by
          intro x hx
          rw [List.mem_dedup, List.filterMap_append, List.filterMap_append, List.mem_append, List.mem_append]
          rcases List.mem_cons.mp hx with rfl | hx
          · exact .inl (.inr (by simp [new]))
          · exact .inl (.inl ((taken.same x).mp hx))
        have long := (List.subperm_of_subset distinct among).length_le
        simp only [requests, List.length_cons, List.length_map, List.length_append, List.length_nil] at long full
        omega
      · rw [ih (taken.snoc new known _ rfl (by simpa using full))]
        simp only [requests, List.map_append, List.map_singleton, List.mem_append, List.mem_singleton, or_assoc,
          Option.some.injEq, eq_comm]

end

/-! ### Templates -/

/-- The path of a label `METHOD path`. -/
def labelPath (label : String) : String :=
  match splitN2 label ' ' with
  | [_, path] => path
  | _ => ""

theorem labelPath_append {method path : String} (h : ' ' ∉ method.toList) :
    labelPath (method ++ " " ++ path) = path := by
  have shape : (method ++ " " ++ path).toList = method.toList ++ ' ' :: path.toList := by simp
  have after : (method.toList ++ ' ' :: path.toList).dropWhile (fun c => decide (c ≠ ' ')) = ' ' :: path.toList := by
    rw [List.dropWhile_append_of_pos]
    · simp
    · intro c hc
      exact decide_eq_true fun same => h (same ▸ hc)
  simp only [labelPath, splitN2, shape, after, String.ofList_toList]

theorem replayLabel_plain {lib : Lib} {f : Finding} {label : String} (h : replayLabel lib f = some label) :
    containsAny (labelPath label) "\x7b\x7d*" = false := by
  unfold replayLabel at h
  dsimp only at h
  split at h
  · cases h
  · next method path _ =>
    split_ifs at h with known braces
    cases h
    rw [labelPath_append (blank_not_mem known)]
    rw [Bool.or_eq_true, not_or] at braces
    exact Bool.eq_false_of_not_eq_true braces.1

theorem mem_foldl_once {labels out : List String} {label : String} :
    label ∈ labels.foldl (fun out label => if label ∈ out then out else out ++ [label]) out ↔ label ∈ out ∨
    label ∈ labels := by
  induction labels generalizing out with
  | nil => simp
  | cons l labels ih =>
    rw [List.foldl_cons, ih, List.mem_cons]
    split_ifs with known
    · constructor
      · exact fun h => h.imp_right .inr
      · rintro (h | rfl | h)
        · exact .inl h
        · exact .inl known
        · exact .inr h
    · rw [List.mem_append, List.mem_singleton, or_assoc]

theorem mem_replayableRoutes {lib : Lib} {rep : Impact.Report} {label : String} :
    label ∈ replayableRoutes lib rep ↔ ∃ f ∈ rep.runtime, replayLabel lib f = some label := by
  rw [replayableRoutes, mem_foldl_once, List.mem_filterMap]
  simp

/-- No wildcard is replayed exactly if no span or finding that is replayed has a route with a segment `:name`. -/
theorem templates_not_replayed (lib : Lib) (spans : List Span) (rep : Impact.Report) :
    ((∀ st ∈ fromSpans lib spans, ¬Templated st.path) ∧
      ∀ label ∈ replayableRoutes lib rep, ¬Templated (labelPath label)) ↔
      (∀ pre s post, spans = pre ++ s :: post → (pre.filterMap (spanRequest lib)).dedup.length < maxSteps →
        ∀ method path, spanRequest lib s = some (method, path) → ¬Coloned path) ∧
      ∀ f ∈ rep.runtime, ∀ label, replayLabel lib f = some label → ¬Coloned (labelPath label) := by
  have start : Taken lib [] [] := ⟨List.nodup_nil, by simp [requests], by decide⟩
  have taken (r : String × String) := @mem_fromSpansLoop lib [] spans [] start r
  refine and_congr ?_ ?_
  · constructor
    · intro plain pre s post split room method path new
      have mem : (method, path) ∈ requests (fromSpans lib spans) :=
        (taken (method, path)).mpr (.inr ⟨pre, s, post, split, room, new⟩)
      obtain ⟨st, hst, same⟩ := List.mem_map.mp mem
      cases same
      exact fun colon => plain st hst ((templated_iff (safeReplay_plain (spanRequest_safe new)).2).mpr colon)
    · intro plain st hst
      have mem : (st.method, st.path) ∈ requests (fromSpans lib spans) := List.mem_map_of_mem hst
      obtain ⟨pre, s, post, split, room, new⟩ := ((taken _).mp mem).resolve_left List.not_mem_nil
      rw [templated_iff (safeReplay_plain (spanRequest_safe new)).2]
      exact plain pre s post split room _ _ new
  · constructor
    · intro plain f hf label made
      rw [← templated_iff (replayLabel_plain made)]
      exact plain label (mem_replayableRoutes.mpr ⟨f, hf, made⟩)
    · intro plain label mem
      obtain ⟨f, hf, made⟩ := mem_replayableRoutes.mp mem
      rw [templated_iff (replayLabel_plain made)]
      exact plain f hf label made

/-- A route with the segment `:id` is replayed as it is written, and `RouteMatches` takes that segment for a
    wildcard. -/
theorem template_replayed :
    fromSpans Lib.plain [{ kind := "server", httpMethod := "GET", httpRoute := "/users/:id" }] =
        [{ method := "GET", path := "/users/:id", provenance := provenanceSpanRoute }] ∧
      replayableRoutes Lib.plain { runtime := [{ route := "GET /users/:id" }] } = ["GET /users/:id"] ∧
      labelPath "GET /users/:id" = "/users/:id" ∧ Templated "/users/:id" ∧
      Impact.routeMatches Lib.plain "GET /users/:id" "GET" "/users/user-1" = true :=
  ⟨by decide +kernel, by decide +kernel, by decide, ⟨":id", by decide, by decide⟩, by decide +kernel⟩

end Aquila.Replay

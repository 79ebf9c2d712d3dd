import Aquila.Theorems.Ingest.Queries

/-! The report of an export: every span of the request is counted and is dropped, kept or cut off. -/

namespace Aquila.Ingest
variable {std : Std}

/-! ### Spans that are kept -/

/-- Lowercase hexadecimal digits. -/
structure HexID (n : Nat) (s : String) : Prop where
  length : s.toList.length = n
  digits : ∀ c ∈ s.toList, c ∈ "0123456789abcdef".toList

structure WellFormed (s : StoredSpan) : Prop where
  trace : HexID 32 s.traceID
  span : HexID 16 s.spanID
  parent : s.parentSpanID = "" ∨ HexID 16 s.parentSpanID ∧ ∃ c ∈ s.parentSpanID.toList, c ≠ '0'
  duration : 0 ≤ s.durationNS
  method : s.httpMethod = "" ∨ s.httpMethod ∈ methods
  status : s.httpStatus = 0 ∨ 100 ≤ s.httpStatus ∧ s.httpStatus ≤ 599
  file : ¬['.', '.'] <:+: s.codeFile.toList
  service : s.serviceName ≠ ""

theorem hexID_hexID {b : List UInt8} {n : Nat} (valid : validID b n = true) : HexID (2 * n) (hexID b) := by
  have length : b.length = n := of_decide_eq_true (Bool.and_eq_true_iff.mp valid).1
  have digit : ∀ d < 16, Nat.digitChar d ∈ "0123456789abcdef".toList := by decide
  refine ⟨?_, fun c hc => ?_⟩
  · rw [hexID, String.toList_ofList, List.length_flatMap, ← length]
    simp [Nat.mul_comm]
  · rw [hexID, String.toList_ofList, List.mem_flatMap] at hc
    obtain ⟨x, -, hc⟩ := hc
    have := x.toNat_lt
    rcases List.mem_pair.mp hc with rfl | rfl
    · exact digit _ (by omega)
    · exact digit _ (by omega)

theorem hexID_ne_zero {b : List UInt8} {n : Nat} (valid : validID b n = true) : ∃ c ∈ (hexID b).toList, c ≠ '0' := by
  obtain ⟨x, hx, ne⟩ := List.any_eq_true.mp (Bool.and_eq_true_iff.mp valid).2
  have digit : ∀ d < 16, d ≠ 0 → Nat.digitChar d ≠ '0' := by decide
  have := x.toNat_lt
  have pos : x.toNat ≠ 0 := fun zero => of_decide_eq_true ne (UInt8.toNat_inj.mp zero)
  rw [hexID, String.toList_ofList]
  rcases Nat.eq_zero_or_pos (x.toNat / 16) with low | high
  · exact ⟨_, List.mem_flatMap.mpr ⟨x, hx, List.mem_pair.mpr (.inr rfl)⟩, digit _ (by omega) (by omega)⟩
  · exact ⟨_, List.mem_flatMap.mpr ⟨x, hx, List.mem_pair.mpr (.inl rfl)⟩, digit _ (by omega) (by omega)⟩

theorem canonicalMethod_mem (s : String) : canonicalMethod std s = "" ∨ canonicalMethod std s ∈ methods := by
  unfold canonicalMethod
  dsimp only
  generalize String.ofList _ = word
  by_cases known : word ∈ methods
  · rw [if_pos known]
    exact .inr known
  · rw [if_neg known]
    exact .inl rfl

theorem splitMethodRoute_mem (method route : String) :
    (splitMethodRoute std method route).1 = "" ∨ (splitMethodRoute std method route).1 ∈ methods := by
  have given := @canonicalMethod_mem std method
  unfold splitMethodRoute
  dsimp only
  generalize canonicalMethod std method = method at given ⊢
  cases cut (trimSpace route) " " with
  | none => exact given
  | some parts =>
    have word := @canonicalMethod_mem std parts.1
    dsimp only
    generalize canonicalMethod std parts.1 = first at word ⊢
    split_ifs
    · exact word
    · exact given
    · exact given

theorem sanitizeFile_dots (s : List UInt8) : ¬['.', '.'] <:+: (sanitizeFile std s).toList := by
  have none : ¬['.', '.'] <:+: "".toList := by decide
  unfold sanitizeFile
  dsimp only
  split_ifs with blank bad
  · exact none
  · exact none
  · intro dots
    exact bad (.inr (.inr (.inr (.inr (contains_iff.mpr dots)))))

theorem canonicalStatus_range (n : Int) : canonicalStatus n = 0 ∨ 100 ≤ canonicalStatus n ∧
    canonicalStatus n ≤ 599 := by
  unfold canonicalStatus
  split_ifs with outside
  · exact .inl rfl
  · exact .inr (by omega)

theorem wellFormed_of_normalizeSpan {service : String} (named : service ≠ "") {sp : OtlpSpan} {out : StoredSpan}
    (h : normalizeSpan std service sp = some out) : WellFormed out := by
  unfold normalizeSpan at h
  rcases ite_eq_iff.mp h with ⟨-, h⟩ | ⟨ids, h⟩
  · cases h
  rcases ite_eq_iff.mp h with ⟨-, h⟩ | ⟨-, h⟩
  · cases h
  simp only [Bool.or_eq_true, Bool.not_eq_true', not_or, Bool.not_eq_false] at ids
  dsimp only at h
  generalize canonicalMethod std _ = method at h
  generalize sanitizeRoute std _ = route at h
  have known := @splitMethodRoute_mem std method route
  generalize splitMethodRoute std method route = parts at h known
  have file := @sanitizeFile_dots std (attrString std sp.attributes ["code.file.path", "code.filepath"])
  generalize sanitizeFile std _ = text at h file
  obtain rfl := Option.some.inj h
  refine ⟨hexID_hexID ids.1, hexID_hexID ids.2, ?_, ?_, known, canonicalStatus_range _, file, named⟩
  · dsimp only
    split_ifs with parent
    · exact .inr ⟨hexID_hexID parent, hexID_ne_zero parent⟩
    · exact .inl rfl
  · simp only [Time.before, decide_eq_true_eq]
    split_ifs with back
    · exact Int.le_refl 0
    · exact sub_nonneg.mpr (not_lt.mp back)

theorem serviceName_ne (rs : ResourceSpans) : serviceName std rs ≠ "" := by
  unfold serviceName
  dsimp only
  split_ifs with blank
  · decide
  · exact blank

/-! ### Spans that are dropped -/

/-- An identifier of another length or without a bit set, or a time beyond an `int64`. -/
def Bad (sp : OtlpSpan) : Prop :=
  (sp.traceId.length ≠ 16 ∨ ∀ b ∈ sp.traceId, b = 0) ∨ (sp.spanId.length ≠ 8 ∨ ∀ b ∈ sp.spanId, b = 0) ∨
    2 ^ 63 ≤ sp.startTimeUnixNano.toNat ∨ 2 ^ 63 ≤ sp.endTimeUnixNano.toNat

instance (sp : OtlpSpan) : Decidable (Bad sp) := inferInstanceAs (Decidable (_ ∨ _))

theorem validID_iff {b : List UInt8} {n : Nat} : validID b n = true ↔ ¬(b.length ≠ n ∨ ∀ x ∈ b, x = 0) := by
  simp [validID]

theorem acceptable_iff {sp : OtlpSpan} : acceptable sp = true ↔ ¬Bad sp := by
  have times : sp.startTimeUnixNano.toNat ≤ 2 ^ 63 - 1 ∧ sp.endTimeUnixNano.toNat ≤ 2 ^ 63 - 1 ↔
      ¬(2 ^ 63 ≤ sp.startTimeUnixNano.toNat ∨ 2 ^ 63 ≤ sp.endTimeUnixNano.toNat) := by omega
  rw [acceptable, Bool.and_eq_true, Bool.and_eq_true, validID_iff, validID_iff, decide_eq_true_eq, times, ← not_or,
    ← not_or, or_assoc]
  rfl

/-! ### Counting -/

/-- The spans of a request in order, each with its resource. -/
def exportedSpans (req : Option Request) : List (ResourceSpans × OtlpSpan) :=
  match req with
  | none => []
  | some req => req.resourceSpans.flatMap fun rs => rs.scopeSpans.flatten.map fun sp => (rs, sp)

/-- What is stored of a span. -/
def normalization (std : Std) (x : ResourceSpans × OtlpSpan) : Option StoredSpan :=
  normalizeSpan std (serviceName std x.1) x.2

theorem normalization_eq_none_iff {x : ResourceSpans × OtlpSpan} : normalization std x = none ↔ Bad x.2 := by
  constructor
  · intro none
    by_contra good
    obtain ⟨out, -, done, -⟩ := normalizeSpan_of_acceptable (acceptable_iff.mpr good) (serviceName std x.1)
    rw [normalization, done] at none
    cases none
  · intro bad
    exact normalizeSpan_of_not_acceptable (Bool.eq_false_iff.mpr fun ok => acceptable_iff.mp ok bad) _

/-- The report after some of the spans. -/
structure Counted (std : Std) (limit : Int) (done : List (ResourceSpans × OtlpSpan)) (out : Report) : Prop where
  seen : out.seen = done.length
  dropped : out.dropped = done.countP fun x => Bad x.2
  spans : out.spans = (done.filterMap (normalization std)).take limit.toNat
  truncated : out.truncated = true ↔ limit < (done.filterMap (normalization std)).length

variable {limit : Int} {done : List (ResourceSpans × OtlpSpan)} {out : Report}

theorem Counted.addSpan (h : Counted std limit done out) (pos : 0 < limit) (x : ResourceSpans × OtlpSpan) :
    Counted std limit (done ++ [x]) (addSpan std limit (serviceName std x.1) out x.2) := by
  have bad := @normalization_eq_none_iff std x
  have short : out.spans.length =
    min limit.toNat (done.filterMap (normalization std)).length := by rw [h.spans, List.length_take]
  have truncated := h.truncated
  rw [Ingest.addSpan]
  cases result : normalization std x with
  | none =>
    have dropped := bad.mp result
    rw [normalization] at result
    rw [result]
    refine ⟨?_, ?_, ?_, ?_⟩
    · simp [h.seen]
    · simp [h.dropped, dropped]
    · simp [h.spans, normalization, result]
    · simp [truncated, normalization, result]
  | some span =>
    have kept : ¬Bad x.2 := by rw [← bad, result]; exact Option.some_ne_none _
    rw [normalization] at result
    have more : (done ++ [x]).filterMap (normalization std) = done.filterMap (normalization std) ++ [span] := by
      simp [normalization, result]
    rw [result]
    dsimp only
    split_ifs with full
    · refine ⟨by simp [h.seen], by simp [h.dropped, kept], ?_, ?_⟩
      · rw [more, h.spans, List.take_append_of_le_length (by omega)]
      · rw [more, List.length_append, List.length_singleton]
        exact iff_of_true rfl (by omega)
    · refine ⟨by simp [h.seen], by simp [h.dropped, kept], ?_, ?_⟩
      · rw [more, h.spans, List.take_of_length_le (by omega), List.take_of_length_le (by simp; omega)]
      · rw [more, truncated, List.length_append, List.length_singleton]
        omega

theorem counted_foldl (pos : 0 < limit) (all : List (ResourceSpans × OtlpSpan)) :
    Counted std limit all (all.foldl (fun out x => addSpan std limit (serviceName std x.1) out x.2) {}) := by
  induction all using List.reverseRecOn with
  | nil => exact ⟨rfl, rfl, by simp, by simp; omega⟩
  | append_singleton all x ih =>
    rw [List.foldl_append]
    exact ih.addSpan pos x

theorem normalizeBatch_eq_foldl (pos : 0 < limit) (req : Option Request) : normalizeBatch std req limit =
    (exportedSpans req).foldl (fun out x => addSpan std limit (serviceName std x.1) out x.2) {} := by
  cases req with
  | none => rfl
  | some req =>
    rw [normalizeBatch, exportedSpans, List.foldl_flatMap, if_neg (by omega)]
    simp only [List.foldl_map, List.foldl_flatten]

theorem length_filterMap_normalization (all : List (ResourceSpans × OtlpSpan)) :
    (all.filterMap (normalization std)).length + all.countP (fun x => Bad x.2) = all.length := by
  induction all with
  | nil => rfl
  | cons x all ih =>
    have bad := @normalization_eq_none_iff std x
    cases result : normalization std x with
    | none => simp [result, bad.mp result]; omega
    | some span =>
      have kept : ¬Bad x.2 := by rw [← bad, result]; exact Option.some_ne_none _
      simp [result, kept]; omega

theorem map_some_filterMap_normalization (all : List (ResourceSpans × OtlpSpan)) :
    (all.filterMap (normalization std)).map some = (all.filter fun x => ¬Bad x.2).map (normalization std) := by
  induction all with
  | nil => rfl
  | cons x all ih =>
    have bad := @normalization_eq_none_iff std x
    cases result : normalization std x with
    | none => simpa [result, bad.mp result] using ih
    | some span =>
      have kept : ¬Bad x.2 := by rw [← bad, result]; exact Option.some_ne_none _
      simpa [result, kept] using ih

/-- Every span of a request is counted; the bad ones are dropped, the first of the others are kept, in order, and
    the rest is reported as cut off. -/
theorem normalizeBatch_counts (std : Std) (req : Option Request) (limit : Int) (pos : 0 < limit) :
    (normalizeBatch std req limit).seen = (exportedSpans req).length ∧
    (normalizeBatch std req limit).dropped = (exportedSpans req).countP (fun x => Bad x.2) ∧
    (normalizeBatch std req limit).spans.map some =
      (((exportedSpans req).filter fun x => ¬Bad x.2).take
        (min limit.toNat ((normalizeBatch std req limit).seen - (normalizeBatch std req limit).dropped))).map
          (fun x => normalizeSpan std (serviceName std x.1) x.2) ∧
    ((normalizeBatch std req limit).truncated = true ↔
      limit < (normalizeBatch std req limit).seen - (normalizeBatch std req limit).dropped) ∧
    (normalizeBatch std req limit).rejected = (normalizeBatch std req limit).seen -
    (normalizeBatch std req limit).spans.length ∧ ∀ s ∈ (normalizeBatch std req limit).spans, WellFormed s := by
  have h : Counted std limit (exportedSpans req) _ := counted_foldl pos (exportedSpans req)
  rw [← normalizeBatch_eq_foldl pos] at h
  generalize normalizeBatch std req limit = rep at h ⊢
  generalize exportedSpans req = all at h ⊢
  have total : (all.filterMap (normalization std)).length + _ = _ := length_filterMap_normalization all
  have whole : (all.filterMap (normalization std)).map some = _ := map_some_filterMap_normalization all
  have rest : (all.filter fun x => ¬Bad x.2).length = rep.seen - rep.dropped := by
    have := congrArg List.length whole
    rw [List.length_map, List.length_map] at this
    rw [← this, h.seen, h.dropped]
    omega
  have kept : rep.spans.length ≤ all.length := by
    rw [h.spans, List.length_take]
    omega
  refine ⟨h.seen, h.dropped, ?_, ?_, ?_, fun s hs => ?_⟩
  · rw [h.spans, List.map_take, whole, ← List.map_take, ← rest, List.take_eq_take_min]
    rfl
  · rw [h.truncated, h.seen, h.dropped]
    omega
  · rw [Report.rejected, h.seen, if_neg (by omega)]
  · rw [h.spans] at hs
    obtain ⟨x, -, done⟩ := List.mem_filterMap.mp (List.mem_of_mem_take hs)
    exact wellFormed_of_normalizeSpan (serviceName_ne x.1) done

def Sample.batch : Option Request := some
  { resourceSpans := [{ scopeSpans := [
      [{ traceId := List.replicate 16 1, spanId := List.replicate 8 1 }, {}],
      [{ traceId := List.replicate 16 1, spanId := List.replicate 8 2 },
        { traceId := List.replicate 16 1, spanId := List.replicate 8 3 }]] }] }

theorem normalizeBatch_counts_cut : (normalizeBatch Std.plain Sample.batch 2).truncated = true := by
  obtain ⟨seen, dropped, -, truncated, -⟩ := normalizeBatch_counts Std.plain Sample.batch 2 (by decide)
  rw [truncated, seen, dropped]
  decide

end Aquila.Ingest

import Aquila.Replay

/-! What the verdicts of a comparison and of a latency row say about the observations behind them. -/

namespace Aquila.Replay
variable {base target : String} {gw : Gateway} {w : List Step} {st : Step} {ctx : Context}

/-! ### Comparing -/

/-- Two observations of one request that the comparison finds equal. -/
structure Agree (lib : Lib) (a b : Observation) : Prop where
  method : a.method = b.method
  path : a.path = b.path
  noErr : a.err = [] ∧ b.err = []
  status : a.status = b.status
  handled : ¬(authStatus a.status = true ∧ authStatus b.status = true)
  body : jsonNotes lib a.body b.body = []

theorem compareObs_status (lib : Lib) (a b : Observation) :
    (compareObs lib a b).status =
      if (a.path ≠ b.path ∨ a.method ≠ b.method) ∨ (a.err ≠ [] ∨ b.err ≠ []) ∨
          (authStatus a.status && authStatus b.status) = true then verdictIncomplete
      else if a.status ≠ b.status ∨ jsonNotes lib a.body b.body ≠ [] then verdictDiffer
      else verdictMatch := by
  unfold compareObs
  by_cases mismatch : a.path ≠ b.path ∨ a.method ≠ b.method
  · simp [mismatch]
  by_cases errs : a.err ≠ [] ∨ b.err ≠ []
  · simp [mismatch, errs]
  by_cases refused : (authStatus a.status && authStatus b.status) = true
  · simp only [mismatch, errs, refused, if_false, if_true, false_or]
  simp only [mismatch, errs, refused, if_false]
  by_cases statuses : a.status = b.status <;> by_cases bodies : jsonNotes lib a.body b.body = [] <;>
    simp [statuses, bodies]

/-- A step matches exactly when its two observations agree. -/
theorem compareObs_match_iff (lib : Lib) (a b : Observation) :
    (compareObs lib a b).status = verdictMatch ↔ Agree lib a b := by
  have differ_ne : verdictDiffer ≠ verdictMatch := by decide
  have incomplete_ne : verdictIncomplete ≠ verdictMatch := by decide
  rw [compareObs_status]
  constructor
  · intro h
    split_ifs at h with incomplete differ
    · exact absurd h incomplete_ne
    · exact absurd h differ_ne
    · simp only [not_or, ne_eq, not_not] at incomplete differ
      exact ⟨incomplete.1.2, incomplete.1.1, incomplete.2.1, differ.1, by simpa using incomplete.2.2, differ.2⟩
  · rintro ⟨method, path, noErr, status, handled, body⟩
    rw [if_neg, if_neg]
    · simp [status, body]
    · simpa [method, path, noErr] using handled

theorem Agree.compareObs_eq {lib : Lib} {a b : Observation} (h : Agree lib a b) :
    compareObs lib a b =
      { method := a.method, path := a.path, status := verdictMatch, baselineStatus := a.status,
        patchStatus := b.status } := by
  have refused : ¬(authStatus a.status && authStatus b.status) = true := by simpa using h.handled
  simp only [compareObs, h.method, h.path, h.noErr, ne_eq, not_true_eq_false, or_self, if_false, refused]
  simp [h.status, h.body]

theorem compare_match {lib : Lib} {base patch : Result} (h : (compare lib base patch).verdict = verdictMatch) :
    List.Forall₂ (Agree lib) base.steps patch.steps := by
  unfold compare at h
  dsimp only at h
  split_ifs at h with incomplete differ
  · exact absurd h (by decide)
  · exact absurd h (by decide)
  · simp only [Bool.or_eq_true, decide_eq_true_eq, not_or, ne_eq, not_not, List.any_eq_true, not_exists, not_and]
      at incomplete differ
    refine List.forall₂_iff_get.mpr ⟨incomplete.1, fun i hb hp => (compareObs_match_iff lib _ _).mp ?_⟩
    have mem : compareObs lib (base.steps.get ⟨i, hb⟩) (patch.steps.get ⟨i, hp⟩) ∈
        List.zipWith (compareObs lib) base.steps patch.steps := by
      refine List.mem_iff_getElem.mpr ⟨i, by simpa using ⟨hb, hp⟩, by simp⟩
    have notDiffer := differ _ mem
    have notIncomplete := (incomplete.2 _ mem).2
    rw [compareObs_status] at notDiffer notIncomplete ⊢
    split_ifs at notDiffer notIncomplete ⊢ <;> first | rfl | contradiction

/-! ### Replays -/

def replayed (gw : Gateway) (base : String) (w : List Step) (rep : Nat) : Result :=
  { target := base, steps := w.zipIdx.map fun (st, i) => runStep gw base rep i st }

theorem replayed_getElem? {rep i : Nat}
    (h : w[i]? = some st) : (replayed gw base w rep).steps[i]? = some (runStep gw base rep i st) := by
  simp [replayed, List.getElem?_zipIdx, h]

theorem replayed_length (gw : Gateway) (base : String) (w : List Step) (rep : Nat) :
    (replayed gw base w rep).steps.length = w.length := by simp [replayed]

theorem runStep_request (gw : Gateway) (base : String) (rep i : Nat) (st : Step) :
    (runStep gw base rep i st).method = st.method ∧ (runStep gw base rep i st).path = st.path := by
  unfold runStep
  cases gw base rep i st with
  | badRequest e => exact ⟨rfl, rfl⟩
  | failed e ns => exact ⟨rfl, rfl⟩
  | response status body ns =>
    cases body with
    | error e => exact ⟨rfl, rfl⟩
    | ok raw => dsimp only; split_ifs <;> exact ⟨rfl, rfl⟩

theorem mapM_ok_eq_map {α β ε : Type} (f : α → Except ε β) (g : α → β) (only : ∀ x y, f x = .ok y → y = g x) :
    ∀ (xs : List α) (ys : List β), xs.mapM f = .ok ys → ys = xs.map g
  | [], ys, h => by
    rw [List.mapM_nil] at h
    exact (Except.ok.inj h).symm
  | x :: xs, ys, h => by
    rw [List.mapM_cons] at h
    cases hx : f x with
    | error e => rw [hx] at h; exact nomatch h
    | ok y =>
      cases hxs : xs.mapM f with
      | error e => rw [hx, hxs] at h; exact nomatch h
      | ok rest =>
        rw [hx, hxs] at h
        rw [← Except.ok.inj h, List.map_cons, only x y hx, mapM_ok_eq_map f g only xs rest hxs]

theorem mapM_of_ok {α β ε : Type} {f : α → Except ε β} {g : α → β} (each : ∀ x, f x = .ok (g x)) (xs : List α) :
    xs.mapM f = .ok (xs.map g) := by
  induction xs with
  | nil => rfl
  | cons x xs ih =>
    rw [List.mapM_cons, each x, ih]
    rfl

theorem repetition_ok {lib : Lib} {rep : Nat}
    {r : Result} (parsed : parseTarget lib target = .ok base) (h : repetition lib gw ctx target w rep = .ok r) :
    r = replayed gw base w rep := by
  unfold repetition run at h
  simp only [parsed] at h
  split at h
  · exact nomatch h
  · split at h
    · exact nomatch h
    · exact (Except.ok.inj h).symm

theorem repeatRuns_ok {lib : Lib} {n : Int}
    {rs : List Result} (parsed : parseTarget lib target = .ok base) (h : repeatRuns lib gw ctx target w n = .ok rs) :
    1 ≤ n ∧ rs = (List.range n.toNat).map (replayed gw base w) := by
  unfold repeatRuns clipRepeats at h
  by_cases low : n < 1
  · simp [low] at h
  by_cases high : n > maxRepeats
  · simp [low, high] at h
  simp only [low, high, if_false] at h
  exact ⟨by omega, mapM_ok_eq_map _ _ (fun _ _ => repetition_ok parsed) _ _ h⟩

theorem burst_ok {lib : Lib} {n : Int}
    {rs : List Result} (parsed : parseTarget lib target = .ok base) (h : burst lib gw ctx target w n = .ok rs) :
    rs = (List.range n.toNat).map (replayed gw base w) := by
  have accepted : checkTarget lib target = none := by simp [checkTarget, parsed]
  unfold burst at h
  simp only [accepted] at h
  split_ifs at h
  exact mapM_ok_eq_map _ _ (fun _ _ => repetition_ok parsed) _ _ h

/-! ### Health -/

section
variable {lib : Lib} {probe : String → String → Except (List UInt8) Int}

theorem oneHealthz_eq_none_iff {path : String} : oneHealthz lib probe target path = none ↔
    ∃ base status, parseTarget lib target = .ok base ∧ probe base path = .ok status ∧ 200 ≤ status ∧ status ≤ 299 := by
  unfold oneHealthz
  cases parseTarget lib target with
  | error e => simp
  | ok base =>
    cases probed : probe base path with
    | error e => simp [probed]
    | ok status => simp [probed]

def probedPath (path : String) : String := if path = "" then defaultHealthPath else path

theorem healthzPath_eq_none_iff {baseline patch path : String} : healthzPath lib probe baseline patch path = none ↔
    safeReplay "GET" (probedPath path) = true ∧ oneHealthz lib probe baseline (probedPath path) = none ∧
      oneHealthz lib probe patch (probedPath path) = none := by
  unfold healthzPath
  rw [← probedPath]
  dsimp only
  generalize probedPath path = path
  by_cases safe : safeReplay "GET" path = true
  · cases oneHealthz lib probe baseline path with
    | some e => simp [safe]
    | none => cases oneHealthz lib probe patch path <;> simp [safe]
  · simp [safe]

end

/-! ### Latency -/

def samples (gw : Gateway) (base : String) (n i : Nat) (st : Step) : List Int :=
  (((List.range n).map fun rep => runStep gw base rep i st).filter (·.successful)).map (·.durationNS)

theorem successfulDurations_replayed {n i : Nat}
    (h : w[i]? = some st) :
    successfulDurations ((List.range n).map (replayed gw base w)) i = samples gw base n i st := by
  unfold successfulDurations samples
  rw [List.filterMap_map, ← List.filterMap_eq_map, ← List.filterMap_eq_filter, List.filterMap_filterMap,
    ← List.filterMap_eq_map, List.filterMap_filterMap]
  refine List.filterMap_congr fun rep _ => ?_
  simp only [Function.comp_apply, replayed_getElem? h, Option.bind_some, Option.guard]
  split_ifs <;> rfl

theorem runStep_durationNS_lt (gw : Gateway) (base : String) (rep i : Nat) (st : Step) :
    (runStep gw base rep i st).durationNS < 2 ^ 63 := by
  have bound : ∀ ns, int64 ns < 2 ^ 63 := fun ns => by
    have := Int.emod_lt_of_pos (ns + 2 ^ 63) (show (0 : Int) < 2 ^ 64 by decide)
    unfold int64
    omega
  unfold runStep
  cases gw base rep i st with
  | badRequest e => show (0 : Int) < 2 ^ 63; decide
  | failed e ns => exact bound ns
  | response status body ns =>
    cases body with
    | error e => exact bound ns
    | ok raw => dsimp only; split_ifs <;> exact bound ns

theorem samples_range {n i : Nat} {d : Int}
    (h : d ∈ samples gw base n i st) : 0 < d ∧ d < 2 ^ 63 := by
  obtain ⟨o, ho, rfl⟩ := List.mem_map.mp h
  obtain ⟨mem, success⟩ := List.mem_filter.mp ho
  obtain ⟨rep, -, rfl⟩ := List.mem_map.mp mem
  refine ⟨?_, runStep_durationNS_lt gw base rep i st⟩
  simp only [Observation.successful, Bool.not_eq_true', Bool.or_eq_false_iff, decide_eq_false_iff_not] at success
  omega

theorem rank_mem {sorted : List Int} (h : sorted ≠ []) (num den : Nat) : rank sorted num den ∈ sorted := by
  have pos := List.length_pos_of_ne_nil h
  unfold rank
  rw [List.getD_eq_getElem?_getD, List.getElem?_eq_getElem (by omega)]
  exact List.getElem_mem _

theorem summarize_n (l : List Int) : (summarize l).n = l.length := by
  unfold summarize
  by_cases h : l = []
  · simp [h]
  · simp only [h, if_false]
    split_ifs <;> rfl

theorem summarize_medNS {l : List Int} (h : l ≠ []) :
    (summarize l).medNS = rank (l.insertionSort (· ≤ ·)) 50 100 := by
  unfold summarize
  rw [if_neg h]
  dsimp only
  split_ifs <;> rfl

theorem summarize_medNS_mem {l : List Int} (h : l ≠ []) : (summarize l).medNS ∈ l := by
  have sorted : l.insertionSort (· ≤ ·) ≠ [] := by
    rw [← List.length_pos_iff_ne_nil, List.length_insertionSort]
    exact List.length_pos_of_ne_nil h
  rw [summarize_medNS h]
  exact (List.perm_insertionSort _ l).mem_iff.mp (rank_mem sorted _ _)

theorem not_slower_of_unshifted {l : StepLatency} (counted : l.baseline.n ≠ 0 ∧ l.patch.n ≠ 0)
    (pos : 0 < l.baseline.medNS) (range : l.patch.medNS < 2 ^ 63) (h : shifted l = false) :
    ¬(2 * l.baseline.medNS < l.patch.medNS ∧ shiftMinNS ≤ l.patch.medNS - l.baseline.medNS) := by
  rintro ⟨double, slower⟩
  have exact_ : ∀ x : Int, 0 ≤ x → x < 2 ^ 63 → int64 x = x := fun x low high => by
    rw [int64, Int.emod_eq_of_lt (by omega) (by omega)]
    omega
  have doubled : int64 (shiftRatio * l.baseline.medNS) = 2 * l.baseline.medNS :=
    exact_ (2 * l.baseline.medNS) (by omega) (by omega)
  have difference : int64 (l.patch.medNS - l.baseline.medNS) = l.patch.medNS - l.baseline.medNS :=
    exact_ _ (by omega) (by omega)
  simp only [shifted, counted, or_self, if_false, doubled, difference, Bool.and_eq_false_iff,
    decide_eq_false_iff_not] at h
  omega

theorem mem_latency {gwb gwp : Gateway} {b p : String} {w : List Step} {n i : Nat} {st : Step} (some_run : 0 < n)
    (h : w[i]? = some st) :
    ∃ row ∈ latency ((List.range n).map (replayed gwb b w)) ((List.range n).map (replayed gwp p w)),
      row.baseline = summarize (samples gwb b n i st) ∧ row.patch = summarize (samples gwp p n i st) := by
  obtain ⟨m, rfl⟩ : ∃ m, n = m + 1 := ⟨n - 1, by omega⟩
  have inside : i < w.length := (List.getElem?_eq_some_iff.mp h).1
  refine ⟨_, List.mem_map_of_mem (List.mem_range.mpr (?_ : i < _)), ?_, ?_⟩
  · simpa [List.range_succ_eq_map, replayed_length] using inside
  · exact congrArg summarize (successfulDurations_replayed h)
  · exact congrArg summarize (successfulDurations_replayed h)

end Aquila.Replay

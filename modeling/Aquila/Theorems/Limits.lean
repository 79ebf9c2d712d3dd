import Aquila.Nexec

/-! Whether the supervisor runs a command with the limits that were asked for. -/

namespace Aquila.Nexec
open Executor (Limits Outcome options wallLimit parseI parseU64)

/-- The supervisor runs the command with the limits of the specification: its wall limit is at most a millisecond
    off. -/
def Agrees (resultPath : List UInt8) (spec : Spec) : Outcome → Prop
  | .run lim path cmd =>
    (wallLimit lim * millisecond - if spec.timeout ≤ 0 then defaultTimeout else spec.timeout.toInt).natAbs ≤ 1000000 ∧
    lim = { ({} : Limits) with
      timeoutMs := lim.timeoutMs
      asBytes := if spec.memory > 0 then spec.memory.toInt.toNat else ({} : Limits).asBytes
      netNone := spec.netNone } ∧
    path = resultPath ∧ cmd = spec.args
  | _ => False

/-! ### Numbers -/

theorem bytes_itoa {n : Int} (h : 0 ≤ n) : bytes (itoa n) = Decimal.digits n.toNat := by
  obtain ⟨k, rfl⟩ := Int.eq_ofNat_of_zero_le h
  have text : itoa k = .ofList (Nat.toDigits 10 k) := rfl
  rw [text, bytes_eq_encode, String.toList_ofList, Int.toNat_natCast, Utf8.encode, Decimal.flatMap_utf8EncodeChar]

theorem parseI_itoa {n : Int} (h : 0 ≤ n) : parseI (bytes (itoa n)) = if n > 1000000000 then none else some n := by
  obtain ⟨k, rfl⟩ := Int.eq_ofNat_of_zero_le h
  rw [bytes_itoa h, parseI, Decimal.strtol_digits, Int.toNat_natCast]
  dsimp only
  unfold Decimal.clamp
  split_ifs <;> first | rfl | omega

theorem parseU64_itoa {n : Int} (h : 0 ≤ n) (fits : n < 2 ^ 64) : parseU64 (bytes (itoa n)) = some n.toNat := by
  rw [bytes_itoa h, parseU64, Decimal.strtoull_digits _ (by omega)]

/-! ### Options -/

section
variable (lim : Limits) (path v : List UInt8) (rest : List (List UInt8))

theorem options_end : options lim path (bytes "--" :: rest) = .run lim path rest := by
  unfold options
  exact if_pos rfl

theorem options_timeout : options lim path (bytes "--timeout-ms" :: v :: rest) =
    (parseI v).elim .usage fun n => options { lim with timeoutMs := n } path rest := by
  cases h : parseI v <;> simp [options, bytes_injective.eq_iff, h]

theorem options_result : options lim path (bytes "--result" :: v :: rest) = options lim v rest := by
  simp [options, bytes_injective.eq_iff]

theorem options_asBytes : options lim path (bytes "--as-bytes" :: v :: rest) =
    (parseU64 v).elim .usage fun u => options { lim with asBytes := u } path rest := by
  cases h : parseU64 v <;> simp [options, bytes_injective.eq_iff, h]

theorem options_net : options lim path (bytes "--net" :: bytes "none" :: rest) = options { lim with
    netNone := true } path rest := by
  simp [options, bytes_injective.eq_iff]

end

/-! ### Agreement -/

section
variable {spec : Spec} {resultPath : List UInt8}

/-- The time that was asked for, in whole milliseconds. -/
def Spec.ms (spec : Spec) : Int := (milliseconds spec.requested).toInt

theorem requested_toInt : spec.requested.toInt = if spec.timeout ≤ 0 then defaultTimeout else spec.timeout.toInt := by
  unfold Spec.requested
  split_ifs
  · exact Int64.toInt_ofInt_of_le (by decide) (by decide)
  · rfl

theorem requested_pos : 0 < spec.requested.toInt := by
  rw [requested_toInt]
  split_ifs with unset
  · decide
  · rw [Int64.le_iff_toInt_le, not_le] at unset
    exact unset

theorem ms_eq : spec.ms = spec.requested.toInt / 1000000 := by
  have million : (1000000 : Int64).toInt = 1000000 := by decide
  rw [Spec.ms, milliseconds, Int64.toInt_div_of_ne_right _ _ (by decide), million,
    Int.tdiv_eq_ediv_of_nonneg (le_of_lt requested_pos)]

theorem wallLimit_iff {r : Int} (pos : 0 < r) {lim : Limits} (whole : lim.timeoutMs = r / 1000000) :
    (wallLimit lim * millisecond - r).natAbs ≤ 1000000 ↔ 1000000 ≤ r := by
  rw [wallLimit, whole, millisecond]
  split_ifs <;> omega

theorem main_arguments : Executor.main (arguments resultPath spec) = if spec.ms > 1000000000 then .usage else
    .run { ({} : Limits) with
      timeoutMs := spec.ms
      asBytes := if spec.memory > 0 then spec.memory.toInt.toNat else ({} : Limits).asBytes
      netNone := spec.netNone } resultPath spec.args := by
  have pos : 0 ≤ spec.ms := by
    have := @requested_pos spec
    rw [ms_eq]
    omega
  have memory (lim : Limits) (path : List UInt8) (rest : List (List UInt8)) :
      options lim path ((if spec.memory > 0 then [bytes "--as-bytes", bytes (itoa spec.memory.toInt)]
        else []) ++ rest) =
        options { lim with asBytes := if spec.memory > 0 then spec.memory.toInt.toNat else lim.asBytes } path rest := by
    split_ifs with some_
    · have nonneg : 0 ≤ spec.memory.toInt := by
        have := Int64.lt_iff_toInt_lt.mp some_
        exact le_of_lt this
      have bound := spec.memory.toInt_lt
      rw [List.cons_append, List.cons_append, List.nil_append, options_asBytes, parseU64_itoa nonneg (by omega)]
      rfl
    · rfl
  have net (lim : Limits) (path : List UInt8) (rest : List (List UInt8)) (off : lim.netNone = false) :
      options lim path ((if spec.netNone then [bytes "--net", bytes "none"] else []) ++ rest) =
        options { lim with netNone := spec.netNone } path rest := by
    cases none_ : spec.netNone with
    | true => exact options_net lim path rest
    | false =>
      obtain ⟨_, _, _, _, _, _⟩ := lim
      cases off
      rfl
  have timeout : parseI (bytes (itoa (milliseconds spec.requested).toInt)) = if spec.ms > 1000000000 then none
    else some spec.ms :=
    parseI_itoa pos
  rw [Executor.main, arguments, List.append_assoc, List.append_assoc, List.cons_append, List.cons_append,
    options_timeout, timeout]
  by_cases long : spec.ms > 1000000000
  · rw [if_pos long, if_pos long]
    rfl
  · rw [if_neg long, if_neg long, Option.elim_some, List.cons_append, List.cons_append, options_result, List.nil_append,
      memory, net _ _ _ rfl, options_end]

/-- The supervisor runs a command that was passed to it as specified exactly if there is no timeout, or one from a
    millisecond to 1 000 000 000 milliseconds. -/
theorem main_agrees_iff {argv : List (List UInt8)} (passed : run resultPath spec = .ok argv) :
    Agrees resultPath spec (Executor.main argv) ↔
      spec.timeout ≤ 0 ∨ (1000000 ≤ spec.timeout.toInt ∧ spec.timeout.toInt / 1000000 ≤ 1000000000) := by
  have same : arguments resultPath spec = argv := by
    unfold run at passed
    split_ifs at passed
    exact Except.ok.inj passed
  have pos := @requested_pos spec
  have asked : spec.timeout ≤ 0 ∨ (1000000 ≤ spec.timeout.toInt ∧ spec.timeout.toInt / 1000000 ≤ 1000000000) ↔
      1000000 ≤ spec.requested.toInt ∧ spec.ms ≤ 1000000000 := by
    rw [ms_eq, requested_toInt]
    by_cases unset : spec.timeout ≤ 0
    · rw [if_pos unset]
      exact iff_of_true (.inl unset) (by decide)
    · rw [if_neg unset]
      exact or_iff_right unset
  rw [← same, main_arguments, asked]
  by_cases refused : spec.ms > 1000000000
  · rw [if_pos refused]
    exact iff_of_false id fun short => absurd short.2 (not_le.mpr refused)
  · rw [if_neg refused]
    simp only [Agrees, ← requested_toInt, and_true, not_lt.mp refused]
    exact wallLimit_iff pos ms_eq

end

/-- A command with all its limits, whose arguments look like options. -/
theorem main_agrees_iff_sample :
    ∃ argv, run "/tmp/r" { args := ["--net", "--"], timeout := 1500000, memory := 4096, netNone := true } = .ok argv ∧
    Agrees "/tmp/r" { args := ["--net", "--"], timeout := 1500000, memory := 4096, netNone := true }
      (Executor.main argv) := by
  refine ⟨_, rfl, (main_agrees_iff rfl).mpr ?_⟩
  decide

/-- A timeout of half a millisecond becomes one of five seconds. -/
theorem main_not_agrees : run "/tmp/r" { args := ["true"], timeout := 500000 } = .ok ["--timeout-ms", "0", "--result",
    "/tmp/r", "--", "true"] ∧
    ¬Agrees "/tmp/r" { args := ["true"], timeout := 500000 } (Executor.main ["--timeout-ms", "0", "--result", "/tmp/r",
      "--", "true"]) := by
  refine ⟨by decide +kernel, ?_⟩
  have parsed : Executor.main ["--timeout-ms", "0", "--result", "/tmp/r", "--", "true"] = .run
    { timeoutMs := 0 } "/tmp/r" ["true"] := by
    decide +kernel
  rw [parsed]
  rintro ⟨close, -⟩
  exact absurd close (by decide)

end Aquila.Nexec

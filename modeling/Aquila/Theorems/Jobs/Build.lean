import Mathlib.Data.Nat.Digits.Lemmas
import Mathlib.Data.String.Basic
import Aquila.Theorems.Text
import Aquila.Theorems.Jobs.Transitions

/-! What `Create` builds: a job that satisfies the invariant, and the ids of its tasks. -/

namespace Aquila.Jobs

/-! ### Tasks of a plan -/

/-- The tasks of a plan before they are settled. -/
def planTasks (id : String) (steps : List Plan.Step) : List Task := steps.zipIdx.map fun (s, i) => buildTask id s i

theorem planTasks_getElem? {id : String} {steps : List Plan.Step} {i : Nat} {t : Task}
    (h : (planTasks id steps)[i]? = some t) : ∃ s, steps[i]? = some s ∧ t = buildTask id s i := by
  simp only [planTasks, List.getElem?_map, List.getElem?_zipIdx, Option.map_map, Option.map_eq_some_iff] at h
  obtain ⟨s, hs, rfl⟩ := h
  exact ⟨s, hs, by simp⟩

theorem mem_planTasks {id : String} {steps : List Plan.Step} {t : Task} (h : t ∈ planTasks id steps) :
    ∃ s i, steps[i]? = some s ∧ t = buildTask id s i := by
  obtain ⟨i, hi⟩ := List.mem_iff_getElem?.mp h
  obtain ⟨s, hs, rfl⟩ := planTasks_getElem? hi
  exact ⟨s, i, hs, rfl⟩

theorem buildTask_idle (id : String) (s : Plan.Step) (i : Nat) :
    (buildTask id s i).state = .skipped ∨ (buildTask id s i).state = .pending := by
  unfold buildTask
  cases s.operator <;> simp

theorem planTasks_ok (id : String) (steps : List Plan.Step) : TasksOK id (planTasks id steps) := by
  refine ⟨fun t ht => ?_, fun t ht op => ?_, fun i t hi => ?_, fun t ht live => ?_⟩
  · obtain ⟨s, i, -, rfl⟩ := mem_planTasks ht
    rcases buildTask_idle id s i with h | h <;> simp [Held, h] <;> rfl
  · obtain ⟨s, i, -, rfl⟩ := mem_planTasks ht
    exact if_pos op
  · obtain ⟨s, -, rfl⟩ := planTasks_getElem? hi
    exact ⟨rfl, rfl⟩
  · obtain ⟨s, i, -, rfl⟩ := mem_planTasks ht
    rcases buildTask_idle id s i with h | h <;> simp [h] at live

/-! ### The job -/

section
variable (lib : Lib) (opts : CreateOpts) (id : String) (clock : Time)

theorem buildJob_ok : JobOK lib (buildJob lib opts id clock) :=
  refreshJob_ok (planTasks_ok id opts.plan.steps).settle

theorem buildJob_tasks : List.Forall₂ Kept (planTasks id opts.plan.steps) (buildJob lib opts id clock).tasks :=
  have ok := planTasks_ok id opts.plan.steps
  Lists.forall₂_trans (settle_kept ok.held) (settle_kept ok.settle.held) fun _ _ _ => Kept.trans

theorem buildJob_unstarted {t : Task} (ht : t ∈ (buildJob lib opts id clock).tasks) :
    t.fence = 0 ∧ t.result = {} ∧ t.state ≠ .leased := by
  obtain ⟨t₀, ht₀, kept⟩ := Lists.forall₂_mem_right (buildJob_tasks lib opts id clock) ht
  obtain ⟨s, i, -, rfl⟩ := mem_planTasks ht₀
  refine ⟨kept.fence, kept.result, fun leased => ?_⟩
  rcases buildTask_idle id s i with h | h <;> simp [(kept.leased leased).1] at h

theorem buildJob_descriptions :
    (buildJob lib opts id clock).tasks.map Task.static = (planTasks id opts.plan.steps).map Task.static :=
  Lists.map_eq_of_forall₂ (buildJob_tasks lib opts id clock) fun _ _ => Kept.static

theorem buildJob_unvalidated {s : Plan.Step} (hs : s ∈ opts.plan.steps) (work : s.operator = false) :
    (buildJob lib opts id clock).validated = false := by
  have ok := buildJob_ok lib opts id clock
  have planned := planTasks_ok id opts.plan.steps
  have idle : ∀ {ts}, TasksOK id ts → ∀ t ∈ ts, t.operator = true → t.state ≠ .pending := by
    intro ts tasks t ht operator pending
    rw [tasks.operators t ht operator] at pending
    cases pending
  have readied : List.Forall₂ Readied (planTasks id opts.plan.steps) (buildJob lib opts id clock).tasks :=
    Lists.forall₂_trans (settle_readied (idle planned)) (settle_readied (idle planned.settle))
      fun _ _ _ => Readied.trans
  obtain ⟨i, hi⟩ := List.mem_iff_getElem?.mp hs
  have task : (planTasks id opts.plan.steps)[i]? = some (buildTask id s i) := by simp [planTasks, hi]
  obtain ⟨t, ht, change⟩ := Lists.forall₂_getElem? readied task
  have undone : t.state.done = false := by
    rcases change with rfl | ⟨-, rfl⟩
    · simp [buildTask, work, TaskState.done]
    · rfl
  have unfinished : (buildJob lib opts id clock).status ≠ .complete := by
    rw [ok.status]
    intro complete
    have done := jobStatus_complete_iff.mp complete t (List.mem_of_getElem? ht)
    rw [undone] at done
    cases done
  have graded := congrArg Job.validated ok.graded
  rw [← graded, Job.graded, jobDecision_unfinished (.inr unfinished)]

end

/-! ### Ids of tasks -/

theorem length_le_byteLen (s : String) : s.toList.length ≤ byteLen s := by
  have grow : ∀ cs : List Char, cs.length ≤ String.utf8Len cs := by
    intro cs
    induction cs with
    | nil => exact Nat.le_refl 0
    | cons c cs ih =>
      have := Char.utf8Size_pos c
      simp only [List.length_cons, String.utf8Len]
      omega
  have := grow s.toList
  rwa [← String.utf8ByteSize_ofList, String.ofList_toList] at this

def indexDigits (i : Nat) : List Char := (hexLE 4 i).reverse.map Nat.digitChar

theorem taskID_toList (id : ID) (i : Nat) : (taskID id.text i).toList = id.text.toList.take 12 ++ indexDigits i := by
  have long : ¬byteLen id.text < 12 := by
    have := length_le_byteLen id.text
    rw [id.len, idLen] at this
    omega
  simp only [taskID, if_neg long, fmtHex, indexDigits, String.toList_append, String.toList_ofList]

theorem hexLE_lt {w n d : Nat} (h : d ∈ hexLE w n) : d < 16 := by
  rcases List.mem_append.mp h with h | h
  · exact Nat.digits_lt_base (by decide) h
  · rw [List.eq_of_mem_replicate h]
    decide

def digitValue (c : Char) : Nat := ((List.range 16).find? fun d => Nat.digitChar d = c).getD 0

theorem indexDigits_value (i : Nat) : Nat.ofDigits 16 ((indexDigits i).map digitValue).reverse = i := by
  have inverse : ∀ d < 16, digitValue (Nat.digitChar d) = d := by decide
  have digits : ((indexDigits i).map digitValue).reverse = hexLE 4 i := by
    rw [indexDigits, List.map_map, ← List.map_reverse, List.reverse_reverse]
    calc (hexLE 4 i).map (digitValue ∘ Nat.digitChar) = (hexLE 4 i).map id :=
          List.map_congr_left fun d hd => inverse d (hexLE_lt hd)
      _ = hexLE 4 i := List.map_id _
  rw [digits, hexLE, Nat.ofDigits_append_replicate_zero, Nat.ofDigits_digits]

/-- Tasks with one id belong to jobs whose ids start alike, and have one index. -/
theorem taskID_inj {id id' : ID} {i i' : Nat} (h : taskID id.text i = taskID id'.text i') :
    id.text.toList.take 12 = id'.text.toList.take 12 ∧ i = i' := by
  have digits := congrArg String.toList h
  rw [taskID_toList, taskID_toList] at digits
  obtain ⟨start, rest⟩ := List.append_inj digits (by simp [id.len, id'.len])
  exact ⟨start, by rw [← indexDigits_value i, ← indexDigits_value i', rest]⟩

/-! ### Normalized ids -/

theorem isSpace_hex {c : Char} (h : isHexDigit c = true) : isSpace c = false := by
  have spaces : spaceChars.all (fun c => !isHexDigit c) = true := by decide
  by_contra space
  have mem : c ∈ spaceChars := by simpa [isSpace] using space
  have unhex := List.all_eq_true.mp spaces c mem
  rw [h] at unhex
  exact Bool.false_ne_true unhex

theorem asciiLower_hex {c : Char} (h : isHexDigit c = true) : asciiLower c = c := by
  refine if_neg fun upper => ?_
  simp only [isHexDigit, Bool.or_eq_true, Bool.and_eq_true, decide_eq_true_eq, Char.le_def,
    UInt32.le_iff_toNat_le] at h upper
  have nine : ('9' : Char).val.toNat = 57 := rfl
  have a : ('a' : Char).val.toNat = 97 := rfl
  have upperA : ('A' : Char).val.toNat = 65 := rfl
  have upperZ : ('Z' : Char).val.toNat = 90 := rfl
  omega

theorem lower_trimSpace_hex {s : String} (hex : s.toList.all isHexDigit = true) :
    (trimSpace s).toList.map asciiLower = s.toList := by
  have digit : ∀ c ∈ s.toList, isHexDigit c = true := List.all_eq_true.mp hex
  rw [trimSpace, String.toList_ofList, trimBoth_of_none fun c hc => isSpace_hex (digit c hc)]
  calc s.toList.map asciiLower = s.toList.map id := List.map_congr_left fun c hc => asciiLower_hex (digit c hc)
    _ = s.toList := List.map_id _

theorem normalizeID_of_long {s : String} (len : idLen ≤ s.toList.length ∧ s.toList.length ≤ 64)
    (hex : s.toList.all isHexDigit = true) :
    normalizeID s = some (.ofList (s.toList.take idLen)) := by
  have fits : ¬(s.toList.length < 8 ∨ s.toList.length > 64) := by
    have := len.1
    rw [idLen] at this
    omega
  simp only [normalizeID, lower_trimSpace_hex hex, if_neg fits, hex, Bool.not_true, Bool.false_eq_true, if_false]

theorem normalizeID_of_hex {s : String} (len : s.toList.length = idLen) (hex : s.toList.all isHexDigit = true) :
    normalizeID s = some s := by
  rw [normalizeID_of_long ⟨len.ge, by rw [len, idLen]; omega⟩ hex, List.take_of_length_le len.le, String.ofList_toList]

theorem ID.normalized (id : ID) : normalizeID id.text = some id.text := normalizeID_of_hex id.len id.hex

theorem taskID_hex (id : ID) (i : Nat) : (taskID id.text i).toList.all isHexDigit = true := by
  have hexDigit : ∀ d < 16, isHexDigit (Nat.digitChar d) = true := by decide
  rw [taskID_toList, List.all_append, Bool.and_eq_true]
  refine ⟨List.all_eq_true.mpr fun c hc => List.all_eq_true.mp id.hex c (List.mem_of_mem_take hc), ?_⟩
  refine List.all_eq_true.mpr fun c hc => ?_
  obtain ⟨d, hd, rfl⟩ := List.mem_map.mp hc
  exact hexDigit d (hexLE_lt (List.mem_reverse.mp hd))

theorem taskID_normalized (id : ID) {i : Nat} (h : i < 65536) :
    normalizeID (taskID id.text i) = some (taskID id.text i) := by
  have digits : (hexLE 4 i).length = 4 := by
    have := (Nat.digits_length_le_iff (by decide : 1 < 16) (k := 4) i).mpr h
    simp only [hexLE, List.length_append, List.length_replicate]
    omega
  refine normalizeID_of_hex ?_ (taskID_hex id i)
  rw [taskID_toList, List.length_append, List.length_take, id.len, indexDigits, List.length_map,
    List.length_reverse, digits]
  decide

/-- The id of the task after those loses its last digit, and is then that of a task before it. -/
theorem taskID_cut (id : ID) : normalizeID (taskID id.text 65536) = normalizeID (taskID id.text 4096) := by
  have five : indexDigits 65536 = ['1', '0', '0', '0', '0'] := by norm_num [indexDigits, hexLE]
  have four : indexDigits 4096 = ['1', '0', '0', '0'] := by norm_num [indexDigits, hexLE]
  have start : (id.text.toList.take 12).length = 12 := by rw [List.length_take, id.len]; decide
  have cut : (taskID id.text 65536).toList.take idLen = (taskID id.text 4096).toList := by
    rw [taskID_toList, taskID_toList, five, four, List.take_append, start,
      List.take_of_length_le (by rw [start]; decide)]
    rfl
  rw [normalizeID_of_long ⟨?_, ?_⟩ (taskID_hex id 65536), cut, String.ofList_toList, taskID_normalized id (by decide)]
  all_goals rw [taskID_toList, five, List.length_append, start]; decide

end Aquila.Jobs

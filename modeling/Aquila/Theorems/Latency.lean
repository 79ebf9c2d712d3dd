import Aquila.Lib.Lists
import Aquila.Theorems.Replay
import Aquila.Theorems.Text

/-! Latency rows. The median of a summary is an order statistic, so that a shift is not lost when the patch gets
    slower or the baseline faster. -/

namespace Aquila.Replay

/-- Samples of durations. -/
structure Durations (l : List Int) : Prop where
  some : l ≠ []
  range : ∀ d ∈ l, 0 < d ∧ d < 2 ^ 62

/-- The row of two lists of samples. -/
def row (baseline patch : List Int) : StepLatency := { baseline := summarize baseline, patch := summarize patch }

theorem summarize_perm {l l' : List Int} (perm : l.Perm l') : summarize l = summarize l' := by
  have sorted : l.insertionSort (· ≤ ·) = l'.insertionSort (· ≤ ·) := by
    refine List.Perm.eq_of_pairwise' (r := (· ≤ ·)) (List.pairwise_insertionSort _ l)
      (List.pairwise_insertionSort _ l') ?_
    exact (List.perm_insertionSort _ l).trans (perm.trans (List.perm_insertionSort _ l').symm)
  have empty : l = [] ↔ l' = [] := ⟨fun h => (h ▸ perm).nil_eq.symm, fun h => (h ▸ perm).eq_nil⟩
  rw [summarize, summarize, sorted, perm.length_eq]
  simp only [empty]

section
variable {l : List Int}

theorem sorted_ne_nil (ne : l ≠ []) : l.insertionSort (· ≤ ·) ≠ [] := by
  rw [← List.length_pos_iff_ne_nil, List.length_insertionSort]
  exact List.length_pos_of_ne_nil ne

/-- The median is the middle sample, the lower one of two. -/
theorem isKth_medNS (ne : l ≠ []) : Lists.IsKth l ((l.length + 1) / 2) (summarize l).medNS := by
  have pos := List.length_pos_of_ne_nil ne
  have len : (l.insertionSort (· ≤ ·)).length = l.length := List.length_insertionSort _ l
  have inside : (l.length + 1) / 2 - 1 < (l.insertionSort (· ≤ ·)).length := by omega
  have kth := Lists.isKth_of_sorted (List.pairwise_insertionSort _ l) inside
  rw [summarize_medNS ne, rank, len]
  rw [show min ((50 * l.length + 100 - 1) / 100 - 1) (l.length - 1) = (l.length + 1) / 2 -
    1 by omega, List.getD_eq_getElem?_getD, List.getElem?_eq_getElem inside, Option.getD_some]
  rw [show (l.length + 1) / 2 - 1 + 1 = (l.length + 1) / 2 by omega] at kth
  exact kth.perm (List.perm_insertionSort _ l)

theorem minNS_le_medNS (ne : l ≠ []) : (summarize l).minNS ≤ (summarize l).medNS := by
  have min : (summarize l).minNS = (l.insertionSort (· ≤ ·)).headD 0 := by
    rw [summarize, if_neg ne]
    dsimp only
    split_ifs <;> rfl
  have mem := rank_mem (sorted_ne_nil ne) 50 100
  rw [min, summarize_medNS ne]
  have sorted := List.pairwise_insertionSort (· ≤ ·) l
  cases list : l.insertionSort (· ≤ ·) with
  | nil => exact absurd list (sorted_ne_nil ne)
  | cons a as =>
    rw [list] at sorted mem
    rcases List.mem_cons.mp mem with same | later
    · rw [same]
      exact le_refl _
    · exact List.rel_of_pairwise_cons sorted later

theorem Durations.medNS (h : Durations l) : 0 < (summarize l).medNS ∧ (summarize l).medNS < 2 ^ 62 :=
  h.range _ (summarize_medNS_mem h.some)

theorem Durations.n (h : Durations l) : (summarize l).n ≠ 0 := by
  have := List.length_pos_of_ne_nil h.some
  rw [summarize_n]
  omega

end

theorem shifted_row_iff {b p : List Int} (hb : Durations b) (hp : Durations p) : shifted (row b p) = true ↔
    2 * (summarize b).medNS < (summarize p).medNS ∧ shiftMinNS ≤ (summarize p).medNS - (summarize b).medNS := by
  have := hb.medNS
  have := hp.medNS
  have doubled : int64 (shiftRatio * (summarize b).medNS) = 2 * (summarize b).medNS := by
    rw [shiftRatio, int64_of_range (by omega) (by omega)]
  have difference : int64 ((summarize p).medNS - (summarize b).medNS) = (summarize p).medNS - (summarize b).medNS :=
    int64_of_range (by omega) (by omega)
  rw [shifted, row]
  dsimp only
  rw [if_neg (not_or.mpr ⟨hb.n, hp.n⟩), doubled, difference, Bool.and_eq_true, decide_eq_true_eq, decide_eq_true_eq]

theorem medNS_mono {l l' : List Int} (ne : l ≠ []) (ne' : l' ≠ []) (le : List.Forall₂ (· ≤ ·) l l') :
    (summarize l).medNS ≤ (summarize l').medNS := by
  have kth := isKth_medNS ne'
  rw [← le.length_eq] at kth
  exact (isKth_medNS ne).mono kth le

/-- A summary does not depend on the order of its samples, and a shift stays one when samples of the patch rise or
    samples of the baseline fall. -/
theorem latency_laws (A B P Q : List Int) (hA : Durations A) (hB : Durations B) (hP : Durations P) (hQ : Durations Q) :
    (∀ l, l.Perm B → summarize l = summarize B) ∧
    Lists.IsKth B ((B.length + 1) / 2) (summarize B).medNS ∧ (summarize B).minNS ≤ (summarize B).medNS ∧
    (List.Forall₂ (· ≤ ·) P Q → shifted (row B P) = true → shifted (row B Q) = true) ∧
    (List.Forall₂ (· ≤ ·) A B → shifted (row B P) = true → shifted (row A P) = true) := by
  refine ⟨fun l perm => summarize_perm perm, isKth_medNS hB.some, minNS_le_medNS hB.some, fun le shift => ?_,
    fun le shift => ?_⟩
  · have := medNS_mono hP.some hQ.some le
    rw [shifted_row_iff hB hP] at shift
    rw [shifted_row_iff hB hQ]
    omega
  · have := medNS_mono hA.some hB.some le
    have := hA.medNS
    rw [shifted_row_iff hB hP] at shift
    rw [shifted_row_iff hA hP]
    omega

theorem latency_laws_slower : Durations [3000000, 1000000] ∧ Durations [9000000, 7000000, 2000000] ∧
    Durations [9000000, 8000000, 8000000] ∧ shifted (row [3000000, 1000000] [9000000, 8000000, 8000000]) = true := by
  have b : Durations [3000000, 1000000] := ⟨by decide, by decide⟩
  have p : Durations [9000000, 7000000, 2000000] := ⟨by decide, by decide⟩
  have q : Durations [9000000, 8000000, 8000000] := ⟨by decide, by decide⟩
  refine ⟨b, p, q, (latency_laws _ _ _ _ b b p q).2.2.2.1 ?_ (by decide)⟩
  simp

end Aquila.Replay

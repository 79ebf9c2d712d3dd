import Mathlib.Data.Finset.Max

/-! Unified diffs: hunks, the numbers of the lines they change, and the edits of files as git writes them. A reader
    that overlooks some of the changed lines finds the right numbers exactly if each hunk is `Hunk.Readable`. -/

namespace Unified

/-- The text of a line: any characters but the ends of lines. -/
abbrev Text := { t : List Char // '\n' ∉ t ∧ '\r' ∉ t }

inductive Line where
  | context (text : Text)
  | added (text : Text)
  | deleted (text : Text)
  -- the marker after a last line without a newline
  | noNewline
deriving DecidableEq

namespace Line

def render : Line → List Char
  | context t => ' ' :: t
  | added t => '+' :: t
  | deleted t => '-' :: t
  | noNewline => '\\' :: " No newline at end of file".toList

def onOld : Line → Bool
  | context _ | deleted _ => true
  | _ => false

def onNew : Line → Bool
  | context _ | added _ => true
  | _ => false

def changed : Line → Bool
  | added _ | deleted _ => true
  | _ => false

def body : Line → List Char
  | context t | added t | deleted t => t
  | noNewline => []

end Line

structure Hunk where
  /-- The unchanged lines since the hunk before, or since the start of the file. -/
  skip : Nat
  lines : List Line
  heading : Option Text := none
  /-- Whether a count of one is written out. -/
  counted : Bool := false
deriving DecidableEq

namespace Hunk

def oldLen (h : Hunk) : Nat := h.lines.countP Line.onOld
def newLen (h : Hunk) : Nat := h.lines.countP Line.onNew

end Hunk

variable {n x before : Nat} {ls : List Line} {hs : List Hunk}

/-- Where a side of `len` lines starts after `before` lines. A side without lines is named by the line before it. -/
def start (before len : Nat) : Nat := if len = 0 then before else before + 1

def range (counted : Bool) (before len : Nat) : List Char :=
  Nat.toDigits 10 (start before len) ++ if len = 1 ∧ counted = false then [] else ',' :: Nat.toDigits 10 len

def Hunk.trailer (h : Hunk) : List Char :=
  match h.heading with
  | some t => ' ' :: t
  | none => []

def Hunk.header (h : Hunk) (old new : Nat) : List Char :=
  "@@ -".toList ++ range h.counted old h.oldLen ++ " +".toList ++ range h.counted new h.newLen ++
    " @@".toList ++ h.trailer

/-- The lines of hunks that follow `old` lines of the old side and `new` lines of the new side. -/
def renderHunks : (old new : Nat) → List Hunk → List (List Char)
  | _, _, [] => []
  | old, new, h :: hs =>
    h.header (old + h.skip) (new + h.skip) :: h.lines.map Line.render ++
      renderHunks (old + h.skip + h.oldLen) (new + h.skip + h.newLen) hs

/-! ### Numbers -/

/-- The added and deleted lines, each with the number of the new line that it is or stands before; `n` is the number of
    the next new line. -/
def numbered : (n : Nat) → List Line → List (Nat × Line)
  | _, [] => []
  | n, l :: ls => (if l.changed then [(n, l)] else []) ++ numbered (n + l.onNew.toNat) ls

/-- The numbers of the new lines that are added or before which a line is deleted. -/
def touched (n : Nat) (ls : List Line) : List Nat := (numbered n ls).map (·.1)

/-- Hunks that follow `new` lines of the new side, each with the number of new lines before it. -/
def placed : (new : Nat) → List Hunk → List (Nat × Hunk)
  | _, [] => []
  | new, h :: hs => (new + h.skip, h) :: placed (new + h.skip + h.newLen) hs

/-- The new lines that hunks touch. -/
def touchedBy (hs : List (Nat × Hunk)) : List Nat := hs.flatMap fun h => touched (h.1 + 1) h.2.lines

theorem touched_cons (n : Nat) (l : Line) (ls : List Line) :
    touched n (l :: ls) = (if l.changed then [n] else []) ++ touched (n + l.onNew.toNat) ls := by
  rw [touched, numbered, List.map_append]
  split_ifs <;> rfl

theorem touched_append (n : Nat) (ls ls' : List Line) :
    touched n (ls ++ ls') = touched n ls ++ touched (n + ls.countP Line.onNew) ls' := by
  induction ls generalizing n with
  | nil => rfl
  | cons l ls ih =>
    have count : n + (l :: ls).countP Line.onNew = n + l.onNew.toNat + ls.countP Line.onNew := by
      rw [List.countP_cons]
      cases l.onNew with
      | false => simp
      | true => simp; omega
    rw [List.cons_append, touched_cons, touched_cons, ih, count, List.append_assoc]

theorem bounds_of_mem_touched (h : x ∈ touched n ls) : n ≤ x ∧ x ≤ n + ls.countP Line.onNew := by
  induction ls generalizing n with
  | nil => cases h
  | cons l ls ih =>
    rw [touched_cons, List.mem_append] at h
    rw [List.countP_cons]
    rcases h with h | h
    · split_ifs at h
      · cases List.mem_singleton.mp h
        omega
      · cases h
    · have := ih h
      cases hl : l.onNew <;> simp [hl] at this ⊢ <;> omega

theorem touched_eq_nil_iff : touched n ls = [] ↔ ∀ l ∈ ls, l.changed = false := by
  induction ls generalizing n with
  | nil => simp [touched, numbered]
  | cons l ls ih =>
    rw [touched_cons, List.append_eq_nil_iff, ih, List.forall_mem_cons]
    cases l.changed <;> simp

theorem exists_touched {l : Line} (hl : l ∈ ls) (changed : l.changed = true) : ∃ x, x ∈ touched n ls := by
  refine List.exists_mem_of_ne_nil _ fun none => ?_
  rw [touched_eq_nil_iff.mp none l hl] at changed
  cases changed

/-! ### Lines that are overlooked -/

section Overlooked
variable {p : Line → Bool}

theorem exists_touched_above {k : Nat} (h : x ∈ touched n (ls.filter p)) : ∃ y ∈ touched (n + k) ls, x + k ≤ y := by
  induction ls generalizing n k with
  | nil => cases h
  | cons l ls ih =>
    simp only [touched_cons, List.mem_append]
    cases seen : p l with
    | false =>
      rw [List.filter_cons_of_neg (by simp [seen])] at h
      obtain ⟨y, hy, le⟩ := ih (k := k + l.onNew.toNat) h
      exact ⟨y, .inr (by rwa [Nat.add_assoc]), by omega⟩
    | true =>
      rw [List.filter_cons_of_pos seen, touched_cons, List.mem_append] at h
      rcases h with h | h
      · split_ifs at h with changed
        · cases List.mem_singleton.mp h
          exact ⟨x + k, .inl (by rw [if_pos changed]; exact List.mem_singleton_self _), Nat.le_refl _⟩
        · cases h
      · obtain ⟨y, hy, le⟩ := ih (k := k) h
        exact ⟨y, .inr (by rwa [Nat.add_right_comm]), le⟩

/-- No changed line follows a new line that is overlooked. -/
def Final (p : Line → Bool) (ls : List Line) : Prop :=
  ∀ pre l post, ls = pre ++ l :: post → p l = false → l.onNew = true → ∀ l' ∈ post, l'.changed = false

/-- Every changed line that is overlooked shares its number with one that is seen. -/
def Covered (p : Line → Bool) (n : Nat) (ls : List Line) : Prop :=
  ∀ q ∈ numbered n ls, p q.2 = false → ∃ q' ∈ numbered n ls, q'.1 = q.1 ∧ p q'.2 = true

theorem Final.tail {l : Line} {ls : List Line} (h : Final p (l :: ls)) : Final p ls := by
  intro pre l' post split
  exact h (l :: pre) l' post (by rw [split, List.cons_append])

theorem numbered_filter (final : Final p ls) :
    numbered n (ls.filter p) = (numbered n ls).filter fun q => p q.2 := by
  induction ls generalizing n with
  | nil => rfl
  | cons l ls ih =>
    cases seen : p l with
    | true =>
      rw [List.filter_cons_of_pos seen, numbered, numbered, List.filter_append, ih final.tail]
      split_ifs <;> simp [seen]
    | false =>
      rw [List.filter_cons_of_neg (by simp [seen]), numbered, List.filter_append]
      have first : (if l.changed then [(n, l)] else []).filter (fun q => p q.2) = [] := by
        split_ifs <;> simp [seen]
      rw [first, List.nil_append]
      cases new : l.onNew with
      | false => exact ih final.tail
      | true =>
        -- nothing below is changed, so the numbers do not matter
        have none : ∀ m, numbered m ls = [] := fun m =>
          List.map_eq_nil_iff.mp (touched_eq_nil_iff.mpr (final [] l ls rfl seen new))
        have seenNone : numbered n (ls.filter p) = [] :=
          List.map_eq_nil_iff.mp (touched_eq_nil_iff.mpr fun l' hl' =>
            final [] l ls rfl seen new l' (List.mem_filter.mp hl').1)
        rw [seenNone, none, List.filter_nil]

theorem final_of_subset (h : ∀ x ∈ touched n ls, x ∈ touched n (ls.filter p)) : Final p ls := by
  intro pre l post split overlooked new l' hl'
  by_contra changed
  obtain ⟨z, hz⟩ := exists_touched (n := n + (pre ++ [l]).countP Line.onNew) hl' (Bool.eq_true_of_not_eq_false changed)
  have parts : ls = (pre ++ [l]) ++ post := by rw [split, List.append_assoc, List.singleton_append]
  have whole : touched n ls = touched n (pre ++ [l]) ++ touched (n + (pre ++ [l]).countP Line.onNew) post := by
    rw [parts, touched_append]
  have hz' : z ∈ touched n ls := by rw [whole]; exact List.mem_append_right _ hz
  -- the greatest number belongs to a line behind `l`, where the reader is behind
  obtain ⟨y, hy, greatest⟩ := (touched n ls).toFinset.exists_max_image id ⟨z, List.mem_toFinset.mpr hz'⟩
  simp only [List.mem_toFinset, id_eq] at hy greatest
  have beyond := (bounds_of_mem_touched hz).1.trans (greatest z hz')
  have count : (pre ++ [l]).countP Line.onNew = pre.countP Line.onNew + 1 := by simp [List.countP_append, new]
  have seenPre : (pre ++ [l]).filter p = pre.filter p := by simp [List.filter_append, overlooked]
  have marks := h y hy
  rw [parts, List.filter_append, seenPre, touched_append, List.mem_append] at marks
  have less : (pre.filter p).countP Line.onNew ≤ pre.countP Line.onNew := by
    exact List.Sublist.countP_le List.filter_sublist
  rcases marks with marks | marks
  · have := (bounds_of_mem_touched marks).2
    omega
  · obtain ⟨y', hy', le⟩ := exists_touched_above
      (k := (pre ++ [l]).countP Line.onNew - (pre.filter p).countP Line.onNew) marks
    have same : n + (pre.filter p).countP Line.onNew +
      ((pre ++ [l]).countP Line.onNew - (pre.filter p).countP Line.onNew) =
        n + (pre ++ [l]).countP Line.onNew := by omega
    rw [same] at hy'
    have := greatest y' (by rw [whole]; exact List.mem_append_right _ hy')
    omega

theorem mem_touched_filter_iff (final : Final p ls) :
    x ∈ touched n (ls.filter p) ↔ ∃ q ∈ numbered n ls, q.1 = x ∧ p q.2 = true := by
  rw [touched, numbered_filter final, List.mem_map]
  simp only [List.mem_filter]
  exact ⟨fun ⟨q, ⟨hq, seen⟩, hx⟩ => ⟨q, hq, hx, seen⟩, fun ⟨q, hq, hx, seen⟩ => ⟨q, ⟨hq, seen⟩, hx⟩⟩

theorem touched_subset_iff :
    (∀ x ∈ touched n ls, x ∈ touched n (ls.filter p)) ↔ Final p ls ∧ Covered p n ls := by
  constructor
  · intro h
    have final := final_of_subset h
    refine ⟨final, fun q hq _ => ?_⟩
    exact (mem_touched_filter_iff final).mp (h q.1 (List.mem_map_of_mem hq))
  · rintro ⟨final, covered⟩ x hx
    obtain ⟨q, hq, rfl⟩ := List.mem_map.mp hx
    rw [mem_touched_filter_iff final]
    cases seen : p q.2 with
    | true => exact ⟨q, hq, rfl, seen⟩
    | false => exact covered q hq seen

/-- A reader finds the numbers of a hunk after `before` new lines. -/
structure Hunk.Readable (p : Line → Bool) (before : Nat) (h : Hunk) : Prop where
  /-- A changed hunk has new lines, so that its start is a line of its own. -/
  sided : (∃ l ∈ h.lines, l.changed = true) → 0 < h.newLen
  final : Final p h.lines
  covered : Covered p (before + 1) h.lines

theorem Hunk.Readable.of_all {h : Hunk} (all : ∀ l ∈ h.lines, p l = true)
    (sided : (∃ l ∈ h.lines, l.changed = true) → 0 < h.newLen) : h.Readable p before := by
  have every : h.lines.filter p = h.lines := List.filter_eq_self.mpr all
  have both : Final p h.lines ∧ Covered p (before + 1) h.lines := touched_subset_iff.mp fun x hx => by rwa [every]
  exact ⟨sided, both.1, both.2⟩

/-- The numbers that a reader finds. -/
def markedBy (p : Line → Bool) (hs : List (Nat × Hunk)) : List Nat :=
  hs.flatMap fun h => touched (start h.1 h.2.newLen) (h.2.lines.filter p)

theorem touched_start {h : Hunk} (sided : (∃ l ∈ h.lines, l.changed = true) → 0 < h.newLen) :
    touched (start before h.newLen) (h.lines.filter p) = touched (before + 1) (h.lines.filter p) := by
  by_cases len : 0 < h.newLen
  · rw [start, if_neg (by omega)]
  · have unchanged : ∀ n, touched n (h.lines.filter p) = [] := by
      intro n
      rw [touched_eq_nil_iff]
      intro l hl
      by_contra changed
      exact len (sided ⟨l, (List.mem_filter.mp hl).1, Bool.eq_true_of_not_eq_false changed⟩)
    rw [unchanged, unchanged]

/-- Hunks with a line between them. -/
def Apart (h h' : Nat × Hunk) : Prop := h.1 + h.2.newLen + 1 ≤ h'.1

theorem start_le (before len : Nat) : start before len ≤ before + 1 := by
  rw [start]
  split_ifs <;> omega

theorem le_of_mem_marks {h : Hunk} (hx : x ∈ touched (start before h.newLen) (h.lines.filter p)) :
    x ≤ start before h.newLen + h.newLen :=
  (bounds_of_mem_touched hx).2.trans (Nat.add_le_add_left (List.filter_sublist.countP_le) _)

theorem readable_of_subset {hs : List (Nat × Hunk)} (apart : hs.Pairwise Apart) {earlier : List Nat}
    (early : ∀ x ∈ earlier, ∀ h ∈ hs, x ≤ h.1) (all : ∀ x ∈ touchedBy hs, x ∈ earlier ∨ x ∈ markedBy p hs) :
    ∀ h ∈ hs, h.2.Readable p h.1 := by
  induction hs generalizing earlier with
  | nil => simp
  | cons h hs ih =>
    obtain ⟨next, apart⟩ := List.pairwise_cons.mp apart
    let marks := touched (start h.1 h.2.newLen) (h.2.lines.filter p)
    have bound {x : Nat} (hx : x ∈ marks) : x ≤ start h.1 h.2.newLen + h.2.newLen := le_of_mem_marks hx
    have low := start_le h.1 h.2.newLen
    -- the marks of this hunk come before the hunks below, where the start may be the line before the hunk
    have below : ∀ h' ∈ hs, h'.2.Readable p h'.1 := by
      have before : ∀ x ∈ earlier ++ marks, ∀ h' ∈ hs, x ≤ h'.1 := by
        intro x hx h' hh'
        have gap : h.1 + h.2.newLen + 1 ≤ h'.1 := next h' hh'
        rcases List.mem_append.mp hx with hx | hx
        · have := early x hx h List.mem_cons_self
          omega
        · have := bound hx
          omega
      refine ih apart before fun x hx => ?_
      rcases all x (List.mem_append_right _ hx) with old | mark
      · exact .inl (List.mem_append_left _ old)
      · rcases List.mem_append.mp mark with mark | mark
        · exact .inl (List.mem_append_right _ mark)
        · exact .inr mark
    have here : ∀ x ∈ touched (h.1 + 1) h.2.lines, x ∈ marks := by
      intro x hx
      have range := bounds_of_mem_touched hx
      rcases all x (List.mem_append_left _ hx) with old | mark
      · have := early x old h List.mem_cons_self
        omega
      · rcases List.mem_append.mp mark with mark | mark
        · exact mark
        · obtain ⟨h', hh', mark⟩ := List.mem_flatMap.mp mark
          rw [touched_start (below h' hh').sided] at mark
          have gap : h.1 + h.2.newLen + 1 ≤ h'.1 := next h' hh'
          have := (bounds_of_mem_touched mark).1
          have len : h.2.lines.countP Line.onNew = h.2.newLen := rfl
          omega
    have sided : (∃ l ∈ h.2.lines, l.changed = true) → 0 < h.2.newLen := by
      rintro ⟨l, hl, changed⟩
      obtain ⟨x, hx⟩ := exists_touched (n := h.1 + 1) hl changed
      have range := (bounds_of_mem_touched hx).1
      by_contra none
      have empty : h.2.newLen = 0 := by omega
      have := bound (here x hx)
      rw [empty, start, if_pos rfl] at this
      omega
    have readable : h.2.Readable p h.1 := by
      have same : marks = touched (h.1 + 1) (h.2.lines.filter p) := touched_start sided
      have both := touched_subset_iff.mp fun x hx => same ▸ here x hx
      exact ⟨sided, both.1, both.2⟩
    exact List.forall_mem_cons.mpr ⟨readable, below⟩

theorem mem_markedBy_iff {hs : List (Nat × Hunk)} (readable : ∀ h ∈ hs, h.2.Readable p h.1) :
    x ∈ markedBy p hs ↔ x ∈ touchedBy hs := by
  simp only [markedBy, touchedBy, List.mem_flatMap]
  refine exists_congr fun h => and_congr_right fun hh => ?_
  have good := readable h hh
  rw [touched_start good.sided]
  constructor
  · intro hx
    obtain ⟨q, hq, rfl, -⟩ := (mem_touched_filter_iff good.final).mp hx
    exact List.mem_map_of_mem hq
  · exact touched_subset_iff.mpr ⟨good.final, good.covered⟩ x

end Overlooked

theorem map_placed (new : Nat) (hs : List Hunk) : (placed new hs).map (·.2) = hs := by
  induction hs generalizing new with
  | nil => rfl
  | cons h hs ih => rw [placed, List.map_cons, ih]

theorem mem_of_mem_placed {new : Nat} {h : Nat × Hunk} (hh : h ∈ placed new hs) : h.2 ∈ hs :=
  map_placed new hs ▸ List.mem_map_of_mem hh

theorem exists_mem_placed {new : Nat} {hs : List Hunk} {h : Hunk} (hh : h ∈ hs) :
    ∃ before, (before, h) ∈ placed new hs := by
  rw [← map_placed new hs] at hh
  obtain ⟨⟨before, h⟩, mem, rfl⟩ := List.mem_map.mp hh
  exact ⟨before, mem⟩

theorem lt_of_mem_placed {new : Nat} (apart : ∀ h ∈ hs, 1 ≤ h.skip) {h : Nat × Hunk} (hh : h ∈ placed new hs) :
    new < h.1 := by
  induction hs generalizing new with
  | nil => cases hh
  | cons h' hs ih =>
    have skip := apart h' List.mem_cons_self
    rcases List.mem_cons.mp hh with rfl | hh
    · show new < new + h'.skip
      omega
    · have := ih (fun h hh => apart h (List.mem_cons_of_mem _ hh)) hh
      omega

theorem placed_apart {new : Nat} (apart : ∀ h ∈ hs.tail, 1 ≤ h.skip) : (placed new hs).Pairwise Apart := by
  induction hs generalizing new with
  | nil => exact .nil
  | cons h hs ih =>
    refine List.pairwise_cons.mpr ⟨fun h' hh' => ?_, ih fun h hh => apart h (List.mem_of_mem_tail hh)⟩
    exact lt_of_mem_placed apart hh'

/-! ### What hunks do -/

/-- The lines of a side, each with whether a newline ends it. -/
def side (on : Line → Bool) : List Line → List (List Char × Bool)
  | [] => []
  | l :: ls => (if on l then [(l.body, decide (ls.head? ≠ some .noNewline))] else []) ++ side on ls

/-- The lines of a text, each with whether a newline ends it. -/
def linesOf : List Char → List (List Char × Bool)
  | [] => []
  | c :: cs =>
    if c = '\n' then ([], true) :: linesOf cs
    else match linesOf cs with
      | [] => [([c], false)]
      | l :: ls => (c :: l.1, l.2) :: ls

def unlines (ls : List (List Char × Bool)) : List Char := ls.flatMap fun l => l.1 ++ if l.2 then ['\n'] else []

/-- The hunks turn the old lines into the new ones. -/
def Turns : List Hunk → (old new : List (List Char × Bool)) → Prop
  | [], old, new => old = new
  | h :: hs, old, new => ∃ kept old' new', kept.length = h.skip ∧ old = kept ++ side Line.onOld h.lines ++ old' ∧
      new = kept ++ side Line.onNew h.lines ++ new' ∧ Turns hs old' new'

/-- The numbers of the deleted lines on the old side; `n` is the number of the next old line. -/
def deletions : (n : Nat) → List Line → List Nat
  | _, [] => []
  | n, l :: ls => (if l.changed ∧ l.onOld then [n] else []) ++ deletions (n + l.onOld.toNat) ls

/-- The numbers of the added lines on the new side; `n` is the number of the next new line. -/
def additions : (n : Nat) → List Line → List Nat
  | _, [] => []
  | n, l :: ls => (if l.changed ∧ l.onNew then [n] else []) ++ additions (n + l.onNew.toNat) ls

/-- The old lines that hunks delete after `old` lines of the old side. -/
def deletedBy : (old : Nat) → List Hunk → List Nat
  | _, [] => []
  | old, h :: hs => deletions (old + h.skip + 1) h.lines ++ deletedBy (old + h.skip + h.oldLen) hs

/-- The new lines that hunks add after `new` lines of the new side. -/
def addedBy : (new : Nat) → List Hunk → List Nat
  | _, [] => []
  | new, h :: hs => additions (new + h.skip + 1) h.lines ++ addedBy (new + h.skip + h.newLen) hs

/-- Hunks that follow `old` lines of the old side, each with the number of old lines before it. -/
def placedOld : (old : Nat) → List Hunk → List (Nat × Hunk)
  | _, [] => []
  | old, h :: hs => (old + h.skip, h) :: placedOld (old + h.skip + h.oldLen) hs

theorem unlines_linesOf (t : List Char) : unlines (linesOf t) = t := by
  induction t with
  | nil => rfl
  | cons c t ih =>
    rw [linesOf]
    split_ifs with newline
    · rw [unlines, List.flatMap_cons, ← unlines, ih, newline]
      rfl
    · cases parts : linesOf t with
      | nil =>
        rw [parts] at ih
        simp [unlines, ← ih]
      | cons l ls =>
        rw [parts] at ih
        simp only [unlines, List.flatMap_cons, List.cons_append] at ih ⊢
        rw [ih]

theorem length_linesOf_le (t : List Char) : (linesOf t).length ≤ t.length := by
  induction t with
  | nil => exact Nat.le_refl 0
  | cons c t ih =>
    rw [linesOf]
    split_ifs with newline
    · simpa using ih
    · cases parts : linesOf t with
      | nil => simp
      | cons l ls =>
        rw [parts] at ih
        exact Nat.le_succ_of_le ih

theorem linesOf_line {l : List Char} (h : '\n' ∉ l) (rest : List Char) :
    linesOf (l ++ '\n' :: rest) = (l, true) :: linesOf rest := by
  induction l with
  | nil => rw [List.nil_append, linesOf, if_pos rfl]
  | cons c l ih =>
    rw [List.mem_cons, not_or] at h
    rw [List.cons_append, linesOf, if_neg (Ne.symm h.1), ih h.2]

theorem linesOf_flatMap {ls : List (List Char)} (h : ∀ l ∈ ls, '\n' ∉ l) :
    linesOf (ls.flatMap fun l => l ++ ['\n']) = ls.map fun l => (l, true) := by
  induction ls with
  | nil => rfl
  | cons l ls ih =>
    obtain ⟨first, others⟩ := List.forall_mem_cons.mp h
    rw [List.flatMap_cons, List.append_assoc, List.singleton_append, linesOf_line first, ih others, List.map_cons]

theorem not_mem_linesOf {t : List Char} {l : List Char × Bool} (h : l ∈ linesOf t) : '\n' ∉ l.1 := by
  induction t generalizing l with
  | nil => cases h
  | cons c t ih =>
    rw [linesOf] at h
    split_ifs at h with newline
    · rcases List.mem_cons.mp h with rfl | h
      · exact List.not_mem_nil
      · exact ih h
    · cases parts : linesOf t with
      | nil =>
        rw [parts, List.mem_singleton] at h
        simpa [h] using Ne.symm newline
      | cons l' ls =>
        rw [parts] at h ih
        rcases List.mem_cons.mp h with rfl | h
        · simpa [Ne.symm newline] using ih List.mem_cons_self
        · exact ih (List.mem_cons_of_mem _ h)

theorem linesOf_append_newline (t : List Char) : linesOf (t ++ ['\n']) = (t.splitOn '\n').map fun l => (l, true) := by
  induction t with
  | nil => rfl
  | cons c t ih =>
    rw [List.cons_append, linesOf, ih, List.splitOn_cons_eq_if_modifyHead]
    split_ifs with newline newline'
    · rfl
    · exact absurd (beq_iff_eq.mpr newline) newline'
    · exact absurd (beq_iff_eq.mp ‹_›) newline
    · cases parts : t.splitOn '\n' with
      | nil => exact absurd parts (List.splitOn_ne_nil _ _)
      | cons l ls => rfl

theorem map_linesOf {t : List Char} (ne : t ≠ []) (last : t.getLast? ≠ some '\n') :
    (linesOf t).map (·.1) = t.splitOn '\n' := by
  induction t with
  | nil => exact absurd rfl ne
  | cons c t ih =>
    by_cases none : t = []
    · subst none
      have other : c ≠ '\n' := by simpa using last
      rw [linesOf, if_neg other, List.splitOn_cons_eq_if_modifyHead, if_neg (by simpa using other)]
      rfl
    · have later : t.getLast? ≠ some '\n' := by rwa [List.getLast?_cons_of_ne_nil none] at last
      rw [linesOf, List.splitOn_cons_eq_if_modifyHead, ← ih none later]
      split_ifs with newline newline'
      · rfl
      · exact absurd (beq_iff_eq.mpr newline) newline'
      · exact absurd (beq_iff_eq.mp ‹_›) newline
      · cases parts : linesOf t with
        | nil =>
          have := unlines_linesOf t
          rw [parts] at this
          exact absurd this.symm none
        | cons l ls => rfl

theorem ended_linesOf_iff (t : List Char) : (∀ l ∈ linesOf t, l.2 = true) ↔ t = [] ∨ t.getLast? = some '\n' := by
  constructor
  · intro ended
    by_contra other
    obtain ⟨ne, last⟩ := not_or.mp other
    have text := unlines_linesOf t
    obtain ⟨ls, l, parts⟩ := (List.eq_nil_or_concat (linesOf t)).resolve_left fun none => by
      rw [none] at text
      exact ne text.symm
    rw [List.concat_eq_append] at parts
    have mem : l ∈ linesOf t := by simp [parts]
    rw [parts, unlines, List.flatMap_append, List.flatMap_singleton, if_pos (ended l mem), ← List.append_assoc] at text
    exact last (by rw [← text, List.getLast?_concat])
  · rintro (rfl | last)
    · simp [linesOf]
    · obtain ⟨s, rfl⟩ : ∃ s, t = s ++ ['\n'] := List.getLast?_eq_some_iff.mp last
      rw [linesOf_append_newline]
      simp

theorem mem_side {on : Line → Bool} {l : List Char × Bool} (h : l ∈ side on ls) : '\n' ∉ l.1 := by
  induction ls with
  | nil => cases h
  | cons x ls ih =>
    rw [side, List.mem_append] at h
    rcases h with h | h
    · split_ifs at h
      · rw [List.mem_singleton.mp h]
        cases x with
        | context t => exact t.2.1
        | added t => exact t.2.1
        | deleted t => exact t.2.1
        | noNewline => exact List.not_mem_nil
      · cases h
    · exact ih h

theorem length_side (on : Line → Bool) (ls : List Line) : (side on ls).length = ls.countP on := by
  induction ls with
  | nil => rfl
  | cons l ls ih =>
    rw [side, List.length_append, ih, List.countP_cons]
    split_ifs <;> simp [Nat.add_comm]

theorem Turns.placed_le {old new : List (List Char × Bool)} (turns : Turns hs old new) (n : Nat) :
    ∀ h ∈ placed n hs, h.1 + h.2.newLen ≤ n + new.length := by
  induction hs generalizing old new n with
  | nil => simp [placed]
  | cons h hs ih =>
    obtain ⟨kept, old', new', skip, -, rfl, below⟩ := turns
    have len : (side Line.onNew h.lines).length = h.newLen := length_side _ _
    simp only [List.length_append, len, skip]
    refine List.forall_mem_cons.mpr ⟨?_, fun h' hh' => ?_⟩
    · show n + h.skip + h.newLen ≤ _
      omega
    · have := ih below _ h' hh'
      omega

theorem Turns.placedOld_le {old new : List (List Char × Bool)} (turns : Turns hs old new) (n : Nat) :
    ∀ h ∈ placedOld n hs, h.1 + h.2.oldLen ≤ n + old.length := by
  induction hs generalizing old new n with
  | nil => simp [placedOld]
  | cons h hs ih =>
    obtain ⟨kept, old', new', skip, rfl, -, below⟩ := turns
    have len : (side Line.onOld h.lines).length = h.oldLen := length_side _ _
    simp only [List.length_append, len, skip]
    refine List.forall_mem_cons.mpr ⟨?_, fun h' hh' => ?_⟩
    · show n + h.skip + h.oldLen ≤ _
      omega
    · have := ih below _ h' hh'
      omega

/-! ### Edits -/

inductive Kind where
  | modify
  | add
  | delete
deriving DecidableEq, Repr

/-- The lines of a whole file that is added or deleted. -/
def whole : Kind → Line → Prop
  | .modify, _ => True
  | .add, l => ∀ t, l ≠ .context t ∧ l ≠ .deleted t
  | .delete, l => ∀ t, l ≠ .context t ∧ l ≠ .added t

/-- The edit of one file. -/
structure Edit where
  path : String
  kind : Kind := .modify
  /-- The old and the new mode, if mode lines are written. -/
  mode : Option (Text × Text) := none
  /-- The text of the index line, if there is one. -/
  index : Option Text := none
  /-- Whether the names of the two sides are written. -/
  headed : Bool := true
  hunks : List Hunk
  /-- Hunks do not touch. -/
  apart : ∀ h ∈ hunks.tail, 1 ≤ h.skip
  whole : kind ≠ .modify → hunks.length ≤ 1 ∧ ∀ h ∈ hunks, h.skip = 0 ∧ ∀ l ∈ h.lines, whole kind l
  named : headed = false → hunks = [] ∧ (kind = .modify ∨ mode ≠ none)

namespace Edit
variable (e : Edit)

/-- The new lines that an edit touches. A deleted file has no new side. -/
def touched : List Nat := if e.kind = .delete then [] else touchedBy (placed 0 e.hunks)

def modeLines : List (List Char) :=
  match e.mode with
  | none => []
  | some (old, new) =>
    match e.kind with
    | .modify => ["old mode ".toList ++ old, "new mode ".toList ++ new]
    | .add => ["new file mode ".toList ++ new]
    | .delete => ["deleted file mode ".toList ++ old]

def indexLines : List (List Char) :=
  match e.index with
  | some t => ["index ".toList ++ t]
  | none => []

/-- The names of the two sides, as far as there are any. -/
def nameLines (old new : List Char) : List (List Char) :=
  if e.headed then
    ["--- ".toList ++ if e.kind = .add then "/dev/null".toList else old,
      "+++ ".toList ++ if e.kind = .delete then "/dev/null".toList else new]
  else []

/-- The names of the two sides and the hunks. -/
def unifiedAs (old new : List Char) : List (List Char) := e.nameLines old new ++ renderHunks 0 0 e.hunks

/-- The lines that git writes, with the names as they are spelled there. -/
def gitAs (both old new : List Char) : List (List Char) :=
  ("diff --git ".toList ++ both) :: (e.modeLines ++ e.indexLines ++ e.unifiedAs old new)

def oldSide : List Char := "a/".toList ++ e.path.toList
def newSide : List Char := "b/".toList ++ e.path.toList

def unified : List (List Char) := e.unifiedAs e.oldSide e.newSide

def git : List (List Char) := e.gitAs (e.oldSide ++ ' ' :: e.newSide) e.oldSide e.newSide

end Edit

/-- A name that is relative and does not start with a blank. -/
def begins (t : List Char) : Bool := t.head?.any fun c => '!' ≤ c ∧ c ≤ '~' ∧ c ≠ '/'

/-- How git spells the names of a file: with or without a side before them, and some are quoted or end in a tab. -/
structure Names where
  both : Text
  old : Text
  new : Text
  started : begins both ∧ begins old ∧ begins new

/-- Lines as one text. -/
def text (ls : List (List Char)) : List Char := ls.flatMap (· ++ ['\n'])

end Unified

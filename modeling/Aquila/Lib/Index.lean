import Aquila.Lib.Keyed

/-! Indexes of a list: the positions of its elements under their keys. -/

namespace Index
variable {α κ : Type} [DecidableEq κ] (key : α → κ)

def under (m : List (κ × List Nat)) (k : κ) : List Nat := ((Keyed.get (·.1) m k).map (·.2)).getD []

def push (m : List (κ × List Nat)) (k : κ) (i : Nat) : List (κ × List Nat) := Keyed.put (·.1) m (k, under m k ++ [i])

def all (l : List α) : List (κ × List Nat) := l.zipIdx.foldl (fun m x => push m (key x.1) x.2) []

def last (l : List α) : List (κ × Nat) := l.zipIdx.foldl (fun m x => Keyed.put (·.1) m (key x.1, x.2)) []

variable {key}

theorem under_push {m : List (κ × List Nat)} {k k' : κ} {i : Nat} :
    under (push m k' i) k = if k = k' then under m k ++ [i] else under m k := by
  unfold push
  by_cases same : k = k'
  · subst same
    rw [if_pos rfl]
    have put := @Keyed.get_put_self _ _ _ (fun x : κ × List Nat => x.1) m (k, under m k ++ [i])
    rw [under, put, Option.map_some, Option.getD_some]
  · rw [if_neg same, under, Keyed.get_put_of_ne same, under]

theorem under_foldl (xs : List (α × Nat)) (m : List (κ × List Nat)) (k : κ) :
    under (xs.foldl (fun m x => push m (key x.1) x.2) m) k = under m k ++ (xs.filter (key ·.1 = k)).map (·.2) := by
  induction xs generalizing m with
  | nil => simp
  | cons x xs ih =>
    rw [List.foldl_cons, ih, under_push]
    by_cases same : key x.1 = k
    · simp [same]
    · simp [same, Ne.symm same]

theorem get_foldl (xs : List (α × Nat)) (m : List (κ × Nat)) (k : κ) :
    (Keyed.get (·.1) (xs.foldl (fun m x => Keyed.put (·.1) m (key x.1, x.2)) m) k).map (·.2) =
      ((xs.filter (key ·.1 = k)).getLast?.map (·.2)).or ((Keyed.get (·.1) m k).map (·.2)) := by
  induction xs generalizing m with
  | nil => simp
  | cons x xs ih =>
    rw [List.foldl_cons, ih]
    by_cases same : key x.1 = k
    · subst same
      have put := @Keyed.get_put_self _ _ _ (fun x : κ × Nat => x.1) m (key x.1, x.2)
      rw [put, List.filter_cons_of_pos (by simp), List.getLast?_cons]
      cases (xs.filter (key ·.1 = key x.1)).getLast? <;> rfl
    · have put := @Keyed.get_put_of_ne _ _ _ (fun x : κ × Nat => x.1) m (key x.1, x.2) k (Ne.symm same)
      rw [put, List.filter_cons_of_neg (by simpa using same)]

theorem getElem?_of_mem_zipIdx {l : List α} {x : α × Nat} (h : x ∈ l.zipIdx) : l[x.2]? = some x.1 :=
  List.mem_zipIdx_iff_getElem?.mp h

theorem map_filter_zipIdx (l : List α) (k : κ) : (l.zipIdx.filter (key ·.1 = k)).map (·.1) = l.filter (key · = k) := by
  have fsts : l.zipIdx.map (·.1) = l := List.zipIdx_map_fst 0 l
  conv_rhs => rw [← fsts, List.filter_map]
  rfl

theorem filterMap_under_all (l : List α) (k : κ) : (under (all key l) k).filterMap (l[·]?) = l.filter (key · = k) := by
  have found : ∀ x ∈ l.zipIdx.filter (key ·.1 = k), ((l[·]?) ∘ fun x : α × Nat => x.2) x = some x.1 :=
    fun x hx => getElem?_of_mem_zipIdx (List.mem_filter.mp hx).1
  calc (under (all key l) k).filterMap (l[·]?)
      = (l.zipIdx.filter (key ·.1 = k)).filterMap ((l[·]?) ∘ fun x : α × Nat => x.2) := by
        rw [all, under_foldl, List.filterMap_append, List.filterMap_map]
        rfl
    _ = (l.zipIdx.filter (key ·.1 = k)).map (·.1) := by
        rw [List.filterMap_congr found]
        exact congrFun List.filterMap_eq_map _
    _ = l.filter (key · = k) := map_filter_zipIdx l k

section
variable (l : List α) (k : κ)

theorem get_reverse : Keyed.get key l.reverse k = (l.zipIdx.filter (key ·.1 = k)).getLast?.map (·.1) := by
  rw [Keyed.get, ← List.head?_filter, List.filter_reverse, List.head?_reverse, ← map_filter_zipIdx, List.getLast?_map]

theorem get_last : ((Keyed.get (·.1) (last key l) k).bind fun x => l[x.2]?) = Keyed.get key l.reverse k := by
  have position := @get_foldl _ _ _ key l.zipIdx [] k
  have bind : ((Keyed.get (·.1) (last key l) k).bind fun x => l[x.2]?) =
    ((Keyed.get (·.1) (last key l) k).map (·.2)).bind (l[·]?) := by
    cases Keyed.get (·.1) (last key l) k <;> rfl
  rw [bind, get_reverse, last, position]
  cases found : (l.zipIdx.filter (key ·.1 = k)).getLast? with
  | none => rfl
  | some x => exact getElem?_of_mem_zipIdx (List.mem_filter.mp (List.mem_of_getLast? found)).1

theorem isNone_last : (Keyed.get (·.1) (last key l) k).isNone = (Keyed.get key l.reverse k).isNone := by
  have position := congrArg Option.isNone (@get_foldl _ _ _ key l.zipIdx [] k)
  rw [Option.isNone_map] at position
  rw [last, position, get_reverse]
  cases (l.zipIdx.filter (key ·.1 = k)).getLast? <;> rfl

end

end Index

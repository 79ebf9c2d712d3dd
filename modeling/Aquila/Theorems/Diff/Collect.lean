import Aquila.Apply
import Aquila.Lib.Fold
import Aquila.Net

/-! `Parse` and `collectApply` read the same files: a line does the same to the path, the status and the kind of the
    current file in both. -/

namespace Aquila.Diff

def File.summary (f : File) : String × Status × Bool := (f.path, f.status, f.binary)
def ApplyFile.summary (f : ApplyFile) : String × Status × Bool := (f.path, f.status, f.binary)

/-- The two scanners have seen the same files. -/
structure Alike (r : Reader) (c : Collector) : Prop where
  files : r.files.map File.summary = c.files.map ApplyFile.summary
  cur : r.cur.map File.summary = c.cur.map ApplyFile.summary

namespace Alike
variable {lib : Lib} {r r' : Reader} {c c' : Collector}

theorem summary_iff {f : File} {g : ApplyFile} : f.summary = g.summary ↔ f.path = g.path ∧ f.status = g.status ∧
    f.binary = g.binary := by
  simp [File.summary, ApplyFile.summary]

theorem isSome (h : Alike r c) : r.cur.isSome = c.cur.isSome := by
  have := congrArg Option.isSome h.cur
  rwa [Option.isSome_map, Option.isSome_map] at this

theorem isNone (h : Alike r c) : r.cur.isNone = c.cur.isNone := by
  have := congrArg Option.isNone h.cur
  rwa [Option.isNone_map, Option.isNone_map] at this

theorem cases (h : Alike r c) : r.cur = none ∧ c.cur = none ∨ ∃ f g, r.cur = some f ∧ c.cur = some g ∧
    f.summary = g.summary := by
  cases hr : r.cur with
  | none =>
    have := h.isNone
    rw [hr] at this
    exact .inl ⟨rfl, Option.isNone_iff_eq_none.mp this.symm⟩
  | some f =>
    cases hc : c.cur with
    | none =>
      have := h.isNone
      rw [hr, hc] at this
      cases this
    | some g =>
      have := h.cur
      rw [hr, hc] at this
      exact .inr ⟨f, g, rfl, rfl, Option.some.inj this⟩

theorem onFile (h : Alike r c) {F : File → File} {G : ApplyFile → ApplyFile}
    (same : ∀ f g, f.summary = g.summary → (F f).summary = (G g).summary) : Alike (r.onFile F) (c.onFile G) := by
  refine ⟨h.files, ?_⟩
  rcases h.cases with ⟨hr, hc⟩ | ⟨f, g, hr, hc, fg⟩
  · simp [Reader.onFile, Collector.onFile, hr, hc]
  · simp [Reader.onFile, Collector.onFile, hr, hc, same f g fg]

theorem setStatus (h : Alike r c) (s : Status) :
    Alike (r.onFile fun f => { f with status := s }) (c.onFile fun f => { f with status := s }) :=
  h.onFile fun f g fg => by
    obtain ⟨path, -, binary⟩ := summary_iff.mp fg
    exact summary_iff.mpr ⟨path, rfl, binary⟩

theorem setBinary (h : Alike r c) : Alike (r.onFile fun f => { f with binary := true })
    (c.onFile fun f => { f with binary := true }) :=
  h.onFile fun f g fg => by
    obtain ⟨path, status, -⟩ := summary_iff.mp fg
    exact summary_iff.mpr ⟨path, status, rfl⟩

theorem flushHunk (h : Alike r c) : Alike r c.flushHunk := by
  unfold Collector.flushHunk
  cases cur : c.cur with
  | none => exact h
  | some g =>
    dsimp only
    split_ifs
    · refine ⟨h.files, ?_⟩
      rw [h.cur, cur]
      rfl
    · exact h

theorem flush (h : Alike r c) (done : flush lib r = .ok r') : Alike r' c.flushFile := by
  have h := h.flushHunk
  unfold Collector.flushFile
  dsimp only
  generalize c.flushHunk = c at h
  rcases h.cases with ⟨hr, hc⟩ | ⟨f, g, hr, hc, fg⟩
  · rw [Diff.flush, hr] at done
    obtain rfl := Except.ok.inj done
    rwa [hc]
  · obtain ⟨path, status, binary⟩ := summary_iff.mp fg
    rw [Diff.flush, hr] at done
    rw [hc]
    dsimp only at done ⊢
    rw [path] at done
    by_cases nameless : g.path = ""
    · rw [if_pos nameless] at done
      cases done
    · rw [if_neg nameless] at done ⊢
      cases canonical : canonicalPath g.path with
      | none => simp [canonical] at done
      | some p =>
        simp only [canonical] at done ⊢
        split_ifs at done
        obtain rfl := Except.ok.inj done
        refine ⟨?_, rfl⟩
        simp [h.files, File.summary, ApplyFile.summary, status, binary]

theorem startFile (h : Alike r c) (done : startFile lib r = .ok r') : Alike r' c.startFile := by
  rw [Diff.startFile] at done
  cases flushed : Diff.flush lib r with
  | error e => simp [flushed] at done
  | ok r₁ =>
    simp only [flushed] at done
    obtain rfl := Except.ok.inj done
    exact ⟨(h.flush flushed).files, rfl⟩

theorem ensure (h : Alike r c) (done : (if r.cur.isNone then Diff.startFile lib r else .ok r) = .ok r') :
    Alike r' (if c.cur.isNone then c.startFile else c) := by
  rw [h.isNone] at done
  split_ifs at done ⊢
  · exact h.startFile done
  · obtain rfl := Except.ok.inj done
    exact h

theorem readLine (h : Alike r c) (line : String) : Alike (bodyLine r line) c := by
  unfold bodyLine
  split
  all_goals first
    | exact ⟨h.files, h.cur⟩
    | exact ⟨h.files, (Option.map_map ..).trans h.cur⟩

theorem collectLine (h : Alike r c) (line : String) : Alike r (c.bodyLine line) := by
  unfold Collector.bodyLine
  split
  · exact ⟨h.files, h.cur⟩
  · exact h
  · split_ifs
    · exact ⟨h.files, h.cur⟩
    · exact h.flushHunk

theorem plusLine {f : File} {g : ApplyFile} (h : f.summary = g.summary) (p : String) :
    (f.plusLine p).summary = (g.plusLine p).summary := by
  obtain ⟨path, status, binary⟩ := summary_iff.mp h
  unfold File.plusLine ApplyFile.plusLine
  split_ifs <;> simp [File.summary, ApplyFile.summary, path, status, binary]

theorem minusLine {f : File} {g : ApplyFile} (h : f.summary = g.summary) (p : String) :
    (f.minusLine p).summary = (g.minusLine p).summary := by
  obtain ⟨path, status, binary⟩ := summary_iff.mp h
  unfold File.minusLine ApplyFile.minusLine
  dsimp only
  rw [path]
  split_ifs <;> simp [File.summary, ApplyFile.summary, path, status, binary]

/-- A line that neither scanner refuses. -/
theorem step {line : String} (h : Alike r c) (read : step lib r line = .ok r') (collected : collect c line = .ok c') :
    Alike r' c' := by
  unfold Diff.step at read
  unfold collect at collected
  dsimp only at read collected
  have left : Alike (if r.inHunk && !hunkBodyLine line then { r with inHunk := false } else r)
      (if c.inHunk && !hunkBodyLine line then c.flushHunk else c) := by
    split_ifs
    · exact ⟨h.flushHunk.files, h.flushHunk.cur⟩
    · exact ⟨h.files, h.cur⟩
    · exact h.flushHunk
    · exact h
  generalize (if r.inHunk && !hunkBodyLine line then { r with inHunk := false } else r) = r₁ at read left
  generalize (if c.inHunk && !hunkBodyLine line then c.flushHunk else c) = c₁ at collected left
  rw [left.isSome] at read
  by_cases git : hasPrefix line "diff --git " = true
  · rw [if_pos git] at read collected
    cases started : Diff.startFile lib r₁ with
    | error e => simp [started] at read
    | ok r₂ =>
      simp only [started] at read
      obtain rfl := Except.ok.inj read
      obtain rfl := Except.ok.inj collected
      refine (left.startFile started).onFile fun f g fg => ?_
      obtain ⟨-, status, binary⟩ := summary_iff.mp fg
      exact summary_iff.mpr ⟨rfl, status, binary⟩
  rw [if_neg git] at read collected
  by_cases added : (c₁.cur.isSome && hasPrefix line "new file mode") = true
  · rw [if_pos added] at read collected
    obtain rfl := Except.ok.inj read
    obtain rfl := Except.ok.inj collected
    exact left.setStatus _
  rw [if_neg added] at read collected
  by_cases deleted : (c₁.cur.isSome && hasPrefix line "deleted file mode") = true
  · rw [if_pos deleted] at read collected
    obtain rfl := Except.ok.inj read
    obtain rfl := Except.ok.inj collected
    exact left.setStatus _
  rw [if_neg deleted] at read collected
  by_cases renamed : (c₁.cur.isSome && (hasPrefix line "rename from " || hasPrefix line "rename to ")) = true
  · rw [if_pos renamed] at collected
    cases collected
  rw [if_neg renamed] at read collected
  by_cases binary : (c₁.cur.isSome && (hasPrefix line "Binary files " || line = "GIT binary patch")) = true
  · rw [if_pos binary] at read collected
    obtain rfl := Except.ok.inj read
    obtain rfl := Except.ok.inj collected
    exact ⟨left.setBinary.files, left.setBinary.cur⟩
  rw [if_neg binary] at read collected
  by_cases plus : hasPrefix line "+++ " = true
  · rw [if_pos plus] at read collected
    cases started : (if r₁.cur.isNone then Diff.startFile lib r₁ else .ok r₁) with
    | error e =>
      rw [started] at read
      cases read
    | ok r₂ =>
      rw [started] at read
      obtain rfl := Except.ok.inj read
      obtain rfl := Except.ok.inj collected
      exact (left.ensure started).onFile fun f g fg => plusLine fg _
  rw [if_neg plus] at read collected
  by_cases minus : hasPrefix line "--- " = true
  · rw [if_pos minus] at read collected
    cases started : (if r₁.cur.isNone then Diff.startFile lib r₁ else .ok r₁) with
    | error e =>
      rw [started] at read
      cases read
    | ok r₂ =>
      rw [started] at read
      obtain rfl := Except.ok.inj read
      obtain rfl := Except.ok.inj collected
      exact (left.ensure started).onFile fun f g fg => minusLine fg _
  rw [if_neg minus] at read collected
  by_cases hunk : hasPrefix line "@@ " = true
  · rw [if_pos hunk] at read collected
    rcases left.cases with ⟨hr, hc⟩ | ⟨f, g, hr, hc, fg⟩
    · simp [hr] at read
    · rw [hr] at read
      rw [hc] at collected
      dsimp only at read collected
      rw [(summary_iff.mp fg).2.2] at read
      by_cases skipped : g.binary = true
      · rw [if_pos skipped] at read collected
        obtain rfl := Except.ok.inj read
        obtain rfl := Except.ok.inj collected
        exact left
      · rw [if_neg skipped] at read collected
        have same : r'.files = r₁.files ∧ r'.cur = r₁.cur := by
          split at read
          · cases read
          · split_ifs at read
            obtain rfl := Except.ok.inj read
            exact ⟨rfl, hr.symm⟩
        split at collected
        · cases collected
        · obtain rfl := Except.ok.inj collected
          exact ⟨same.1 ▸ left.flushHunk.files, same.2 ▸ left.flushHunk.cur⟩
  rw [if_neg hunk] at read collected
  have kept : Alike r' c₁ := by
    split_ifs at read
    · obtain rfl := Except.ok.inj read
      exact left.readLine line
    · obtain rfl := Except.ok.inj read
      exact left
  split_ifs at collected
  · obtain rfl := Except.ok.inj collected
    exact kept.collectLine line
  · obtain rfl := Except.ok.inj collected
    exact kept

end Alike

/-- What is analysed is what is applied. -/
theorem parse_eq_collectApply (lib : Lib) (data : List UInt8) (d : Diff) (fs : List ApplyFile)
    (parsed : parse lib data = .ok d)
    (collected : collectApply data = .ok fs) :
    d.files.map (fun f => (f.path, f.status, f.binary)) = fs.map fun f => (f.path, f.status, f.binary) := by
  have lines : ∃ ls : List String, read lib ls = .ok d ∧ collectLines ls = .ok fs := by
    unfold collectApply at collected
    dsimp only at collected
    unfold parse at parsed
    split_ifs at parsed collected with large empty long
    · obtain rfl := List.length_eq_zero_iff.mp empty
      exact ⟨[], parsed, collected⟩
    · unfold decodeText at parsed
      split_ifs at parsed
      dsimp only at parsed
      split_ifs at parsed
      exact ⟨_, parsed, collected⟩
  obtain ⟨ls, parsed, collected⟩ := lines
  rw [read] at parsed
  rw [collectLines] at collected
  cases read : ls.foldlM (step lib) {} with
  | error e => simp [read] at parsed
  | ok r =>
    cases scanned : ls.foldlM collect {} with
    | error e => simp [scanned] at collected
    | ok c =>
      simp only [read] at parsed
      simp only [scanned] at collected
      cases done : flush lib r with
      | error e => simp [done] at parsed
      | ok r' =>
        simp only [done] at parsed
        obtain rfl := Except.ok.inj parsed
        obtain rfl := Except.ok.inj collected
        have start : Alike {} {} := ⟨rfl, rfl⟩
        exact ((Fold.both Alike.step start read scanned).flush done).files

def swapDiff : String := "--- a/x.go\n+++ b/x.go\n@@ -1 +1 @@\n-a\n+b\n"

theorem parse_eq_collectApply_swap :
    ∃ d fs, parse Lib.plain (bytes swapDiff) = .ok d ∧ collectApply (bytes swapDiff) = .ok fs ∧ fs.length = 1 ∧
      d.files.map (fun f => (f.path, f.status, f.binary)) = fs.map fun f => (f.path, f.status, f.binary) := by
  have parsed : parse Lib.plain (bytes swapDiff) = .ok
    { files := [{ path := "x.go", lines := [1] }] } := by decide +kernel
  have collected : collectApply (bytes swapDiff) = .ok
    [{ path := "x.go", hunks := [{ oldStart := 1, lines := ["-a", "+b"] }] }] := by
    decide +kernel
  exact ⟨_, _, parsed, collected, rfl, parse_eq_collectApply _ _ _ _ parsed collected⟩

end Aquila.Diff

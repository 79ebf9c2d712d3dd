import Aquila.Theorems.Ingest.Counted
import Aquila.Theorems.Ingest.Window

/-! The two stores of spans. -/

namespace Aquila.Ingest

/-- An export that is sent again changes nothing, in either store. -/
theorem upsertSpans_again (p : Postgres) (m : Memory) (spans : List StoredSpan) :
    (p.upsertSpans spans).upsertSpans spans = p.upsertSpans spans ∧
    (m.upsertSpans spans).upsertSpans spans = m.upsertSpans spans := by
  refine ⟨?_, congrArg Memory.mk Keyed.foldl_put_again⟩
  simp only [Postgres.upsertSpans, ← @List.foldl_map _ _ _ Postgres.rowOf (Keyed.put Postgres.rowKey),
    Keyed.foldl_put_again]

end Aquila.Ingest

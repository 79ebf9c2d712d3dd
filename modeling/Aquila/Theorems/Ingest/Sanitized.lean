import Aquila.Ingest.Sanitize
import Aquila.Theorems.Text

/-! What `sanitizeText` leaves. Escape sequences are taken out once, before the characters that are not printable,
    so that one may be assembled. -/

namespace Aquila.Ingest
variable {std : Std}

/-! ### Trimming and clipping -/

/-- A piece without blanks at its ends is in a text that is trimmed and clipped exactly if it is in the text and not
    cut off. -/
theorem infix_clip_trim_iff {p : Char → Bool} {l m : List Char} {n : Nat} (ne : m ≠ [])
    (first : ∀ c, m.head? = some c → p c = false)
    (last : ∀ c, m.getLast? = some c → p c = false) :
    m <:+: (trimBoth p l).take n ↔ ∃ before, before ++ m <+: l ∧ (before.dropWhile p ++ m).length ≤ n := by
  constructor
  · rintro ⟨pre, post, eq⟩
    have shown : pre ++ m <+: (trimBoth p l).take n := ⟨post, eq⟩
    refine ⟨l.takeWhile p ++ pre, ?_, ?_⟩
    · conv_rhs => rw [← List.takeWhile_append_dropWhile (p := p) (l := l)]
      rw [List.append_assoc, List.prefix_append_right_inj]
      exact (shown.trans ( List.take_prefix _ _)).trans trimBoth_prefix
    · have blank : (l.takeWhile p ++ pre).dropWhile p = pre.dropWhile p :=
        List.dropWhile_append_of_pos fun c hc => List.mem_takeWhile_imp hc
      have short := shown.length_le
      have less := (List.dropWhile_suffix (l := pre) p).length_le
      rw [List.length_append, List.length_take] at short
      rw [blank, List.length_append]
      omega
  · rintro ⟨before, ⟨rest, rfl⟩, short⟩
    have back : ∀ c, m.reverse.head? = some c → p c = false := fun c hc => last c (by rwa [List.head?_reverse] at hc)
    have trimmed : trimBoth p (before ++ m ++ rest) = before.dropWhile p ++ m ++
      (rest.reverse.dropWhile p).reverse := by
      rw [trimBoth, List.append_assoc, dropWhile_append_of_head ne first, List.reverse_append, List.reverse_append,
        List.append_assoc, dropWhile_append_of_head (by simpa using ne) back]
      simp
    rw [trimmed, List.take_append, List.take_of_length_le short]
    exact ⟨before.dropWhile p, _, rfl⟩

/-! ### Escape sequences -/

/-- A sequence that the one-character introducer starts. -/
structure Introduced (w : List Char) (ps is : List Char) (final : Char) : Prop where
  text : w = '\u009b' :: (ps ++ (is ++ [final]))
  params : ∀ c ∈ ps, within '0' '?' c = true
  intermediates : ∀ c ∈ is, within ' ' '/' c = true
  final : within '@' '~' final = true

theorem matches_of_introduced {w ps is : List Char} {final : Char} (h : Introduced w ps is final) : ansiSeq.Matches w :=
  .inl ⟨['\u009b'], _, .inr ⟨_, by decide, rfl⟩,
    ⟨ps, _, h.params, ⟨is, [final], h.intermediates, ⟨final, h.final, rfl⟩, rfl⟩, rfl⟩, h.text⟩

theorem introduced_of_matches {w : List Char} (h : ansiSeq.Matches w) (plain : '\x1b' ∉ w) :
    ∃ ps is final, Introduced w ps is final := by
  have first {r : Regexp Char} {u : List Char} (h : (Regexp.seq (literal '\x1b') r).Matches u) : '\x1b' ∈ u := by
    obtain ⟨u, v, ⟨c, same, rfl⟩, -, rfl⟩ := h
    rw [of_decide_eq_true same]
    exact List.mem_cons_self
  rcases h with csi | osc | two
  · obtain ⟨u, v, intro_ | ⟨c, same, rfl⟩, ⟨ps, _, params, ⟨is, _, intermediates, ⟨final, last, rfl⟩, rfl⟩,
      rfl⟩, rfl⟩ := csi
    · exact absurd (List.mem_append_left _ (first intro_)) plain
    · rw [of_decide_eq_true same]
      exact ⟨ps, is, final, rfl, params, intermediates, last⟩
  · obtain ⟨u, v, intro_, -, rfl⟩ := osc
    exact absurd (List.mem_append_left _ (first intro_)) plain
  · exact absurd (first two) plain

/-! ### Sanitized texts -/

/-- What is left of a text, before it is trimmed and clipped, has an escape sequence in it that is not cut off: past
    the sequences and characters that are taken out, an introducer is followed by the rest of one. -/
def Assembles (std : Std) (s : List UInt8) (max : Int) : Prop :=
  ∃ before w ps is final rest, Introduced w ps is final ∧
    ansiSeq.Reads (printable std) (toValidUTF8 s) (before ++ w) rest ∧
      (before.dropWhile isSpace ++ w).length ≤ max.toNat

theorem printable_of_mem {s : List UInt8} {max : Int} {c : Char} (h : c ∈ (sanitizeText std s max).toList) :
    printable std c = true := by
  rw [sanitizeText, String.toList_ofList, clipRunes] at h
  exact (List.mem_filter.mp (trimBoth_subset (List.mem_of_mem_take h))).2

theorem printable_iff {c : Char} : printable std c = true ↔ 32 ≤ c.toNat ∧ c.toNat ≠ 127 ∧
    std.formatRune c = false := by
  simp [printable, and_assoc]

theorem matches_infix_iff (s : List UInt8) (max : Int) :
    (∃ w, ansiSeq.Matches w ∧ w <:+: (sanitizeText std s max).toList) ↔ Assembles std s max := by
  have ends {w ps is : List Char} {final : Char} (h : Introduced w ps is final) :
      w <:+: (sanitizeText std s max).toList ↔
        ∃ before rest, ansiSeq.Reads (printable std) (toValidUTF8 s) (before ++ w) rest ∧
          (before.dropWhile isSpace ++ w).length ≤ max.toNat := by
    have blank : ∀ c ∈ spaceChars, within '@' '~' c = false := forall_mem_of_all (by decide)
    rw [sanitizeText, String.toList_ofList, clipRunes, infix_clip_trim_iff (by simp [h.text])]
    · simp only [Regexp.prefix_filter_removeAll, exists_and_right]
    · intro c hc
      rw [h.text] at hc
      obtain rfl := Option.some.inj hc
      decide
    · intro c hc
      rw [h.text, ← List.cons_append, ← List.append_assoc, List.getLast?_concat] at hc
      obtain rfl := Option.some.inj hc
      by_contra space
      have := blank final (by simpa [isSpace] using space)
      rw [h.final] at this
      cases this
  constructor
  · rintro ⟨w, found, inside⟩
    have plain : '\x1b' ∉ w := fun mem => absurd (printable_iff.mp (printable_of_mem (inside.mem mem))).1 (by decide)
    obtain ⟨ps, is, final, introduced⟩ := introduced_of_matches found plain
    obtain ⟨before, rest, reads, short⟩ := (ends introduced).mp inside
    exact ⟨before, w, ps, is, final, rest, introduced, reads, short⟩
  · rintro ⟨before, w, ps, is, final, rest, introduced, reads, short⟩
    exact ⟨w, matches_of_introduced introduced, (ends introduced).mpr ⟨before, rest, reads, short⟩⟩

/-- A sanitized text is valid, short and printable; and it has no escape sequence in it exactly if none is assembled. -/
theorem sanitizeText_safe (std : Std) (s : List UInt8) (max : Int) :
    none ∉ Utf8.runes (bytes (sanitizeText std s max)) ∧ (sanitizeText std s max).length ≤ max.toNat ∧
      (∀ c ∈ (sanitizeText std s max).toList, 32 ≤ c.toNat ∧ c.toNat ≠ 127 ∧ std.formatRune c = false) ∧
      ((∀ w, ansiSeq.Matches w → ¬w <:+: (sanitizeText std s max).toList) ↔ ¬Assembles std s max) := by
  refine ⟨?_, ?_, fun c hc => printable_iff.mp (printable_of_mem hc), ?_⟩
  · rw [bytes_eq_encode]
    exact Utf8.valid_encode _
  · rw [sanitizeText, ← String.length_toList, String.toList_ofList, clipRunes]
    exact List.length_take_le _ _
  · rw [← matches_infix_iff]
    simp only [not_exists, not_and]

/-- A control character that stands in a sequence is taken out, and so is one sequence inside of another. -/
theorem sanitizeText_assembled :
    sanitizeText Std.plain (bytes "\u009b\x011m") 256 = "\u009b1m" ∧
    sanitizeText Std.plain (bytes "\u009b\x1b[0m1m") 256 = "\u009b1m" ∧
      ansiSeq.Matches "\u009b1m".toList := by
  refine ⟨by decide +kernel, by decide +kernel, @matches_of_introduced _ ['1'] [] 'm' ⟨by decide, ?_, ?_, by decide⟩⟩
  · exact forall_mem_of_all (by decide)
  · exact forall_mem_of_all (by decide)

end Aquila.Ingest

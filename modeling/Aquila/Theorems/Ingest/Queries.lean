import Aquila.Ingest.Otlp
import Aquila.Lib.Fold
import Aquila.Lib.Lists
import Aquila.Theorems.Ingest.Sanitized

/-! Where queries and fragments go: a route with a scheme in it is only freed of those of the URL. -/

namespace Aquila.Ingest

/-- The start of a query or a fragment. -/
def isMark (c : Char) : Bool := c = '?' || c = '#'

def Marked (s : String) : Prop := ∃ c ∈ s.toList, isMark c = true

instance (s : String) : Decidable (Marked s) := inferInstanceAs (Decidable (∃ c ∈ s.toList, isMark c = true))

/-- What is known of the standard library: an escaped path has neither mark in it, and no character outside of ASCII
    has a blank for its upper case. -/
structure Std.Sound (std : Std) : Prop where
  escaped : ∀ raw u, std.parseURL raw = .ok u → ¬Marked (std.escapedPath u)
  upper : ∀ c : Char, 128 ≤ c.toNat → std.upperRune c ∉ [' ', '\t', '\r', '\n']

variable {std : Std}

/-! ### Texts -/

theorem not_space_of_mark {c : Char} (h : isMark c = true) : isSpace c = false := by
  have none : ∀ c ∈ spaceChars, isMark c = false := forall_mem_of_all (by decide)
  by_contra space
  rw [none c (by simpa [isSpace] using space)] at h
  cases h

theorem marked_trimSpace {s : String} : Marked (trimSpace s) ↔ Marked s := by
  unfold Marked
  rw [trimSpace, String.toList_ofList]
  exact exists_congr fun c => and_congr_left fun mark => mem_trimBoth_iff (not_space_of_mark mark)

theorem marked_append {s t : String} : Marked (s ++ t) ↔ Marked s ∨ Marked t := by
  simp only [Marked, String.toList_append, List.mem_append, or_and_right, exists_or]

theorem not_marked_stripQueryAndFragment (s : String) : ¬Marked (stripQueryAndFragment s) := by
  rintro ⟨c, hc, mark⟩
  rw [stripQueryAndFragment, cutBefore, String.toList_ofList, cutBefore, String.toList_ofList] at hc
  have query : c ≠ '?' := by simpa using List.mem_takeWhile_imp hc
  have fragment : c ≠ '#' := by simpa using List.mem_takeWhile_imp (( List.takeWhile_prefix _).subset hc)
  simp [isMark, query, fragment] at mark

theorem subset_of_schemeStart {s before raw : String} (h : schemeStart s = some (before, raw)) :
    before.toList ⊆ s.toList := by
  unfold schemeStart at h
  cases found : cutChars "://".toList s.toList with
  | none =>
    rw [found] at h
    cases h
  | some parts =>
    obtain ⟨front, after⟩ := parts
    rw [found] at h
    cases h
    intro c hc
    rw [String.toList_ofList, List.mem_reverse] at hc
    rw [eq_of_cutChars found]
    simp [List.mem_reverse.mp ((List.dropWhile_suffix _).subset hc)]

theorem schemeStart_isSome (s : String) : (schemeStart s).isSome = contains s "://" := by
  have same := @isSome_cutChars "://".toList s.toList (by decide)
  unfold schemeStart
  rw [contains, ← same]
  cases cutChars "://".toList s.toList <;> rfl

/-- A text with a URL after a mark. -/
def Exposed (std : Std) (s : String) : Prop :=
  ∃ before raw u, schemeStart s = some (before, raw) ∧ std.parseURL raw = .ok u ∧ u.host ≠ "" ∧ Marked before

theorem marked_stripAbsoluteURL (sound : std.Sound) {s : String} :
    Marked (stripAbsoluteURL std s) ↔ schemeStart s = none ∧ Marked s ∨ Exposed std s := by
  have empty : ¬Marked "" := by simp [Marked]
  unfold stripAbsoluteURL Exposed
  cases start : schemeStart s with
  | none => simp
  | some parts =>
    obtain ⟨before, raw⟩ := parts
    cases parsed : std.parseURL raw with
    | error e => simp [parsed, empty]
    | ok u =>
      have path : ¬Marked (if std.escapedPath u = "" then "/" else std.escapedPath u) := by
        split_ifs
        · simp [Marked, isMark]
        · exact sound.escaped raw u parsed
      by_cases host : u.host = ""
      · simp [parsed, host, empty]
      · simp only [parsed, host, if_false, reduceCtorEq, false_and, false_or, Option.some.injEq, Prod.mk.injEq]
        have whole : (∃ before' raw' u', (before = before' ∧ raw = raw') ∧ std.parseURL raw' = .ok u' ∧ u'.host ≠ "" ∧
          Marked before') ↔
            Marked before := by
          constructor
          · rintro ⟨_, _, _, ⟨rfl, rfl⟩, -, -, marked⟩
            exact marked
          · intro marked
            exact ⟨_, _, u, ⟨rfl, rfl⟩, parsed, host, marked⟩
        rw [whole]
        by_cases blank : trimSpace before = ""
        · rw [if_pos blank, ← marked_trimSpace (s := before), blank]
          exact iff_of_false path empty
        · have gap : ¬Marked " " := by simp [Marked, isMark]
          rw [if_neg blank, marked_trimSpace, marked_append, marked_append, marked_trimSpace, or_iff_left path,
            or_iff_left gap]

theorem not_marked_sanitizeName (sound : std.Sound) (s : List UInt8) : ¬Marked (sanitizeName std s) := by
  have clean := not_marked_stripQueryAndFragment (sanitizeText std s maxString)
  rw [sanitizeName, marked_stripAbsoluteURL sound]
  rintro (⟨-, marked⟩ | ⟨before, raw, u, start, -, -, c, hc, mark⟩)
  · exact clean marked
  · exact clean ⟨c, subset_of_schemeStart start hc, mark⟩

theorem marked_sanitizeRoute (sound : std.Sound) (s : List UInt8) :
    Marked (sanitizeRoute std s) ↔ Exposed std (sanitizeText std s maxString) := by
  unfold sanitizeRoute
  dsimp only
  generalize sanitizeText std s maxString = t
  have some' := schemeStart_isSome t
  have exposed (h : Exposed std t) : contains t "://" = true := by
    obtain ⟨before, raw, u, start, -⟩ := h
    rw [← some', start]
    rfl
  split_ifs with blank url
  · subst blank
    exact iff_of_false (by simp [Marked]) fun h => absurd (exposed h) (by decide)
  · rw [marked_stripAbsoluteURL sound]
    refine or_iff_right fun none => ?_
    rw [none.1, url] at some'
    cases some'
  · exact iff_of_false (not_marked_stripQueryAndFragment t) fun h => url (exposed h)

/-! ### Methods -/

theorem not_marked_methods : ∀ m ∈ methods, ¬Marked m := by
  have none : (methods.all fun m => m.toList.all fun c => !isMark c) = true := by decide
  rintro m hm ⟨c, hc, mark⟩
  have plain := List.all_eq_true.mp (List.all_eq_true.mp none m hm) c hc
  rw [mark] at plain
  cases plain

theorem asciiUpper_of_printable {c : Char} (ascii : c.toNat < 128) (shown : 32 ≤ c.toNat) (word : c ≠ ' ') :
    asciiUpper c ∉ [' ', '\t', '\r', '\n'] := by
  have all : ∀ n < 128, 32 ≤ n → Char.ofNat n ≠ ' ' → asciiUpper (Char.ofNat n) ∉ [' ', '\t', '\r', '\n'] := by decide
  have here := all c.toNat ascii shown
  rw [Char.ofNat_toNat] at here
  exact here word

theorem not_marked_of_canonicalMethod (sound : std.Sound) {m : String} (word : ' ' ∉ m.toList)
    (shown : ∀ c ∈ m.toList, 32 ≤ c.toNat)
    (h : canonicalMethod std m ≠ "") : ¬Marked m := by
  rw [← marked_trimSpace]
  have inside : ∀ c ∈ (trimSpace m).toList, c ≠ ' ' ∧ 32 ≤ c.toNat := fun c hc =>
    ⟨fun same => word (same ▸ trimSpace_subset m hc), shown c (trimSpace_subset m hc)⟩
  have whole : (std.toUpper (trimSpace m)).toList.takeWhile (fun c => c ∉ [' ', '\t', '\r', '\n']) =
    (std.toUpper (trimSpace m)).toList := by
    rw [List.takeWhile_eq_self_iff]
    intro c' hc'
    rw [Lib.toUpper, String.toList_ofList] at hc'
    obtain ⟨c, hc, rfl⟩ := List.mem_map.mp hc'
    refine decide_eq_true ?_
    split_ifs with ascii
    · exact asciiUpper_of_printable ascii (inside c hc).2 (inside c hc).1
    · exact sound.upper c (by omega)
  unfold canonicalMethod at h
  dsimp only at h
  rw [whole, String.ofList_toList] at h
  have known : std.toUpper (trimSpace m) ∈ methods := by
    by_contra other
    exact h (if_neg other)
  rintro ⟨c, hc, mark⟩
  refine not_marked_methods _ known ⟨c, ?_, mark⟩
  have kept : (if c.toNat < 128 then asciiUpper c else std.upperRune c) = c := by
    rcases Bool.or_eq_true _ _ ▸ mark with same | same
    · rw [of_decide_eq_true same]
      rfl
    · rw [of_decide_eq_true same]
      rfl
  rw [Lib.toUpper, String.toList_ofList]
  exact List.mem_map.mpr ⟨c, hc, kept⟩

theorem marked_splitMethodRoute (sound : std.Sound) {method route : String}
    (first : ∀ m rest, cut (trimSpace route) " " = some (m, rest) → Marked m → ∀ c ∈ m.toList, 32 ≤ c.toNat) :
    Marked (splitMethodRoute std method route).2 ↔ Marked route := by
  unfold splitMethodRoute
  dsimp only
  cases parts : cut (trimSpace route) " " with
  | none => exact marked_trimSpace
  | some p =>
    obtain ⟨m, rest⟩ := p
    dsimp only
    by_cases known : canonicalMethod std m ≠ ""
    · rw [if_pos known]
      obtain ⟨⟨before, after⟩, found, same⟩ := Option.map_eq_some_iff.mp parts
      cases same
      have word : ' ' ∉ (String.ofList before).toList := by
        rw [String.toList_ofList]
        exact not_mem_of_cutChars found
      have text : trimSpace route = .ofList before ++ " " ++ .ofList after := by
        rw [← String.toList_inj, eq_of_cutChars found]
        simp
      have gap : ¬Marked " " := by simp [Marked, isMark]
      have plain : ¬Marked (String.ofList before) := fun marked =>
        not_marked_of_canonicalMethod sound word (first _ _ parts marked) known marked
      rw [marked_trimSpace, ← marked_trimSpace (s := route), text, marked_append, marked_append,
        or_iff_right (not_or.mpr ⟨plain, gap⟩)]
    · rw [if_neg known]
      exact marked_trimSpace

theorem prefix_of_cut {front path : String} {m rest : String} (ne : trimSpace front ≠ "")
    (h : cut (trimSpace (trimSpace (trimSpace front ++ " " ++ path))) " " = some (m, rest)) :
    m.toList <+: (trimSpace front).toList := by
  obtain ⟨⟨before, after⟩, found, same⟩ := Option.map_eq_some_iff.mp h
  cases same
  rw [String.toList_ofList]
  have word : ' ' ∉ before := not_mem_of_cutChars found
  have text := eq_of_cutChars found
  have head {s : String} : ∀ c, (trimSpace s).toList.head? = some c → isSpace c = false := by
    intro c hc
    rw [trimSpace, String.toList_ofList] at hc
    exact head_trimBoth hc
  have again : (trimSpace (trimSpace (trimSpace front ++ " " ++ path))).toList <+:
    (trimSpace (trimSpace front ++ " " ++ path)).toList := by
    conv_lhs => rw [trimSpace, String.toList_ofList]
    refine trimBoth_prefix.trans ?_
    rw [dropWhile_of_head head]
  have once : (trimSpace (trimSpace front ++ " " ++ path)).toList <+: (trimSpace front).toList ++ ' ' ::
    path.toList := by
    conv_lhs => rw [trimSpace, String.toList_ofList]
    refine trimBoth_prefix.trans ?_
    have nonempty : (trimSpace front).toList ≠ [] := by simpa using ne
    rw [dropWhile_of_head]
    · simp
    · intro c hc
      rw [String.append_assoc, String.toList_append, List.head?_append_of_ne_nil _ nonempty] at hc
      exact head c hc
  have whole : before ++ ' ' :: after <+: (trimSpace front).toList ++ ' ' :: path.toList := by
    have := again.trans once
    rw [text] at this
    simpa using this
  obtain ⟨more, eq⟩ := whole
  rw [List.append_assoc, List.cons_append] at eq
  rcases List.append_eq_append_iff.mp eq with ⟨r, front_eq, -⟩ | ⟨r, before_eq, rest_eq⟩
  · exact ⟨r, front_eq.symm⟩
  · cases r with
    | nil => rw [before_eq, List.append_nil]
    | cons c r =>
      obtain ⟨rfl, -⟩ := List.cons.inj rest_eq
      exact absurd (by simp [before_eq]) word

/-! ### Spans -/

/-- A span whose route has a URL after a mark. -/
def Leaks (std : Std) (sp : OtlpSpan) : Prop := Exposed std (sanitizeText std (httpRoute std sp.attributes) maxString)

theorem sanitizeRoute_of_marked (sound : std.Sound) {s : List UInt8} (h : Marked (sanitizeRoute std s)) :
    ∃ before path, before.toList ⊆ (sanitizeText std s maxString).toList ∧ trimSpace before ≠ "" ∧
      sanitizeRoute std s = trimSpace (trimSpace before ++ " " ++ path) := by
  obtain ⟨before, raw, u, start, parsed, host, marked⟩ := (marked_sanitizeRoute sound s).mp h
  have url := schemeStart_isSome (sanitizeText std s maxString)
  rw [start, Option.isSome_some] at url
  have some' : sanitizeText std s maxString ≠ "" := by
    intro empty
    rw [empty] at url
    exact absurd url (by decide)
  have shown : trimSpace before ≠ "" := by
    intro blank
    rw [← marked_trimSpace, blank] at marked
    simp [Marked] at marked
  refine ⟨before, if std.escapedPath u = "" then "/" else std.escapedPath u, subset_of_schemeStart start, shown, ?_⟩
  unfold sanitizeRoute stripAbsoluteURL
  simp only [some', ← url, start, parsed, host, shown, if_false, if_true]

/-- A route keeps a mark exactly if a URL comes after one. -/
theorem marked_route (sound : std.Sound) (method : String) (s : List UInt8) :
    Marked (splitMethodRoute std method (sanitizeRoute std s)).2 ↔ Exposed std (sanitizeText std s maxString) := by
  rw [marked_splitMethodRoute sound, marked_sanitizeRoute sound]
  rintro m rest parts ⟨c, hc, mark⟩ c' hc'
  have part : c ∈ (sanitizeRoute std s).toList := by
    obtain ⟨⟨before, after⟩, found, same⟩ := Option.map_eq_some_iff.mp parts
    cases same
    rw [String.toList_ofList] at hc
    refine trimSpace_subset _ ?_
    rw [eq_of_cutChars found]
    simp [hc]
  obtain ⟨before, path, inside, shown, route⟩ := sanitizeRoute_of_marked sound ⟨c, part, mark⟩
  rw [route] at parts
  have mem := (prefix_of_cut shown parts).subset hc'
  exact (printable_iff.mp (printable_of_mem (inside (trimSpace_subset _ mem)))).1

/-- Whether a span has valid identifiers and times. -/
def acceptable (sp : OtlpSpan) : Bool :=
  validID sp.traceId otelTraceIDLen && validID sp.spanId otelSpanIDLen &&
    decide (sp.startTimeUnixNano.toNat ≤ 2 ^ 63 - 1 ∧ sp.endTimeUnixNano.toNat ≤ 2 ^ 63 - 1)

theorem normalizeSpan_of_not_acceptable {sp : OtlpSpan} (h : acceptable sp = false) (service : String) :
    normalizeSpan std service sp = none := by
  unfold normalizeSpan
  by_cases ids : (!validID sp.traceId otelTraceIDLen || !validID sp.spanId otelSpanIDLen) = true
  · rw [if_pos ids]
  · rw [if_neg ids, if_pos]
    by_contra times
    simp only [Bool.or_eq_true, Bool.not_eq_true', not_or, Bool.not_eq_false] at ids
    have : acceptable sp = true := by
      simp only [acceptable, ids.1, ids.2, Bool.true_and, decide_eq_true_eq]
      omega
    rw [h] at this
    cases this

theorem normalizeSpan_of_acceptable {sp : OtlpSpan} (h : acceptable sp = true) (service : String) :
    ∃ out method, normalizeSpan std service sp = some out ∧ out.name = sanitizeName std sp.name ∧
      out.httpRoute = (splitMethodRoute std method (sanitizeRoute std (httpRoute std sp.attributes))).2 := by
  simp only [acceptable, Bool.and_eq_true, decide_eq_true_eq] at h
  obtain ⟨⟨trace, span⟩, times⟩ := h
  unfold normalizeSpan
  rw [trace, span, if_neg (by simp), if_neg (by omega)]
  dsimp only
  generalize canonicalMethod std (runesOf (attrString std sp.attributes ["http.request.method", "http.method"])) =
    method
  cases parts : splitMethodRoute std method (sanitizeRoute std (httpRoute std sp.attributes)) with
  | mk method' route =>
    dsimp only
    refine ⟨_, method, rfl, ?_⟩
    simp only [parts, and_self]

/-! ### Reports -/

def Request.spans (req : Request) : List OtlpSpan := req.resourceSpans.flatMap fun rs => rs.scopeSpans.flatMap id

/-- The spans of a request that are stored. -/
def stored (req : Option Request) : List OtlpSpan :=
  match req with
  | none => []
  | some req => (req.spans.filter acceptable).take maxSpansBatch.toNat

/-- A span is what is stored of another. -/
def Stores (std : Std) (out : StoredSpan) (sp : OtlpSpan) : Prop :=
  acceptable sp = true ∧ ∃ service, normalizeSpan std service sp = some out

theorem spans_addSpan (limit : Int) (pos : 0 < limit) (service : String) (out : Report) (sp : OtlpSpan) :
    (addSpan std limit service out sp).spans = (normalizeSpan std service sp).toList.foldl
      (fun dst a => if dst.length ≥ limit.toNat then dst else dst ++ [a]) out.spans := by
  unfold addSpan
  cases normalizeSpan std service sp with
  | none => rfl
  | some span =>
    have full : (out.spans.length : Int) ≥ limit ↔ out.spans.length ≥ limit.toNat := by omega
    simp only [full, Option.toList_some, List.foldl_cons, List.foldl_nil]
    split_ifs <;> rfl

theorem forall₂_spans (service : String) (ss : List OtlpSpan) :
    List.Forall₂ (Stores std) (ss.flatMap fun sp => (normalizeSpan std service sp).toList) (ss.filter acceptable) := by
  induction ss with
  | nil => exact .nil
  | cons sp ss ih =>
    rw [List.flatMap_cons]
    cases ok : acceptable sp with
    | false =>
      rw [normalizeSpan_of_not_acceptable ok, List.filter_cons_of_neg (by simp [ok])]
      exact ih
    | true =>
      obtain ⟨out, -, done, -⟩ := @normalizeSpan_of_acceptable std sp ok service
      rw [done, List.filter_cons_of_pos ok]
      exact .cons ⟨ok, _, done⟩ ih

theorem forall₂_normalizeReport (std : Std) (req : Option Request) : List.Forall₂ (Stores std)
    (normalizeReport std req).spans (stored req) := by
  cases req with
  | none => exact .nil
  | some req =>
    have scope (rs : ResourceSpans) :=
      @Fold.view _ _ _ _ Report.spans _ _ _ (@spans_addSpan std maxSpansBatch (by decide) (serviceName std rs))
    have resource (rs : ResourceSpans) := @Fold.view _ _ _ _ Report.spans _ _ _ fun out ss => scope rs ss out
    have run := @Fold.view _ _ _ _ Report.spans _ _ _ (fun out rs => resource rs rs.scopeSpans out) req.resourceSpans {}
    rw [Fold.capped (n := maxSpansBatch.toNat) (fun _ _ => rfl)] at run
    rw [normalizeReport, normalizeBatch, stored, Request.spans, List.filter_flatMap]
    refine run ▸ List.forall₂_take _ (Lists.forall₂_flatMap fun rs _ => ?_)
    rw [List.filter_flatMap]
    exact Lists.forall₂_flatMap fun ss _ => forall₂_spans _ ss

/-- No name that is stored has a query or a fragment; and no route has one exactly if none of the spans reports a
    route with a URL after one. -/
theorem normalizeReport_marks (std : Std) (sound : std.Sound) (req : Option Request) :
    (∀ sp ∈ (normalizeReport std req).spans, ¬Marked sp.name) ∧
      ((∀ sp ∈ (normalizeReport std req).spans, ¬Marked sp.httpRoute) ↔ ∀ sp ∈ stored req, ¬Leaks std sp) := by
  have all := forall₂_normalizeReport std req
  have read {out : StoredSpan} {sp : OtlpSpan} (h : Stores std out sp) : ¬Marked out.name ∧
    (Marked out.httpRoute ↔ Leaks std sp) := by
    obtain ⟨ok, service, done⟩ := h
    obtain ⟨out', method, done', name, route⟩ := @normalizeSpan_of_acceptable std sp ok service
    obtain rfl := Option.some.inj (done.symm.trans done')
    rw [name, route]
    exact ⟨not_marked_sanitizeName sound _, marked_route sound _ _⟩
  refine ⟨fun out mem => ?_, fun none sp mem => ?_, fun none out mem => ?_⟩
  · obtain ⟨sp, -, stores⟩ := Lists.forall₂_mem_left all mem
    exact (read stores).1
  · obtain ⟨out, here, stores⟩ := Lists.forall₂_mem_right all mem
    exact fun leaks => none out here ((read stores).2.mpr leaks)
  · obtain ⟨sp, here, stores⟩ := Lists.forall₂_mem_left all mem
    exact fun marked => none sp here ((read stores).2.mp marked)

namespace Sample

theorem sound_plain : Std.plain.Sound := by
  refine ⟨fun raw u _ => ?_, fun c outside => ?_⟩
  · rintro ⟨c, hc, mark⟩
    change c ∈ (String.ofList (u.path.toList.takeWhile fun c => c ≠ '?' && c ≠ '#')).toList at hc
    rw [String.toList_ofList] at hc
    have kept := List.mem_takeWhile_imp hc
    rw [Bool.and_eq_true, decide_eq_true_eq, decide_eq_true_eq] at kept
    simp [isMark, kept.1, kept.2] at mark
  · have ascii : ∀ b ∈ [' ', '\t', '\r', '\n'], b.toNat < 128 := forall_mem_of_all (by decide)
    exact fun mem => absurd (ascii c mem) (by omega)

def exported (name target : String) : Option Request := some
  { resourceSpans := [{ scopeSpans := [[
      { traceId := List.replicate 16 1, spanId := List.replicate 8 1, name := bytes name,
        attributes := [{ key := bytes "http.target", value := .string (bytes target) }] }]] }] }

end Sample

theorem normalizeReport_marks_target :
    (normalizeReport Std.plain (Sample.exported "GET /users?id=7" "/users?id=7#top")).spans.map
    (fun sp => (sp.name, sp.httpRoute)) =
        [("GET /users", "/users")] ∧
      ∀ sp ∈ stored (Sample.exported "GET /users?id=7" "/users?id=7#top"), ¬Leaks Std.plain sp := by
  refine ⟨by decide +kernel, (normalizeReport_marks Std.plain Sample.sound_plain _).2.mp ?_⟩
  rintro sp hsp ⟨c, hc, mark⟩
  have routes : (normalizeReport Std.plain (Sample.exported "GET /users?id=7" "/users?id=7#top")).spans.map
    (·.httpRoute) = ["/users"] := by
    decide +kernel
  have route : sp.httpRoute = "/users" := List.mem_singleton.mp (routes ▸ List.mem_map_of_mem hsp)
  have none : ∀ c ∈ "/users".toList, isMark c = false := forall_mem_of_all (by decide)
  rw [route] at hc
  exact absurd mark (Bool.eq_false_iff.mp (none c hc))

/-- A target with a URL in its query keeps the query. -/
theorem normalizeReport_query : Std.plain.Sound ∧
    (normalizeReport Std.plain (Sample.exported "GET" "/redirect?token=secret&next=http://shop/cart")).spans.map
    (·.httpRoute) =
      ["/redirect?token=secret&next= /cart"] :=
  ⟨Sample.sound_plain, by decide +kernel⟩

end Aquila.Ingest

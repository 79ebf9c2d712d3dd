import Aquila.Action
import Aquila.Lib.Calls
import Aquila.Theorems.Text

/-! The object store and the cache of results: what is published in them, and what the calls find. -/

namespace Aquila
open Disk (Path Prog World Link Grows Inv Fits Ext Stable WasRead)
open Json (Codec)

/-! ### Digests -/

namespace Cas

def hex (c : UInt8) : Bool := (48 ≤ c && c ≤ 57) || (97 ≤ c && c ≤ 102)

theorem valid_iff {d : List UInt8} : valid d = true ↔ d.length = 64 ∧ ∀ c ∈ d, hex c = true := by
  simp [valid, hex]

theorem toNat_ofNat (x : UInt8) : (Char.ofNat x.toNat).toNat = x.toNat := by
  have := x.toNat_lt
  rw [Char.ofNat, dif_pos (show x.toNat.isValidChar from .inl (by omega))]
  rfl

theorem text_injective : Function.Injective text := by
  intro a b h
  have chars := congrArg String.toList h
  rw [text, text, String.toList_ofList, String.toList_ofList] at chars
  refine List.map_injective_iff.mpr (fun x y hxy => ?_) chars
  have codes := congrArg Char.toNat hxy
  rw [toNat_ofNat, toNat_ofNat] at codes
  exact UInt8.toNat_inj.mp codes

theorem path_injective : Function.Injective path := by
  intro a b h
  simp only [path, List.cons.injEq, and_true] at h
  exact text_injective h.2.2

theorem valid_digits (b : List UInt8) :
    valid (List.replicate 61 48 ++ [b.length / 100 % 10, b.length / 10 % 10, b.length % 10].map fun n =>
      48 + UInt8.ofNat n) = true := by
  have digit : ∀ n < 10, hex (48 + UInt8.ofNat n) = true := by decide
  refine valid_iff.mpr ⟨by simp, fun c hc => ?_⟩
  rcases List.mem_append.mp hc with hc | hc
  · rw [(List.mem_replicate.mp hc).2]
    rfl
  · obtain ⟨n, hn, rfl⟩ := List.mem_map.mp hc
    refine digit n ?_
    simp only [List.mem_cons, List.not_mem_nil, or_false] at hn
    omega

def Sha256.plain : Sha256 where
  sum b := List.replicate 61 48 ++ [b.length / 100 % 10, b.length / 10 % 10, b.length % 10].map fun n =>
    48 + UInt8.ofNat n
  valid_sum := valid_digits

theorem text_ne_dot {d : List UInt8} (h : valid d = true) (s : String) : text d ≠ "." ++ s := by
  obtain ⟨length, digits⟩ := valid_iff.mp h
  cases d with
  | nil => cases length
  | cons c d =>
    intro eq
    have first : Char.ofNat c.toNat = '.' := by
      have chars := congrArg String.toList eq
      simp only [text, List.map_cons, String.toList_ofList, String.toList_append] at chars
      exact (List.cons.inj chars).1
    have code : c.toNat = 46 := by rw [← toNat_ofNat, first]; rfl
    have digit := digits c List.mem_cons_self
    have : c = 46 := UInt8.toNat_inj.mp code
    subst this
    exact absurd digit (by decide)

end Cas

theorem dropRunes_of_first {runes : List (List UInt8)} {b : List UInt8}
    (h : ∀ r ∈ runes, ∃ x xs, r = x :: xs ∧ ∀ c ∈ b, c ≠ x) (n : Nat) :
    dropRunes runes n b = b := by
  cases n with
  | zero => rfl
  | succ n =>
    have none_ : runes.find? (·.isPrefixOf b) = none := by
      refine List.find?_eq_none.mpr fun r hr start => ?_
      obtain ⟨x, xs, rfl, other⟩ := h r hr
      obtain ⟨rest, eq⟩ := List.isPrefixOf_iff_prefix.mp start
      exact other x (eq ▸ by simp) rfl
    simp only [dropRunes, none_]

theorem trimSpaceBytes_of_hex {b : List UInt8} (h : ∀ c ∈ b, Cas.hex c = true) : trimSpaceBytes b = b := by
  have apart {runes : List (List UInt8)} (first : runes.all (fun r => r.head?.any fun x => !Cas.hex x) = true)
    {b : List UInt8}
      (h : ∀ c ∈ b, Cas.hex c = true) : ∀ r ∈ runes, ∃ x xs, r = x :: xs ∧ ∀ c ∈ b, c ≠ x := by
    intro r hr
    have digit := List.all_eq_true.mp first r hr
    cases r with
    | nil => cases digit
    | cons x xs =>
      refine ⟨x, xs, rfl, fun c hc eq => ?_⟩
      have same := h c hc
      rw [eq] at same
      simp [same] at digit
  unfold trimSpaceBytes
  dsimp only
  rw [dropRunes_of_first (apart (by decide) h),
    dropRunes_of_first (apart (by decide) fun c hc => h c (List.mem_reverse.mp hc)), List.reverse_reverse]

/-! ### Texts of keys and results -/

namespace Action

section
variable {α : Type} {c : Codec α} {f : α → α} {a : α} {body : List UInt8}

theorem parse_bytes {d : Json.Doc} :
    Json.parse (Json.scrubText (Utf8.runes (bytes (.ofList (Json.write Json.compact 0 d))))) = some d.scrub := by
  have read : Json.parse (Json.write Json.compact 0 d ++ []) = some d.scrub :=
    Json.parse_write Json.compact d (by simp [Json.Ends])
  rw [List.append_nil] at read
  rw [bytes_eq_encode, Utf8.runes_encode, Json.scrubText_some, String.toList_ofList, read]

theorem unmarshal_marshal (scrubs : c.Scrubs f) (h : marshal c a = some body) : unmarshal c body = some (f a) := by
  obtain ⟨d, hd, rfl⟩ := Option.map_eq_some_iff.mp h
  rw [unmarshal, parse_bytes, Option.bind_some, scrubs.read hd]

theorem marshal_inj {b : α} (plain : c.Plain a) (plain' : c.Plain b) (h : marshal c a = some body)
    (h' : marshal c b = some body) : a = b := by
  obtain ⟨d, hd, rfl⟩ := Option.map_eq_some_iff.mp h
  obtain ⟨e, he, same⟩ := Option.map_eq_some_iff.mp h'
  have docs := @parse_bytes d
  rw [← same, parse_bytes, Json.Doc.scrub_of_holes ((c.plain_iff hd).mpr plain),
    Json.Doc.scrub_of_holes ((c.plain_iff he).mpr plain')] at docs
  obtain rfl := Option.some.inj docs
  exact Option.some.inj ((c.ofDoc_toDoc hd plain).symm.trans (c.ofDoc_toDoc he plain'))

end

def scrub (b : List UInt8) : List UInt8 := Utf8.encode (Json.scrubText (Utf8.runes b))

def scrubDelta (d : Replay.Delta) : Replay.Delta := { d with notes := d.notes.map scrub }

def scrubResult (r : Plan.StepResult) : Plan.StepResult :=
  { r with notes := r.notes.map scrub, steps := r.steps.map scrubDelta }

theorem scrubs_string : Codec.string.Scrubs id := Json.scrubs_id fun _ => trivial

theorem scrubs_delta : Wire.delta.Scrubs scrubDelta := by
  have int : Codec.int.Scrubs id := Json.scrubs_id fun _ => trivial
  exact (Json.Fields.Scrubs.cons scrubs_string rfl <| .cons scrubs_string rfl <| .cons scrubs_string rfl
    <| .cons int rfl <|
    .cons int rfl <| .cons Json.scrubs_bytes.list rfl Json.scrubs_nil).struct _

theorem scrubs_stepResult : Wire.stepResult.Scrubs scrubResult := by
  have latency : ∀ l, (Codec.list true Wire.stepLatency).Plain l := by
    intro l
    simp [Wire.stepLatency, Wire.summary]
  exact (Json.Fields.Scrubs.cons scrubs_string rfl <| .cons scrubs_string rfl <| .cons scrubs_string rfl <|
    .cons Json.scrubs_bytes.list rfl <| .cons (Json.scrubs_id latency) rfl <| .cons scrubs_delta.list rfl
      Json.scrubs_nil).struct _

theorem writes_keyCodec : keyCodec.Writes := by
  have int : Codec.int.Writes := fun n => ⟨_, rfl⟩
  have text : Codec.bytes.Writes := fun b => ⟨_, rfl⟩
  exact (Json.Fields.Writes.cons int <| .cons text <| .cons text <| .cons text <| .cons text <| .cons int
    <| .cons text <|
    .cons text Json.writes_nil).struct _

/-- The strings of a key are UTF-8. -/
structure Key.Plain (k : Key) : Prop where
  kind : Utf8.Valid k.kind
  baselineTree : Utf8.Valid k.baselineTree
  patchTree : Utf8.Valid k.patchTree
  scope : Utf8.Valid k.scope
  workload : Utf8.Valid k.workload
  healthPath : Utf8.Valid k.healthPath

def Key.text (k : Key) : List UInt8 := (marshal keyCodec k).getD []

theorem Key.text_inj {k k' : Key} (plain : k.Plain) (plain' : k'.Plain) (h : k.text = k'.text) : k = k' := by
  have written (k : Key) : marshal keyCodec k = some k.text := by
    obtain ⟨d, hd⟩ := writes_keyCodec k
    rw [Key.text, marshal, hd]
    rfl
  have strings {k : Key} (plain : k.Plain) : keyCodec.Plain k := by
    simp only [keyCodec, Json.plain_struct, Json.plain_always, Json.plain_nonzero, Json.plain_bytes, Json.plain_int,
      Json.plain_nil]
    exact ⟨trivial, plain.kind, plain.baselineTree, plain.patchTree, plain.scope, trivial, plain.workload,
      plain.healthPath, trivial⟩
  exact marshal_inj (strings plain) (strings plain') (written k) (h ▸ written k')

end Action

/-! ### What is published -/

section
variable {γ : Type} (sha : Cas.Sha256)

/-- There is an object with these bytes. -/
def Stored (w : World γ) (b : List UInt8) : Prop := ∃ l ∈ w.log, l.name = Cas.path (sha.sum b) ∧ w.disk.data l.file = b

variable (Entry : γ → Action.Key → Plan.StepResult → Prop) (S : Set (List UInt8))

/-- What a call may publish: objects of `S` under their digests, and the digest of its own result, which is stored,
    under its own key. -/
inductive Publishes (w : World γ) (g : γ) : Path → List UInt8 → Prop
  | object {b : List UInt8} : b ∈ S → Publishes w g (Cas.path (sha.sum b)) b
  | index {key : Action.Key} {res : Plan.StepResult} {body : List UInt8} : Entry g key res →
    Action.cacheable key.kind = true →
      ¬(res.verdict = "pass" ∨ res.verdict = "validated") → Action.marshal Wire.stepResult res = some body →
      Stored sha w body → Publishes w g (Action.file sha key) (sha.sum body)

variable {sha Entry S}

theorem Stored.mono {w w' : World γ} {b : List UInt8} (grows : Grows w w') (h : Stored sha w b) : Stored sha w' b := by
  obtain ⟨l, hl, name, data⟩ := h
  exact ⟨l, grows.log.subset hl, name, (grows.data l hl).trans data⟩

variable (sha Entry S) in
def rules : Disk.Rules γ where
  Final p := ∃ id, Cas.valid id = true ∧ (p = Cas.path id ∨ p = ["cache", Cas.text id])
  Good := Publishes sha Entry S
  mono grows good := by
    cases good with
    | object mem => exact .object mem
    | index own kind open_ written stored => exact .index own kind open_ written (stored.mono grows)

theorem final_path {id : List UInt8} (h : Cas.valid id = true) : (rules sha Entry S).Final (Cas.path id) :=
  ⟨id, h, .inl rfl⟩

theorem final_file (key : Action.Key) : (rules sha Entry S).Final (Action.file sha key) :=
  ⟨_, sha.valid_sum _, .inr rfl⟩

theorem not_final_put (id : List UInt8) (rest : String) :
    ¬(rules sha Entry S).Final ((Cas.path id).dropLast ++ [".put-" ++ rest]) := by
  rintro ⟨id', valid, same | same⟩
  · simp only [Cas.path, List.dropLast, List.cons_append, List.nil_append, List.cons.injEq, and_true, true_and] at same
    exact Cas.text_ne_dot valid ("put-" ++ rest) (same.2.symm.trans (by rw [← String.append_assoc]; rfl))
  · simp [Cas.path] at same

theorem not_final_idx (rest : String) : ¬(rules sha Entry S).Final (["cache"] ++ [".idx-" ++ rest]) := by
  rintro ⟨id', valid, same | same⟩
  · simp [Cas.path] at same
  · simp only [List.cons_append, List.nil_append, List.cons.injEq, and_true, true_and] at same
    exact Cas.text_ne_dot valid ("idx-" ++ rest) (same.symm.trans (by rw [← String.append_assoc]; rfl))

variable {w w₀ : World γ} {g : γ} {o : Option Disk.Held} {l : Link γ} {id b : List UInt8} {key : Action.Key}

theorem sum_of_path (inv : Inv (rules sha Entry S) w) (hl : l ∈ w.log) (name : l.name = Cas.path id) :
    sha.sum (w.disk.data l.file) = id ∧ w.disk.data l.file ∈ S := by
  have good := inv.good l hl
  generalize w.disk.data l.file = b at good ⊢
  rw [name] at good
  generalize hp : Cas.path id = p at good
  cases good with
  | object mem => exact ⟨(Cas.path_injective hp).symm, mem⟩
  | index => simp [Cas.path, Action.file] at hp

theorem entry_of_file (inv : Inv (rules sha Entry S) w) (hl : l ∈ w.log) (name : l.name = Action.file sha key) :
    ∃ key' res body, Entry l.call key' res ∧ key'.digest sha = key.digest sha ∧ Action.cacheable key'.kind = true ∧
      ¬(res.verdict = "pass" ∨ res.verdict = "validated") ∧ Action.marshal Wire.stepResult res = some body ∧
      Stored sha w body ∧ w.disk.data l.file = sha.sum body := by
  have good := inv.good l hl
  generalize w.disk.data l.file = b at good ⊢
  rw [name] at good
  generalize hp : Action.file sha key = p at good
  cases good with
  | object => simp [Cas.path, Action.file] at hp
  | index own kind open_ written stored =>
    simp only [Action.file, List.cons.injEq, and_true, true_and] at hp
    exact ⟨_, _, _, own, (Cas.text_injective hp).symm, kind, open_, written, stored, rfl⟩

theorem Stored.eq (inv : Inv (rules sha Entry S) w) (inj : Set.InjOn sha.sum S) (stored : Stored sha w b)
    (hl : l ∈ w.log)
    (name : l.name = Cas.path (sha.sum b)) : w.disk.data l.file = b := by
  obtain ⟨l', hl', name', rfl⟩ := stored
  obtain ⟨sum, mem⟩ := sum_of_path inv hl name
  exact inj mem (sum_of_path inv hl' name').2 sum

/-! ### The calls -/

/-- The caller has given up, or a system call has failed. -/
def Cas.Err.Outside : Cas.Err → Prop
  | canceled _ | system _ => True
  | _ => False

def Action.Err.Outside : Action.Err → Prop
  | cas e => e.Outside
  | system _ | rename _ => True
  | _ => False

variable (sha) in
/-- An object that was put is there. -/
def PutDone (b : List UInt8) : Except Cas.Err (List UInt8) → World γ → Prop
  | .ok id, w => id = sha.sum b ∧ Stored sha w b
  | .error e, _ => e.Outside

theorem stable_putDone (r : Except Cas.Err (List UInt8)) : Stable (rules sha Entry S) (PutDone sha b r) := by
  intro w w' grows _ done
  cases r with
  | ok id => exact ⟨done.1, done.2.mono grows⟩
  | error e => exact done

theorem fits_put (inj : Set.InjOn sha.sum S) (mem : b ∈ S) :
    Fits (rules sha Entry S) g (PutDone sha b) o w (Cas.put sha b) := by
  have final := @final_path γ sha Entry S _ (sha.valid_sum b)
  intro e
  cases e with
  | some e => trivial
  | none =>
    refine ⟨fun w' ext _ => ?_, fun e => ?_⟩
    · refine (Fits.readFile final).bind ext.inv fun r w'' ext' read => ?_
      cases r with
      | error e => trivial
      | ok got =>
        obtain ⟨log, l, -, sub, last, rfl⟩ := read
        have hl := List.mem_filter.mp (List.mem_of_getLast? last)
        have name : l.name = Cas.path (sha.sum b) := of_decide_eq_true hl.2
        obtain ⟨sum, stored⟩ := sum_of_path ext'.inv (sub.subset hl.1) name
        dsimp only
        rw [if_neg (not_not.mpr sum)]
        exact ⟨rfl, l, sub.subset hl.1, name, inj stored mem sum⟩
    · cases e with
      | some e => trivial
      | none =>
        refine ⟨fun e => trivial, fun rest => ⟨not_final_put _ rest, fun i w' ext => ⟨_, _, rfl, fun w'' ext' e => ?_,
          fun a e w'' part ext' _ => ?_⟩⟩⟩
        · cases e with
          | some e => exact ⟨⟨_, _, rfl⟩, fun _ _ _ => trivial⟩
          | none =>
            refine ⟨_, _, rfl, final, fun _ _ => .object mem, fun e => ⟨⟨_, _, rfl⟩, fun _ _ _ => trivial⟩,
              fun w₁ ext₁ hl data => ?_⟩
            exact ⟨rfl, _, hl, rfl, data⟩
        · exact ⟨⟨_, _, rfl⟩, fun _ _ _ => trivial⟩

variable (sha) in
/-- What was got has the digest, and what was there before is found. -/
structure GetDone (id : List UInt8) (w₀ : World γ) (r : Except Cas.Err (List UInt8)) : Prop where
  digest : ∀ b, r = .ok b → sha.sum b = id
  whole : r ≠ .error .corrupt
  found : ∀ b, id = sha.sum b → Stored sha w₀ b → r = .ok b ∨ ∃ e, r = .error e ∧ e.Outside

theorem fits_get (inv : Inv (rules sha Entry S) w) (inj : Set.InjOn sha.sum S) :
    Fits (rules sha Entry S) g (fun r _ => GetDone sha id w r) o w (Cas.get sha id) := by
  have outside {e : Cas.Err} (h : e.Outside) : GetDone sha id w (.error e) := by
    refine ⟨by simp, ?_, fun b _ _ => .inr ⟨e, rfl, h⟩⟩
    rintro ⟨⟩
    exact h
  intro e
  cases e with
  | some e => exact outside trivial
  | none =>
    dsimp only
    by_cases valid : Cas.valid id = true
    · rw [valid, Bool.not_true, if_neg Bool.false_ne_true]
      refine (Fits.readFile (final_path valid)).bind inv fun r w' ext read => ?_
      cases r with
      | error e =>
        cases e with
        | some e => exact outside trivial
        | none =>
          obtain ⟨log, sub, -, none_⟩ := read
          refine ⟨by simp, by simp, fun b same stored => ?_⟩
          obtain ⟨l, hl, name, -⟩ := stored
          exact absurd (decide_eq_true (same ▸ name)) (List.filter_eq_nil_iff.mp none_ l (sub.subset hl))
      | ok raw =>
        obtain ⟨log, l, -, sub, last, rfl⟩ := read
        have hl := List.mem_filter.mp (List.mem_of_getLast? last)
        have name : l.name = Cas.path id := of_decide_eq_true hl.2
        have sum := (sum_of_path ext.inv (sub.subset hl.1) name).1
        dsimp only
        rw [if_neg (not_not.mpr sum)]
        refine ⟨fun b same => ?_, by simp, fun b same stored => .inl ?_⟩
        · cases same
          exact sum
        · rw [(stored.mono ext.grows).eq ext.inv inj (sub.subset hl.1) (same ▸ name)]
    · rw [Bool.not_eq_true] at valid
      rw [valid, Bool.not_false, if_pos rfl]
      refine ⟨by simp, by simp, fun b same _ => ?_⟩
      rw [same, sha.valid_sum] at valid
      cases valid

theorem fits_cachePut {res : Plan.StepResult} (inv : Inv (rules sha Entry S) w) (inj : Set.InjOn sha.sum S)
    (own : res.verdict ≠ "incomplete" → Entry g key res)
    (mem : ∀ body, Action.marshal Wire.stepResult res = some body → body ∈ S) :
    Fits (rules sha Entry S) g (fun _ _ => True) o w (Action.put sha key res) := by
  unfold Action.put
  split_ifs with kind skipped
  · trivial
  · trivial
  · cases written : Action.marshal Wire.stepResult res with
    | none => trivial
    | some body =>
      refine (fits_put inj (mem body written)).bind inv fun r w' ext done => ?_
      cases r with
      | error e => trivial
      | ok id =>
        obtain ⟨rfl, stored⟩ := done
        refine ⟨fun e => trivial, fun rest => ⟨not_final_idx rest, fun i w₁ ext₁ => ⟨_, _, rfl, fun w₂ ext₂ e => ?_,
          fun a e w₂ part ext₂ _ => ?_⟩⟩⟩
        · cases e with
          | some e => exact ⟨⟨_, _, rfl⟩, fun _ _ _ => trivial⟩
          | none =>
            refine ⟨_, _, rfl, final_file key, fun w₃ ext₃ => ?_, fun e => trivial, fun _ _ _ _ => trivial⟩
            have open_ : ¬(res.verdict = "pass" ∨ res.verdict = "validated") := fun pass => skipped (.inr (.inr pass))
            exact .index (own fun incomplete => skipped (.inr (.inl incomplete))) (by simpa using kind) open_ written
              (stored.mono (ext₁.grows.trans (ext₂.grows.trans ext₃.grows)))
        · exact ⟨⟨_, _, rfl⟩, fun _ _ _ => trivial⟩

variable (sha Entry) in
/-- A result that was found is what is read of the result that was published last for the key. -/
def Answers (key : Action.Key) (log : List (Link γ)) (r : Option Plan.StepResult) : Prop :=
  match (log.filter (·.name = Action.file sha key)).getLast? with
  | none => r = none
  | some l => ∃ key' res body, Entry l.call key' res ∧ key'.digest sha = key.digest sha ∧
      Action.marshal Wire.stepResult res = some body ∧ r.isSome ∧ r = Action.unmarshal Wire.stepResult body

theorem Answers.hit {log : List (Link γ)} {hit : Plan.StepResult} (h : Answers sha Entry key log (some hit)) :
    ∃ g key' res body, Entry g key' res ∧ key'.digest sha = key.digest sha ∧
    Action.marshal Wire.stepResult res = some body ∧
      some hit = Action.unmarshal Wire.stepResult body := by
  unfold Answers at h
  cases last : (log.filter (·.name = Action.file sha key)).getLast? with
  | none =>
    rw [last] at h
    cases h
  | some l =>
    rw [last] at h
    obtain ⟨key', res, body, own, same, written, -, hit⟩ := h
    exact ⟨l.call, key', res, body, own, same, written, hit⟩

variable (sha Entry) in
/-- At some moment of the call, this was the answer. -/
def LookedUp (key : Action.Key) (w₀ : World γ) (r : Except Action.Err (Option Plan.StepResult)) (w : World γ) : Prop :=
  (∃ e, r = .error e ∧ e.Outside) ∨ ∃ log found, w₀.log <+: log ∧ log <+: w.log ∧ r = .ok found ∧
    Answers sha Entry key log found

theorem stable_lookedUp (r : Except Action.Err (Option Plan.StepResult)) : Stable (rules sha Entry S)
    (LookedUp sha Entry key w₀ r) := by
  intro w w' grows _ done
  rcases done with outside | ⟨log, found, sub, sub', rest⟩
  · exact .inl outside
  · exact .inr ⟨log, found, sub, sub'.trans grows.log, rest⟩

theorem fits_cacheGet (inv : Inv (rules sha Entry S) w) (inj : Set.InjOn sha.sum S)
    (alike : ∀ g key' res, Entry g key' res → key'.digest sha = key.digest sha → Action.cacheable key'.kind = true →
      Action.cacheable key.kind = true) :
    Fits (rules sha Entry S) g (LookedUp sha Entry key w) o w (Action.get sha key) := by
  unfold Action.get
  by_cases kind : Action.cacheable key.kind = true
  · rw [kind, Bool.not_true, if_neg Bool.false_ne_true]
    refine (Fits.readFile (final_file key)).bind inv fun r w' ext read => ?_
    cases r with
    | error e =>
      cases e with
      | some e => exact .inl ⟨_, rfl, trivial⟩
      | none =>
        obtain ⟨log, sub, sub', none_⟩ := read
        refine .inr ⟨log, none, sub, sub', rfl, ?_⟩
        simp [Answers, none_]
    | ok raw =>
      obtain ⟨log, l, sub, sub', last, rfl⟩ := read
      have hl := List.mem_filter.mp (List.mem_of_getLast? last)
      have name : l.name = Action.file sha key := of_decide_eq_true hl.2
      obtain ⟨key', res, body, own, same, -, open_, written, stored, data⟩ :=
        entry_of_file ext.inv (sub'.subset hl.1) name
      have digits := (Cas.valid_iff.mp (sha.valid_sum body)).2
      dsimp only
      rw [data, trimSpaceBytes_of_hex digits]
      refine (fits_get ext.inv inj).bind ext.inv fun r w'' ext' done => ?_
      rcases done.found body rfl stored with rfl | ⟨e, rfl, outside⟩
      · have back := Action.unmarshal_marshal Action.scrubs_stepResult written
        dsimp only
        rw [back]
        dsimp only [Action.scrubResult]
        rw [if_neg open_]
        refine .inr ⟨log, _, sub, sub'.trans ext'.grows.log, rfl, ?_⟩
        rw [Answers, last]
        exact ⟨key', res, body, own, same, written, rfl, back.symm⟩
      · exact .inl ⟨_, rfl, outside⟩
  · rw [Bool.not_eq_true] at kind
    rw [kind, Bool.not_false, if_pos rfl]
    refine .inr ⟨w.log, none, List.prefix_rfl, List.prefix_rfl, rfl, ?_⟩
    have none_ : w.log.filter (·.name = Action.file sha key) = [] := by
      refine List.filter_eq_nil_iff.mpr fun l hl name => ?_
      obtain ⟨key', res, body, own, same, kind', -⟩ := entry_of_file inv hl (of_decide_eq_true name)
      rw [alike _ _ _ own same kind'] at kind
      cases kind
    simp [Answers, none_]

end

end Aquila

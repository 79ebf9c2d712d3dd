import Aquila.Validate
import Aquila.Theorems.Jobs.Admission

/-! Gateways with two names: when the occupancy of the jobs and the validation policy agree on which targets are
    one gateway. -/

namespace Aquila

/-! ### Hosts as they are written -/

/-- A host without its port, and the port with its colon, as `splitHostPort` cuts them. -/
def splitPort (host : List Char) : List Char × List Char :=
  match cutLastColon host with
  | some (h, p) => if validOptionalPort p then (h, p) else (host, [])
  | none => (host, [])

def bracketed (host : List Char) : Bool := host.head? = some '[' && host.getLast? = some ']'

def unbracket (host : List Char) : List Char := if bracketed host then (host.drop 1).dropLast else host

theorem hostname_eq (u : URL) : u.hostname = .ofList (unbracket (splitPort u.host.toList).1) := by
  unfold URL.hostname splitHostPort splitPort unbracket bracketed
  cases cutLastColon u.host.toList with
  | none => rfl
  | some cut =>
    dsimp only
    by_cases valid : validOptionalPort cut.2 = true
    · simp only [valid, if_true]
    · simp only [valid, if_false, Bool.false_eq_true]

theorem cutLastColon_eq {s h p : List Char} (cut : cutLastColon s = some (h, p)) : h ++ p = s := by
  unfold cutLastColon at cut
  split at cut
  · cases cut
  · rename_i c before rest
    obtain ⟨rfl, rfl⟩ := Prod.mk.inj (Option.some.inj cut)
    have whole := congrArg List.reverse (List.takeWhile_append_dropWhile (p := (· ≠ ':')) (l := s.reverse))
    rw [rest, List.reverse_append, List.reverse_reverse, List.reverse_cons, List.append_assoc] at whole
    rw [← whole]
    simp

theorem splitPort_append (host : List Char) : (splitPort host).1 ++ (splitPort host).2 = host := by
  unfold splitPort
  split
  · rename_i h p cut
    split_ifs
    · exact cutLastColon_eq cut
    · simp
  · simp

theorem bracketed_eq {host : List Char} (h : bracketed host = true) : host = '[' :: unbracket host ++ [']'] := by
  unfold unbracket
  rw [if_pos h]
  simp only [bracketed, Bool.and_eq_true, decide_eq_true_eq] at h
  obtain ⟨first, last⟩ := h
  cases host with
  | nil => cases first
  | cons c rest =>
    obtain rfl := Option.some.inj first
    cases rest using List.reverseRecOn with
    | nil => simp at last
    | append_singleton rest d =>
      rw [← List.cons_append, List.getLast?_concat] at last
      simp [Option.some.inj last]

theorem host_ext {l l' : List Char} (name : unbracket (splitPort l).1 = unbracket (splitPort l').1)
    (brackets : bracketed (splitPort l).1 = bracketed (splitPort l').1)
    (port : (splitPort l).2 = (splitPort l').2) : l = l' := by
  rw [← splitPort_append l, ← splitPort_append l', port]
  congr 1
  cases written : bracketed (splitPort l).1 with
  | true =>
    have written' : bracketed (splitPort l').1 = true := brackets ▸ written
    rw [bracketed_eq written, bracketed_eq written', name]
  | false =>
    rw [unbracket, unbracket, ← brackets, written] at name
    simpa using name

/-! ### Letter case -/

/-- The characters that separate the parts of a host, and the digits of its port. -/
def hostMarks : List Char := [':', '[', ']', '0', '1', '2', '3', '4', '5', '6', '7', '8', '9']

theorem hostMarks_ascii {d : Char} (hd : d ∈ hostMarks) : d.toNat < 128 := by
  have all : hostMarks.all (fun d => d.toNat < 128) = true := by decide
  exact of_decide_eq_true (List.all_eq_true.mp all d hd)

/-- What `net/url` and `unicode` are documented to do, as far as targets depend on it. -/
structure Lib.Standard (lib : Lib) : Prop where
  -- a URL is written with its scheme and a colon first
  scheme : ∀ u : URL, u.scheme ≠ "" → ∃ rest, lib.urlString u = u.scheme ++ ":" ++ rest
  -- outside ASCII, lower case is a letter or the character itself
  letters : ∀ c : Char, 128 ≤ c.toNat → lib.lowerRune c ∉ hostMarks

section
variable {lib : Lib}

/-- The lower case of a character. -/
def Lib.lower (lib : Lib) (c : Char) : Char := if c.toNat < 128 then asciiLower c else lib.lowerRune c

theorem toList_toLower (lib : Lib) (s : String) : (lib.toLower s).toList = s.toList.map lib.lower := by
  rw [Lib.toLower, String.toList_ofList]
  rfl

theorem asciiLower_eq_iff {c d : Char} (hd : d ∈ hostMarks) : asciiLower c = d ↔ c = d := by
  unfold asciiLower
  split_ifs with upper
  · have first : 65 ≤ c.toNat := upper.1
    have last : c.toNat ≤ 90 := upper.2
    have outside : Char.ofNat (c.toNat + 32) ∉ hostMarks ∧ c ∉ hostMarks := by
      have char := Char.ofNat_toNat c
      generalize c.toNat = n at first last char ⊢
      rw [← char]
      interval_cases n <;> decide
    exact iff_of_false (fun same => outside.1 (same ▸ hd)) fun same => outside.2 (same ▸ hd)
  · rfl

theorem Lib.Standard.lower_eq_iff (std : lib.Standard) {c d : Char} (hd : d ∈ hostMarks) : lib.lower c = d ↔ c = d := by
  unfold Lib.lower
  split_ifs with ascii
  · exact asciiLower_eq_iff hd
  · exact iff_of_false (fun same => std.letters c (not_lt.mp ascii) (same ▸ hd)) fun same =>
      ascii (same ▸ hostMarks_ascii hd)

theorem cutLastColon_map (std : lib.Standard) (s : List Char) :
    cutLastColon (s.map lib.lower) = (cutLastColon s).map fun cut => (cut.1.map lib.lower, cut.2.map lib.lower) := by
  have colon : (fun c => decide (c ≠ ':')) ∘ lib.lower = fun c => decide (c ≠ ':') := by
    funext c
    simp [std.lower_eq_iff (d := ':') (by decide)]
  unfold cutLastColon
  rw [← List.map_reverse, List.dropWhile_map, colon]
  cases s.reverse.dropWhile fun c => decide (c ≠ ':') with
  | nil => rfl
  | cons c before => simp

theorem digit_mem {c : Char} (digit : ('0' ≤ c && c ≤ '9') = true) : c ∈ hostMarks := by
  simp only [Bool.and_eq_true, decide_eq_true_eq] at digit
  have first : 48 ≤ c.toNat := digit.1
  have last : c.toNat ≤ 57 := digit.2
  rw [← Char.ofNat_toNat c]
  generalize c.toNat = n at first last
  interval_cases n <;> decide

theorem map_lower_port (std : lib.Standard) {p : List Char} (valid : validOptionalPort p = true) :
    p.map lib.lower = p := by
  refine (List.map_congr_left fun c hc => ?_).trans (List.map_id p)
  refine (std.lower_eq_iff ?_).mpr rfl
  cases p with
  | nil => cases hc
  | cons c rest =>
    simp only [validOptionalPort, Bool.and_eq_true, decide_eq_true_eq] at valid
    rcases List.mem_cons.mp hc with rfl | hc
    · rw [valid.1]; decide
    · exact digit_mem (List.all_eq_true.mp valid.2 _ hc)

theorem validOptionalPort_map (std : lib.Standard) (p : List Char) :
    validOptionalPort (p.map lib.lower) = validOptionalPort p := by
  cases p with
  | nil => rfl
  | cons c rest =>
    simp only [validOptionalPort, List.map_cons, List.all_map]
    have colon : (lib.lower c = ':') = (c = ':') := propext (std.lower_eq_iff (by decide))
    congr 1
    · simp only [colon]
    · congr 1
      funext d
      by_cases digit : ('0' ≤ d && d ≤ '9') = true
      · simp only [Function.comp, (std.lower_eq_iff (digit_mem digit)).mpr rfl]
      · by_cases lowered : ('0' ≤ lib.lower d && lib.lower d ≤ '9') = true
        · have same : d = lib.lower d := (std.lower_eq_iff (digit_mem lowered)).mp rfl
          exact absurd (same ▸ lowered) digit
        · rw [Bool.not_eq_true] at digit lowered
          exact lowered.trans digit.symm

theorem splitPort_map (std : lib.Standard) (host : List Char) :
    splitPort (host.map lib.lower) = ((splitPort host).1.map lib.lower, (splitPort host).2) := by
  unfold splitPort
  rw [cutLastColon_map std]
  cases cutLastColon host with
  | none => rfl
  | some cut =>
    simp only [Option.map_some, validOptionalPort_map std]
    split_ifs with valid
    · rw [map_lower_port std valid]
    · rfl

theorem bracketed_map (std : lib.Standard) (host : List Char) : bracketed (host.map lib.lower) = bracketed host := by
  unfold bracketed
  rw [List.head?_map, List.getLast?_map]
  have first : ((host.head?.map lib.lower) = some '[') = (host.head? = some '[') := by
    simp [Option.map_eq_some_iff, std.lower_eq_iff (d := '[') (by decide)]
  have last : ((host.getLast?.map lib.lower) = some ']') = (host.getLast? = some ']') := by
    simp [Option.map_eq_some_iff, std.lower_eq_iff (d := ']') (by decide)]
  simp only [first, last]

theorem unbracket_map (std : lib.Standard) (host : List Char) :
    unbracket (host.map lib.lower) = (unbracket host).map lib.lower := by
  unfold unbracket
  rw [bracketed_map std]
  split_ifs
  · rw [List.map_dropLast, List.map_drop]
  · rfl

/-- How a host is written: its name in lower case, whether it stands in brackets, and its port with the colon. -/
structure HostForm where
  name : String
  brackets : Bool
  port : List Char
deriving DecidableEq, Repr

def URL.form (lib : Lib) (u : URL) : HostForm :=
  { name := lib.toLower u.hostname
    brackets := bracketed (splitPort u.host.toList).1
    port := (splitPort u.host.toList).2 }

theorem Lib.Standard.toLower_host_iff (std : lib.Standard) (u v : URL) :
    lib.toLower u.host = lib.toLower v.host ↔ u.form lib = v.form lib := by
  have name : ∀ u : URL, (lib.toLower u.hostname).toList = unbracket (splitPort (u.host.toList.map lib.lower)).1 := by
    intro u
    rw [toList_toLower, hostname_eq, String.toList_ofList, splitPort_map std, unbracket_map std]
  rw [← String.toList_inj, toList_toLower, toList_toLower]
  constructor
  · intro same
    have split := congrArg splitPort same
    rw [splitPort_map std, splitPort_map std, Prod.mk.injEq] at split
    have brackets := congrArg bracketed split.1
    rw [bracketed_map std, bracketed_map std] at brackets
    have names : lib.toLower u.hostname = lib.toLower v.hostname := by
      rw [← String.toList_inj, name, name, same]
    simp only [URL.form, names, brackets, split.2]
  · intro same
    obtain ⟨names, brackets, port⟩ := HostForm.mk.inj same
    have names := congrArg String.toList names
    rw [name, name] at names
    refine host_ext names ?_ ?_
    · simpa only [splitPort_map std, bracketed_map std] using brackets
    · simpa only [splitPort_map std] using port

end

end Aquila

namespace Aquila.Jobs
open Validate (normURL)

/-! ### Targets -/

/-- A target that `validateCreate` accepts. -/
def Target (lib : Lib) (raw : String) : Prop := httpURL raw = true ∧ Netguard.checkURL lib raw = none

instance (lib : Lib) (raw : String) : Decidable (Target lib raw) := inferInstanceAs (Decidable (_ ∧ _))

/-- How the host of a target is written. -/
def spelling (lib : Lib) (raw : String) : Option HostForm :=
  match lib.parseURL (trimSpace raw) with
  | .ok u => some (u.form lib)
  | .error _ => none

section
variable {lib : Lib} {a b : String}

theorem Target.parsed (h : Target lib a) :
    ∃ u, lib.parseURL (trimSpace a) = .ok u ∧ (u.scheme = "http" ∨ u.scheme = "https") ∧ u.host ≠ "" := by
  obtain ⟨-, checked⟩ := h
  unfold Netguard.checkURL at checked
  cases parsed : lib.parseURL (trimSpace a) with
  | error e => simp [parsed] at checked
  | ok u =>
    rw [parsed] at checked
    dsimp only at checked
    split_ifs at checked with scheme user missing
    have known : u.scheme = "http" ∨ u.scheme = "https" := by
      by_contra other
      exact scheme (not_or.mp other)
    refine ⟨u, rfl, known, fun empty => missing ?_⟩
    have nothing : trimSuffix (splitHostPort "").1 "." = "" := by decide +kernel
    rw [URL.hostname, empty, nothing]
    rfl

theorem trimRight_append {x rest : String} {c d : Char} (last : x.toList.getLast? = some d) (other : d ≠ c) :
    ∃ r, (trimRight (x ++ rest) c).toList = x.toList ++ r := by
  obtain ⟨front, hx⟩ := List.getLast?_eq_some_iff.mp last
  refine ⟨(rest.toList.reverse.dropWhile fun e => decide (e = c)).reverse, ?_⟩
  rw [trimRight, String.toList_ofList, String.toList_append, List.reverse_append, List.dropWhile_append]
  split_ifs with blank
  · rw [List.isEmpty_iff.mp blank, hx]
    simp [other]
  · simp

theorem urlString_scheme (std : lib.Standard) {u : URL} {scheme : String} (hu : u.scheme = scheme)
    (written : scheme ≠ "") :
    ∃ r, (trimRight (lib.urlString u) '/').toList = (scheme ++ ":").toList ++ r := by
  obtain ⟨rest, text⟩ := std.scheme u (hu ▸ written)
  have colon : (scheme ++ ":").toList.getLast? = some ':' := by simp
  rw [text, hu]
  exact trimRight_append colon (by decide)

theorem normURL_scheme (std : lib.Standard) {u : URL} (parsed : lib.parseURL (trimSpace a) = .ok u)
    (scheme : u.scheme = "http" ∨ u.scheme = "https") :
    ∃ r, (normURL lib a).toList = (u.scheme ++ ":").toList ++ r := by
  have lower : lib.toLower u.scheme = u.scheme := by rcases scheme with h | h <;> rw [h] <;> rfl
  have written : u.scheme ≠ "" := by rcases scheme with h | h <;> rw [h] <;> decide
  simp only [normURL, parsed]
  exact urlString_scheme std lower written

theorem scheme_eq (std : lib.Standard) {u v : URL} (ha : lib.parseURL (trimSpace a) = .ok u)
    (hb : lib.parseURL (trimSpace b) = .ok v) (hu : u.scheme = "http" ∨ u.scheme = "https")
    (hv : v.scheme = "http" ∨ v.scheme = "https") (same : normURL lib a = normURL lib b) : u.scheme = v.scheme := by
  obtain ⟨r, hr⟩ := normURL_scheme std ha hu
  obtain ⟨r', hr'⟩ := normURL_scheme std hb hv
  rw [same, hr'] at hr
  rcases hu with hu | hu <;> rcases hv with hv | hv <;> rw [hu, hv] at hr ⊢ <;> simp at hr

/-- Targets that the policy takes for one gateway have one occupancy key exactly when their hosts are written alike. -/
theorem occupancyKey_iff (std : lib.Standard) (ha : Target lib a) (hb : Target lib b)
    (same : normURL lib a = normURL lib b) :
    occupancyKey lib a = occupancyKey lib b ↔ spelling lib a = spelling lib b := by
  obtain ⟨u, hu, uscheme, uhost⟩ := ha.parsed
  obtain ⟨v, hv, vscheme, vhost⟩ := hb.parsed
  have scheme := scheme_eq std hu hv uscheme vscheme same
  have form := std.toLower_host_iff u v
  simp only [occupancyKey, spelling, hu, hv, uhost, vhost, if_false, scheme, Option.some.injEq, ← form]
  constructor
  · intro keys
    have := congrArg String.toList keys
    simpa [String.toList_inj] using this
  · intro hosts
    rw [hosts]

theorem validateCreate_accepts {now : Time} {opts : CreateOpts} (h : validateCreate lib now opts = none) :
    ∀ a ∈ [opts.baseline, opts.patch], Target lib a := by
  have named := validateCreate_targets h
  unfold validateCreate at h
  rw [Option.or_eq_none_iff, Option.or_eq_none_iff] at h
  have checked := h.2.2
  rw [checkOpts, if_neg (not_or.mpr named)] at checked
  cases baseline : httpURL opts.baseline with
  | false => simp [baseline] at checked
  | true =>
    cases patch : httpURL opts.patch with
    | false => simp [baseline, patch] at checked
    | true =>
      cases baselineErr : Netguard.checkURL lib opts.baseline with
      | some e => simp [baseline, patch, baselineErr] at checked
      | none =>
        cases patchErr : Netguard.checkURL lib opts.patch with
        | some e => simp [baseline, patch, baselineErr, patchErr] at checked
        | none => simp [Target, baseline, patch, baselineErr, patchErr]

end

/-! ### Jobs -/

def Job.targets (j : Job) : List String := [j.baseline, j.patch]

theorem occupancyKey_mem {lib : Lib} {j : Job} {a : String} (ha : a ∈ j.targets) :
    occupancyKey lib a ∈ occupancyKeys lib j := by
  unfold occupancyKeys
  dsimp only
  split_ifs with same
  · rcases List.mem_cons.mp ha with rfl | ha
    · exact List.mem_singleton_self _
    · rw [List.mem_singleton.mp ha, ← same]
      exact List.mem_singleton_self _
  · exact List.mem_map_of_mem (f := occupancyKey lib) ha

theorem Evolves.targets {j j' : Job} (h : Evolves j j') : j'.targets = j.targets := by
  have baseline : j'.baseline = j.baseline := (congrArg Job.baseline h.static :)
  have patch : j'.patch = j.patch := (congrArg Job.patch h.static :)
  rw [Job.targets, Job.targets, baseline, patch]

namespace Board
variable {lib : Lib} {q : Quota} {sees : Job → Bool} {tr : Trace} {js js' : List Job} {op : Op} {resp : Resp}

/-- Targets that the policy takes for one gateway are written alike. -/
def WrittenAlike (lib : Lib) (as bs : List String) : Prop :=
  ∀ a ∈ as, ∀ b ∈ bs, normURL lib a = normURL lib b → spelling lib a = spelling lib b

instance (lib : Lib) (as bs : List String) : Decidable (WrittenAlike lib as bs) :=
  inferInstanceAs (Decidable (∀ a ∈ as, ∀ b ∈ bs, normURL lib a = normURL lib b → spelling lib a = spelling lib b))

def Alike (lib : Lib) (j j' : Job) : Prop :=
  j.occupies = true → j'.occupies = true → WrittenAlike lib j.targets j'.targets

instance : Std.Symm (Alike lib) :=
  ⟨fun _ _ alike occupies occupies' a ha b hb same => (alike occupies' occupies b hb a ha same.symm).symm⟩

/-- A `Create` writes its targets as the unfinished jobs write those that the policy takes for the same gateway. -/
def AlikeTargets (lib : Lib) (js : List Job) : Op → Prop
  | .create opts _ _ => ∀ j ∈ js, j.occupies = true → WrittenAlike lib j.targets [opts.baseline, opts.patch]
  | _ => True

instance (lib : Lib) (js : List Job) : DecidablePred (AlikeTargets lib js)
  | .create opts _ _ =>
    inferInstanceAs (Decidable (∀ j ∈ js, j.occupies = true → WrittenAlike lib j.targets [opts.baseline, opts.patch]))
  | .get _ | .list _ _ | .lease _ _ _ | .heartbeat _ _ _ _ | .commit _ _ _ _ | .requeueExpired _ | .cancel _ =>
    inferInstanceAs (Decidable True)

theorem Inv.target (inv : Inv lib tr js) {j : Job} (hj : j ∈ js) {a : String} (ha : a ∈ j.targets) : Target lib a := by
  obtain ⟨opts, id, clock, -, valid, static⟩ := inv.created j hj
  have baseline : j.baseline = opts.baseline := (congrArg Job.baseline static :)
  have patch : j.patch = opts.patch := (congrArg Job.patch static :)
  rw [Job.targets, baseline, patch] at ha
  exact validateCreate_accepts valid a ha

theorem alike_step (inv : Inv lib tr js) (alike : js.Pairwise (Alike lib)) (written : AlikeTargets lib js op)
    (step : Step lib q sees js op resp js') : js'.Pairwise (Alike lib) := by
  obtain ⟨old, new, rfl, advances, adds⟩ := step.advances inv
  have evolved : List.Forall₂ Evolves js old := advances.imp fun _ _ h => h.evolves
  have kept : old.Pairwise (Alike lib) := by
    refine Lists.pairwise_of_forall₂ evolved alike fun hj hj' alike occupies occupies' => ?_
    rw [hj.targets, hj'.targets]
    exact alike (hj.occupies occupies) (hj'.occupies occupies')
  cases adds with
  | none => rwa [List.append_nil]
  | created =>
    refine List.pairwise_append.mpr ⟨kept, List.pairwise_singleton _ _, fun j' hj' new hnew occupies _ => ?_⟩
    obtain ⟨j, hj, evolves⟩ := Lists.forall₂_mem_right evolved hj'
    rw [List.mem_singleton.mp hnew, evolves.targets]
    exact written j hj (evolves.occupies occupies)

end Board

/-- The occupancy of jobs and the policy agree on gateways, for targets that are written alike. -/
theorem gateways_agree {lib : Lib} (std : lib.Standard) :
    (∀ a b, Target lib a → Target lib b → normURL lib a = normURL lib b →
      (occupancyKey lib a = occupancyKey lib b ↔ spelling lib a = spelling lib b)) ∧
    ∀ (q : Quota) (k : StoreKind) (tr : Trace) (s : (k.machine lib q).State),
      (k.within lib q (Board.AlikeTargets lib)).Run FreshIDs tr s →
      ∀ j ∈ k.jobs lib q s, ∀ j' ∈ k.jobs lib q s, j ≠ j' → j.occupies = true → j'.occupies = true →
        ∀ a ∈ j.targets, ∀ b ∈ j'.targets, normURL lib a ≠ normURL lib b := by
  refine ⟨fun a b => occupancyKey_iff std, fun q k tr s run j hj j' hj' other occupies occupies' a ha b hb same => ?_⟩
  have base : (k.machine lib q).Run FreshIDs tr s := run.of_restrict
  have inv := StoreKind.inv_of_run id base
  have alike : (k.jobs lib q s).Pairwise (Board.Alike lib) := by
    refine run.inv_restrict (P := fun _ s => (k.jobs lib q s).Pairwise (Board.Alike lib)) ?_ ?_
    · rw [k.jobs_init]
      exact .nil
    · intro tr s op resp s' run alike fresh written step
      exact Board.alike_step (StoreKind.inv_of_run id run) alike written (StoreKind.board_step id run fresh step)
  have written := alike.forall hj hj' other occupies occupies' a ha b hb same
  have key := (occupancyKey_iff std (inv.target hj ha) (inv.target hj' hb) same).mpr written
  exact (admitted_of_run base).gateways.forall hj hj' other occupies occupies' (occupancyKey_mem ha)
    (key ▸ occupancyKey_mem hb)

namespace Sample

theorem plain_standard : Lib.plain.Standard where
  scheme u _ := ⟨"//" ++ u.host ++ u.path, by
    rw [← String.toList_inj]
    simp [Lib.plain]⟩
  letters _ outside mark := absurd (hostMarks_ascii mark) (not_lt.mpr outside)

def createLocal : Op :=
  .create { opts [{ id := "env", kind := "env" }] with baseline := "http://localhost", patch := "http://b" } jobID clock

def createLoopback : Op :=
  .create { opts [{ id := "env", kind := "env" }] with
    baseline := "http://127.0.0.1", patch := "http://d" } otherID clock

end Sample

open Sample in
theorem gateways_agree_sample :
    occupancyKey Lib.plain "http://Shop:1" = occupancyKey Lib.plain "http://shop:1/" ∧
      ∀ j ∈ StoreKind.jobs Lib.plain {} .postgres (play .postgres [createLocal, createOther]).2,
        ∀ j' ∈ StoreKind.jobs Lib.plain {} .postgres (play .postgres [createLocal, createOther]).2, j ≠ j' →
          j.occupies = true → j'.occupies = true → ∀ a ∈ j.targets, ∀ b ∈ j'.targets,
            normURL Lib.plain a ≠ normURL Lib.plain b := by
  have playable : Playable .postgres (Board.AlikeTargets Lib.plain) [createLocal, createOther] := by decide +kernel
  obtain ⟨keys, runs⟩ := gateways_agree plain_standard
  exact ⟨(keys _ _ (by decide +kernel) (by decide +kernel) (by decide +kernel)).mpr (by decide +kernel),
    runs _ _ _ _ (StoreKind.postgres.play_run playable)⟩

open Sample in
/-- Two names of the local host: one gateway for the policy, two for the occupancy of jobs. -/
theorem gateways_agree_fails :
    (Target Lib.plain "http://localhost" ∧ Target Lib.plain "http://127.0.0.1" ∧
      normURL Lib.plain "http://localhost" = normURL Lib.plain "http://127.0.0.1" ∧
      occupancyKey Lib.plain "http://localhost" ≠ occupancyKey Lib.plain "http://127.0.0.1") ∧
    ∀ k : StoreKind, (k.machine Lib.plain {}).Run FreshIDs (play k [createLocal, createLoopback]).1
        (play k [createLocal, createLoopback]).2 ∧
      ∃ j ∈ StoreKind.jobs Lib.plain {} k (play k [createLocal, createLoopback]).2,
        ∃ j' ∈ StoreKind.jobs Lib.plain {} k (play k [createLocal, createLoopback]).2, j ≠ j' ∧ j.occupies = true ∧
          j'.occupies = true ∧ ∃ a ∈ j.targets, ∃ b ∈ j'.targets, normURL Lib.plain a = normURL Lib.plain b := by
  refine ⟨by decide +kernel, fun k => ?_⟩
  cases k with
  | memory => exact ⟨Sample.run .memory _ (by decide +kernel), by decide +kernel⟩
  | postgres => exact ⟨Sample.run .postgres _ (by decide +kernel), by decide +kernel⟩

end Aquila.Jobs

import Aquila.Lib.Disk

/-! Files are published by renaming them when they are complete. A call writes only to temporary files and reads
    only what is published, which then stays as it is. -/

namespace Disk
variable {q : Path} {d : Disk} {i : Nat}

/-- A renaming: who did it, the name, and the file that has got it. -/
structure Link (γ : Type) where
  call : γ
  name : Path
  file : Nat
deriving DecidableEq, Repr

/-- A disk and the renamings so far. -/
structure World (γ : Type) where
  disk : Disk
  log : List (Link γ)

section
variable {γ : Type}

/-- Files that were published are not written any more. -/
structure Grows (w w' : World γ) : Prop where
  log : w.log <+: w'.log
  files : w.disk.files.length ≤ w'.disk.files.length
  data : ∀ l ∈ w.log, w'.disk.data l.file = w.disk.data l.file

theorem Grows.refl (w : World γ) : Grows w w := ⟨List.prefix_rfl, le_rfl, fun _ _ => rfl⟩

theorem Grows.trans {w w' w'' : World γ} (h : Grows w w') (h' : Grows w' w'') : Grows w w'' :=
  ⟨h.log.trans h'.log, Nat.le_trans h.files h'.files, fun l hl => (h'.data l (h.log.subset hl)).trans (h.data l hl)⟩

variable (γ) in
/-- Which names are published, and what may be published under them. -/
structure Rules where
  Final : Path → Prop
  Good : World γ → γ → Path → List UInt8 → Prop
  mono : ∀ {w w' g p b}, Grows w w' → Good w g p b → Good w' g p b

variable (R : Rules γ)

/-- The file that was published last under a name. -/
def World.latest (w : World γ) (p : Path) : Option Nat := ((w.log.filter (·.name = p)).getLast?).map Link.file

/-- Under the names that are published is what was published last under them, and all of it is good. -/
structure Inv (w : World γ) : Prop where
  numbered : ∀ l ∈ w.log, l.file < w.disk.files.length
  final : ∀ l ∈ w.log, R.Final l.name
  latest : ∀ p, R.Final p → w.disk.find p = w.latest p
  good : ∀ l ∈ w.log, R.Good w l.call l.name (w.disk.data l.file)

/-- A temporary file. -/
structure Held where
  name : Path
  file : Nat
  data : List UInt8

/-- The file is there, and is not published. -/
structure Held.Kept (x : Held) (w : World γ) : Prop where
  temp : ¬R.Final x.name
  found : w.disk.find x.name = some x.file
  data : w.disk.data x.file = x.data
  numbered : x.file < w.disk.files.length
  fresh : ∀ l ∈ w.log, l.file ≠ x.file

def Holds (o : Option Held) (w : World γ) : Prop := ∀ x, o = some x → x.Kept R w

/-- What a call that holds `o` may meet later. -/
structure Ext (o : Option Held) (w w' : World γ) : Prop where
  grows : Grows w w'
  inv : Inv R w'
  holds : Holds R o w'

variable {R}

theorem holds_none {w : World γ} : Holds R none w := fun _ held => by cases held

theorem Ext.trans {o o' : Option Held} {w w' w'' : World γ} (h : Ext R o w w') (h' : Ext R o' w' w'') :
    Ext R o' w w'' :=
  ⟨h.grows.trans h'.grows, h'.inv, h'.holds⟩

end

/-! ### Calls that keep to the rules -/

section
variable {γ ρ σ : Type} (R : Rules γ) (g : γ)

/-- Whatever others do meanwhile, the call `g` keeps to the rules: it writes to and removes only the temporary file
    `o` that it holds, publishes what is good, and reads only what is published. What it returns satisfies `Q`. -/
def Fits (Q : ρ → World γ → Prop) : Option Held → World γ → Prog ρ → Prop
  | _, w, .ret r => Q r w
  | o, w, .ask k => ∀ e, Fits Q o w (k e)
  | o, w, .stat p k => (∀ w', Ext R o w w' → (w'.disk.find p).isSome → Fits Q o w' (k true)) ∧ Fits Q o w (k false)
  | o, w, .mkdirAll _ k => ∀ e, Fits Q o w (k e)
  | o, w, .createTemp dir start k => (∀ e, Fits Q o w (k (.error e))) ∧
      ∀ rest, ¬R.Final (dir ++ [start ++ rest]) ∧ ∀ i w', Ext R (some ⟨dir ++ [start ++ rest], i, []⟩) w w' →
        Fits Q (some ⟨dir ++ [start ++ rest], i, []⟩) w' (k (.ok (dir ++ [start ++ rest], i)))
  | o, w, .write i b k => ∃ p c, o = some ⟨p, i, c⟩ ∧
      (∀ w', Ext R (some ⟨p, i, c ++ b⟩) w w' → Fits Q (some ⟨p, i, c ++ b⟩) w' (k none)) ∧
      ∀ a e w', a <+: b → Ext R (some ⟨p, i, c ++ a⟩) w w' → Fits Q (some ⟨p, i, c ++ a⟩) w' (k (some e))
  | o, w, .close _ k => ∀ e, Fits Q o w (k e)
  | o, w, .rename p q k => ∃ i b, o = some ⟨p, i, b⟩ ∧ R.Final q ∧ (∀ w', Ext R o w w' → R.Good w' g q b) ∧
      (∀ e, Fits Q o w (k (some e))) ∧
      ∀ w', Ext R none w w' → (⟨g, q, i⟩ : Link γ) ∈ w'.log → w'.disk.data i = b → Fits Q none w' (k none)
  | o, w, .remove p k => (∃ i b, o = some ⟨p, i, b⟩) ∧ ∀ e w', Ext R none w w' → Fits Q none w' (k e)
  | o, w, .open_ p k => R.Final p ∧ (∀ e, Fits Q o w (k (.error (some e)))) ∧
      ∀ w', Ext R o w w' → (w'.latest p = none → Fits Q o w' (k (.error none))) ∧
        ∀ i, w'.latest p = some i → Fits Q o w' (k (.ok i))
  | o, w, .read i got k => (∃ l ∈ w.log, l.file = i) ∧ got <+: w.disk.data i ∧ (∀ e, Fits Q o w (k (.error e))) ∧
      Fits Q o w (k (.ok (w.disk.data i)))

variable {R g} {Q : ρ → World γ → Prop} {o : Option Held} {w w' : World γ} {p : Prog ρ}

variable (R) in
/-- What stays true, whatever others do. -/
def Stable (Q : World γ → Prop) : Prop := ∀ {w w'}, Grows w w' → Inv R w' → Q w → Q w'

theorem Fits.mono (stable : ∀ r, Stable R (Q r)) (fits : Fits R g Q o w p) (ext : Ext R o w w') :
    Fits R g Q o w' p := by
  induction p generalizing o w w' with
  | ret r => exact stable r ext.grows ext.inv fits
  | ask k ih => exact fun e => ih e (fits e) ext
  | stat p k ih => exact ⟨fun w'' ext' => fits.1 w'' (ext.trans ext'), ih false fits.2 ext⟩
  | mkdirAll p k ih => exact fun e => ih e (fits e) ext
  | createTemp dir start k ih =>
    obtain ⟨failed, made⟩ := fits
    exact ⟨fun e => ih _ (failed e) ext,
      fun rest => ⟨(made rest).1, fun i w'' ext' => (made rest).2 i w'' (ext.trans ext')⟩⟩
  | write i b k ih =>
    obtain ⟨p, c, rfl, written, failed⟩ := fits
    exact ⟨p, c, rfl, fun w'' ext' => written w'' (ext.trans ext'),
      fun a e w'' part ext' => failed a e w'' part (ext.trans ext')⟩
  | close i k ih => exact fun e => ih e (fits e) ext
  | rename p q k ih =>
    obtain ⟨i, b, rfl, final, good, failed, done⟩ := fits
    exact ⟨i, b, rfl, final, fun w'' ext' => good w'' (ext.trans ext'), fun e => ih _ (failed e) ext,
      fun w'' ext' => done w'' (ext.trans ext')⟩
  | remove p k ih => exact ⟨fits.1, fun e w'' ext' => fits.2 e w'' (ext.trans ext')⟩
  | open_ p k ih => exact ⟨fits.1, fun e => ih _ (fits.2.1 e) ext, fun w'' ext' => fits.2.2 w'' (ext.trans ext')⟩
  | read i got k ih =>
    obtain ⟨⟨l, hl, rfl⟩, got, failed, done⟩ := fits
    have same := ext.grows.data l hl
    exact ⟨⟨l, ext.grows.log.subset hl, rfl⟩, same ▸ got, fun e => ih _ (failed e) ext, same ▸ ih _ done ext⟩

theorem Fits.forget (fits : Fits R g Q none w p) : Fits R g Q o w p := by
  have less {o : Option Held} {w w' : World γ} (ext : Ext R o w w') : Ext R none w w' :=
    ⟨ext.grows, ext.inv, holds_none⟩
  induction p generalizing w with
  | ret r => exact fits
  | ask k ih => exact fun e => ih e (fits e)
  | stat p k ih => exact ⟨fun w' ext found => ih true (fits.1 w' (less ext) found), ih false fits.2⟩
  | mkdirAll p k ih => exact fun e => ih e (fits e)
  | createTemp dir start k ih => exact ⟨fun e => ih _ (fits.1 e), fits.2⟩
  | write i b k ih =>
    obtain ⟨q, c, held, -⟩ := fits
    cases held
  | close i k ih => exact fun e => ih e (fits e)
  | rename p q k ih =>
    obtain ⟨i, b, held, -⟩ := fits
    cases held
  | remove p k ih =>
    obtain ⟨⟨i, b, held⟩, -⟩ := fits
    cases held
  | open_ p k ih =>
    refine ⟨fits.1, fun e => ih _ (fits.2.1 e), fun w' ext => ⟨fun absent => ?_, fun i found => ?_⟩⟩
    · exact ih _ ((fits.2.2 w' (less ext)).1 absent)
    · exact ih _ ((fits.2.2 w' (less ext)).2 i found)
  | read i got k ih => exact ⟨fits.1, fits.2.1, fun e => ih _ (fits.2.2.1 e), ih _ fits.2.2.2⟩

theorem Fits.bind {Q' : σ → World γ → Prop} {f : ρ → Prog σ} (fits : Fits R g Q o w p) (inv : Inv R w)
    (next : ∀ r w', Ext R none w w' → Q r w' → Fits R g Q' none w' (f r)) : Fits R g Q' o w (p.bind f) := by
  induction p generalizing o w with
  | ret r => exact (next r w ⟨.refl w, inv, holds_none⟩ fits).forget
  | ask k ih => exact fun e => ih e (fits e) inv next
  | stat p k ih =>
    refine ⟨fun w' ext found => ?_, ih false fits.2 inv next⟩
    exact ih true (fits.1 w' ext found) ext.inv fun r w'' ext' => next r w'' (ext.trans ext')
  | mkdirAll p k ih => exact fun e => ih e (fits e) inv next
  | createTemp dir start k ih =>
    refine ⟨fun e => ih _ (fits.1 e) inv next, fun rest => ⟨(fits.2 rest).1, fun i w' ext => ?_⟩⟩
    exact ih _ ((fits.2 rest).2 i w' ext) ext.inv fun r w'' ext' => next r w'' (ext.trans ext')
  | write i b k ih =>
    obtain ⟨p, c, rfl, written, failed⟩ := fits
    refine ⟨p, c, rfl, fun w' ext => ?_, fun a e w' part ext => ?_⟩
    · exact ih _ (written w' ext) ext.inv fun r w'' ext' => next r w'' (ext.trans ext')
    · exact ih _ (failed a e w' part ext) ext.inv fun r w'' ext' => next r w'' (ext.trans ext')
  | close i k ih => exact fun e => ih e (fits e) inv next
  | rename p q k ih =>
    obtain ⟨i, b, rfl, final, good, failed, done⟩ := fits
    refine ⟨i, b, rfl, final, good, fun e => ih _ (failed e) inv next, fun w' ext hl data => ?_⟩
    exact ih _ (done w' ext hl data) ext.inv fun r w'' ext' => next r w'' (ext.trans ext')
  | remove p k ih =>
    refine ⟨fits.1, fun e w' ext => ?_⟩
    exact ih _ (fits.2 e w' ext) ext.inv fun r w'' ext' => next r w'' (ext.trans ext')
  | open_ p k ih =>
    refine ⟨fits.1, fun e => ih _ (fits.2.1 e) inv next, fun w' ext => ⟨fun absent => ?_, fun i found => ?_⟩⟩
    · exact ih _ ((fits.2.2 w' ext).1 absent) ext.inv fun r w'' ext' => next r w'' (ext.trans ext')
    · exact ih _ ((fits.2.2 w' ext).2 i found) ext.inv fun r w'' ext' => next r w'' (ext.trans ext')
  | read i got k ih => exact ⟨fits.1, fits.2.1, fun e => ih _ (fits.2.2.1 e) inv next, ih _ fits.2.2.2 inv next⟩

/-- What was read from a published name: what was published there last, at some moment since `w₀`. -/
def WasRead (q : Path) (w₀ : World γ) : Except (Option String) (List UInt8) → World γ → Prop
  | .error none, w => ∃ log, w₀.log <+: log ∧ log <+: w.log ∧ log.filter (·.name = q) = []
  | .error (some _), _ => True
  | .ok b, w => ∃ log l, w₀.log <+: log ∧ log <+: w.log ∧ (log.filter (·.name = q)).getLast? = some l ∧
    w.disk.data l.file = b

theorem Fits.readFile (final : R.Final q) : Fits R g (WasRead q w) o w (Prog.readFile q) := by
  refine ⟨final, fun e => trivial, fun w' ext => ⟨fun absent => ?_, fun i found => ?_⟩⟩
  · refine ⟨w'.log, ext.grows.log, List.prefix_rfl, List.getLast?_eq_none_iff.mp ?_⟩
    exact Option.map_eq_none_iff.mp absent
  · obtain ⟨l, last, rfl⟩ := Option.map_eq_some_iff.mp found
    have hl : l ∈ w'.log := List.mem_of_mem_filter (List.mem_of_getLast? last)
    exact ⟨⟨l, hl, rfl⟩, List.nil_prefix, fun e => trivial, w'.log, l, ext.grows.log, List.prefix_rfl, last, rfl⟩

/-! ### One step of a call -/

variable (R) in
/-- A call that held `o` now holds `o'`; it has left alone what others hold. -/
structure Moves (o : Option Held) (w : World γ) (o' : Option Held) (w' : World γ) : Prop where
  ext : Ext R o' w w'
  others : ∀ {x : Held}, x.Kept R w → (∀ y, o = some y → y.file ≠ x.file) → x.Kept R w' ∧ ∀ y, o' = some y →
    y.file ≠ x.file

theorem Moves.refl (inv : Inv R w) (holds : Holds R o w) : Moves R o w o w :=
  ⟨⟨.refl w, inv, holds⟩, fun kept apart => ⟨kept, apart⟩⟩

theorem Moves.drop (inv : Inv R w) : Moves R o w none w :=
  ⟨⟨.refl w, inv, holds_none⟩, fun kept _ => ⟨kept, fun y held => by cases held⟩⟩

theorem Inv.disk (inv : Inv R w) (grows : Grows w ⟨d, w.log⟩) (find : ∀ q, R.Final q → d.find q = w.disk.find q) :
    Inv R ⟨d, w.log⟩ where
  numbered l hl := Nat.lt_of_lt_of_le (inv.numbered l hl) grows.files
  final := inv.final
  latest q final := (find q final).trans (inv.latest q final)
  good l hl := by
    rw [grows.data l hl]
    exact R.mono grows (inv.good l hl)

theorem Moves.create (inv : Inv R w) (temp : ¬R.Final q) (absent : w.disk.find q = none) :
    Moves R o w (some ⟨q, w.disk.files.length, []⟩) ⟨w.disk.create q, w.log⟩ := by
  have grows : Grows w ⟨w.disk.create q, w.log⟩ := ⟨List.prefix_rfl, by simp [Disk.create], fun l _ => data_create⟩
  have other {r : Path} (ne : r ≠ q) : (w.disk.create q).find r = w.disk.find r := by rw [find_create, if_neg ne]
  refine ⟨⟨grows, inv.disk grows fun r final => other fun eq => temp (eq ▸ final), ?_⟩,
    fun {x} kept _ => ⟨⟨kept.temp, ?_, ?_, ?_, kept.fresh⟩, ?_⟩⟩
  · rintro x ⟨⟩
    refine ⟨temp, by rw [find_create, if_pos rfl],
      ?_, by simp [Disk.create], fun l hl => Nat.ne_of_lt (inv.numbered l hl)⟩
    rw [data_create]
    simp [data]
  · rw [← kept.found]
    refine other fun eq => ?_
    have found := kept.found
    rw [eq, absent] at found
    cases found
  · rw [data_create, kept.data]
  · exact Nat.lt_of_lt_of_le kept.numbered grows.files
  · rintro y ⟨⟩
    exact Nat.ne_of_gt kept.numbered

theorem Moves.append {c a : List UInt8} (inv : Inv R w) (holds : Holds R (some ⟨q, i, c⟩) w) :
    Moves R (some ⟨q, i, c⟩) w (some ⟨q, i, c ++ a⟩) ⟨w.disk.append i a, w.log⟩ := by
  have held := holds _ rfl
  have data {j : Nat} (ne : j ≠ i) :
    (w.disk.append i a).data j = w.disk.data j := by rw [data_append held.numbered, if_neg ne]
  have files : (w.disk.append i a).files.length = w.disk.files.length := by simp [Disk.append]
  have grows : Grows w ⟨w.disk.append i a, w.log⟩ := ⟨List.prefix_rfl, Nat.le_of_eq files.symm,
    fun l hl => data (held.fresh l hl)⟩
  refine ⟨⟨grows, inv.disk grows fun _ _ => rfl, ?_⟩,
    fun {x} kept apart => ⟨⟨kept.temp, kept.found, ?_, ?_, kept.fresh⟩, ?_⟩⟩
  · rintro x ⟨⟩
    refine ⟨held.temp, held.found, ?_, files ▸ held.numbered, held.fresh⟩
    rw [data_append held.numbered, if_pos rfl]
    exact congrArg (· ++ a) held.data
  · rw [data (apart _ rfl).symm, kept.data]
  · exact files ▸ kept.numbered
  · rintro y ⟨⟩
    exact apart ⟨q, i, c⟩ rfl

theorem Moves.remove {b : List UInt8} (inv : Inv R w) (holds : Holds R (some ⟨q, i, b⟩) w) :
    Moves R (some ⟨q, i, b⟩) w none ⟨w.disk.remove q, w.log⟩ := by
  have held := holds _ rfl
  have other {r : Path} (ne : r ≠ q) : (w.disk.remove q).find r = w.disk.find r := by rw [find_remove, if_neg ne]
  have grows : Grows w ⟨w.disk.remove q, w.log⟩ := ⟨List.prefix_rfl, le_rfl, fun _ _ => rfl⟩
  refine ⟨⟨grows, inv.disk grows fun r final => other fun eq => held.temp (eq ▸ final), holds_none⟩,
    fun {x} kept apart => ⟨⟨kept.temp, ?_, kept.data, kept.numbered, kept.fresh⟩, fun y held => by cases held⟩⟩
  rw [← kept.found]
  refine other fun eq => apart _ rfl ?_
  have found := kept.found
  rw [eq, held.found] at found
  exact Option.some.inj found

theorem World.latest_snoc {l : Link γ} :
    World.latest ⟨d, w.log ++ [l]⟩ q = if q = l.name then some l.file else w.latest q := by
  unfold World.latest
  by_cases same : l.name = q
  · simp [List.filter_append, same]
  · simp [List.filter_append, same, Ne.symm same]

theorem Moves.rename {r : Path} {b : List UInt8} (inv : Inv R w) (holds : Holds R (some ⟨q, i, b⟩) w)
    (final : R.Final r)
    (good : R.Good w g r b) : Moves R (some ⟨q, i, b⟩) w none ⟨w.disk.rename q r i, w.log ++ [⟨g, r, i⟩]⟩ := by
  have held := holds _ rfl
  have grows : Grows w ⟨w.disk.rename q r i, w.log ++ [⟨g, r, i⟩]⟩ := ⟨List.prefix_append _ _, le_rfl, fun _ _ => rfl⟩
  have each {P : Link γ → Prop} (old : ∀ l ∈ w.log, P l) (new : P ⟨g, r, i⟩) : ∀ l ∈ w.log ++ [⟨g, r, i⟩], P l := by
    intro l hl
    rcases List.mem_append.mp hl with hl | hl
    · exact old l hl
    · rwa [List.mem_singleton.mp hl]
  refine ⟨⟨grows, ⟨each inv.numbered held.numbered, each inv.final final, fun s hs => ?_, ?_⟩, holds_none⟩,
    fun {x} kept apart => ⟨⟨kept.temp, ?_, kept.data, kept.numbered, each kept.fresh (apart _ rfl)⟩,
      fun y held => by cases held⟩⟩
  · have apart : s ≠ q := fun eq => held.temp (eq ▸ hs)
    rw [World.latest_snoc, find_rename, if_neg apart, inv.latest s hs]
  · refine each (fun l hl => R.mono grows (inv.good l hl)) ?_
    have data : (w.disk.rename q r i).data i = b := held.data
    rw [data]
    exact R.mono grows good
  · have ne : x.name ≠ r := fun eq => kept.temp (eq ▸ final)
    have ne' : x.name ≠ q := by
      intro eq
      have found := kept.found
      rw [eq, held.found] at found
      exact apart _ rfl (Option.some.inj found)
    rw [find_rename, if_neg ne, if_neg ne', kept.found]

def World.step (w : World γ) (g : γ) (d : Disk) (link : Option (Path × Nat)) : World γ :=
  ⟨d, w.log ++ link.toList.map fun l => ⟨g, l.1, l.2⟩⟩

theorem World.step_none : w.step g d none = ⟨d, w.log⟩ := by simp [World.step]

theorem Fits.step {d : Disk} {p' : Prog ρ} {link : Option (Path × Nat)} (inv : Inv R w) (holds : Holds R o w)
    (fits : Fits R g Q o w p)
    (step : Prog.Step w.disk p d p' link) :
    ∃ o', Moves R o w o' (w.step g d link) ∧ Fits R g Q o' (w.step g d link) p' := by
  have here : Ext R o w w := ⟨.refl w, inv, holds⟩
  -- most steps change neither the disk nor what is held
  have stay {p' : Prog ρ} (fits : Fits R g Q o w p') :
      ∃ o', Moves R o w o' (w.step g w.disk none) ∧ Fits R g Q o' (w.step g w.disk none) p' := by
    rw [World.step_none]
    exact ⟨o, .refl inv holds, fits⟩
  cases step with
  | ask e => exact stay (fits e)
  | found found => exact stay (fits.1 w here found)
  | unfound => exact stay fits.2
  | mkdirAll e => exact stay (fits e)
  | create rest absent =>
    have moves : Moves R o w _ _ := .create inv (fits.2 rest).1 absent
    rw [World.step_none]
    exact ⟨_, moves, (fits.2 rest).2 _ _ moves.ext⟩
  | uncreated e => exact stay (fits.1 e)
  | write a b =>
    obtain ⟨q, c, rfl, written, failed⟩ := fits
    have moves := Moves.append (a := a) inv holds
    rw [World.step_none]
    refine ⟨_, moves, q, c ++ a, rfl, fun w' ext => ?_, fun a' e w' part ext => ?_⟩
    · rw [List.append_assoc] at ext ⊢
      exact written w' (moves.ext.trans ext)
    · rw [List.append_assoc] at ext ⊢
      exact failed (a ++ a') e w' ((List.prefix_append_right_inj a).mpr part) (moves.ext.trans ext)
  | written =>
    obtain ⟨q, c, rfl, written, -⟩ := fits
    rw [List.append_nil] at written
    exact stay (written w here)
  | unwritten e =>
    obtain ⟨q, c, rfl, -, failed⟩ := fits
    have nothing := failed [] e w List.nil_prefix
    rw [List.append_nil] at nothing
    exact stay (nothing here)
  | close e => exact stay (fits e)
  | rename found =>
    obtain ⟨i, b, rfl, final, good, -, done⟩ := fits
    have held := holds _ rfl
    obtain rfl := Option.some.inj (held.found.symm.trans found)
    have moves := Moves.rename inv holds final (good w here)
    exact ⟨none, moves, done _ moves.ext (by simp [World.step]) held.data⟩
  | unrenamed e =>
    obtain ⟨i, b, rfl, -, -, failed, -⟩ := fits
    exact stay (failed e)
  | remove =>
    obtain ⟨⟨i, b, rfl⟩, done⟩ := fits
    have moves := Moves.remove inv holds
    rw [World.step_none]
    exact ⟨none, moves, done _ _ moves.ext⟩
  | unremoved e =>
    rw [World.step_none]
    have moves : Moves R o w none w := .drop inv
    exact ⟨none, moves, fits.2 _ w moves.ext⟩
  | opened found =>
    rw [inv.latest _ fits.1] at found
    exact stay ((fits.2.2 w here).2 _ found)
  | absent absent =>
    rw [inv.latest _ fits.1] at absent
    exact stay ((fits.2.2 w here).1 absent)
  | unopened e => exact stay (fits.2.1 e)
  | read part more =>
    refine stay ⟨fits.1, ?_, fits.2.2⟩
    rw [← List.prefix_iff_eq_append.mp fits.2.1]
    exact (List.prefix_append_right_inj _).mpr more
  | done all =>
    have whole := fits.2.1.eq_of_length_le all
    exact stay (whole ▸ fits.2.2.2)
  | unread e => exact stay (fits.2.2.1 e)

end

end Disk

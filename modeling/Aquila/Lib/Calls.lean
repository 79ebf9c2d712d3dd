import Aquila.Lib.Publish
import Aquila.Lib.Lists
import Aquila.Lib.Machine

/-! Many calls at the same time, in any order of their steps. When every call keeps to the rules as long as the
    others do, all of them do. -/

namespace Disk

section
variable {γ ρ : Type}

/-- What happens next: a call starts, a call does one step, or a call stops for ever. -/
inductive Act (γ : Type) where
  | start (g : γ)
  | step (n : Nat)
  | stop (n : Nat)
deriving DecidableEq

inductive Event (γ ρ : Type) where
  | started (n : Nat)
  | quiet
  | linked (l : Link γ)
  | returned (g : γ) (r : ρ)
deriving DecidableEq

/-- The calls so far, with what is left of them to do, unless they have returned or stopped. -/
structure Pool (γ ρ : Type) where
  disk : Disk := {}
  calls : List (γ × Option (Prog ρ)) := []

inductive Pool.Step (prog : γ → Prog ρ) : Pool γ ρ → Act γ → Event γ ρ → Pool γ ρ → Prop
  | start {s : Pool γ ρ} (g : γ) : Step prog s (.start g) (.started s.calls.length)
    { s with calls := s.calls ++ [(g, some (prog g))] }
  | quiet {s : Pool γ ρ} {n g p d p'} : s.calls[n]? = some (g, some p) → p.Step s.disk d p' none →
      Step prog s (.step n) .quiet { disk := d, calls := s.calls.set n (g, some p') }
  | linked {s : Pool γ ρ} {n g p d p' q i} : s.calls[n]? = some (g, some p) → p.Step s.disk d p' (some (q, i)) →
      Step prog s (.step n) (.linked ⟨g, q, i⟩) { disk := d, calls := s.calls.set n (g, some p') }
  | returned {s : Pool γ ρ} {n g r} : s.calls[n]? = some (g, some (.ret r)) →
      Step prog s (.step n) (.returned g r) { s with calls := s.calls.set n (g, none) }
  | stop {s : Pool γ ρ} {n g p} : s.calls[n]? = some (g, some p) →
      Step prog s (.stop n) .quiet { s with calls := s.calls.set n (g, none) }

def machine (prog : γ → Prog ρ) : Machine (Act γ) (Event γ ρ) where
  State := Pool γ ρ
  init := {}
  Step := Pool.Step prog

abbrev Trace (γ ρ : Type) := List (Act γ × Event γ ρ)

def Event.link : Event γ ρ → Option (Link γ)
  | linked l => some l
  | _ => none

def Trace.log (tr : Trace γ ρ) : List (Link γ) := tr.filterMap fun e => e.2.link

def Pool.world (s : Pool γ ρ) (tr : Trace γ ρ) : World γ := ⟨s.disk, tr.log⟩

/-! ### Runs -/

variable {prog : γ → Prog ρ} {A : Trace γ ρ → Act γ → Event γ ρ → Prop} (R : Rules γ) (Post : γ → World γ → ρ →
  World γ → Prop)

/-- What is known about the call `n` of a run, which started after `tr₀`: the rest of it keeps to the rules, and
    when it has returned, what it returned was right. -/
structure Follows (prog : γ → Prog ρ) (A : Trace γ ρ → Act γ → Event γ ρ → Prop) (s : Pool γ ρ)
    (tr tr₀ rest : Trace γ ρ) (g : γ) (n : Nat)
    (o : Option Held) (s₀ : Pool γ ρ) : Prop where
  run : (machine prog).Run A tr₀ s₀
  known : ∃ c, s.calls[n]? = some (g, c)
  fits : ∀ {g' p}, s.calls[n]? = some (g', some p) → Fits R g (Post g (s₀.world tr₀)) o (s.world tr) p
  returned : ∀ {mid after g' r}, rest = mid ++ (.step n, .returned g' r) :: after →
    g' = g ∧ ∃ s₁, (machine prog).Run A (tr₀ ++ (.start g, .started n) :: mid) s₁ ∧
      (machine prog).Later A (tr₀ ++ (.start g, .started n) :: mid) s₁ tr s ∧
      Post g (s₀.world tr₀) r (s₁.world (tr₀ ++ (.start g, .started n) :: mid))

/-- The invariant of all calls of a run. -/
structure Sound (prog : γ → Prog ρ) (A : Trace γ ρ → Act γ → Event γ ρ → Prop) (tr : Trace γ ρ) (s : Pool γ ρ)
    (held : Nat → Option Held) :
    Prop where
  inv : Inv R (s.world tr)
  holds : ∀ n, Holds R (held n) (s.world tr)
  apart : ∀ {m n x y}, m ≠ n → held m = some x → held n = some y → x.file ≠ y.file
  unused : ∀ n, s.calls.length ≤ n → held n = none
  begun : ∀ {n g c}, s.calls[n]? = some (g, c) → ∃ tr₀ rest, tr = tr₀ ++ (.start g, .started n) :: rest
  follows : ∀ {tr₀ rest g n}, tr = tr₀ ++ (.start g, .started n) :: rest →
    ∃ s₀, Follows R Post prog A s tr tr₀ rest g n (held n) s₀

variable {R Post} {s s' : Pool γ ρ} {tr tr₀ rest : Trace γ ρ} {g : γ} {n : Nat} {held : Nat → Option Held}

theorem Trace.log_snoc (tr : Trace γ ρ) (e : Act γ × Event γ ρ) :
    Trace.log (tr ++ [e]) = tr.log ++ e.2.link.toList := by
  rw [Trace.log, List.filterMap_append]
  cases h : e.2.link <;> simp [Trace.log, h]

theorem Follows.snoc {o o' : Option Held} {s₀ : Pool γ ρ} {e : Act γ × Event γ ρ}
    (h : Follows R Post prog A s tr tr₀ rest g n o s₀)
    (run : (machine prog).Run A tr s) (next : (machine prog).Later A tr s (tr ++ [e]) s')
    (eq : tr = tr₀ ++ (.start g, .started n) :: rest) (known : ∃ c, s'.calls[n]? = some (g, c))
    (fits : ∀ {g' p}, s'.calls[n]? = some (g', some p) → Fits R g (Post g (s₀.world tr₀)) o' (s'.world (tr ++ [e])) p)
    (returned : ∀ {g' r}, e = (.step n, .returned g' r) → g' = g ∧ Post g (s₀.world tr₀) r (s.world tr)) :
    Follows R Post prog A s' (tr ++ [e]) tr₀ (rest ++ [e]) g n o' s₀ := by
  refine ⟨h.run, known, fits, fun {mid after g' r} split => ?_⟩
  rcases Lists.snoc_eq_append_cons split with ⟨rfl, last, -⟩ | ⟨after', -, old⟩
  · obtain ⟨label, post⟩ := returned last.symm
    subst eq
    exact ⟨label, s, run, next, post⟩
  · obtain ⟨label, s₁, run₁, later, post⟩ := h.returned old
    exact ⟨label, s₁, run₁, later.trans next, post⟩

theorem Sound.start (sound : Sound R Post prog A tr s held) (run : (machine prog).Run A tr s)
    (next : (machine prog).Later A tr s (tr ++ [(.start g, .started s.calls.length)]) { s with
      calls := s.calls ++ [(g, some (prog g))] })
    (fits : Fits R g (Post g (s.world tr)) none (s.world tr) (prog g)) :
    Sound R Post prog A (tr ++ [(.start g, .started s.calls.length)]) { s with
      calls := s.calls ++ [(g, some (prog g))] } held := by
  have world : Pool.world { s with calls := s.calls ++ [(g, some (prog g))] }
    (tr ++ [(.start g, .started s.calls.length)]) = s.world tr := by
    simp [Pool.world, Trace.log_snoc, Event.link]
  have old {n : Nat} {c : γ × Option (Prog ρ)} (known : s.calls[n]? = some c) :
    (s.calls ++ [(g, some (prog g))])[n]? = some c := by
    rw [List.getElem?_append_left (List.getElem?_eq_some_iff.mp known).1, known]
  refine ⟨world ▸ sound.inv, fun n => world ▸ sound.holds n, sound.apart, fun n hn => ?_, fun {n g' c} known => ?_,
    fun {tr₀ rest g' n} split => ?_⟩
  · refine sound.unused n (Nat.le_trans ?_ hn)
    simp
  · rcases Nat.lt_or_ge n s.calls.length with lt | ge
    · rw [List.getElem?_append_left lt] at known
      obtain ⟨tr₀, rest, rfl⟩ := sound.begun known
      exact ⟨tr₀, rest ++ [(.start g, .started s.calls.length)], by simp⟩
    · rw [List.getElem?_append_right ge] at known
      have last : n - s.calls.length = 0 := by
        have := (List.getElem?_eq_some_iff.mp known).1
        simpa using this
      obtain rfl : n = s.calls.length := by omega
      rw [last] at known
      cases known
      exact ⟨tr, [], rfl⟩
  · rcases Lists.snoc_eq_append_cons split with ⟨rfl, same, rfl⟩ | ⟨rest, rfl, earlier⟩
    · cases same
      refine ⟨s, run, ⟨some (prog g), List.getElem?_concat_length⟩, fun {g' p} known => ?_,
        fun {mid after g' r} absurd => ?_⟩
      · rw [List.getElem?_concat_length] at known
        cases known
        rw [world, sound.unused _ le_rfl]
        exact fits
      · simp at absurd
    · obtain ⟨s₀, follows⟩ := sound.follows earlier
      obtain ⟨c, known⟩ := follows.known
      refine ⟨s₀, follows.snoc run next earlier ⟨c, old known⟩ (fun {g' p} now => ?_) fun absurd => ?_⟩
      · rw [world]
        rw [old known] at now
        exact follows.fits (known.trans now)
      · cases absurd

def Act.isStart : Act γ → Bool
  | start _ => true
  | _ => false

/-- Calls are numbered in the order in which they start. -/
structure Numbered (tr : Trace γ ρ) (s : Pool γ ρ) : Prop where
  length : s.calls.length = tr.countP (·.1.isStart)
  number : ∀ {tr₀ rest g n}, tr = tr₀ ++ (.start g, .started n) :: rest → n = tr₀.countP (·.1.isStart)

theorem Numbered.snoc {i : Act γ} {o : Event γ ρ} (numbered : Numbered tr s) (other : i.isStart = false)
    (length : s'.calls.length = s.calls.length) : Numbered (tr ++ [(i, o)]) s' := by
  refine ⟨by simp [length, numbered.length, other], fun {tr₀ rest g n} split => ?_⟩
  rcases Lists.snoc_eq_append_cons split with ⟨-, same, -⟩ | ⟨rest, -, earlier⟩
  · cases same
    cases other
  · exact numbered.number earlier

theorem numbered_of_run (run : (machine prog).Run A tr s) : Numbered tr s := by
  refine Machine.Run.inv (P := Numbered) ⟨rfl, fun split => by simp at split⟩
    (fun {tr s i o t} _ numbered _ step => ?_) run
  cases step with
  | start g =>
    refine ⟨by simp [numbered.length, Act.isStart], fun {tr₀ rest g' n} split => ?_⟩
    rcases Lists.snoc_eq_append_cons split with ⟨rfl, same, -⟩ | ⟨rest, -, earlier⟩
    · cases same
      exact numbered.length
    · exact numbered.number earlier
  | quiet | linked | returned | stop => exact numbered.snoc rfl (by simp)

theorem Numbered.unique {tr₁ rest₁ : Trace γ ρ} {g₁ : γ} (numbered : Numbered tr s)
    (h : tr = tr₀ ++ (.start g, .started n) :: rest)
    (h₁ : tr = tr₁ ++ (.start g₁, .started n) :: rest₁) : tr₀ = tr₁ ∧ g = g₁ ∧ rest = rest₁ := by
  have count := (numbered.number h).symm.trans (numbered.number h₁)
  rcases List.append_eq_append_iff.mp (h.symm.trans h₁) with ⟨mid, rfl, eq⟩ | ⟨mid, rfl, eq⟩
  · cases mid with
    | nil =>
      simp only [List.nil_append, List.cons.injEq, Prod.mk.injEq, Act.start.injEq] at eq
      exact ⟨by simp, eq.1.1, eq.2⟩
    | cons e mid =>
      obtain ⟨rfl, -⟩ := List.cons.inj eq
      simp [Act.isStart] at count
  · cases mid with
    | nil =>
      simp only [List.nil_append, List.cons.injEq, Prod.mk.injEq, Act.start.injEq] at eq
      exact ⟨by simp, eq.1.1.symm, eq.2.symm⟩
    | cons e mid =>
      obtain ⟨rfl, -⟩ := List.cons.inj eq
      simp [Act.isStart] at count

theorem Sound.step {p p' : Prog ρ} {d : Disk} {link : Option (Path × Nat)} {o : Event γ ρ}
    (sound : Sound R Post prog A tr s held)
    (stable : ∀ g w r, Stable R (Post g w r)) (run : (machine prog).Run A tr s)
    (next : (machine prog).Later A tr s (tr ++ [(.step n, o)]) { disk := d, calls := s.calls.set n (g, some p') })
    (known : s.calls[n]? = some (g, some p)) (step : p.Step s.disk d p' link)
    (label : o.link = link.map fun l => ⟨g, l.1, l.2⟩) (open_ : ∀ {g r}, o ≠ .returned g r) :
    ∃ held', Sound R Post prog A (tr ++ [(.step n, o)]) { disk := d, calls := s.calls.set n (g, some p') } held' := by
  obtain ⟨tr₀, rest, begun⟩ := sound.begun known
  obtain ⟨s₀, follows⟩ := sound.follows begun
  obtain ⟨o', moves, fits⟩ := (follows.fits known).step sound.inv (sound.holds n) step
  have bound := (List.getElem?_eq_some_iff.mp known).1
  have world : Pool.world { disk := d, calls := s.calls.set n (g, some p') } (tr ++ [(.step n, o)]) =
    (s.world tr).step g d link := by
    cases link <;> simp [Pool.world, World.step, Trace.log_snoc, label]
  rw [← world] at moves fits
  have other {m : Nat} {x : Held} (ne : m ≠ n) (hx : held m = some x) := moves.others (sound.holds m x hx) fun y hy =>
    sound.apart ne.symm hy hx
  refine ⟨Function.update held n o', moves.ext.inv, fun m => ?_, fun {m m' x y} ne hx hy => ?_, fun m hm => ?_,
    fun {m g' c} now => ?_, fun {tr₁ rest₁ g₁ m} split => ?_⟩
  · by_cases same : m = n
    · subst same
      rw [Function.update_self]
      exact moves.ext.holds
    · rw [Function.update_of_ne same]
      exact fun x hx => (other same hx).1
  · by_cases same : m = n
    · subst same
      rw [Function.update_self] at hx
      rw [Function.update_of_ne ne.symm] at hy
      exact (other ne.symm hy).2 x hx
    · rw [Function.update_of_ne same] at hx
      by_cases same' : m' = n
      · subst same'
        rw [Function.update_self] at hy
        exact ((other same hx).2 y hy).symm
      · rw [Function.update_of_ne same'] at hy
        exact sound.apart ne hx hy
  · rw [List.length_set] at hm
    rw [Function.update_of_ne (Nat.ne_of_gt (Nat.lt_of_lt_of_le bound hm))]
    exact sound.unused m hm
  · have old : ∃ c, s.calls[m]? = some (g', c) := by
      by_cases same : n = m
      · subst same
        rw [List.getElem?_set_self bound] at now
        cases now
        exact ⟨_, known⟩
      · rw [List.getElem?_set_ne same] at now
        exact ⟨c, now⟩
    obtain ⟨c, old⟩ := old
    obtain ⟨tr₁, rest₁, eq⟩ := sound.begun old
    exact ⟨tr₁, rest₁ ++ [(.step n, o)], by simp [eq]⟩
  · rcases Lists.snoc_eq_append_cons split with ⟨-, same, -⟩ | ⟨rest₁, rfl, earlier⟩
    · cases same
    · by_cases same : n = m
      · subst same
        obtain ⟨rfl, rfl, rfl⟩ := (numbered_of_run run).unique begun earlier
        refine ⟨s₀, follows.snoc run next earlier ⟨_, List.getElem?_set_self bound⟩ (fun {g' q} now => ?_)
          fun {g' r} ret => ?_⟩
        · rw [List.getElem?_set_self bound] at now
          cases now
          rw [Function.update_self]
          exact fits
        · exact absurd (Prod.mk.inj ret).2 open_
      · obtain ⟨s₁, follows₁⟩ := sound.follows earlier
        obtain ⟨c, known₁⟩ := follows₁.known
        have kept : (s.calls.set n (g, some p'))[m]? = some (g₁, c) := by rw [List.getElem?_set_ne same, known₁]
        refine ⟨s₁, follows₁.snoc run next earlier ⟨c, kept⟩ (fun {g' q} now => ?_) fun {g' r} ret => ?_⟩
        · rw [Function.update_of_ne (Ne.symm same)]
          rw [kept] at now
          exact (follows₁.fits (known₁.trans now)).mono (stable g₁ _) ⟨moves.ext.grows, moves.ext.inv,
            fun x hx => (other (Ne.symm same) hx).1⟩
        · exact absurd (Prod.mk.inj ret).2 open_

theorem Sound.grows {i : Act γ} {o : Event γ ρ} (sound : Sound R Post prog A tr s held)
    (step : Pool.Step prog s i o s') :
    Grows (s.world tr) (s'.world (tr ++ [(i, o)])) := by
  have same {s' : Pool γ ρ} {i : Act γ} {o : Event γ ρ} (disk : s'.disk = s.disk) (silent : o.link = none) :
      Grows (s.world tr) (s'.world (tr ++ [(i, o)])) := by
    have world : s'.world (tr ++ [(i, o)]) = s.world tr := by simp [Pool.world, Trace.log_snoc, silent, disk]
    exact world ▸ .refl _
  have moved {n : Nat} {g : γ} {p p' : Prog ρ} {d : Disk} {link : Option (Path × Nat)} {s' : Pool γ ρ} {i : Act γ}
    {o : Event γ ρ}
      (known : s.calls[n]? = some (g, some p)) (step : p.Step s.disk d p' link) (disk : s'.disk = d)
      (label : o.link = link.map fun l => ⟨g, l.1, l.2⟩) : Grows (s.world tr) (s'.world (tr ++ [(i, o)])) := by
    obtain ⟨tr₀, rest, begun⟩ := sound.begun known
    obtain ⟨s₀, follows⟩ := sound.follows begun
    obtain ⟨o', moves, -⟩ := (follows.fits known).step sound.inv (sound.holds n) step
    have world : s'.world (tr ++ [(i, o)]) = (s.world tr).step g d link := by
      cases link <;> simp [Pool.world, World.step, Trace.log_snoc, label, disk]
    exact world ▸ moves.ext.grows
  cases step with
  | start g => exact same rfl rfl
  | quiet known step => exact moved known step rfl rfl
  | linked known step => exact moved known step rfl rfl
  | returned => exact same rfl rfl
  | stop => exact same rfl rfl

theorem Sound.ends {p : Prog ρ} {i : Act γ} {o : Event γ ρ} (sound : Sound R Post prog A tr s held)
    (run : (machine prog).Run A tr s)
    (next : (machine prog).Later A tr s (tr ++ [(i, o)]) { s with calls := s.calls.set n (g, none) })
    (known : s.calls[n]? = some (g, some p)) (other : i.isStart = false) (silent : o.link = none)
    (returned : ∀ {m g' r}, (i, o) = (.step m, .returned g' r) → m = n ∧ g' = g ∧ p = .ret r) :
    Sound R Post prog A (tr ++ [(i, o)]) { s with calls := s.calls.set n (g, none) } held := by
  have bound := (List.getElem?_eq_some_iff.mp known).1
  have world : Pool.world { s with calls := s.calls.set n (g, none) } (tr ++ [(i, o)]) = s.world tr := by
    simp [Pool.world, Trace.log_snoc, silent]
  have old {m : Nat} {g' : γ} {c : Option (Prog ρ)} (now : (s.calls.set n (g, none))[m]? = some (g', c)) :
      ∃ c', s.calls[m]? = some (g', c') ∧ (m ≠ n → c' = c) := by
    by_cases same : n = m
    · subst same
      rw [List.getElem?_set_self bound] at now
      cases now
      exact ⟨_, known, fun ne => absurd rfl ne⟩
    · rw [List.getElem?_set_ne same] at now
      exact ⟨c, now, fun _ => rfl⟩
  refine ⟨world ▸ sound.inv, fun m => world ▸ sound.holds m, sound.apart,
    fun m hm => sound.unused m (by simpa using hm), fun {m g' c} now => ?_, fun {tr₁ rest₁ g₁ m} split => ?_⟩
  · obtain ⟨c', now, -⟩ := old now
    obtain ⟨tr₁, rest₁, eq⟩ := sound.begun now
    exact ⟨tr₁, rest₁ ++ [(i, o)], by simp [eq]⟩
  · rcases Lists.snoc_eq_append_cons split with ⟨-, same, -⟩ | ⟨rest₁, rfl, earlier⟩
    · cases same
      cases other
    · obtain ⟨s₁, follows⟩ := sound.follows earlier
      obtain ⟨c, known₁⟩ := follows.known
      have kept : ∃ c, (s.calls.set n (g, none))[m]? = some (g₁, c) := by
        by_cases same : n = m
        · subst same
          rw [known] at known₁
          cases known₁
          exact ⟨none, List.getElem?_set_self bound⟩
        · exact ⟨c, by rw [List.getElem?_set_ne same, known₁]⟩
      refine ⟨s₁, follows.snoc run next earlier kept (fun {g' q} now => ?_) fun {g' r} ret => ?_⟩
      · rw [world]
        obtain ⟨c', now', same⟩ := old now
        by_cases eq : m = n
        · subst eq
          rw [List.getElem?_set_self bound] at now
          cases now
        · exact follows.fits (same eq ▸ now')
      · obtain ⟨rfl, rfl, rfl⟩ := returned ret
        rw [known] at known₁
        cases known₁
        exact ⟨rfl, follows.fits known⟩

/-- Every call that starts keeps to the rules, as long as the others do. -/
structure Disciplined (R : Rules γ) (Post : γ → World γ → ρ → World γ → Prop) (prog : γ → Prog ρ)
    (A : Trace γ ρ → Act γ → Event γ ρ → Prop) : Prop where
  stable : ∀ g w r, Stable R (Post g w r)
  fits : ∀ {tr s g}, (machine prog).Run A tr s → A tr (.start g) (.started s.calls.length) → Inv R (s.world tr) →
    Fits R g (Post g (s.world tr)) none (s.world tr) (prog g)

namespace Disciplined
variable (disciplined : Disciplined R Post prog A) (run : (machine prog).Run A tr s)
include disciplined run

/-- In every run whose calls keep to the rules, they do so together. -/
theorem sound : ∃ held, Sound R Post prog A tr s held := by
  refine Machine.Run.inv (P := fun tr s => ∃ held, Sound R Post prog A tr s held) ?_
    (fun {tr s i o t} run sound allowed step => ?_) run
  · refine ⟨fun _ => none, ?_, fun _ => holds_none, fun {m n x y} _ hx => ?_, fun _ _ => rfl, fun {n g c} known => ?_,
      fun {tr₀ rest g n} split => ?_⟩
    · exact ⟨by simp [Pool.world, Trace.log], by simp [Pool.world, Trace.log],
        fun _ _ => rfl, by simp [Pool.world, Trace.log]⟩
    · cases hx
    · cases known
    · simp at split
  · obtain ⟨held, sound⟩ := sound
    have next : (machine prog).Later A tr s (tr ++ [(i, o)]) t := .snoc .refl allowed step
    cases step with
    | start g => exact ⟨held, sound.start run next (disciplined.fits run allowed sound.inv)⟩
    | quiet known step => exact sound.step disciplined.stable run next known step rfl fun absurd => by cases absurd
    | linked known step => exact sound.step disciplined.stable run next known step rfl fun absurd => by cases absurd
    | returned known => exact ⟨held, sound.ends run next known rfl rfl fun ret => by cases ret; exact ⟨rfl, rfl, rfl⟩⟩
    | stop known => exact ⟨held, sound.ends run next known rfl rfl fun ret => by cases ret⟩

theorem inv : Inv R (s.world tr) := by
  obtain ⟨held, sound⟩ := disciplined.sound run
  exact sound.inv

theorem post {mid after : Trace γ ρ} {g' : γ} {r : ρ}
    (split : tr = tr₀ ++ (.start g, .started n) :: (mid ++ (.step n, .returned g' r) :: after)) :
    g' = g ∧ ∃ s₀ s₁, (machine prog).Run A tr₀ s₀ ∧ (machine prog).Run A (tr₀ ++ (.start g, .started n) :: mid) s₁ ∧
      (machine prog).Later A (tr₀ ++ (.start g, .started n) :: mid) s₁ tr s ∧
      Post g (s₀.world tr₀) r (s₁.world (tr₀ ++ (.start g, .started n) :: mid)) := by
  obtain ⟨held, sound⟩ := disciplined.sound run
  obtain ⟨s₀, follows⟩ := sound.follows split
  obtain ⟨label, s₁, run₁, later, post⟩ := follows.returned rfl
  exact ⟨label, s₀, s₁, follows.run, run₁, later, post⟩

theorem begun {r : ρ} (mem : (.step n, .returned g r) ∈ tr) :
    ∃ tr₀ mid after, tr = tr₀ ++ (.start g, .started n) :: (mid ++ (.step n, .returned g r) :: after) := by
  obtain ⟨before, after, rfl⟩ := List.append_of_mem mem
  have whole : before ++ (Act.step n, Event.returned g r) :: after = (before ++ [(.step n, .returned g r)]) ++
    after := by simp
  rw [whole] at run
  obtain ⟨s₂, run₂, -⟩ := Machine.Run.split run
  generalize eq : before ++ [(Act.step n, Event.returned g r)] = both at run₂
  cases run₂ with
  | nil => simp at eq
  | @snoc tr s₁ _ i o run₁ _ step =>
    obtain ⟨rfl, last⟩ := List.append_inj' eq rfl
    cases last
    obtain ⟨held, sound⟩ := disciplined.sound run₁
    cases step with
    | returned known =>
      obtain ⟨tr₀, mid, rfl⟩ := sound.begun known
      exact ⟨tr₀, mid, after, by simp⟩

theorem grows {tr' : Trace γ ρ} {s' : Pool γ ρ} (later : (machine prog).Later A tr s tr' s') : Grows (s.world tr)
    (s'.world tr') := by
  refine Machine.Later.inv (P := fun tr' s' => Grows (s.world tr) (Pool.world s' tr')) (.refl _)
    (fun later grows _ step => ?_) later
  obtain ⟨held, sound⟩ := disciplined.sound (run.later later)
  exact grows.trans (sound.grows step)

end Disciplined

/-! ### Runs without faults -/

/-- The step of a program when no system call fails, and files are written and read at once. -/
def Prog.next (d : Disk) : Prog ρ → Option (Disk × Prog ρ × Option (Path × Nat))
  | .ret _ => none
  | .ask k => some (d, k none, none)
  | .stat p k => some (d, k (d.find p).isSome, none)
  | .mkdirAll _ k => some (d, k none, none)
  | .createTemp dir start k =>
    let name := dir ++ [start ++ ""]
    if d.find name = none then some (d.create name, k (.ok (name, d.files.length)), none) else none
  | .write i b k => if b = [] then some (d, k none, none) else some (d.append i b, .write i [] k, none)
  | .close _ k => some (d, k none, none)
  | .rename p q k => (d.find p).map fun i => (d.rename p q i, k none, some (q, i))
  | .remove p k => some (d.remove p, k none, none)
  | .open_ p k =>
    match d.find p with
    | none => some (d, k (.error none), none)
    | some i => some (d, k (.ok i), none)
  | .read i got k =>
    if (d.data i).length ≤ got.length then some (d, k (.ok got), none)
      else some (d, .read i (got ++ (d.data i).drop got.length) k, none)

theorem Prog.step_of_next {d d' : Disk} {p p' : Prog ρ} {link : Option (Path × Nat)}
    (h : p.next d = some (d', p', link)) :
    p.Step d d' p' link := by
  cases p with
  | ret r => cases h
  | ask k => cases h; exact .ask none
  | stat p k =>
    cases h
    cases found : (d.find p).isSome with
    | true => exact .found found
    | false => exact .unfound
  | mkdirAll p k => cases h; exact .mkdirAll none
  | createTemp dir start k =>
    obtain ⟨free, made⟩ := Option.ite_none_right_eq_some.mp h
    cases made
    exact .create "" free
  | write i b k =>
    rw [Prog.next] at h
    split_ifs at h with all
    · cases h
      rw [all]
      exact .written
    · cases h
      simpa using @Prog.Step.write ρ d i k b []
  | close i k => cases h; exact .close none
  | rename p q k =>
    obtain ⟨i, found, moved⟩ := Option.map_eq_some_iff.mp h
    cases moved
    exact .rename found
  | remove p k => cases h; exact .remove
  | open_ p k =>
    rw [Prog.next] at h
    cases found : d.find p with
    | none =>
      rw [found] at h
      cases h
      exact .absent found
    | some i =>
      rw [found] at h
      cases h
      exact .opened found
  | read i got k =>
    rw [Prog.next] at h
    split_ifs at h with all
    · cases h
      exact .done all
    · cases h
      exact .read _ List.prefix_rfl

def Pool.next (prog : γ → Prog ρ) (s : Pool γ ρ) : Act γ → Option (Pool γ ρ × Event γ ρ)
  | .start g => some ({ s with calls := s.calls ++ [(g, some (prog g))] }, .started s.calls.length)
  | .stop _ => none
  | .step n =>
    match s.calls[n]? with
    | some (g, some (.ret r)) => some ({ s with calls := s.calls.set n (g, none) }, .returned g r)
    | some (g, some p) => (p.next s.disk).map fun (d, p', link) =>
        ({ disk := d, calls := s.calls.set n (g, some p') }, link.elim .quiet fun l => .linked ⟨g, l.1, l.2⟩)
    | _ => none

theorem Pool.step_of_next {i : Act γ} {o : Event γ ρ} (h : s.next prog i = some (s', o)) : Pool.Step prog s i o s' := by
  cases i with
  | start g => cases h; exact .start g
  | stop n => cases h
  | step n =>
    rw [Pool.next] at h
    split at h
    · cases h
      exact .returned ‹_›
    · obtain ⟨⟨d, p', link⟩, next, last⟩ := Option.map_eq_some_iff.mp h
      cases link with
      | none => cases last; exact .quiet ‹_› (Prog.step_of_next next)
      | some l => cases last; exact .linked ‹_› (Prog.step_of_next next)
    · cases h

def trace (prog : γ → Prog ρ) (acts : List (Act γ)) : Trace γ ρ :=
  ((Machine.attempt (Pool.next prog) {} acts).map Prod.fst).getD []

theorem run_trace {acts : List (Act γ)} (done : trace prog acts ≠ []) (allowed : ∀ i ∈ acts, ∀ tr o, A tr i o) :
    (∃ s, (machine prog).Run A (trace prog acts) s) ∧ (trace prog acts).map Prod.fst = acts := by
  unfold trace at done ⊢
  cases played : Machine.attempt (Pool.next prog) {} acts with
  | none =>
    rw [played] at done
    exact absurd rfl done
  | some out =>
    have run := Machine.Run.attempt (M := machine prog) Pool.step_of_next allowed .nil played
    rw [Option.map_some, Option.getD_some]
    exact ⟨⟨out.2, by simpa using run⟩, Machine.map_attempt played⟩

end

end Disk

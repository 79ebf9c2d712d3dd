import Mathlib.Data.List.Perm.Basic
import Aquila.Investigate
import Aquila.Net

/-! How the hits of an investigation depend on the order of the hops. -/

namespace Aquila.Investigate
open Sweep (Near Connected)

section
variable (lib : Lib) (inp : Input) (tokens : List String)

/-- A fact with this line is cited for the services in `E`, or because of a token. -/
inductive Cites (E : String → Prop) : String → Prop
  | service {s : String} : s ∈ inp.services → E s → Cites E (label "service" s "")
  | hop {h : Hop} : h ∈ inp.hops → E h.src ∨ E h.dst → Cites E (formatHop h)
  | path {p : Path} {s : String} : p ∈ inp.paths → s ∈ p.services → E s → Cites E (formatPath p)
  | route {r : String} : r ∈ inp.routes → match_ lib r tokens = true → Cites E r
  | bind {b : Bind} : b ∈ inp.binds →
      E b.service ∨ (match_ lib b.name tokens || match_ lib b.file tokens || match_ lib b.route tokens) = true →
      Cites E (formatBind b)
  | file {rep : Impact.Report} {f line : String} : inp.impact = some rep → f ∈ rep.files → match_ lib f tokens = true →
      line ∈ impactFacts rep → Cites E line
  | finding {rep : Impact.Report} {f : Impact.Finding} {line : String} : inp.impact = some rep →
      f ∈ rep.direct ++ (rep.likely ++ (rep.runtime ++ rep.unobserved)) →
      (E f.service ∧ f.service ≠ "") ∨
        (match_ lib f.name tokens || match_ lib f.file tokens || match_ lib f.route tokens || match_ lib f.path
          tokens) = true →
      line ∈ impactFacts rep → Cites E line

/-- The services that are at most one hop away from a matched one. -/
def Close : String → Prop := Near (matched lib inp tokens).toFinset (inp.hops.map Hop.ends)

/-- The services that are any number of hops away from a matched one. -/
def Linked : String → Prop := Connected (matched lib inp tokens).toFinset (inp.hops.map Hop.ends)

end

section
variable {lib : Lib} {inp : Input} {tokens : List String} {E E' : String → Prop} {seed : Finset String} {line : String}

theorem Cites.mono {hops : List Hop} (sub : inp.hops ⊆ hops) (h : ∀ s, E s → E' s)
    (cites : Cites lib inp tokens E line) :
    Cites lib { inp with hops } tokens E' line := by
  cases cites with
  | service hs he => exact .service hs (h _ he)
  | hop hh he => exact .hop (sub hh) (he.imp (h _) (h _))
  | path hp hs he => exact .path hp hs (h _ he)
  | route hr hm => exact .route hr hm
  | bind hb he => exact .bind hb (he.imp_left (h _))
  | file hi hf hm hl => exact .file hi hf hm hl
  | finding hi hf he hl => exact .finding hi hf (he.imp_left (And.imp_left (h _))) hl

theorem impactTouches_iff {rep : Impact.Report} : impactTouches lib tokens rep seed = true ↔
    (∃ f ∈ rep.files, match_ lib f tokens = true) ∨ ∃ f ∈ rep.direct ++ (rep.likely ++ (rep.runtime ++ rep.unobserved)),
      (f.service ∈ seed ∧ f.service ≠ "") ∨
        (match_ lib f.name tokens || match_ lib f.file tokens || match_ lib f.route tokens || match_ lib f.path
          tokens) = true := by
  simp only [impactTouches, Bool.or_eq_true, List.any_eq_true, Bool.and_eq_true, decide_eq_true_eq, or_assoc]

theorem mem_lines : line ∈ lines lib inp tokens seed ↔ Cites lib inp tokens (· ∈ seed) line := by
  constructor
  · intro h
    simp only [lines, List.mem_append, List.mem_map, List.mem_filter, or_assoc] at h
    rcases h with ⟨s, ⟨hs, he⟩, rfl⟩ | ⟨h, ⟨hh, he⟩, rfl⟩ | ⟨p, ⟨hp, he⟩, rfl⟩ | ⟨hr, hm⟩ | ⟨b, ⟨hb, he⟩, rfl⟩ | h
    · exact .service hs (of_decide_eq_true he)
    · exact .hop hh (by simpa using he)
    · obtain ⟨s, hs, he⟩ := List.any_eq_true.mp he
      exact .path hp hs (of_decide_eq_true he)
    · exact .route hr hm
    · exact .bind hb (by simpa [or_assoc] using he)
    · cases hi : inp.impact with
      | none => simp [hi] at h
      | some rep =>
        simp only [hi, Option.elim_some] at h
        split_ifs at h with touches
        · rcases impactTouches_iff.mp touches with ⟨f, hf, hm⟩ | ⟨f, hf, he⟩
          · exact .file hi hf hm h
          · exact .finding hi hf he h
        · cases h
  · intro h
    simp only [lines, List.mem_append, List.mem_map, List.mem_filter, or_assoc]
    cases h with
    | service hs he => exact .inl ⟨_, ⟨hs, decide_eq_true he⟩, rfl⟩
    | hop hh he => exact .inr (.inl ⟨_, ⟨hh, by simpa using he⟩, rfl⟩)
    | path hp hs he => exact .inr (.inr (.inl ⟨_, ⟨hp, List.any_eq_true.mpr ⟨_, hs, decide_eq_true he⟩⟩, rfl⟩))
    | route hr hm => exact .inr (.inr (.inr (.inl ⟨hr, hm⟩)))
    | bind hb he => exact .inr (.inr (.inr (.inr (.inl ⟨_, ⟨hb, by simpa [or_assoc] using he⟩, rfl⟩))))
    | file hi hf hm hl =>
      refine .inr (.inr (.inr (.inr (.inr ?_))))
      simp only [hi, Option.elim_some, if_pos (impactTouches_iff.mpr (.inl ⟨_, hf, hm⟩)), hl]
    | finding hi hf he hl =>
      refine .inr (.inr (.inr (.inr (.inr ?_))))
      simp only [hi, Option.elim_some, if_pos (impactTouches_iff.mpr (.inr ⟨_, hf, he⟩)), hl]

theorem mem_foldl_add {ls out : List String} : line ∈ ls.foldl add out ↔ line ∈ out ∨ (line ∈ ls ∧ line ≠ "") := by
  induction ls generalizing out with
  | nil => simp
  | cons l ls ih =>
    rw [List.foldl_cons, ih]
    unfold add
    split_ifs with skip
    · rcases skip with rfl | old
      · simp only [List.mem_cons]
        tauto
      · simp only [List.mem_cons]
        have : line = l → line ∈ out := fun same => same ▸ old
        tauto
    · rw [not_or] at skip
      have : line = l → line ≠ "" := fun same => same ▸ skip.1
      simp only [List.mem_append, List.mem_cons, List.not_mem_nil, or_false]
      tauto

theorem mem_joined : line ∈ joined lib inp tokens ↔ Cites lib inp tokens (· ∈ seeds lib inp tokens) line ∧
    line ≠ "" := by
  rw [joined, mem_foldl_add, mem_lines]
  simp

end

/-! ### Permutations of the hops -/

section
variable {lib : Lib} {inp : Input} {tokens : List String} {hops : List Hop} {E : String → Prop} {line : String}

theorem matched_perm (perm : hops.Perm inp.hops) :
    (matched lib { inp with hops } tokens).toFinset = (matched lib inp tokens).toFinset := by
  refine List.toFinset_eq_of_perm _ _ ?_
  unfold matched
  exact (((perm.flatMap_right _).append_left _).append_right _).append_right _ |>.append_right _

/-- With the hops in another order, at least the close services and at most the linked ones are cited. -/
theorem mem_seeds_perm (perm : hops.Perm inp.hops) (s : String) :
    (Close lib inp tokens s → s ∈ seeds lib { inp with hops } tokens) ∧
    (s ∈ seeds lib { inp with hops } tokens → Linked lib inp tokens s) := by
  have edges {a b : String} : Sweep.Adjacent (hops.map Hop.ends) a b ↔ Sweep.Adjacent (inp.hops.map Hop.ends) a b :=
    or_congr (perm.map Hop.ends).mem_iff (perm.map Hop.ends).mem_iff
  rw [seeds, matched_perm perm]
  constructor
  · intro close
    refine Sweep.mem_sweep_of_near (close.imp_right ?_)
    rintro ⟨t, ht, edge⟩
    exact ⟨t, ht, edges.mpr edge⟩
  · intro mem
    obtain ⟨t, ht, path⟩ := Sweep.connected_of_mem_sweep mem
    exact ⟨t, ht, Relation.ReflTransGen.mono (fun a b edge => edges.mp edge) t s path⟩

theorem mem_joined_perm (perm : hops.Perm inp.hops) :
    (Cites lib inp tokens (Close lib inp tokens) line ∧ line ≠ "" → line ∈ joined lib { inp with hops } tokens) ∧
      (line ∈ joined lib { inp with hops } tokens → Cites lib inp tokens (Linked lib inp tokens) line ∧ line ≠ "") := by
  rw [mem_joined]
  constructor
  · rintro ⟨cites, full⟩
    exact ⟨cites.mono perm.symm.subset fun s => (mem_seeds_perm perm s).1, full⟩
  · rintro ⟨cites, full⟩
    have all : Cites lib { { inp with hops } with hops := inp.hops } tokens (Linked lib inp tokens) line :=
      cites.mono perm.subset fun s => (mem_seeds_perm perm s).2
    exact ⟨all, full⟩

theorem exists_perm_hops {es : List (String × String)} (perm : es.Perm (inp.hops.map Hop.ends)) :
    ∃ hops : List Hop, hops.Perm inp.hops ∧ hops.map Hop.ends = es := by
  have ends : List.Forall₂ (fun e h => e = Hop.ends h) (inp.hops.map Hop.ends) inp.hops :=
    List.forall₂_map_left_iff.mpr (List.forall₂_same.mpr fun h _ => rfl)
  obtain ⟨hops, same, perm⟩ := List.perm_comp_forall₂ perm ends
  have same : List.Forall₂ (· = ·) es (hops.map Hop.ends) := List.forall₂_map_right_iff.mpr same
  rw [List.forall₂_eq_eq_eq] at same
  exact ⟨hops, perm, same.symm⟩

/-- The hits are the same for every order of the hops exactly if the linked services add nothing to the lines of the
    close ones. -/
theorem joined_perm_iff :
    (∀ hops : List Hop, hops.Perm inp.hops → ∀ line, line ∈ joined lib { inp with hops } tokens ↔
      line ∈ joined lib inp tokens) ↔ ∀ line, Cites lib inp tokens (Linked lib inp tokens) line → line ≠ "" →
      Cites lib inp tokens (Close lib inp tokens) line := by
  constructor
  · intro same line cites full
    obtain ⟨es, perm, all⟩ := Sweep.exists_perm_connected (matched lib inp tokens).toFinset (inp.hops.map Hop.ends)
    obtain ⟨far, farPerm, rfl⟩ := exists_perm_hops perm
    obtain ⟨es, perm, few⟩ := Sweep.exists_perm_near (matched lib inp tokens).toFinset (inp.hops.map Hop.ends)
    obtain ⟨near, nearPerm, rfl⟩ := exists_perm_hops perm
    have most : line ∈ joined lib { inp with hops := far } tokens := by
      refine mem_joined.mpr ⟨cites.mono farPerm.symm.subset fun s linked => ?_, full⟩
      rw [seeds, matched_perm farPerm]
      exact all s linked
    have least := mem_joined.mp ((same near nearPerm line).mpr ((same far farPerm line).mp most))
    have close : Cites lib { { inp with hops := near } with hops := inp.hops } tokens (Close lib inp tokens) line := by
      refine least.1.mono nearPerm.subset fun s mem => few s ?_
      rw [seeds, matched_perm nearPerm] at mem
      exact mem
    exact close
  · intro settled hops perm line
    have order {hops hops' : List Hop} (perm : hops.Perm inp.hops) (perm' : hops'.Perm inp.hops)
        (mem : line ∈ joined lib { inp with hops } tokens) : line ∈ joined lib { inp with hops := hops' } tokens := by
      obtain ⟨cites, full⟩ := (mem_joined_perm perm).2 mem
      exact (mem_joined_perm perm').1 ⟨settled line cites full, full⟩
    exact ⟨order perm (.refl _), order (.refl _) perm⟩

end

/-! ### Searches -/

/-- The hits of a search, if it has a report. -/
def hits (lib : Lib) (u : Unicode) (inp : Input) : List String :=
  match search lib u inp with
  | .ok rep => rep.hits
  | .error _ => []

def words (lib : Lib) (u : Unicode) (inp : Input) : List String := tokens lib u (trimSpace inp.question)

/-- No fact is cited only for services that are more than one hop away from those that the question names. -/
def Settled (lib : Lib) (u : Unicode) (inp : Input) : Prop :=
  byteLen (trimSpace inp.question) ≤ maxQuestion →
    ∀ line, Cites lib inp (words lib u inp) (Linked lib inp (words lib u inp)) line → line ≠ "" →
      Cites lib inp (words lib u inp) (Close lib inp (words lib u inp)) line

section
variable {lib : Lib} {u : Unicode} {inp : Input}

theorem matched_nil : matched lib inp [] = [] := by
  have none_ (fact : String) : match_ lib fact [] = false := rfl
  cases impact : inp.impact <;> simp [matched, none_, impact]

theorem settled_of_no_tokens (none_ : words lib u inp = []) : Settled lib u inp := by
  intro _ line cites _
  have all : Cites lib { inp with hops := inp.hops } (words lib u inp) (Close lib inp (words lib u inp)) line := by
    refine cites.mono (fun _ h => h) fun s linked => ?_
    obtain ⟨t, ht, -⟩ := linked
    rw [none_, matched_nil] at ht
    simp at ht
  exact all

/-- A search finds the same facts for every order of the hops exactly if it is settled. -/
theorem hits_perm_iff (lib : Lib) (u : Unicode) (inp : Input) :
    (∀ hops : List Hop, hops.Perm inp.hops → ∀ line, line ∈ hits lib u { inp with hops } ↔ line ∈ hits lib u inp) ↔
    Settled lib u inp := by
  by_cases blank : trimSpace inp.question = ""
  · refine iff_of_true (fun hops _ line => ?_) (settled_of_no_tokens (by rw [words, blank]; rfl))
    simp only [hits, search, blank, if_true]
  · by_cases large : byteLen (trimSpace inp.question) > maxQuestion
    · refine iff_of_true (fun hops _ line => ?_) fun small => absurd small (by omega)
      simp [hits, search, blank, large]
    · by_cases none_ : words lib u inp = []
      · refine iff_of_true (fun hops _ line => ?_) (settled_of_no_tokens none_)
        rw [words] at none_
        simp [hits, search, blank, large, none_]
      · have found (hops : List Hop) : hits lib u { inp with hops } = joined lib { inp with
          hops } (words lib u inp) := by
          rw [words] at none_ ⊢
          simp [hits, search, blank, large, none_]
        simp only [found]
        exact joined_perm_iff.trans ⟨fun settled _ => settled, fun settled => settled (by omega)⟩

end

namespace Sample

def unicode : Unicode where
  isLetter c := c.isAlpha
  isNumber c := c.isDigit

def chain (hops : List Hop) : Input := { question := "alpha", services := ["alpha", "beta", "gamma"], hops }

def ab : Hop := { src := "alpha", dst := "beta" }
def bc : Hop := { src := "beta", dst := "gamma" }

end Sample

open Sample in
/-- The service that is two hops away is cited or not, as the hops are ordered. -/
theorem hits_chain : [bc, ab].Perm [ab, bc] ∧ "service  gamma" ∈ hits Lib.plain unicode (chain [ab, bc]) ∧
    "service  gamma" ∉ hits Lib.plain unicode (chain [bc, ab]) := by
  decide +kernel

end Aquila.Investigate

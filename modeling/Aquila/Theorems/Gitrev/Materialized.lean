import Aquila.Lib.Effects
import Aquila.Theorems.Gitrev.Read

/-! What `Materialize` leaves on the disk. The directory is made at the destination as it is given, and the files
    are written below its cleaned path, which is another place where a `..` follows a link. -/

namespace Aquila.Gitrev
open Cas (text)
open Files (Loc Kept Filled Plain dirAt home Free resolve)
open Effects (Ends bind_of_ok)
variable {t₁ : Files.Tree File} {d : Files.Disk File} {loc : Loc}

/-! ### Calls -/

section
variable {s : State} (h : Host)

/-- Only the faults to come are others. -/
def Frame (s s' : State) : Prop := ∃ faults, s' = { s with faults }

section
variable {α : Type} {Q : α → State → Prop} {E : State → Prop}

theorem fault_bind {f : Option Fault → M α} (next : ∀ r faults, Ends (f r) { s with faults } Q E) :
    Ends (fault >>= f) s Q E := by
  refine Ends.bind (Q := fun _ s' => Frame s s') ?_ fun r s' frame => ?_
  · unfold Ends fault
    cases s.faults with
    | nil => exact ⟨_, rfl⟩
    | cons f faults => exact ⟨faults, rfl⟩
  · obtain ⟨faults, rfl⟩ := frame
    exact next r faults

theorem attempt_ends : Ends attempt s (fun _ s' => Frame s s') (Frame s) := by
  refine fault_bind fun f faults => ?_
  cases f with
  | none => exact .pure ⟨faults, rfl⟩
  | some f => exact .throw ⟨faults, rfl⟩

theorem attempt_bind {f : Unit → M α} (error : ∀ faults, E { s with faults })
    (next : ∀ faults, Ends (f ()) { s with faults } Q E) :
    Ends (attempt >>= f) s Q E := by
  refine (attempt_ends.mono (fun _ _ frame => frame) ?_).bind fun _ s' frame => ?_
  · rintro s' ⟨faults, rfl⟩
    exact error faults
  · obtain ⟨faults, rfl⟩ := frame
    exact next faults

end

theorem request_ends (id : List UInt8) (empty : s.pending = []) :
    Ends (h.request id) s (fun _ s' => s'.disk = s.disk ∧ ∃ missing n, s'.pending = (h.answer id missing).take n)
    (fun s' => s'.disk = s.disk) := by
  refine attempt_bind (fun _ => rfl) fun faults => ?_
  show (h.serve id { s with faults }).disk = s.disk ∧
    ∃ missing n, (h.serve id { s with faults }).pending = (h.answer id missing).take n
  unfold Host.serve
  dsimp only
  rw [empty]
  split_ifs
  · exact ⟨rfl, false, 0, (List.take_zero ..).symm⟩
  · split
    · exact ⟨rfl, false, _, (List.take_length ..).symm⟩
    · next r replies _ =>
      split
      · exact ⟨rfl, r.missing, _, (List.take_length ..).symm⟩
      · next n _ => exact ⟨rfl, r.missing, n, rfl⟩

theorem readLine_ends {line rest : List UInt8} (plain : 10 ∉ line) {n : Nat}
    (sent : s.pending = (line ++ 10 :: rest).take n) :
    Ends readLine s (fun header s' => s'.disk = s.disk ∧ header = line ++ [10] ∧ ∃ m, s'.pending = rest.take m)
    (fun s' => s'.disk = s.disk) := by
  have keep : ∀ x ∈ line, decide (x ≠ 10) = true := fun x hx => decide_eq_true fun same => plain (same ▸ hx)
  unfold Ends readLine
  rw [sent, List.take_append]
  by_cases short : n ≤ line.length
  · have all : ∀ x ∈ line.take n, decide (x ≠ 10) = true := fun x hx => keep x (List.mem_of_mem_take hx)
    rw [Nat.sub_eq_zero_of_le short, List.take_zero, List.append_nil, List.dropWhile_eq_nil_iff.mpr all]
  · obtain ⟨m, rest'⟩ : ∃ m, n - line.length = m + 1 := ⟨n - line.length - 1, by omega⟩
    rw [rest', List.take_succ_cons, List.take_of_length_le (by omega), List.dropWhile_append_of_pos keep,
      List.dropWhile_cons_of_neg (by simp), List.takeWhile_append_of_pos keep, List.takeWhile_cons_of_neg (by simp),
        List.append_nil]
    exact ⟨rfl, rfl, m, rfl⟩

theorem ofExcept_ends {α : Type} {r : Except String α} {Q : α → State → Prop} {E : State → Prop}
    (ok : ∀ a, r = .ok a → Q a s) (error : E s) :
    Ends (ofExcept r) s Q E := by
  unfold Ends ofExcept
  cases r with
  | ok a => exact ok a rfl
  | error e => exact error

theorem nextBlob_ends {entry : TreeEntry} {total : Int} (seen : Graphic entry.blob) (nonneg : 0 ≤ total)
    (empty : s.pending = []) :
    Ends (h.nextBlob total entry) s (fun n s' => s'.disk = s.disk ∧ n = (h.blob entry.blob).length ∧
      n ≤ maxCopyBytes - total ∧ ∃ m, s'.pending = (h.blob entry.blob ++ [10]).take m)
      (fun s' => s'.disk = s.disk) := by
  refine attempt_bind (fun _ => rfl) fun faults => ?_
  refine (request_ends h entry.blob (s := { s with faults }) empty).bind fun _ s₂ sent => ?_
  obtain ⟨disk, missing, n, sent⟩ := sent
  have line (word : List UInt8) (plain : 10 ∉ word) : (10 : UInt8) ∉ entry.blob ++ word := by
    simp [seen.not_mem (x := 10) (by decide), plain]
  cases missing with
  | true =>
    rw [Host.answer, if_pos rfl] at sent
    refine ((readLine_ends (line _ (by decide)) sent).mono (fun _ _ kept => kept) fun _ kept => kept.trans disk).bind
      fun header s₃ read => ?_
    obtain ⟨disk', rfl, -⟩ := read
    obtain ⟨e, refused⟩ := @blobSize_missing entry total seen
    refine ofExcept_ends (fun n size => ?_) (disk'.trans disk)
    rw [refused] at size
    cases size
  | false =>
    rw [Host.answer, if_neg Bool.false_ne_true] at sent
    have word : (10 : UInt8) ∉ entry.blob ++ bytes " blob " ++ bytes (itoa (h.blob entry.blob).length) := by
      have size := (graphic_itoa (h.blob entry.blob).length).not_mem (x := 10) (by decide)
      rw [List.append_assoc]
      exact line _ (by simpa using ⟨by decide, size⟩)
    refine ((readLine_ends word sent).mono (fun _ _ kept => kept) fun _ kept => kept.trans disk).bind
      fun header s₃ read => ?_
    obtain ⟨disk', rfl, left⟩ := read
    refine ofExcept_ends (fun n size => ?_) (disk'.trans disk)
    rw [blobSize_header seen nonneg] at size
    split_ifs at size with over_
    cases size
    exact ⟨disk'.trans disk, rfl, Int.not_lt.mp over_, left⟩

/-! ### Writing a file -/

/-- What `writeBlob` does, if it succeeds: directories are made, and in them a file. -/
structure Written (s : State) (dir target : List String) (file : File) (s' : State) : Prop where
  empty : s'.pending = []
  made : ∃ d loc, Files.mkdirAll s.disk false dir.reverse = (.ok (), d) ∧ resolve d.tree false target = .ok loc ∧
    d.tree.get loc = none ∧ d.tree.Room loc ∧ ∀ l, s'.disk.tree.get l = if l = loc then some (.file file)
      else d.tree.get l

/-- A file that was opened, with its data, and the tree without it. -/
structure Open (t₁ : Files.Tree File) (d : Files.Disk File) (loc : Loc) (file : File) (s : State) : Prop where
  new : t₁.get loc = none
  get : ∀ l, s.disk.tree.get l = if l = loc then some (.file file) else d.tree.get l

theorem Open.file {file : File} (open_ : Open t₁ d loc file s) :
    s.disk.tree.get loc = some (.file file) := by rw [open_.get, if_pos rfl]

theorem Open.kept {file : File} (open_ : Open t₁ d loc file s) (before : Kept t₁ d.tree) :
    Kept t₁ s.disk.tree := by
  intro l e found
  rw [open_.get, if_neg, before l e found]
  rintro rfl
  rw [open_.new] at found
  cases found

theorem Open.modify {t₁ : Files.Tree File} {d : Files.Disk File} {loc : Loc} {file : File}
    (open_ : Open t₁ d loc file s) (f : File → File) {s' : State}
    (disk : s'.disk = Files.modify s.disk loc f) : Open t₁ d loc (f file) s' := by
  refine ⟨open_.new, fun l => ?_⟩
  rw [disk, Files.get_modify open_.file, open_.get]
  split_ifs <;> rfl

variable {h}

theorem mkdirAll_ends (kept : Kept t₁ s.disk.tree) (path : String) :
    Ends (h.mkdirAll path) s (fun _ s' => s'.pending = s.pending ∧ Kept t₁ s'.disk.tree ∧
      Files.mkdirAll s.disk false (h.names path).reverse = (.ok (), s'.disk)) (fun s' => Kept t₁ s'.disk.tree) := by
  refine fault_bind fun f faults => ?_
  cases f with
  | some f => exact kept.trans (Files.kept_mkdirAll _ _ _)
  | none =>
    have all := kept.trans (Files.kept_mkdirAll s.disk false (h.names path).reverse)
    unfold Ends
    dsimp only
    cases run : Files.mkdirAll s.disk false (h.names path).reverse with
    | mk r d =>
      rw [run] at all
      cases r with
      | ok u => exact ⟨rfl, all, rfl⟩
      | error e => exact all

theorem openFile_ends (kept : Kept t₁ s.disk.tree) (path : String) (mode : UInt32) :
    Ends (h.openFile path mode) s (fun loc s' => s'.pending = s.pending ∧
      resolve s.disk.tree false (h.names path) = .ok loc ∧ s.disk.tree.get loc = none ∧ s.disk.tree.Room loc ∧
      Open t₁ s.disk loc { mode := mode &&& ~~~h.umask, data := [] } s')
      (fun s' => Kept t₁ s'.disk.tree) := by
  refine attempt_bind (fun _ => kept) fun faults => ?_
  unfold Ends onDisk
  dsimp only
  cases run : Files.create s.disk (h.names path) { mode := mode &&& ~~~h.umask, data := [] } with
  | mk r d =>
    cases r with
    | ok loc =>
      obtain ⟨way, missing, room, rfl⟩ := Files.create_ok run
      exact ⟨rfl, way, missing, room, kept.absent missing, Files.Tree.get_put room _⟩
    | error e =>
      obtain rfl := Files.create_error run
      exact kept

theorem chmod_ends {file : File} (open_ : Open t₁ d loc file s) (mode : UInt32) :
    Ends (chmod loc mode) s (fun _ s' => s'.pending = s.pending ∧ Open t₁ d loc { file with mode } s')
    (fun s' => Open t₁ d loc file s') :=
  attempt_bind (fun _ => ⟨open_.new, open_.get⟩) fun _ => ⟨rfl, open_.modify (fun f => { f with mode }) rfl⟩

theorem copyN_ends {file : File} (open_ : Open t₁ d loc file s) (n : Nat) :
    Ends (copyN loc n) s (fun e s' => (∃ file, Open t₁ d loc file s') ∧
      (e = none → n ≤ s.pending.length ∧ s'.pending = s.pending.drop n ∧
        Open t₁ d loc { file with data := file.data ++ s.pending.take n } s'))
      (fun s' => ∃ file, Open t₁ d loc file s') := by
  refine fault_bind fun f faults => ?_
  have copied (k : Nat) : Open t₁ d loc { file with data := file.data ++ s.pending.take k }
    (copy loc k { s with faults }) :=
    open_.modify (fun f => { f with data := f.data ++ s.pending.take k }) rfl
  cases f with
  | some f => exact ⟨⟨_, copied _⟩, fun none_ => by cases none_⟩
  | none =>
    refine ⟨⟨_, copied n⟩, fun none_ => ?_⟩
    split_ifs at none_ with short
    exact ⟨Nat.not_lt.mp short, rfl, copied n⟩

theorem close_ends {E : State → Prop} : Ends close s (fun _ s' => Frame s s') E := by
  refine fault_bind fun f faults => ?_
  cases f <;> exact .pure ⟨faults, rfl⟩

theorem writeBlob_ends (kept : Kept t₁ s.disk.tree) (target : String) (mode : UInt32) {data : List UInt8} {m : Nat}
    (sent : s.pending = (data ++ [10]).take m) :
    Ends (h.writeBlob target mode data.length) s
      (fun _ s' => Written s (h.names (Diff.pathDir target)) (h.names target) { mode, data } s' ∧ Kept t₁ s'.disk.tree)
      (fun s' => Kept t₁ s'.disk.tree) := by
  refine (mkdirAll_ends kept _).bind fun _ s₁ dirs => ?_
  obtain ⟨pending₁, kept₁, made⟩ := dirs
  refine (openFile_ends kept₁ target mode).bind fun loc s₂ opened => ?_
  obtain ⟨pending₂, way, missing, room, opened⟩ := opened
  refine ((chmod_ends opened mode).mono (fun _ _ h => h) fun _ open_ => open_.kept kept₁).bind fun _ s₃ changed => ?_
  obtain ⟨pending₃, changed⟩ := changed
  have pending : s₃.pending = (data ++ [10]).take m := by rw [pending₃, pending₂, pending₁, sent]
  refine ((copyN_ends changed data.length).mono (fun _ _ h => h) ?_).bind fun copyErr s₄ copied => ?_
  · rintro s' ⟨file, open_⟩
    exact open_.kept kept₁
  obtain ⟨⟨file, still⟩, copied⟩ := copied
  refine close_ends.bind fun closeErr s₅ frame => ?_
  obtain ⟨faults, rfl⟩ := frame
  have kept₄ := still.kept kept₁
  refine Ends.bind (Q := fun _ s' => copyErr = none ∧ s' = { s₄ with faults }) (ofExcept_ends (fun _ ok => ?_) kept₄)
    fun _ s₆ none_ => ?_
  · cases copyErr with
    | none => exact ⟨rfl, rfl⟩
    | some e => cases ok
  obtain ⟨rfl, rfl⟩ := none_
  refine Ends.bind (Q := fun _ s' => s' = { s₄ with faults }) (ofExcept_ends (fun _ _ => rfl) kept₄) fun _ s₇ same => ?_
  obtain rfl := same
  obtain ⟨enough, rest, final⟩ := copied rfl
  rw [pending] at enough rest final
  -- All the bytes have come, and what comes next is the separator.
  have long : data.length ≤ m := by
    rw [List.length_take] at enough
    omega
  rw [List.take_append, List.take_of_length_le long, List.take_left] at final
  rw [List.take_append, List.take_of_length_le long, List.drop_left] at rest
  refine Ends.bind (Q := fun _ s' => s'.pending = [] ∧ s'.disk = s₄.disk) ?_ fun x s₈ read => ?_
  · unfold Ends readByte
    dsimp only
    rw [rest]
    cases m - data.length with
    | zero => exact kept₄
    | succ k => exact ⟨by simp, rfl⟩
  · obtain ⟨empty, disk⟩ := read
    split_ifs
    · exact .throw (disk ▸ kept₄)
    · refine .pure ⟨⟨empty, s₁.disk, loc, made, way, missing, room, fun l => ?_⟩, disk ▸ kept₄⟩
      rw [disk, final.get]
      rfl

/-- One round: a file is written, and the framing is kept. -/
theorem writeEntry_ends {t₁ : Files.Tree File} (kept : Kept t₁ s.disk.tree) {dst : String} (ne : elements dst ≠ [])
    {entry : TreeEntry}
    (safe : safeTreePath entry.name = true) (seen : Graphic entry.blob) {total : Int} (nonneg : 0 ≤ total)
    (empty : s.pending = []) :
    Ends (h.writeEntry dst total entry) s
      (fun total' s' => total' = total + (h.blob entry.blob).length ∧ total' ≤ maxCopyBytes ∧ Kept t₁ s'.disk.tree ∧
        Written s (h.names (Diff.pathDir (pathJoin dst entry.name))) (h.names (pathJoin dst entry.name))
          { mode := fileMode entry, data := h.blob entry.blob } s')
      (fun s' => Kept t₁ s'.disk.tree) := by
  obtain ⟨rs, some_, parts, -, name⟩ := safeTreePath_iff.mp safe
  refine ((nextBlob_ends h seen nonneg empty).mono (fun _ _ h => h) fun s' disk => disk ▸ kept).bind fun n s₁ next => ?_
  obtain ⟨disk, rfl, room, m, sent⟩ := next
  have inside : outside dst (pathJoin dst entry.name) = false := by
    rw [name]
    exact outside_eq_false ne (fun e he => (parts e he).1) some_
  dsimp only
  rw [inside, if_neg Bool.false_ne_true, Int.toNat_natCast]
  refine (writeBlob_ends (disk ▸ kept) _ _ sent).bind fun _ s₂ written => ?_
  obtain ⟨⟨empty', made⟩, kept'⟩ := written
  rw [disk] at made
  exact .pure ⟨rfl, by omega, kept', empty', made⟩

/-- The bytes of the blobs. -/
def Host.size (h : Host) (entries : List TreeEntry) : Nat := (entries.map fun e => (h.blob e.blob).length).sum

theorem writeEntries_ends {t₁ : Files.Tree File} {dst : String} (ne : elements dst ≠ [])
    {Fit : List TreeEntry → Files.Disk File → Prop}
    {entries : List TreeEntry} (good : ∀ e ∈ entries, safeTreePath e.name = true ∧ Graphic e.blob)
    (step : ∀ done entry s s', entry ∈ entries → Kept t₁ s.disk.tree → Fit done s.disk →
      Written s (h.names (Diff.pathDir (pathJoin dst entry.name))) (h.names (pathJoin dst entry.name))
        { mode := fileMode entry, data := h.blob entry.blob } s' → Fit (done ++ [entry]) s'.disk)
    {done : List TreeEntry} {total : Int} (nonneg : 0 ≤ total) (room : total ≤ maxCopyBytes)
      (kept : Kept t₁ s.disk.tree) (empty : s.pending = [])
    (fit : Fit done s.disk) :
    Ends (h.writeEntries dst total entries) s
      (fun _ s' => Kept t₁ s'.disk.tree ∧ Fit (done ++ entries) s'.disk ∧ total + h.size entries ≤ maxCopyBytes)
        (fun s' => Kept t₁ s'.disk.tree) := by
  induction entries generalizing done total s with
  | nil =>
    refine .pure ⟨kept, by rwa [List.append_nil], ?_⟩
    rw [Host.size, List.map_nil, List.sum_nil]
    omega
  | cons entry entries ih =>
    obtain ⟨⟨safe, seen⟩, others⟩ := List.forall_mem_cons.mp good
    refine (writeEntry_ends kept ne safe seen nonneg empty).bind fun total' s₁ written => ?_
    obtain ⟨rfl, room', kept', written⟩ := written
    have fit' := step done entry s s₁ List.mem_cons_self kept fit written
    refine (ih others (fun done e s s' he => step done e s s' (List.mem_cons_of_mem _ he))
      (by omega) room' kept' written.empty fit').mono
      (fun _ s' all => ?_) fun _ kept => kept
    obtain ⟨kept, fit, size⟩ := all
    refine ⟨kept, by rwa [List.append_assoc, List.singleton_append] at fit, ?_⟩
    rw [Host.size, List.map_cons, List.sum_cons, ← Host.size]
    omega

/-! ### Outcomes -/

theorem outcome_cases {x : M Unit} {Q : State → Prop} {E : State → Prop} (ends : Ends x s (fun _ => Q) E) :
    (Host.outcome x s).1 = none ∧ Q (Host.outcome x s).2 ∨ (Host.outcome x s).1 ≠ none ∧ E (Host.outcome x s).2 := by
  unfold Ends at ends
  unfold Host.outcome
  cases run : x s with
  | ok u s' =>
    rw [run] at ends
    exact .inl ⟨rfl, ends⟩
  | error e s' =>
    rw [run] at ends
    exact .inr ⟨by simp, ends⟩

theorem start_ends : Ends Host.start s (fun _ s' => Frame s s') (Frame s) := by
  refine attempt_bind (fun faults => ⟨faults, rfl⟩) fun _ => attempt_bind (fun faults => ⟨faults, rfl⟩) fun _ =>
    fault_bind fun f faults => ?_
  cases f with
  | none => exact .pure ⟨faults, rfl⟩
  | some f => exact .throw ⟨faults, rfl⟩

end

end Aquila.Gitrev

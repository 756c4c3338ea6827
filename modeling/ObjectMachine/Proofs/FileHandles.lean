/-
  ObjectMachine/Proofs/FileHandles.lean
  =====================================
  **File handles are used safely over whole runs.**

  Calls of services share the table of files; whatever else the machine and the host are at one
  call they may not be at the next one.  So a run is a row of calls, each on a machine of its own
  that has the table which the call before it has left.

  What has happened to handles so far is a history: files that were opened, one after the other,
  and handles that were closed.  `Tracks` says that the table is as the history has it.  Each call
  keeps that up, since it can do no more than `Call.Effect` says, and so does a run.

  Runs start from machines that hold the operands of a service; these are prepared last.
-/
import ObjectMachine.Proofs.FileServices

namespace ObjectMachine

/-! ### Histories -/

/-- What happens to handles. -/
inductive FileEvent where
  | opened (mode : OpenMode)
  | closed (handle : Word)
  deriving DecidableEq, Repr

/-- Whether a file was opened. -/
def FileEvent.isOpening : FileEvent → Bool
  | .opened _ => true
  | .closed _ => false

/-- How many files have been opened. -/
def openings (history : List FileEvent) : Nat := history.countP FileEvent.isOpening

/-- **A handle is open**: its file was opened in the given way, after as many files as the handle
    says, and it has not been closed since. -/
def OpenIn (history : List FileEvent) (mode : OpenMode) (handle : Word) : Prop :=
  ∃ before after, history = before ++ .opened mode :: after ∧ openings before = handle.toNat ∧
    .closed handle ∉ after

section OpenIn

variable {history : List FileEvent} {mode other : OpenMode} {handle closing : Word}

theorem OpenIn.lt (open_ : OpenIn history mode handle) : handle.toNat < openings history := by
  obtain ⟨before, after, rfl, count, -⟩ := open_
  simp only [openings, List.countP_append, List.countP_cons, FileEvent.isOpening] at count ⊢
  simp only [if_true]
  omega

theorem openIn_opened : OpenIn (history ++ [.opened other]) mode handle ↔
    OpenIn history mode handle ∨ mode = other ∧ handle.toNat = openings history := by
  constructor
  · rintro ⟨before, after, split, count, unclosed⟩
    rcases List.eq_nil_or_concat after with rfl | ⟨after, last, rfl⟩
    · obtain ⟨rfl, same⟩ := List.append_inj' split rfl
      cases same
      exact Or.inr ⟨rfl, count.symm⟩
    · rw [List.concat_eq_append, ← List.cons_append, ← List.append_assoc] at split
      obtain ⟨rfl, -⟩ := List.append_inj' split rfl
      refine Or.inl ⟨before, after, rfl, count, fun mem => unclosed ?_⟩
      simp [mem]
  · rintro (⟨before, after, rfl, count, unclosed⟩ | ⟨rfl, count⟩)
    · exact ⟨before, after ++ [.opened other], by simp, count, by simp [unclosed]⟩
    · exact ⟨history, [], rfl, count.symm, List.not_mem_nil⟩

theorem openIn_closed : OpenIn (history ++ [.closed closing]) mode handle ↔
    OpenIn history mode handle ∧ handle ≠ closing := by
  constructor
  · rintro ⟨before, after, split, count, unclosed⟩
    rcases List.eq_nil_or_concat after with rfl | ⟨after, last, rfl⟩
    · obtain ⟨-, same⟩ := List.append_inj' split rfl
      cases same
    · rw [List.concat_eq_append, ← List.cons_append, ← List.append_assoc] at split
      obtain ⟨rfl, same⟩ := List.append_inj' split rfl
      cases same
      refine ⟨⟨before, after, rfl, count, fun mem => unclosed ?_⟩, ?_⟩
      · simp [mem]
      · rintro rfl
        exact unclosed (by simp)
  · rintro ⟨⟨before, after, rfl, count, unclosed⟩, different⟩
    exact ⟨before, after ++ [.closed closing], by simp, count, by simp [unclosed, different]⟩

end OpenIn

/-- What a call does to handles: it opens a file that the host accepts, or it closes the file of
    the handle that it is given, unless it fails. -/
def Call.event? (c : Call) : Option FileEvent :=
  match c.use? with
  | some u => if u.closes && (answer? c.result).isSome then some (.closed u.handle) else none
  | none => c.opens?.map .opened

/-- What some calls have done to handles. -/
def history (calls : List Call) : List FileEvent := calls.filterMap Call.event?

/-- The handles that some calls have delivered. -/
def delivered (calls : List Call) : List Word := calls.filterMap Call.delivered?

/-- **The table is as the history has it**: it has an entry for each file that was opened, and the
    handles that are open are those that the history says are. -/
structure FileTable.Tracks (t : FileTable) (history : List FileEvent) : Prop where
  size : t.entries.size = openings history
  mode : ∀ mode handle, t.mode? handle = some mode ↔ OpenIn history mode handle

theorem FileTable.tracks_nil : FileTable.Tracks {} [] where
  size := rfl
  mode mode handle := by
    constructor
    · intro open_
      obtain ⟨file, found, -⟩ := Option.map_eq_some_iff.1 open_
      have := FileTable.get?_eq_some found
      simp at this
    · intro open_
      have := open_.lt
      simp [openings] at this

section Tracks

variable {t : FileTable} {past : List FileEvent}

/-- A new entry. -/
theorem FileTable.Tracks.insert (tracks : t.Tracks past) (few : openings past < 2 ^ 31)
    (file : OpenFile) : (t.insert file).2.Tracks (past ++ [.opened file.mode]) where
  size := by
    simp [FileTable.insert, tracks.size, openings, FileEvent.isOpening]
  mode mode handle := by
    rw [FileTable.mode?_insert (tracks.size ▸ few), openIn_opened, tracks.size, ← tracks.mode]
    split
    · rename_i last
      have none_ : t.mode? handle = none := by
        simp [FileTable.mode?, FileTable.get?_of_size_le (tracks.size.trans last.symm).le]
      simp [none_, last, eq_comm]
    · rename_i different
      simp [different]

/-- An entry is replaced by one of a file that is open in the same way. -/
theorem FileTable.Tracks.replace (tracks : t.Tracks past) {mode : OpenMode} {handle : Word}
    {file : OpenFile} (open_ : t.mode? handle = some mode) (same : file.mode = mode) :
    (t.set handle (some file)).Tracks past where
  size := by simpa [FileTable.set] using tracks.size
  mode other_mode other := by
    rw [FileTable.mode?_set open_, ← tracks.mode]
    split
    · rename_i here
      rw [here, open_, Option.map_some, same]
    · rfl

/-- An entry is removed. -/
theorem FileTable.Tracks.remove (tracks : t.Tracks past) {mode : OpenMode} {handle : Word}
    (open_ : t.mode? handle = some mode) :
    (t.set handle none).Tracks (past ++ [.closed handle]) where
  size := by simpa [FileTable.set, openings, FileEvent.isOpening] using tracks.size
  mode other_mode other := by
    rw [FileTable.mode?_set open_, openIn_closed, ← tracks.mode]
    split <;> simp_all

/-- A call that is given a handle. -/
theorem FileTable.Tracks.treats {c : Call} (tracks : c.machine.files.Tracks past) {u : Machine.Use}
    (asked : c.use? = some u) (treats : Machine.Treats u c.machine.files c.result) :
    c.after.Tracks (past ++ c.event?.toList) := by
  have event : c.event? =
      if u.closes && (answer? c.result).isSome then some (.closed u.handle) else none := by
    simp [Call.event?, asked]
  rw [event, show c.after = (endState c.result).files from rfl]
  generalize c.result = result at treats
  cases treats with
  | refused _ files =>
    simpa [endState, answer?, files] using tracks
  | closed open_ closes files =>
    simpa [endState, answer?, files, closes] using tracks.remove open_
  | served open_ keeps mode files =>
    simpa [endState, files, keeps] using tracks.replace open_ mode
  | failed open_ _ mode files =>
    simpa [endState, answer?, files] using tracks.replace open_ mode

/-- **One call keeps track.** -/
theorem FileTable.Tracks.call {c : Call} (tracks : c.machine.files.Tracks past)
    (few : openings (past ++ c.event?.toList) ≤ 2 ^ 31) :
    c.after.Tracks (past ++ c.event?.toList) := by
  cases c.effect with
  | used asked treats => exact tracks.treats asked treats
  | aside unopened unused _ files =>
    have none_ : c.event? = none := by simp [Call.event?, unused, unopened]
    rw [none_, files]
    simpa using tracks
  | @opened file asked unused files _ =>
    have some_ : c.event? = some (.opened file.mode) := by simp [Call.event?, unused, asked]
    rw [some_] at few ⊢
    rw [files]
    refine tracks.insert ?_ _
    simp only [openings, Option.toList_some, List.countP_append, List.countP_singleton,
      FileEvent.isOpening, if_true] at few
    exact few

end Tracks

/-! ### Runs -/

/-- **A run**: calls one after the other, each on a machine with the table that the one before it
    has left.  At first the table is empty. -/
inductive FileRun : List Call → FileTable → Prop where
  | start : FileRun [] {}
  | call {calls : List Call} {c : Call} (before : FileRun calls c.machine.files) :
      FileRun (calls ++ [c]) c.after

section Run

variable {calls : List Call} {t : FileTable}

theorem history_append (calls : List Call) (c : Call) :
    history (calls ++ [c]) = history calls ++ c.event?.toList := by
  cases event : c.event? <;> simp [history, event]

theorem openings_le_append (past : List FileEvent) (more : List FileEvent) :
    openings past ≤ openings (past ++ more) := by
  simp [openings]

theorem openings_opened (past : List FileEvent) (mode : OpenMode) :
    openings (past ++ (some (FileEvent.opened mode)).toList) = openings past + 1 := by
  simp [openings, FileEvent.isOpening]

theorem FileRun.tracks (run : FileRun calls t) (few : openings (history calls) ≤ 2 ^ 31) :
    t.Tracks (history calls) := by
  induction run with
  | start => exact FileTable.tracks_nil
  | call before ih =>
    rw [history_append] at few ⊢
    exact (ih ((openings_le_append _ _).trans few)).call few

theorem delivered_append (calls : List Call) (c : Call) :
    delivered (calls ++ [c]) = delivered calls ++ c.delivered?.toList := by
  cases handle : c.delivered? <;> simp [delivered, handle]

theorem Call.openMode?_of_opens? {c : Call} {mode : OpenMode} (asked : c.opens? = some mode) :
    c.service.openMode? = some mode := by
  unfold opens? at asked
  split at asked
  · rename_i opens _
    split at asked <;> simp_all
  · cases asked

theorem Call.treats {c : Call} {u : Machine.Use} (asked : c.use? = some u) :
    Machine.Treats u c.machine.files c.result := by
  cases c.effect with
  | used asked' treats =>
    cases asked.symm.trans asked'
    exact treats
  | opened _ unused => cases asked.symm.trans unused
  | aside _ unused => cases asked.symm.trans unused

/-- An open that does not fail delivers the handle of the entry that it has made. -/
theorem Call.delivers {c : Call} {mode : OpenMode} {m : Machine}
    (opens : c.service.openMode? = some mode) (done : c.result = .ok () m) :
    ∃ file m', file.mode = mode ∧ c.event? = some (.opened mode) ∧
      c.after = (c.machine.files.insert file).2 ∧
      Machine.popInteger m = .ok (c.machine.files.insert file).1 m' := by
  cases c.effect with
  | @opened file asked unused files delivers =>
    obtain ⟨m', popped⟩ := delivers m done
    cases opens.symm.trans (openMode?_of_opens? asked)
    exact ⟨file, m', rfl, by simp [event?, unused, asked], files, popped⟩
  | used asked =>
    rw [use?_of_opens (by rw [opens]; rfl)] at asked
    cases asked
  | aside _ _ fails =>
    rcases fails with none_ | ⟨e, m', failed⟩
    · cases opens.symm.trans none_
    · cases done.symm.trans failed

theorem Call.delivered?_eq_some {c : Call} {handle : Word} (found : c.delivered? = some handle) :
    ∃ file, handle = (c.machine.files.insert file).1 ∧ c.event? = some (.opened file.mode) ∧
      c.after = (c.machine.files.insert file).2 := by
  unfold delivered? at found
  split at found
  · rename_i mode m opens done
    obtain ⟨file, m', rfl, event, after, popped⟩ := delivers opens done
    rw [popped] at found
    cases found
    exact ⟨file, rfl, event, after⟩
  · cases found

/-- The table never gets shorter. -/
theorem Call.size_le_after (c : Call) : c.machine.files.entries.size ≤ c.after.entries.size := by
  cases c.effect with
  | opened _ _ files => simp [files, FileTable.insert]
  | aside _ _ _ files => rw [files]
  | @used u asked treats =>
    rw [show c.after = (endState c.result).files from rfl]
    generalize c.result = result at treats
    cases treats <;> simp_all [endState, FileTable.set]

/-- Handles that have been delivered are positions in the table. -/
theorem FileRun.lt_of_mem_delivered (run : FileRun calls t)
    (few : openings (history calls) ≤ 2 ^ 31) :
    ∀ handle ∈ delivered calls, handle.toNat < t.entries.size := by
  induction run with
  | start => simp [delivered]
  | @call calls c before ih =>
    rw [history_append] at few
    have fewer := (openings_le_append _ _).trans few
    intro handle mem
    rw [delivered_append, List.mem_append, Option.mem_toList] at mem
    rcases mem with old | new
    · exact (ih fewer handle old).trans_le c.size_le_after
    · obtain ⟨file, rfl, event, after⟩ := Call.delivered?_eq_some new
      rw [event, openings_opened, ← (before.tracks fewer).size] at few
      have limit : wordLimit = 2 ^ 32 := rfl
      rw [after, FileTable.toNat_insert (by omega)]
      simp [FileTable.insert]

/-- **How a call treats handles**, after some other calls. -/
structure Call.Safe (calls : List Call) (c : Call) : Prop where
  /-- An open that does not fail delivers a handle that no call before it has delivered, and that
      is open then. -/
  delivers : ∀ mode m, c.service.openMode? = some mode → c.result = .ok () m →
    ∃ handle m', Machine.popInteger m = .ok handle m' ∧ handle ∉ delivered calls ∧
      OpenIn (history (calls ++ [c])) mode handle
  /-- A handle that is open in the right way passes. -/
  passes : ∀ u, c.use? = some u → OpenIn (history calls) u.mode u.handle →
    ∀ handle m, c.result ≠ .error (.unknownFileHandle handle) m
  /-- Any other handle is reported, and no entry is changed. -/
  refuses : ∀ u, c.use? = some u → ¬OpenIn (history calls) u.mode u.handle →
    (∃ m, c.result = .error (.unknownFileHandle u.handle) m) ∧ c.after = c.machine.files
  /-- Entries of other handles stay as they are. -/
  others : ∀ i < c.machine.files.entries.size, (∀ u, c.use? = some u → u.handle.toNat ≠ i) →
    c.after.entries[i]? = c.machine.files.entries[i]?

/-- **Handles are safe in every run** with fewer than `2 ^ 31` opens, whatever the paths and the
    handles are, whichever calls fail, and whatever the host refuses. -/
theorem handles_are_safe {c : Call} (run : FileRun calls c.machine.files)
    (few : openings (history (calls ++ [c])) < 2 ^ 31) : c.Safe calls := by
  have few' : openings (history calls) < 2 ^ 31 := by
    rw [history_append] at few
    exact (openings_le_append _ _).trans_lt few
  have tracks := run.tracks few'.le
  refine ⟨?delivers, ?passes, ?refuses, ?others⟩
  case delivers =>
    intro mode m opens done
    obtain ⟨file, m', rfl, event, -, popped⟩ := c.delivers opens done
    have position : (c.machine.files.insert file).1.toNat = c.machine.files.entries.size := by
      apply FileTable.toNat_insert
      rw [tracks.size]
      exact few'.trans (by decide)
    refine ⟨_, m', popped, fun old => ?_, ?_⟩
    · exact (run.lt_of_mem_delivered few'.le _ old).ne position
    · rw [history_append, event]
      exact openIn_opened.2 (Or.inr ⟨rfl, position.trans tracks.size⟩)
  case passes =>
    intro u asked open_ handle m unknown
    have treats := c.treats asked
    rw [unknown] at treats
    cases treats with
    | refused closed => exact closed ((tracks.mode _ _).2 open_)
    | failed _ other => exact other handle rfl
  case refuses =>
    intro u asked closed
    have treats := c.treats asked
    rw [show c.after = (endState c.result).files from rfl]
    generalize c.result = result at treats
    cases treats with
    | refused _ files => exact ⟨⟨_, rfl⟩, files⟩
    | closed open_ | served open_ | failed open_ => exact absurd ((tracks.mode _ _).1 open_) closed
  case others =>
    intro i inside apart
    cases c.effect with
    | opened _ _ files =>
      rw [files]
      simp [FileTable.insert, Array.getElem?_push, inside.ne]
    | aside _ _ _ files => rw [files]
    | @used u asked treats =>
      have apart := apart u asked
      rw [show c.after = (endState c.result).files from rfl]
      generalize c.result = result at treats
      cases treats <;> simp_all [endState, FileTable.set]

end Run

/-! ### Prepared machines -/

theorem splitOn_f : "f".splitOn "/" = ["f"] := by
  rw [String.splitOn, if_neg (by decide), String.splitOnAux]
  rw [if_neg (by decide), if_neg (by decide), String.splitOnAux]
  rw [if_pos (by decide)]
  decide

/-- The path that prepared machines hold names a file in the directory itself. -/
theorem Directory.follow_f (d : Directory) : d.follow "f" = .ok (.file (.here "f"), false) := by
  have clean : "f".contains '\x00' = false := by simp
  have relative : "f".startsWith "/" = false := by simp
  have path : Path.ofText? "f" = some ⟨some 0, [], "f", false⟩ := by
    unfold Path.ofText?
    rw [splitOn_f, relative]
    rfl
  unfold follow
  rw [clean, path]
  rfl

namespace Machine

open Memory

/-- **Room for a result**: the heap has room for a String of so many bytes, and the stack for one
    more reference. -/
structure HasRoom (m : Machine) (length : Nat) : Prop where
  sound : m.memory.space.Sound
  heap : 11 + length ≤ m.memory.space.free
  stack : m.memory.stack.sp + 4 ≤ m.memory.stack.bytes.size
  integer : ∃ c, m.memory.classOrNull m.known.integer = .ok c
  string : ∃ c, m.memory.classOrNull m.known.string = .ok c

namespace HasRoom

variable {m : Machine} {n : Nat} (room : m.HasRoom n)
include room

theorem pushString {text : List UInt8} (short : text.length ≤ n) (small : text.length < wordLimit) :
    ∃ m', Machine.pushString text m = .ok () m' := by
  obtain ⟨c, known⟩ := room.string
  obtain ⟨r, mem, made, adds⟩ := newString_of_room room.sound known small
    ((Nat.add_le_add_left short 11).trans room.heap)
  have space : mem.stack.sp + 4 ≤ mem.stack.bytes.size := adds.stack ▸ room.stack
  exact ⟨_, (run_bind_ok made).trans (Lockstep.onMemory_ok (Memory.pushRef_eq space))⟩

theorem pushInteger (enough : 4 ≤ n) (value : Word) :
    ∃ m', Machine.pushInteger value m = .ok () m' := by
  obtain ⟨c, known⟩ := room.integer
  obtain ⟨r, mem, made, adds⟩ := newInteger_of_room room.sound known value
    ((Nat.add_le_add_left enough 11).trans room.heap)
  have space : mem.stack.sp + 4 ≤ mem.stack.bytes.size := adds.stack ▸ room.stack
  exact ⟨_, (run_bind_ok made).trans (Lockstep.onMemory_ok (Memory.pushRef_eq space))⟩

theorem pushNull : ∃ m', (Memory.pushRef Ref.null : Run Unit) m = .ok () m' :=
  ⟨_, Lockstep.onMemory_ok (Memory.pushRef_eq room.stack)⟩

/-- An operand is popped. -/
theorem popped : HasRoom { m with memory := m.memory.popped } n :=
  { room with
    stack := by
      have room := room.stack
      change m.memory.stack.sp - 4 + 4 ≤ m.memory.stack.bytes.size
      omega }

/-- A service that opens a file can push the handle. -/
theorem deliver (enough : 4 ≤ n) (file : OpenFile) (event : Word → Event) :
    ∃ m', Call.deliver file event m = .ok () m' := by
  let handle := (m.files.insert file).1
  let m₁ : Machine := { m with files := (m.files.insert file).2 }
  let m₂ : Machine := { m₁ with memory := { m.memory with
    journal := m.memory.journal.note (event handle) } }
  have inserted : insertFile file m = .ok handle m₁ := rfl
  have noted : (Memory.note (event handle) : Run Unit) m₁ = .ok () m₂ := rfl
  have room₂ : HasRoom m₂ n := { room with }
  obtain ⟨m', pushed⟩ := room₂.pushInteger enough handle
  exact ⟨m', (run_bind_ok inserted).trans ((run_bind_ok noted).trans pushed)⟩

end HasRoom

/-- Below the operand on top is another. -/
theorem peekRef_popped {m : Memory} {r : Ref} (found : m.peekRef 1 = .ok r) :
    m.popped.peekRef 0 = .ok r := by
  obtain ⟨deep, word⟩ := word_of_peek found
  refine peekRef_eq (show 4 ≤ m.stack.sp - 4 by omega) ?_
  change m.stack.bytes.word? (m.stack.sp - 4 - 4) = _
  rw [Nat.sub_sub]
  exact word

/-- **A prepared machine** has any files, an Integer on its stack, and a String on top of that. -/
theorem exists_with_operands (host : FileTable × Directory) (handle : Word) (text : List UInt8)
    (short : text.length ≤ 200) : ∃ m : Machine, HasFiles host m ∧ m.HasRoom 200 ∧
      popString m = .ok text { m with memory := m.memory.popped } ∧
      popInteger { m with memory := m.memory.popped } =
        .ok handle { m with memory := m.memory.popped.popped } := by
  obtain ⟨m₀, made⟩ := Machine.exists_new (show modestSetup.settings.validate = .ok () from rfl)
    (by decide) (by decide)
  obtain ⟨objects, new⟩ := isNew_of_new made
  obtain ⟨c, integers⟩ := new.exists_integer
  obtain ⟨d, strings⟩ := new.exists_string
  have free : 1200 ≤ m₀.memory.space.free + 351 := new.half_le_free
  have ordered := new.wf.sound.start_le_top
  have small : text.length < wordLimit := by
    unfold wordLimit
    omega
  -- the two operands as objects
  obtain ⟨i, m₁, -, adds₁⟩ := newInteger_of_room new.wf.sound integers handle (by omega)
  have free₁ : m₁.space.free + 15 = m₀.memory.space.free := adds₁.free_eq new.wf.sound
  have registered₁ : ∀ id, m₁.classOrNull id = m₀.memory.classOrNull id :=
    classOrNull_congr adds₁.classes
  obtain ⟨s, m₂, -, adds₂⟩ := @newString_of_room { m₀ with memory := m₁ } d adds₁.sound
    ((registered₁ _).trans strings) text small (by
      dsimp only
      omega)
  have integer : m₂.Holds i c (.bytes handle.bytes) := adds₂.holds_below (adds₁.holds ordered)
  have string : m₂.Holds s d (.bytes text) := adds₂.holds adds₁.sound.start_le_top
  -- and on the stack
  have stack : m₂.stack = m₀.memory.stack := adds₂.stack.trans adds₁.stack
  have sp : m₂.stack.sp = 0 := (congrArg FrameStack.sp stack).trans new.sp
  have size : m₂.stack.bytes.size = 64 := (congrArg (·.bytes.size) stack).trans new.stack_size
  let s₁ := m₂.stack.pushed i.word
  have size₁ : s₁.bytes.size = 64 := (Bytes.size_overwrite _ _ _).trans size
  have nested₁ : s₁.Nested [] := (stack ▸ new.nested : m₂.stack.Nested []).pushed (by omega) i.word
  have sp₁ : s₁.sp = 4 := congrArg (· + 4) sp
  let mem : Memory := { m₂ with stack := s₁.pushed s.word }
  have size₂ : mem.stack.bytes.size = 64 := (Bytes.size_overwrite _ _ _).trans size₁
  have below : Memory.peekRef { m₂ with stack := s₁ } 0 = .ok i :=
    peekRef_eq (Nat.le_add_left 4 _) (Bytes.word?_overwrite_self _ _ _ (by omega))
  have above : mem.peekRef 0 = .ok s :=
    peekRef_eq (Nat.le_add_left 4 _) (Bytes.word?_overwrite_self _ _ _ (by omega))
  have second : mem.peekRef 1 = .ok i :=
    peekRef_pushed (m := { m₂ with stack := s₁ }) nested₁.bounded (by dsimp only; omega) below s.word
  let m : Machine := { m₀ with memory := mem, files := host.1, directory := host.2 }
  have registered : ∀ id, mem.classOrNull id = m₀.memory.classOrNull id :=
    classOrNull_congr (adds₂.classes.trans adds₁.classes)
  refine ⟨m, rfl, ⟨adds₂.sound, ?_, ?_, ⟨c, (registered _).trans integers⟩,
    ⟨d, (registered _).trans strings⟩⟩, popString_eq above ?_, popInteger_eq (peekRef_popped second) ?_⟩
  · have free₂ : m₂.space.free + (11 + text.length) = m₁.space.free := adds₂.free_eq adds₁.sound
    change 211 ≤ m₂.space.free
    omega
  · change s₁.sp + 4 + 4 ≤ mem.stack.bytes.size
    omega
  · exact string.stringValue_eq adds₂.sound
  · exact integer.integerValue_eq adds₂.sound

theorem exists_with_integer (host : FileTable × Directory) (handle : Word) :
    ∃ m m' : Machine, HasFiles host m ∧ m.HasRoom 200 ∧ popInteger m = .ok handle m' := by
  obtain ⟨m, files, room, -, popped⟩ := exists_with_operands host handle [] (by decide)
  exact ⟨{ m with memory := m.memory.popped }, _, files, room.popped, popped⟩

theorem exists_with_path (host : FileTable × Directory) : ∃ m m' : Machine, HasFiles host m ∧
    HasFiles host m' ∧ m.HasRoom 200 ∧ m'.HasRoom 200 ∧ popPath m = .ok "f" m' := by
  obtain ⟨m, files, room, popped, -⟩ := exists_with_operands host 0 [102] (by decide)
  refine ⟨m, { m with memory := m.memory.popped }, files, files, room, room.popped,
    (run_bind_ok popped).trans ?_⟩
  rw [show Utf8.decodeLossy [102] = "f" by decide +kernel]
  rfl

end Machine

/-- A file is opened for reading and closed again. -/
theorem openedFile_is_safe : ∃ c₁ c₂ : Call, FileRun [c₁] c₂.machine.files ∧
    c₁.delivered? = some 0 ∧ c₂.use? = some ⟨.reading, 0, true⟩ ∧
    openings (history ([c₁] ++ [c₂])) < 2 ^ 31 ∧ c₂.Safe [c₁] := by
  obtain ⟨m, m₁, files, files₁, -, room, path⟩ :=
    Machine.exists_with_path ({}, .ofFiles [("f", #[])])
  have asked : m₁.directory.openForReading "f" = .ok (.file (.here "f")) := by
    rw [show m₁.directory = .ofFiles [("f", #[])] from congrArg Prod.snd files₁]
    unfold Directory.openForReading
    rw [Directory.follow_f]
    rfl
  have opened := Call.openReader_eq path asked
  obtain ⟨m₂, done⟩ := room.deliver (by decide) (.reader { source := .file (.here "f") })
    (.openedForReading "f" ·)
  let c₁ : Call := ⟨.openReader, m⟩
  have result : c₁.result = .ok () m₂ := opened.trans done
  have empty : m.files = {} := congrArg Prod.fst files
  obtain ⟨file, m₃, -, -, after, handle⟩ := c₁.delivers rfl result
  have zero : Machine.popInteger m₂ = .ok 0 m₃ := by
    rw [handle, show c₁.machine.files = {} from empty]
    rfl
  let c₂ : Call := ⟨.closeReader, m₂⟩
  have run : FileRun [c₁] c₂.machine.files := by
    have first : FileRun ([] ++ [c₁]) c₁.after := .call (empty ▸ .start)
    rwa [Call.after, result] at first
  have few : openings (history ([c₁] ++ [c₂])) < 2 ^ 31 := by
    have all : openings (history ([c₁] ++ [c₂])) ≤ 2 :=
      List.countP_le_length.trans (List.length_filterMap_le _ _)
    omega
  refine ⟨c₁, c₂, run, ?_, ?_, few, handles_are_safe run few⟩
  · simp [Call.delivered?, c₁, Service.openMode?, result, zero, answer?]
  · simp [Call.use?, c₂, zero, answer?]

end ObjectMachine

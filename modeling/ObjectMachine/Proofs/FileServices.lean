/-
  ObjectMachine/Proofs/FileServices.lean
  ======================================
  **What services do to open files** — one spec for each service, on any machine at all.

  A service takes its operands from the stack, acts on the table of files and on the host, and
  pushes its result.  The first part and the last have nothing to do with files, and the one in
  the middle with nothing else.  `Treats` says all that a service can do with a handle that it is
  given, `Call.Effect` all that a call of any service can do to the table.
-/
import ObjectMachine.Proofs.MethodCalls

namespace ObjectMachine

/-! ### Entries -/

/-- How a file is opened. -/
inductive OpenMode where
  | reading
  | writing
  deriving DecidableEq, Repr

/-- How the file of an entry was opened. -/
def OpenFile.mode : OpenFile → OpenMode
  | .reader _ => .reading
  | .writer _ => .writing

namespace FileTable

variable {t : FileTable} {handle other : Word} {mode : OpenMode} {file : OpenFile}
  {entry : Option OpenFile}

/-- How the file of a handle was opened, if it is open. -/
def mode? (t : FileTable) (handle : Word) : Option OpenMode := (t.get? handle).map OpenFile.mode

theorem position?_of_lt (small : handle.toNat < 2 ^ 31) : position? handle = some handle.toNat := by
  have signed : handle.signed = handle.toNat := BitVec.toInt_eq_toNat_of_lt (by
    change 2 * handle.toNat < 2 ^ 32
    omega)
  unfold position?
  rw [if_neg (by omega)]

theorem position?_eq_some {i : Nat} (found : position? handle = some i) : i = handle.toNat := by
  unfold position? at found
  split at found <;> simp_all

theorem get?_eq_some (found : t.get? handle = some file) :
    position? handle = some handle.toNat ∧ t.entries[handle.toNat]? = some (some file) := by
  obtain ⟨i, position, entry⟩ := Option.bind_eq_some_iff.1 found
  obtain rfl := position?_eq_some position
  exact ⟨position, Option.join_eq_some_iff.1 entry⟩

theorem get?_of_size_le (beyond : t.entries.size ≤ handle.toNat) : t.get? handle = none := by
  rw [Option.eq_none_iff_forall_ne_some]
  intro file found
  have inside := (Array.getElem?_eq_some_iff.1 (get?_eq_some found).2).1
  omega

theorem reader?_eq_some {r : Reader} :
    t.reader? handle = some r ↔ t.get? handle = some (.reader r) := by
  unfold reader?
  split <;> simp_all

theorem writer?_eq_some {w : Writer} :
    t.writer? handle = some w ↔ t.get? handle = some (.writer w) := by
  unfold writer?
  split <;> simp_all

theorem reader?_of_mode (open_ : t.mode? handle = some .reading) :
    ∃ r, t.reader? handle = some r := by
  obtain ⟨file, found, mode⟩ := Option.map_eq_some_iff.1 open_
  cases file with
  | reader r => exact ⟨r, reader?_eq_some.2 found⟩
  | writer w => cases mode

theorem reader?_of_not_mode (closed : t.mode? handle ≠ some .reading) :
    t.reader? handle = none := by
  rw [Option.eq_none_iff_forall_ne_some]
  intro r found
  exact closed (by simp [mode?, reader?_eq_some.1 found, OpenFile.mode])

theorem writer?_of_mode (open_ : t.mode? handle = some .writing) :
    ∃ w, t.writer? handle = some w := by
  obtain ⟨file, found, mode⟩ := Option.map_eq_some_iff.1 open_
  cases file with
  | writer w => exact ⟨w, writer?_eq_some.2 found⟩
  | reader r => cases mode

theorem writer?_of_not_mode (closed : t.mode? handle ≠ some .writing) :
    t.writer? handle = none := by
  rw [Option.eq_none_iff_forall_ne_some]
  intro w found
  exact closed (by simp [mode?, writer?_eq_some.1 found, OpenFile.mode])

/-- Another entry for a handle that is open: the other handles are as before. -/
theorem get?_set (found : t.get? handle = some file) (entry : Option OpenFile) (other : Word) :
    (t.set handle entry).get? other = if other = handle then entry else t.get? other := by
  obtain ⟨position, present⟩ := get?_eq_some found
  have inside := (Array.getElem?_eq_some_iff.1 present).1
  split
  · rename_i same
    subst same
    simp [get?, set, position, inside]
  · rename_i different
    have apart : ∀ i, position? other = some i → handle.toNat ≠ i := by
      rintro i at_ rfl
      exact different (UInt32.toNat_inj.1 (position?_eq_some at_).symm)
    cases at_ : position? other with
    | none => simp [get?, at_]
    | some i => simp [get?, set, at_, Array.getElem?_setIfInBounds_ne (apart i at_)]

theorem mode?_set (open_ : t.mode? handle = some mode) (entry : Option OpenFile) (other : Word) :
    (t.set handle entry).mode? other =
      if other = handle then entry.map OpenFile.mode else t.mode? other := by
  obtain ⟨file, found, -⟩ := Option.map_eq_some_iff.1 open_
  unfold mode?
  rw [get?_set found]
  split <;> rfl

/-- A new entry has a handle of its own. -/
theorem toNat_insert (few : t.entries.size < wordLimit) (file : OpenFile) :
    (t.insert file).1.toNat = t.entries.size := by
  unfold insert
  rw [UInt32.toNat_ofNat']
  exact Nat.mod_eq_of_lt few

/-- One more entry: its handle is open now, and the other handles are as before. -/
theorem get?_insert (few : t.entries.size < 2 ^ 31) (file : OpenFile) (other : Word) :
    (t.insert file).2.get? other =
      if other.toNat = t.entries.size then some file else t.get? other := by
  split
  · rename_i last
    have position : position? other = some t.entries.size := by
      rw [← last]
      exact position?_of_lt (by omega)
    simp [get?, insert, position]
  · rename_i different
    cases at_ : position? other with
    | none => simp [get?, at_]
    | some i =>
      obtain rfl := position?_eq_some at_
      simp [get?, insert, at_, Array.getElem?_push, different]

theorem get?_insert_self (few : t.entries.size < 2 ^ 31) (file : OpenFile) :
    (t.insert file).2.get? (t.insert file).1 = some file := by
  have limit : wordLimit = 2 ^ 32 := rfl
  rw [get?_insert few, if_pos (toNat_insert (by omega) file)]

theorem mode?_insert (few : t.entries.size < 2 ^ 31) (file : OpenFile) (other : Word) :
    (t.insert file).2.mode? other =
      if other.toNat = t.entries.size then some file.mode else t.mode? other := by
  unfold mode?
  rw [get?_insert few]
  split <;> rfl

end FileTable

namespace Machine

open Memory

/-- What is done with a line that has been read. -/
def pushLine : Option (List UInt8) → Run Unit
  | none => Memory.pushRef Ref.null
  | some line => pushString line

/-! ### What leaves the table alone -/

/-- The table of files of a machine, and the files of its host. -/
def HasFiles (h : FileTable × Directory) (m : Machine) : Prop := (m.files, m.directory) = h

section Files

variable {α : Type} {h : FileTable × Directory}

theorem files_onMemory (act : Memory.Run α) : Preserves (HasFiles h) (onMemory act) := by
  intro m files
  rw [Lockstep.endState_onMemory]
  exact files

theorem files_query (f : Memory → Except MachineError α) :
    Preserves (HasFiles h) (Machine.query f) := by
  intro m files
  unfold Machine.query
  split <;> exact files

theorem files_liftHost (result : Except HostError α) :
    Preserves (HasFiles h) (liftHost result) := by
  cases result with
  | ok a => exact .pure a
  | error e => exact .throw _

theorem files_write (xs : List UInt8) : Preserves (HasFiles h) (write xs) := by
  rintro ⟨memory, known, services, output, files, directory⟩ same
  unfold write
  dsimp only
  split <;> exact same

theorem files_popInteger : Preserves (HasFiles h) popInteger :=
  (files_onMemory _).bind fun _ => files_query _

theorem files_popString : Preserves (HasFiles h) popString :=
  (files_onMemory _).bind fun _ => files_query _

theorem files_popPath : Preserves (HasFiles h) popPath := files_popString.bind fun _ => .pure _

theorem files_fillPayload (addr : Ref) (xs : List UInt8) :
    Preserves (HasFiles h) (fillPayload addr xs) := by
  refine (files_onMemory _).bind fun header => ?_
  split
  · exact files_onMemory _
  · exact .throw _

theorem files_newInteger (value : Word) : Preserves (HasFiles h) (newInteger value) :=
  .get_bind fun _ => (files_onMemory _).bind fun _ => (files_fillPayload _ _).bind fun _ =>
    (files_onMemory _).bind fun _ => .pure _

theorem files_newString (bytes : List UInt8) : Preserves (HasFiles h) (newString bytes) :=
  .get_bind fun _ => (files_onMemory _).bind fun _ => (files_fillPayload _ _).bind fun _ =>
    (files_onMemory _).bind fun _ => .pure _

theorem files_pushInteger (value : Word) : Preserves (HasFiles h) (pushInteger value) :=
  (files_newInteger value).bind fun _ => files_onMemory _

theorem files_pushString (bytes : List UInt8) : Preserves (HasFiles h) (pushString bytes) :=
  (files_newString bytes).bind fun _ => files_onMemory _

theorem files_pushLine (line : Option (List UInt8)) : Preserves (HasFiles h) (pushLine line) := by
  cases line with
  | none => exact files_onMemory _
  | some line => exact files_pushString line

theorem files_storeParts (index : Nat) (parts : List (List UInt8)) :
    Preserves (HasFiles h) (storeParts index parts) := by
  induction parts generalizing index with
  | nil => exact .pure _
  | cons part rest ih =>
    exact (files_newString part).bind fun _ => (files_onMemory _).bind fun _ =>
      (files_onMemory _).bind fun _ => ih (index + 1)

theorem files_withRooted (addr : Ref) {act : Run α} (kept : Preserves (HasFiles h) act) :
    Preserves (HasFiles h) (withRooted addr act) := by
  have tried : Preserves (HasFiles h) (withRooted.attempt act) := by
    intro m files
    have after := kept m files
    unfold withRooted.attempt
    cases run : act m with
    | ok a m' => simpa [run, endState] using after
    | error e m' => simpa [run, endState] using after
  refine (files_onMemory _).bind fun _ => tried.bind fun result => (files_onMemory _).bind fun _ => ?_
  cases result with
  | ok a => exact .pure _
  | error e => exact .throw _

theorem files_splitString : Preserves (HasFiles h) splitString :=
  files_popString.bind fun _ => Preserves.bind
    (.get_bind fun _ => (files_onMemory _).bind fun _ => (files_onMemory _).bind fun _ => .pure _)
    fun _ => (files_withRooted _ (files_storeParts _ _)).bind fun _ => files_onMemory _

end Files

/-! ### How operations fail -/

/-- All errors of an operation are of some kind. -/
def FailsOnly {α : Type} (kind : MachineError → Prop) (x : Run α) : Prop :=
  ∀ m e m', x m = .error e m' → kind e

section Fails

variable {α β : Type} {kind : MachineError → Prop}

theorem FailsOnly.pure (a : α) : FailsOnly kind (pure a : Run α) := by
  intro m e m' run
  cases run

theorem FailsOnly.bind {x : Run α} {f : α → Run β} (hx : FailsOnly kind x)
    (hf : ∀ a, FailsOnly kind (f a)) : FailsOnly kind (x >>= f) := by
  intro m e m' run
  cases first : x m with
  | ok a m₁ =>
    rw [run_bind_ok first] at run
    exact hf a m₁ e m' run
  | error e₁ m₁ =>
    rw [run_bind_error first] at run
    cases run
    exact hx m e m' first

theorem FailsOnly.get_bind {f : Machine → Run β} (hf : ∀ m, FailsOnly kind (f m)) :
    FailsOnly kind (get >>= f) := fun m => hf m m

theorem failsOnly_liftHost (host : ∀ e, kind (.host e)) (result : Except HostError α) :
    FailsOnly kind (liftHost result) := by
  intro m e m' run
  cases result with
  | ok a => cases run
  | error e =>
    cases run
    exact host e

variable (memory : ∀ cause, kind (.memory cause))
include memory

theorem failsOnly_onMemory (act : Memory.Run α) : FailsOnly kind (onMemory act) := by
  intro m e m' run
  cases ran : act m.memory with
  | ok a mem => cases (Lockstep.onMemory_ok ran).symm.trans run
  | error cause mem =>
    cases (Lockstep.onMemory_error ran).symm.trans run
    exact memory cause

theorem failsOnly_newBytes (size : Word) (classId : Option ClassId) (xs : List UInt8)
    (event : Ref → Event) : FailsOnly kind (do
      let addr ← Memory.allocateObject .bytes size classId
      fillPayload addr xs
      Memory.note (event addr)
      return addr) := by
  have filled : ∀ addr, FailsOnly kind (fillPayload addr xs) := by
    intro addr
    refine (failsOnly_onMemory memory _).bind fun header => ?_
    split
    · exact failsOnly_onMemory memory _
    · intro m e m' run
      cases run
      exact memory _
  exact (failsOnly_onMemory memory _).bind fun addr => (filled addr).bind fun _ =>
    (failsOnly_onMemory memory _).bind fun _ => .pure _

theorem failsOnly_pushString (bytes : List UInt8) : FailsOnly kind (pushString bytes) := by
  have made : FailsOnly kind (newString bytes) :=
    .get_bind fun _ => failsOnly_newBytes memory _ _ _ _
  exact made.bind fun _ => failsOnly_onMemory memory _

theorem failsOnly_pushInteger (value : Word) : FailsOnly kind (pushInteger value) := by
  have made : FailsOnly kind (newInteger value) :=
    .get_bind fun _ => failsOnly_newBytes memory _ _ _ _
  exact made.bind fun _ => failsOnly_onMemory memory _

theorem failsOnly_pushLine (line : Option (List UInt8)) : FailsOnly kind (pushLine line) := by
  cases line with
  | none => exact failsOnly_onMemory memory _
  | some line => exact failsOnly_pushString memory line

end Fails

/-! ### What a service does with a handle -/

/-- A handle that a service is given, how its file has to be open, and whether the service is to
    close it. -/
structure Use where
  mode : OpenMode
  handle : Word
  closes : Bool

/-- **How a service treats the handle that it is given.**  If the file of the handle is not open in
    the right way, the handle is reported as unknown and the table stays as it is.  Otherwise the
    handle is not what is reported; its entry is closed by a service that is to close it and has
    not failed, and else it is the entry of a file that is open in the same way. -/
inductive Treats (u : Use) (t : FileTable) : EStateM.Result MachineError Machine Unit → Prop where
  | refused {m : Machine} (unknown : t.mode? u.handle ≠ some u.mode) (files : m.files = t) :
      Treats u t (.error (.unknownFileHandle u.handle) m)
  | closed {m : Machine} (open_ : t.mode? u.handle = some u.mode) (closes : u.closes = true)
      (files : m.files = t.set u.handle none) : Treats u t (.ok () m)
  | served {m : Machine} {file : OpenFile} (open_ : t.mode? u.handle = some u.mode)
      (keeps : u.closes = false) (mode : file.mode = u.mode)
      (files : m.files = t.set u.handle (some file)) : Treats u t (.ok () m)
  | failed {m : Machine} {e : MachineError} {file : OpenFile}
      (open_ : t.mode? u.handle = some u.mode) (other : ∀ handle, e ≠ .unknownFileHandle handle)
      (mode : file.mode = u.mode) (files : m.files = t.set u.handle (some file)) :
      Treats u t (.error e m)

theorem FileTable.set_set (t : FileTable) (handle : Word) (first second : Option OpenFile) :
    (t.set handle first).set handle second = t.set handle second := by
  simp [FileTable.set]

section Treats

variable {m : Machine} {handle : Word}

theorem reader_eq {r : Reader} (found : m.files.reader? handle = some r) :
    reader handle m = .ok r m := by
  unfold reader
  rw [run_get_bind, found]
  rfl

theorem writer_eq {w : Writer} (found : m.files.writer? handle = some w) :
    writer handle m = .ok w m := by
  unfold writer
  rw [run_get_bind, found]
  rfl

theorem reader_of_not_mode (unknown : m.files.mode? handle ≠ some .reading) :
    reader handle m = .error (.unknownFileHandle handle) m := by
  unfold reader
  rw [run_get_bind, FileTable.reader?_of_not_mode unknown]
  rfl

theorem writer_of_not_mode (unknown : m.files.mode? handle ≠ some .writing) :
    writer handle m = .error (.unknownFileHandle handle) m := by
  unfold writer
  rw [run_get_bind, FileTable.writer?_of_not_mode unknown]
  rfl

/-- The entry has been replaced, and the rest is not about handles. -/
theorem treats_of_kept {t : FileTable} {mode : OpenMode} {file : OpenFile} {x : Run Unit}
    (open_ : t.mode? handle = some mode) (same : file.mode = mode)
    (files : m.files = t.set handle (some file)) (kept : ∀ h, Preserves (HasFiles h) x)
    (fails : FailsOnly (∀ other, · ≠ .unknownFileHandle other) x) :
    Treats ⟨mode, handle, false⟩ t (x m) := by
  have after := congrArg Prod.fst (kept _ m rfl)
  cases run : x m with
  | ok a m' =>
    rw [run] at after
    exact .served open_ rfl same (after.trans files)
  | error e m' =>
    rw [run] at after
    exact .failed open_ (fails m e m' run) same (after.trans files)

/-- A writer at work: its entry is the writer as it is then, and the host may have refused. -/
theorem withWriter_eq {w : Writer} (found : m.files.writer? handle = some w) (act : Writer.Run Unit) :
    withWriter handle act m = liftHost (Writer.outcome act m.directory w).1
      { m with
        directory := (Writer.outcome act m.directory w).2.1
        files := m.files.set handle (some (.writer (Writer.outcome act m.directory w).2.2)) } :=
  run_bind_ok (writer_eq found)

/-- A writer that the host does not refuse anything does its work. -/
theorem withWriter_ok {w : Writer} {act : Writer.Run Unit} {s : Directory × Writer}
    (found : m.files.writer? handle = some w) (done : act (m.directory, w) = .ok () s) :
    withWriter handle act m = .ok ()
      { m with directory := s.1, files := m.files.set handle (some (.writer s.2)) } := by
  rw [withWriter_eq found, Writer.outcome, done]
  rfl

theorem treats_withWriter (handle : Word) (act : Writer.Run Unit) :
    Treats ⟨.writing, handle, false⟩ m.files (withWriter handle act m) := by
  by_cases open_ : m.files.mode? handle = some .writing
  · obtain ⟨w, found⟩ := FileTable.writer?_of_mode open_
    rw [withWriter_eq found]
    exact treats_of_kept open_ rfl rfl (fun h => files_liftHost _)
      (failsOnly_liftHost (fun _ _ same => by cases same) _)
  · rw [show withWriter handle act m = _ from run_bind_error (writer_of_not_mode open_)]
    exact .refused open_ rfl

theorem treats_closeWriter {m₁ : Machine} (popped : popInteger m = .ok handle m₁)
    (files : m₁.files = m.files) :
    Treats ⟨.writing, handle, true⟩ m.files (closeWriter m) := by
  rw [show closeWriter m = (withWriter handle Writer.flush >>= fun _ => setFile handle none) m₁ from
    run_bind_ok popped, ← files]
  have treated := @treats_withWriter m₁ handle Writer.flush
  generalize flushed : withWriter handle Writer.flush m₁ = result at treated
  cases treated with
  | refused unknown same =>
    rw [run_bind_error flushed]
    exact .refused unknown same
  | closed _ closes => cases closes
  | served open_ _ mode same =>
    rw [run_bind_ok flushed]
    refine .closed open_ rfl ?_
    change FileTable.set _ _ _ = _
    rw [same, FileTable.set_set]
  | failed open_ other mode same =>
    rw [run_bind_error flushed]
    exact .failed open_ other mode same

theorem treats_writeLine {m₁ m₂ : Machine} {text : List UInt8} (string : popString m = .ok text m₁)
    (popped : popInteger m₁ = .ok handle m₂) (files : m₂.files = m.files) :
    Treats ⟨.writing, handle, false⟩ m.files (writeLine m) := by
  rw [show writeLine m = withWriter handle (Writer.writeLine text) m₂ from
    (run_bind_ok string).trans (run_bind_ok popped), ← files]
  exact treats_withWriter handle _

theorem treats_closeReader {m₁ : Machine} (popped : popInteger m = .ok handle m₁)
    (files : m₁.files = m.files) :
    Treats ⟨.reading, handle, true⟩ m.files (closeReader m) := by
  rw [show closeReader m = (reader handle >>= fun _ => setFile handle none) m₁ from
    run_bind_ok popped, ← files]
  by_cases open_ : m₁.files.mode? handle = some .reading
  · obtain ⟨r, found⟩ := FileTable.reader?_of_mode open_
    rw [run_bind_ok (reader_eq found)]
    exact .closed open_ rfl rfl
  · rw [run_bind_error (reader_of_not_mode open_)]
    exact .refused open_ rfl

/-- A reader at work: its entry is the reader as it is then, and its line is pushed. -/
theorem readLine_eq {m₁ : Machine} {r : Reader} (popped : popInteger m = .ok handle m₁)
    (found : m₁.files.reader? handle = some r) :
    readLine m = (liftHost (r.readLine m₁.directory).1 >>= pushLine)
      { m₁ with files := m₁.files.set handle (some (.reader (r.readLine m₁.directory).2)) } := by
  refine (run_bind_ok popped).trans ((run_bind_ok (reader_eq found)).trans ?_)
  refine (run_bind_congr (y := liftHost (r.readLine m₁.directory).1) rfl).trans ?_
  congr 1

theorem treats_readLine {m₁ : Machine} (popped : popInteger m = .ok handle m₁)
    (files : m₁.files = m.files) :
    Treats ⟨.reading, handle, false⟩ m.files (readLine m) := by
  rw [← files]
  by_cases open_ : m₁.files.mode? handle = some .reading
  · obtain ⟨r, found⟩ := FileTable.reader?_of_mode open_
    rw [readLine_eq popped found]
    exact treats_of_kept open_ rfl rfl
      (fun h => (files_liftHost _).bind fun line => files_pushLine line)
      ((failsOnly_liftHost (fun _ _ same => by cases same) _).bind fun line =>
        failsOnly_pushLine (fun _ _ same => by cases same) line)
  · rw [show readLine m = _ from (run_bind_ok popped).trans (run_bind_error (reader_of_not_mode open_))]
    exact .refused open_ rfl

end Treats

/-! ### New objects of bytes -/

/-- An object of bytes that a look at the memory finds. -/
def Finds (m : Memory) (r c : Ref) (xs : List UInt8) : Prop :=
  ∃ view, m.view r = .ok view ∧ Viewed view (fun _ => none) ⟨.raw c.word, .bytes xs⟩

section NewBytes

/-- A new object of bytes has the header that it was made with, and its class is the current one. -/
theorem read?_of_allocateObject {m m' : Memory} {r : Ref} {size : Word} {classId : Option ClassId}
    (run : allocateObject .bytes size classId m = .ok r m') :
    ∃ c, m'.classOrNull classId = .ok c ∧
      (r ≠ Ref.null → Header.read? m'.space.bytes r = some ⟨.bytes, size, .normal c⟩) := by
  rw [allocateObject_eq] at run
  obtain ⟨-, m₁, -, run⟩ := exists_of_run_ok run
  obtain ⟨a, m₂, -, run⟩ := exists_of_run_ok run
  cases current : m₂.classOrNull classId with
  | error e =>
    rw [run_bind_error (Memory.query_error current)] at run
    cases run
  | ok c =>
    rw [run_bind_ok (Memory.query_ok current)] at run
    unfold layOutObject at run
    by_cases fits : a.offset 11 ≤ m₂.space.bytes.size
    · rw [run_bind_ok (writeHeader_eq _ fits), if_neg (by decide)] at run
      cases run
      refine ⟨c, ?_, fun nonnull => Header.read?_overwrite_encode _ _ _ nonnull fits⟩
      cases classId <;> exact current
    · have full : writeHeader a ⟨.bytes, size, .normal c⟩ m₂ = .error (.fault .outOfBuffer) m₂ := by
        unfold writeHeader
        rw [run_get_bind, if_pos (by omega)]
        rfl
      rw [run_bind_error full] at run
      cases run

/-- What has been filled is found with its filling. -/
theorem finds_of_fillPayload {m m' : Machine} {xs : List UInt8} {r c : Ref} {size : Word}
    (read : r ≠ Ref.null → Header.read? m.memory.space.bytes r = some ⟨.bytes, size, .normal c⟩)
    (run : fillPayload r xs m = .ok () m') :
    m'.known = m.known ∧ m'.memory.classes = m.memory.classes ∧ Finds m'.memory r c xs := by
  cases found : m.memory.header r with
  | error e =>
    rw [show fillPayload r xs m = _ from
      run_bind_error (Lockstep.onMemory_error (Memory.query_error found))] at run
    cases run
  | ok header =>
    obtain ⟨read', low, high, fits⟩ := header_eq_ok_iff.1 found
    have nonnull := ((Header.read?_eq_some_iff _ _ _).1 read').1
    cases (read nonnull).symm.trans read'
    have asked : Memory.query (·.header r) m.memory = .ok _ m.memory := Memory.query_ok found
    by_cases fills : Header.payloadBytes ⟨.bytes, size, .normal c⟩ = xs.length
    · have length : size.toNat = xs.length := fills
      have filled : fillPayload r xs m = .ok () { m with memory := { m.memory with
          space := m.memory.space.mapBytes (Object.setPayload · r 0 xs) } } := by
        refine (run_bind_ok (Lockstep.onMemory_ok asked)).trans ?_
        rw [if_pos fills]
        rfl
      rw [filled] at run
      cases run
      have start : payloadOffset r 0 = r.offset 0 + 11 := rfl
      have stop : r.offset (Header.objectBytes ⟨.bytes, size, .normal c⟩) =
          r.offset 0 + (11 + size.toNat) := rfl
      have room : payloadOffset r 0 + xs.length ≤ m.memory.space.bytes.size := by omega
      have same := Bytes.same_overwrite m.memory.space.bytes (payloadOffset r 0) xs (r.offset 0) 11
        room (Or.inl (Nat.le_refl _))
      have kept := (Header.read?_congr same (Nat.le_refl _) nonnull nonnull).trans read'
      have fits' : r.offset (Header.objectBytes ⟨.bytes, size, .normal c⟩) ≤
          (m.memory.space.bytes.overwrite (payloadOffset r 0) xs).size :=
        (Bytes.size_overwrite _ _ _).symm ▸ fits
      refine ⟨rfl, rfl, _, view_of_read (m := { m.memory with
        space := m.memory.space.mapBytes (Object.setPayload · r 0 xs) }) kept low high fits', ?_⟩
      refine ⟨⟨⟨size, c, kept, length, rfl⟩, by simp [Content.values], ?_⟩, ?_, rfl, length, c, rfl, rfl⟩
      · rintro ys ⟨⟩ i lt
        have place : payloadOffset r i = payloadOffset r 0 + i := (Nat.add_assoc _ 11 i).symm
        rw [place]
        exact Bytes.getElem?_overwrite_self _ _ _ _ room lt
      · rw [show (Content.bytes xs).extent = 11 + size.toNat from congrArg (11 + ·) length.symm]
        exact fits'
    · have refused : fillPayload r xs m = .error (.memory (.fault .outOfBuffer)) m := by
        refine (run_bind_ok (Lockstep.onMemory_ok asked)).trans ?_
        rw [if_neg fills]
        rfl
      rw [refused] at run
      cases run

/-- **A new object of bytes is found with its filling**, whatever the memory was before. -/
theorem finds_of_newBytes {m m' : Machine} {r : Ref} {xs : List UInt8} {size : Word}
    {classId : Option ClassId} (event : Ref → Event)
    (run : (do
      let addr ← Memory.allocateObject .bytes size classId
      fillPayload addr xs
      Memory.note (event addr)
      return addr : Run Ref) m = .ok r m') :
    m'.known = m.known ∧
      ∃ c, m'.memory.classOrNull classId = .ok c ∧ Finds m'.memory r c xs := by
  obtain ⟨a, m₁, allocated, run⟩ := exists_of_run_ok run
  obtain ⟨⟨⟩, m₂, filled, run⟩ := exists_of_run_ok run
  cases run
  obtain ⟨mem, made, rfl⟩ := exists_of_onMemory_ok
    (show onMemory (allocateObject .bytes size classId) m = .ok _ _ from allocated)
  obtain ⟨c, current, read⟩ := read?_of_allocateObject made
  obtain ⟨known, classes, finds⟩ := finds_of_fillPayload (m := { m with memory := mem }) read filled
  exact ⟨known, c, (classOrNull_congr classes classId).trans current, finds⟩

theorem finds_of_newString {m m' : Machine} {r : Ref} {text : List UInt8}
    (run : newString text m = .ok r m') :
    ∃ c, m'.memory.classOrNull m'.known.string = .ok c ∧ Finds m'.memory r c text := by
  obtain ⟨known, finds⟩ := finds_of_newBytes (.newString · text) run
  rwa [known]

theorem finds_of_newInteger {m m' : Machine} {r : Ref} {value : Word}
    (run : newInteger value m = .ok r m') :
    ∃ c, m'.memory.classOrNull m'.known.integer = .ok c ∧ Finds m'.memory r c value.bytes := by
  obtain ⟨known, finds⟩ := finds_of_newBytes (.newInteger · value) run
  rwa [known]

theorem popInteger_eq {m : Machine} {value : Word} {r : Ref} (top : m.memory.peekRef 0 = .ok r)
    (int : integerValue m.memory r = .ok value) :
    popInteger m = .ok value { m with memory := m.memory.popped } := by
  obtain ⟨some_, word⟩ := word_of_peekRef top
  refine (run_bind_ok (Lockstep.onMemory_ok (Memory.popRef_eq some_ word))).trans ?_
  exact Machine.query_ok (show integerValue m.memory.popped r = .ok value from int)

/-- A push, where there is room and where there is none. -/
theorem pushRef_cases (m : Machine) (r : Ref) :
    (m.memory.stack.sp + 4 ≤ m.memory.stack.bytes.size ∧ (Memory.pushRef r : Run Unit) m =
        .ok () { m with memory := { m.memory with stack := m.memory.stack.pushed r.word } }) ∨
      (Memory.pushRef r : Run Unit) m = .error (.memory .stackOverflow) m := by
  by_cases room : m.memory.stack.sp + 4 ≤ m.memory.stack.bytes.size
  · exact Or.inl ⟨room, Lockstep.onMemory_ok (pushRef_eq room)⟩
  · have full := FrameStack.push_overflow r.word (Nat.not_le.1 room)
    exact Or.inr (Lockstep.onMemory_error (Memory.onStack_error full))

/-- A reference that has been pushed is on top. -/
theorem peekRef_of_pushRef {m m' : Machine} {r : Ref}
    (run : (Memory.pushRef r : Run Unit) m = .ok () m') :
    m' = { m with memory := { m.memory with stack := m.memory.stack.pushed r.word } } ∧
      m'.memory.peekRef 0 = .ok r := by
  rcases pushRef_cases m r with ⟨room, pushed⟩ | full
  · cases pushed.symm.trans run
    exact ⟨rfl, peekRef_eq (Nat.le_add_left _ _) (Bytes.word?_overwrite_self _ _ _ room)⟩
  · cases full.symm.trans run

/-- **What has been pushed as an Integer is popped as one.** -/
theorem popInteger_of_pushInteger {m m' : Machine} {value : Word}
    (run : pushInteger value m = .ok () m') : ∃ m'', popInteger m' = .ok value m'' := by
  obtain ⟨r, m₁, made, pushed⟩ := exists_of_run_ok run
  obtain ⟨rfl, top⟩ := peekRef_of_pushRef pushed
  obtain ⟨c, -, view, found, viewed⟩ := finds_of_newInteger made
  have int : integerValue m₁.memory r = .ok value := integerValue_of_viewed found viewed
  exact ⟨_, popInteger_eq top int⟩

/-- **A String that has been pushed is on top.** -/
theorem finds_of_pushString {m m' : Machine} {text : List UInt8}
    (run : pushString text m = .ok () m') : ∃ r c, m'.memory.peekRef 0 = .ok r ∧
      m'.memory.classOrNull m'.known.string = .ok c ∧ Finds m'.memory r c text := by
  obtain ⟨r, m₁, made, pushed⟩ := exists_of_run_ok run
  obtain ⟨rfl, top⟩ := peekRef_of_pushRef pushed
  obtain ⟨c, current, view, found, viewed⟩ := finds_of_newString made
  exact ⟨r, c, top, current, view, found, viewed⟩

end NewBytes

end Machine

/-! ### Calls -/

/-- How a service opens a file, if it opens one. -/
def Service.openMode? : Service → Option OpenMode
  | .openReader => some .reading
  | .openWriter => some .writing
  | _ => none

/-- Whether the host lets a path be opened. -/
def Directory.accepts (d : Directory) (path : String) : OpenMode → Bool
  | .reading => (d.openForReading path).isOk
  | .writing => (d.openForWriting path).isOk

/-- The answer of an operation, if it gives one. -/
def answer? {ε σ α : Type} : EStateM.Result ε σ α → Option α
  | .ok a _ => some a
  | .error _ _ => none

/-- **A call** of a service on a machine. -/
structure Call where
  service : Service
  machine : Machine

namespace Call

open Machine

/-- How a call ends. -/
def result (c : Call) : EStateM.Result MachineError Machine Unit := perform c.service c.machine

/-- The table of files after a call. -/
def after (c : Call) : FileTable := (endState c.result).files

/-- How a call opens a file, if there is a path on the stack and the host accepts it. -/
def opens? (c : Call) : Option OpenMode :=
  match c.service.openMode?, popPath c.machine with
  | some mode, .ok path m => if m.directory.accepts path mode then some mode else none
  | _, _ => none

/-- The handle that a call is given, if there is one on the stack, and what it is given for. -/
def use? (c : Call) : Option Use :=
  match c.service with
  | .closeReader => (answer? (popInteger c.machine)).map fun handle => ⟨.reading, handle, true⟩
  | .closeWriter => (answer? (popInteger c.machine)).map fun handle => ⟨.writing, handle, true⟩
  | .readLine => (answer? (popInteger c.machine)).map fun handle => ⟨.reading, handle, false⟩
  | .writeLine =>
    (answer? ((popString >>= fun _ => popInteger) c.machine)).map fun handle =>
      ⟨.writing, handle, false⟩
  | _ => none

/-- The handle that a call delivers: the Integer that an open leaves on top of the stack. -/
def delivered? (c : Call) : Option Word :=
  match c.service.openMode?, c.result with
  | some _, .ok () m => answer? (popInteger m)
  | _, _ => none

/-- **Everything that a call can do to the table.**  It opens a file, which is a new entry, and
    delivers its handle if it does not fail after that; or it is given a handle, and treats it; or
    it leaves the table as it is. -/
inductive Effect (c : Call) : Prop where
  | opened {file : OpenFile} (asked : c.opens? = some file.mode) (unused : c.use? = none)
      (files : c.after = (c.machine.files.insert file).2)
      (delivers : ∀ m, c.result = .ok () m →
        ∃ m', popInteger m = .ok (c.machine.files.insert file).1 m')
  | used {u : Use} (asked : c.use? = some u) (treats : Treats u c.machine.files c.result)
  | aside (unopened : c.opens? = none) (unused : c.use? = none)
      (fails : c.service.openMode? = none ∨ ∃ e m, c.result = .error e m)
      (files : c.after = c.machine.files)

/-- What an open does once the host has accepted it. -/
def deliver (file : OpenFile) (event : Word → Event) : Run Unit := do
  let handle ← insertFile file
  Memory.note (event handle)
  pushInteger handle

/-- What an open does is to make an entry, apart from pushing its handle. -/
theorem deliver_eq (file : OpenFile) (event : Word → Event) (m : Machine) :
    deliver file event m = pushInteger (m.files.insert file).1
      (({ m with files := (m.files.insert file).2 } : Machine).noted
        (event (m.files.insert file).1)) := rfl

theorem deliver_spec (file : OpenFile) (event : Word → Event) (m : Machine) :
    HasFiles ((m.files.insert file).2, m.directory) (endState (deliver file event m)) ∧
      ∀ m', deliver file event m = .ok () m' →
        ∃ m'', popInteger m' = .ok (m.files.insert file).1 m'' := by
  have inserted : insertFile file m =
      .ok (m.files.insert file).1 { m with files := (m.files.insert file).2 } := rfl
  unfold deliver
  rw [run_bind_ok inserted]
  constructor
  · exact ((files_onMemory _).bind fun _ => files_pushInteger _) _ rfl
  · intro m' run
    obtain ⟨_, m₁, -, pushed⟩ := exists_of_run_ok run
    exact popInteger_of_pushInteger pushed

/-- A service that opens a file is given no handle. -/
theorem use?_of_opens {c : Call} (opens : c.service.openMode?.isSome) : c.use? = none := by
  unfold use?
  split <;> simp_all [Service.openMode?]

/-- Without a path, nothing is opened. -/
theorem effect_of_no_path {c : Call} {e : MachineError} {m₁ : Machine}
    (opens : c.service.openMode?.isSome) (popped : popPath c.machine = .error e m₁)
    (ended : c.result = .error e m₁) : Effect c := by
  have kept := congrArg Prod.fst (files_popPath c.machine rfl)
  rw [popped] at kept
  exact .aside (by simp [opens?, popped]) (use?_of_opens opens) (Or.inr ⟨_, _, ended⟩)
    (by rw [after, ended]; exact kept)

/-- Where the host refuses, nothing is opened. -/
theorem effect_of_refusal {c : Call} {e : HostError} {path : String} {m₁ : Machine}
    {mode : OpenMode} (opens : c.service.openMode? = some mode)
    (popped : popPath c.machine = .ok path m₁) (refused : m₁.directory.accepts path mode = false)
    (ended : c.result = .error (.host e) m₁) : Effect c := by
  have kept := congrArg Prod.fst (files_popPath c.machine rfl)
  rw [popped] at kept
  exact .aside (by simp [opens?, popped, opens, refused]) (use?_of_opens (by rw [opens]; rfl))
    (Or.inr ⟨_, _, ended⟩) (by rw [after, ended]; exact kept)

theorem effect_of_delivery {c : Call} {path : String} {m₁ : Machine} {file : OpenFile}
    {event : Word → Event} {d : Directory} (opens : c.service.openMode? = some file.mode)
    (popped : popPath c.machine = .ok path m₁)
    (accepted : m₁.directory.accepts path file.mode = true)
    (goes : c.result = deliver file event { m₁ with directory := d }) : Effect c := by
  have kept : m₁.files = c.machine.files := by
    have kept := congrArg Prod.fst (files_popPath c.machine rfl)
    rwa [popped] at kept
  obtain ⟨both, delivers⟩ := deliver_spec file event { m₁ with directory := d }
  have files := congrArg Prod.fst both
  rw [← goes, show ({ m₁ with directory := d } : Machine).files = c.machine.files from kept]
    at files delivers
  exact .opened (by simp [opens?, popped, opens, accepted]) (use?_of_opens (by rw [opens]; rfl)) files
    delivers

/-- A path that the host lets be read is opened. -/
theorem openReader_eq {m m₁ : Machine} {path : String} {source : Directory.Target}
    (popped : popPath m = .ok path m₁) (asked : m₁.directory.openForReading path = .ok source) :
    openReader m = deliver (.reader { source }) (.openedForReading path ·) m₁ := by
  refine (run_bind_ok popped).trans ?_
  rw [run_get_bind, asked]
  rfl

/-- A path that the host lets be written is opened. -/
theorem openWriter_eq {m m₁ : Machine} {path : String} {place : Location} {d : Directory}
    (popped : popPath m = .ok path m₁)
    (asked : m₁.directory.openForWriting path = .ok (place, d)) :
    openWriter m =
      deliver (.writer { place }) (.openedForWriting path ·) { m₁ with directory := d } := by
  refine (run_bind_ok popped).trans ?_
  rw [run_get_bind, asked]
  rfl

theorem effect_openReader (m : Machine) : Effect ⟨.openReader, m⟩ := by
  cases popped : popPath m with
  | error e m₁ => exact effect_of_no_path rfl popped (run_bind_error popped)
  | ok path m₁ =>
    cases asked : m₁.directory.openForReading path with
    | error e =>
      refine effect_of_refusal (e := e) rfl popped ?_ ((run_bind_ok popped).trans ?_)
      · simp [Directory.accepts, asked, Except.isOk, Except.toBool]
      · rw [run_get_bind, asked]
        rfl
    | ok source =>
      refine effect_of_delivery (d := m₁.directory) rfl popped ?_ (openReader_eq popped asked)
      simp [Directory.accepts, asked, Except.isOk, Except.toBool, OpenFile.mode]

theorem effect_openWriter (m : Machine) : Effect ⟨.openWriter, m⟩ := by
  cases popped : popPath m with
  | error e m₁ => exact effect_of_no_path rfl popped (run_bind_error popped)
  | ok path m₁ =>
    cases asked : m₁.directory.openForWriting path with
    | error e =>
      refine effect_of_refusal (e := e) rfl popped ?_ ((run_bind_ok popped).trans ?_)
      · simp [Directory.accepts, asked, Except.isOk, Except.toBool]
      · rw [run_get_bind, asked]
        rfl
    | ok answer =>
      refine effect_of_delivery (d := answer.2) rfl popped ?_ (openWriter_eq popped asked)
      simp [Directory.accepts, asked, Except.isOk, Except.toBool, OpenFile.mode]

/-- A call that is given a handle treats it, and one that finds none there does nothing. -/
theorem effect_of_operand {c : Call} {operand : Run Word} {u : Word → Use}
    (opens : c.service.openMode? = none)
    (uses : c.use? = (answer? (operand c.machine)).map u)
    (kept : Preserves (HasFiles (c.machine.files, c.machine.directory)) operand)
    (fails : ∀ e m₁, operand c.machine = .error e m₁ → c.result = .error e m₁)
    (treats : ∀ handle m₁, operand c.machine = .ok handle m₁ → m₁.files = c.machine.files →
      Treats (u handle) c.machine.files c.result) : Effect c := by
  have kept := congrArg Prod.fst (kept c.machine rfl)
  cases popped : operand c.machine with
  | error e m₁ =>
    rw [popped] at kept uses
    exact .aside (by simp [opens?, opens]) uses (Or.inl opens)
      (by rw [after, fails e m₁ popped]; exact kept)
  | ok handle m₁ =>
    rw [popped] at kept uses
    exact .used uses (treats handle m₁ popped kept)

/-- Other services leave the table alone. -/
theorem effect_of_kept {c : Call} (opens : c.service.openMode? = none) (unused : c.use? = none)
    (kept : Preserves (HasFiles (c.machine.files, c.machine.directory)) (perform c.service)) :
    Effect c :=
  .aside (by simp [opens?, opens]) unused (Or.inl opens) (congrArg Prod.fst (kept c.machine rfl))

/-- **One call.** -/
theorem effect (c : Call) : Effect c := by
  obtain ⟨service, m⟩ := c
  cases service with
  | openReader => exact effect_openReader m
  | openWriter => exact effect_openWriter m
  | closeReader =>
    exact effect_of_operand (u := (⟨.reading, ·, true⟩)) rfl rfl files_popInteger
      (fun e m₁ popped => run_bind_error popped) fun handle m₁ => treats_closeReader
  | closeWriter =>
    exact effect_of_operand (u := (⟨.writing, ·, true⟩)) rfl rfl files_popInteger
      (fun e m₁ popped => run_bind_error popped) fun handle m₁ => treats_closeWriter
  | readLine =>
    exact effect_of_operand (u := (⟨.reading, ·, false⟩)) rfl rfl files_popInteger
      (fun e m₁ popped => run_bind_error popped) fun handle m₁ => treats_readLine
  | writeLine =>
    refine effect_of_operand (u := (⟨.writing, ·, false⟩)) rfl rfl
      (files_popString.bind fun _ => files_popInteger) ?_ ?_
    · intro e m₂ failed
      cases string : popString m with
      | error e₁ m₁ =>
        rw [run_bind_error string] at failed
        cases failed
        exact run_bind_error string
      | ok text m₁ =>
        rw [run_bind_ok string] at failed
        exact (run_bind_ok string).trans (run_bind_error failed)
    · intro handle m₂ popped kept
      obtain ⟨text, m₁, string, popped⟩ := exists_of_run_ok popped
      exact treats_writeLine string popped kept
  | print =>
    exact effect_of_kept rfl rfl
      (files_popString.bind fun _ => (files_write _).bind fun _ => files_write _)
  | printInt =>
    exact effect_of_kept rfl rfl
      (files_popInteger.bind fun _ => (files_write _).bind fun _ => files_write _)
  | stringLength => exact effect_of_kept rfl rfl (files_popString.bind fun _ => files_pushInteger _)
  | stringAppend =>
    exact effect_of_kept rfl rfl
      (files_popString.bind fun _ => files_popString.bind fun _ => files_pushString _)
  | arrayLength =>
    exact effect_of_kept rfl rfl
      ((files_onMemory _).bind fun _ => (files_query _).bind fun _ => files_pushInteger _)
  | stringSplit => exact effect_of_kept rfl rfl files_splitString
  | idle => exact effect_of_kept rfl rfl (.pure _)
  | collect => exact effect_of_kept rfl rfl (files_onMemory _)

end Call

end ObjectMachine

/-
  ObjectMachine/Proofs/WrittenLines.lean
  ======================================
  **Lines that are written are the lines that are read.**

  A session is a row of calls: a path is opened for writing, lines are written, the file is closed,
  the path is opened for reading, and lines are read, as many times as one likes.  Each call finds
  its operands on the stack of a machine of its own, which has the files that the call before it
  has left.

  In every phase of a session something is known of the file and of the entry of its handle
  (`Phase.Holds`).  A call does its work on the files and then has nothing to do but to push its
  reply (`Advances`), so it can fail for want of room only.
-/
import ObjectMachine.Proofs.FileContents
import ObjectMachine.Proofs.FileHandles

namespace ObjectMachine

open Machine

/-! ### Replies -/

section Finds

variable {m : Memory} {r c c' : Ref} {xs ys : List UInt8}

theorem Machine.Finds.not_null (finds : Finds m r c xs) : r ≠ Ref.null := by
  rintro rfl
  obtain ⟨view, found, -⟩ := finds
  cases found

theorem Machine.Finds.unique (finds : Finds m r c xs) (finds' : Finds m r c' ys) : xs = ys := by
  obtain ⟨view, found, viewed⟩ := finds
  obtain ⟨view', found', viewed'⟩ := finds'
  cases (Memory.stringValue_of_viewed found viewed).symm.trans
    (Memory.stringValue_of_viewed found' viewed')
  rfl

end Finds

/-- What a call of a session leaves on the stack. -/
inductive Reply where
  | nothing
  | handle (value : Word)
  | line (text : Option (List UInt8))

namespace Reply

variable {m m' : Machine}

/-- Pushes a reply. -/
def push : Reply → Run Unit
  | nothing => pure ()
  | handle value => pushInteger value
  | line text => pushLine text

/-- **A reply on top of the stack**: an Integer, a String with the bytes of a line, or null. -/
inductive Shown (m : Machine) : Reply → Prop
  | nothing : Shown m .nothing
  | handle {value : Word} {m' : Machine} (popped : popInteger m = .ok value m') :
      Shown m (.handle value)
  | null (top : m.memory.peekRef 0 = .ok Ref.null) : Shown m (.line none)
  | string {r c : Ref} {text : List UInt8} (top : m.memory.peekRef 0 = .ok r)
      (string : m.memory.classOrNull m.known.string = .ok c) (finds : Finds m.memory r c text) :
      Shown m (.line (some text))

theorem shown_of_push {reply : Reply} (run : reply.push m = .ok () m') : reply.Shown m' := by
  cases reply with
  | nothing => exact .nothing
  | handle value =>
    obtain ⟨m'', popped⟩ := popInteger_of_pushInteger run
    exact .handle popped
  | line text =>
    cases text with
    | none => exact .null (peekRef_of_pushRef run).2
    | some text =>
      obtain ⟨r, c, top, string, finds⟩ := finds_of_pushString run
      exact .string top string finds

theorem handle_unique {a b : Word} (ha : (handle a).Shown m) (hb : (handle b).Shown m) : a = b := by
  obtain - | ⟨popped⟩ := ha
  obtain - | ⟨popped'⟩ := hb
  cases popped.symm.trans popped'
  rfl

theorem line_unique {a b : Option (List UInt8)} (ha : (line a).Shown m) (hb : (line b).Shown m) :
    a = b := by
  cases ha with
  | null top =>
    cases hb with
    | null => rfl
    | string top' _ finds =>
      cases top.symm.trans top'
      exact absurd rfl finds.not_null
  | string top _ finds =>
    cases hb with
    | null top' =>
      cases top.symm.trans top'
      exact absurd rfl finds.not_null
    | string top' _ finds' =>
      cases top.symm.trans top'
      rw [finds.unique finds']

theorem files_push {host : FileTable × Directory} (reply : Reply) :
    Preserves (HasFiles host) reply.push := by
  cases reply with
  | nothing => exact .pure _
  | handle value => exact files_pushInteger value
  | line text => exact files_pushLine text

end Reply

/-! ### Room -/

/-- **A machine in order**: its objects are, a collection can read its stack, and it has the classes
    that results are made of. -/
structure Machine.InOrder (m : Machine) : Prop where
  objects : ∃ objects, m.memory.WellFormed objects
  readable : m.memory.stack.Readable
  integer : ∃ c, m.memory.classOrNull m.known.integer = .ok c
  string : ∃ c, m.memory.classOrNull m.known.string = .ok c

/-- There is no room, on the heap or on the stack. -/
inductive MemoryError.IsNoRoom : MemoryError → Prop
  | heap {requested available : Nat} : IsNoRoom (.outOfMemory requested available)
  | stack : IsNoRoom .stackOverflow

section Room

variable {m m' : Machine} {e : MachineError}

theorem noRoom_of_pushRef {r : Ref} (run : (Memory.pushRef r : Run Unit) m = .error e m') :
    ∃ cause, e = .memory cause ∧ cause.IsNoRoom := by
  rcases pushRef_cases m r with ⟨-, pushed⟩ | full
  · cases pushed.symm.trans run
  · cases full.symm.trans run
    exact ⟨_, rfl, .stack⟩

theorem noRoom_of_makes {x : Run Ref} {objects : Set Ref} {c : Ref} {content : Content}
    (makes : Makes x m objects c content)
    (run : (do Memory.pushRef (← x) : Run Unit) m = .error e m') :
    ∃ cause, e = .memory cause ∧ cause.IsNoRoom := by
  obtain ⟨m₁, φ, -, -, ⟨need, available, failed⟩ | ⟨r, m₂, made, -⟩⟩ := makes
  · cases (run_bind_error failed).symm.trans run
    exact ⟨_, rfl, .heap⟩
  · exact noRoom_of_pushRef ((run_bind_ok made).symm.trans run)

/-- **A push fails for want of room only**, if the machine is in order. -/
theorem Reply.noRoom_of_push {reply : Reply} (order : m.InOrder)
    (short : ∀ text, reply = .line (some text) → text.length < wordLimit)
    (run : reply.push m = .error e m') : ∃ cause, e = .memory cause ∧ cause.IsNoRoom := by
  obtain ⟨objects, wf⟩ := order.objects
  cases reply with
  | nothing => cases run
  | handle value =>
    obtain ⟨c, known⟩ := order.integer
    exact noRoom_of_makes (newInteger_makes wf order.readable known value) run
  | line text =>
    cases text with
    | none => exact noRoom_of_pushRef run
    | some text =>
      obtain ⟨c, known⟩ := order.string
      exact noRoom_of_makes (newString_makes wf order.readable known (short text rfl)) run

/-- Errors of a push are errors of the memory in any case. -/
theorem Reply.failsOnly_push (reply : Reply) :
    FailsOnly (fun e => ∃ cause, e = .memory cause) reply.push := by
  have memory : ∀ cause, ∃ other, MachineError.memory cause = .memory other := fun cause => ⟨_, rfl⟩
  cases reply with
  | nothing => exact .pure _
  | handle value => exact failsOnly_pushInteger memory value
  | line text => exact failsOnly_pushLine memory text

end Room

/-! ### Sessions -/

/-- How far a session has come: nothing is open; a handle is open and some lines are left to be
    written; everything is written; or a handle is open and has given some answers. -/
inductive Phase where
  | unopened
  | writing (handle : Word) (left : List (List UInt8))
  | written
  | reading (handle : Word) (answers : List (Option (List UInt8)))

/-- **The calls of a session** and what they lead to, for any reply. -/
inductive Turn (path : String) (texts : List (List UInt8)) : Phase → Call → Reply → Phase → Prop
  | openWriter {m m' : Machine} {handle : Word} (named : popPath m = .ok path m') :
      Turn path texts .unopened ⟨.openWriter, m⟩ (.handle handle) (.writing handle texts)
  | writeLine {m m₁ m₂ : Machine} {handle : Word} {text : List UInt8} {left : List (List UInt8)}
      (string : popString m = .ok text m₁) (given : popInteger m₁ = .ok handle m₂) :
      Turn path texts (.writing handle (text :: left)) ⟨.writeLine, m⟩ .nothing (.writing handle left)
  | closeWriter {m m' : Machine} {handle : Word} (given : popInteger m = .ok handle m') :
      Turn path texts (.writing handle []) ⟨.closeWriter, m⟩ .nothing .written
  | openReader {m m' : Machine} {handle : Word} (named : popPath m = .ok path m') :
      Turn path texts .written ⟨.openReader, m⟩ (.handle handle) (.reading handle [])
  | readLine {m m' : Machine} {handle : Word} {answers : List (Option (List UInt8))}
      {answer : Option (List UInt8)} (given : popInteger m = .ok handle m') :
      Turn path texts (.reading handle answers) ⟨.readLine, m⟩ (.line answer)
        (.reading handle (answers ++ [answer]))

/-- **A host that keeps files**: a path leads to a place, and the host refuses nothing there. -/
structure Directory.Serves (d : Directory) (path : String) (place : Location) : Prop where
  opens : ∃ d', d.openForWriting path = .ok (place, d')
  writes : ∀ offset, d.refusal (.write place offset) = none
  reopens : d.refusal (.openForReading path) = none
  reads : ∀ offset, d.refusal (.read place offset) = none

/-- **A session** up to some phase, and the files that it has led to.  Each call finds the files as
    the call before it has left them, and has done its work. -/
inductive Session (path : String) (texts : List (List UInt8)) : Phase → FileTable → Directory → Prop
  | start {t : FileTable} {d : Directory} {place : Location} (few : t.entries.size + 2 ≤ 2 ^ 31)
      (serves : d.Serves path place) : Session path texts .unopened t d
  | turn {phase phase' : Phase} {c : Call} {reply : Reply} {m : Machine}
      (before : Session path texts phase c.machine.files c.machine.directory)
      (turn : Turn path texts phase c reply phase') (done : c.result = .ok () m)
      (shown : reply.Shown m) : Session path texts phase' m.files m.directory

/-- Lines as bytes. -/
def lines (texts : List (List UInt8)) : List UInt8 := texts.flatMap (· ++ [Reader.lineFeed])

section Phases

variable (start : Directory) (place : Location) (texts : List (List UInt8))

/-- Some lines are in the file, and a writer is at their end. -/
structure BeingWritten (done : List (List UInt8)) (handle : Word) (t : FileTable) (d : Directory) :
    Prop where
  few : t.entries.size + 1 ≤ 2 ^ 31
  short : ∀ text ∈ done, text.length < wordLimit
  entry : ∃ w, t.get? handle = some (.writer w) ∧
    Writer.At start.refusal place (lines done) [] (d, w)

/-- All lines are in the file. -/
structure Written (d : Directory) : Prop where
  short : ∀ text ∈ texts, text.length < wordLimit
  same : d.refusal = start.refusal
  contents : d.get? place = some (lines texts).toArray

/-- A reader has given the first lines, and the others remain. -/
structure BeingRead (answers : List (Option (List UInt8))) (handle : Word) (t : FileTable) : Prop where
  right : ∀ (i : Nat) answer, answers[i]? = some answer → answer = texts[i]?
  entry : ∃ r, t.get? handle = some (.reader r) ∧ r.source = .file place ∧
    r.remaining (lines texts).toArray = lines (texts.drop answers.length)

/-- **What is known of the files** in each phase. -/
def Phase.Holds (t : FileTable) (d : Directory) : Phase → Prop
  | .unopened => t.entries.size + 2 ≤ 2 ^ 31 ∧ d = start
  | .writing handle left => ∃ done, texts = done ++ left ∧ BeingWritten start place done handle t d
  | .written => t.entries.size + 1 ≤ 2 ^ 31 ∧ Written start place texts d
  | .reading handle answers => Written start place texts d ∧ BeingRead place texts answers handle t

end Phases

/-- **A call advances**: it does its work on the files, and pushes its reply in the place of its
    operand. -/
structure Advances (start : Directory) (path : String) (place : Location) (texts : List (List UInt8))
    (phase : Phase) (c : Call) (reply : Reply) (m : Machine) (phase' : Phase) : Prop where
  turn : Turn path texts phase c reply phase'
  result : c.result = reply.push m
  holds : phase'.Holds start place texts m.files m.directory
  machine : reply = .nothing ∨ ∃ journal files directory, m = { c.machine with
    memory := { c.machine.memory.popped with journal }, files, directory }
  text : ∀ text, reply = .line (some text) → text ∈ texts ∧ text.length < wordLimit

section Steps

variable {start : Directory} {path : String} {place : Location} {texts : List (List UInt8)}
  {m m₁ m₂ : Machine} {handle : Word}

theorem popped_of_popPath (run : popPath m = .ok path m₁) :
    m₁ = { m with memory := m.memory.popped } := by
  obtain ⟨text, m₂, popped, run⟩ := exists_of_run_ok run
  cases run
  exact (popped_of_popString popped).1

theorem advances_openWriter (serves : start.Serves path place)
    (few : m.files.entries.size + 2 ≤ 2 ^ 31) (fresh : m.directory = start)
    (named : popPath m = .ok path m₁) : ∃ reply m' phase',
      Advances start path place texts .unopened ⟨.openWriter, m⟩ reply m' phase' := by
  obtain rfl := popped_of_popPath named
  subst fresh
  obtain ⟨d, opened⟩ := serves.opens
  obtain ⟨-, -, rfl⟩ := Directory.openForWriting_eq_ok opened
  refine ⟨.handle _, _, .writing _ texts,
    { turn := .openWriter named
      result := (Call.openWriter_eq named opened).trans (Call.deliver_eq _ _ _)
      holds := ⟨[], rfl, ?_⟩
      machine := Or.inr ⟨_, _, _, rfl⟩
      text := fun _ same => by cases same }⟩
  exact
    { few := by
        change (m.files.entries.push _).size + 1 ≤ 2 ^ 31
        rw [Array.size_push]
        exact few
      short := fun _ mem => by cases mem
      entry := ⟨_, FileTable.get?_insert_self (by dsimp only; omega) _, rfl, rfl,
        (Directory.get?_put _ _ _ _).trans (if_pos rfl), rfl, rfl⟩ }

theorem advances_writeLine (serves : start.Serves path place) {text : List UInt8}
    {done left : List (List UInt8)} (split : texts = done ++ text :: left)
    (holds : BeingWritten start place done handle m.files m.directory)
    (string : popString m = .ok text m₁) (given : popInteger m₁ = .ok handle m₂) :
    ∃ reply m' phase',
      Advances start path place texts (.writing handle (text :: left)) ⟨.writeLine, m⟩ reply m'
        phase' := by
  obtain ⟨rfl, short⟩ := popped_of_popString string
  obtain rfl := popped_of_popInteger given
  obtain ⟨w, entry, at_⟩ := holds.entry
  obtain ⟨⟨d, w'⟩, written, at'⟩ := at_.writeLine serves.writes text
  have wrote := withWriter_ok (m := { m with memory := m.memory.popped.popped })
    (FileTable.writer?_eq_some.2 entry) written
  refine ⟨.nothing, _, .writing handle left,
    { turn := .writeLine string given
      result := (run_bind_ok string).trans ((run_bind_ok given).trans wrote)
      holds := ⟨done ++ [text], by simpa using split, ?_⟩
      machine := Or.inl rfl
      text := fun _ same => by cases same }⟩
  exact
    { few := by simpa [FileTable.set] using holds.few
      short := by
        simp only [List.mem_append, List.mem_singleton]
        rintro line (old | rfl)
        · exact holds.short line old
        · exact short
      entry := ⟨w', (FileTable.get?_set entry _ _).trans (if_pos rfl), by simpa [lines] using at'⟩ }

theorem advances_closeWriter (serves : start.Serves path place)
    (holds : BeingWritten start place texts handle m.files m.directory)
    (given : popInteger m = .ok handle m₁) : ∃ reply m' phase',
      Advances start path place texts (.writing handle []) ⟨.closeWriter, m⟩ reply m' phase' := by
  obtain rfl := popped_of_popInteger given
  obtain ⟨w, entry, at_⟩ := holds.entry
  obtain ⟨⟨d, w'⟩, flushed, at'⟩ := at_.flush serves.writes
  have flush := withWriter_ok (m := { m with memory := m.memory.popped })
    (FileTable.writer?_eq_some.2 entry) flushed
  refine ⟨.nothing, _, .written,
    { turn := .closeWriter given
      result := (run_bind_ok given).trans (run_bind_ok flush)
      holds := ⟨?_, holds.short, at'.refusal_eq, ?_⟩
      machine := Or.inl rfl
      text := fun _ same => by cases same }⟩
  · simpa [FileTable.set] using holds.few
  · simpa using at'.contents

theorem advances_openReader (serves : start.Serves path place)
    (few : m.files.entries.size + 1 ≤ 2 ^ 31) (written : Written start place texts m.directory)
    (named : popPath m = .ok path m₁) : ∃ reply m' phase',
      Advances start path place texts .written ⟨.openReader, m⟩ reply m' phase' := by
  obtain rfl := popped_of_popPath named
  obtain ⟨d, opened⟩ := serves.opens
  have reopened : m.directory.openForReading path = .ok (.file place) :=
    Directory.openForReading_of_openForWriting opened written.contents
      (written.same ▸ serves.reopens)
  refine ⟨.handle _, _, .reading _ [],
    { turn := .openReader named
      result := (Call.openReader_eq named reopened).trans (Call.deliver_eq _ _ _)
      holds := ⟨⟨written.short, written.same, written.contents⟩, ?_⟩
      machine := Or.inr ⟨_, _, _, rfl⟩
      text := fun _ same => by cases same }⟩
  exact
    { right := fun i answer found => by cases found
      entry := ⟨_, FileTable.get?_insert_self (by dsimp only; omega) _, rfl, by simp [Reader.remaining]⟩ }

theorem advances_readLine (serves : start.Serves path place)
    {answers : List (Option (List UInt8))} (good : ∀ text ∈ texts, Reader.IsLine text)
    (written : Written start place texts m.directory)
    (holds : BeingRead place texts answers handle m.files)
    (given : popInteger m = .ok handle m₁) : ∃ reply m' phase',
      Advances start path place texts (.reading handle answers) ⟨.readLine, m⟩ reply m' phase' := by
  obtain rfl := popped_of_popInteger given
  obtain ⟨r, entry, source, remains⟩ := holds.entry
  have willing : ∀ offset, m.directory.refusal (.read place offset) = none := by
    rw [written.same]
    exact serves.reads
  -- the answer is the text that is next, or none after the last one
  obtain ⟨r', read, source', remains'⟩ : ∃ r',
      r.readLine m.directory = (.ok texts[answers.length]?, r') ∧ r'.source = .file place ∧
        r'.remaining (lines texts).toArray = lines (texts.drop (answers.length + 1)) := by
    rw [← List.drop_drop, ← List.head?_drop]
    cases rest : texts.drop answers.length with
    | nil =>
      rw [rest] at remains
      exact Reader.readLine_end source written.contents willing remains
    | cons text rest' =>
      rw [rest] at remains
      have line := good text (List.mem_of_mem_drop (rest ▸ List.mem_cons_self))
      exact Reader.readLine_line source written.contents willing line (by simpa [lines] using remains)
  let m' : Machine := { m with
    memory := m.memory.popped
    files := m.files.set handle (some (.reader r')) }
  have result : readLine m = pushLine texts[answers.length]? m' := by
    rw [readLine_eq given (FileTable.reader?_eq_some.2 entry), read]
    rfl
  refine ⟨.line texts[answers.length]?, m', .reading handle (answers ++ [texts[answers.length]?]),
    { turn := .readLine given
      result := result
      holds := ⟨⟨written.short, written.same, written.contents⟩, ?_⟩
      machine := Or.inr ⟨m.memory.journal, _, _, rfl⟩
      text := ?_ }⟩
  · exact
      { right := by
          intro i answer found
          rw [List.getElem?_append] at found
          split at found
          · exact holds.right i answer found
          · rename_i beyond
            obtain ⟨here, same⟩ := List.getElem?_eq_some_iff.1 found
            rw [List.length_singleton] at here
            obtain rfl : i = answers.length := by omega
            simpa using same.symm
        entry := ⟨r', (FileTable.get?_set entry _ _).trans (if_pos rfl), source', by
          simpa using remains'⟩ }
  · intro text same
    have mem := List.mem_of_getElem? (Reply.line.inj same)
    exact ⟨mem, written.short text mem⟩

/-- **Every call of a session advances it.** -/
theorem exists_advances {phase phase' : Phase} {c : Call} {reply : Reply}
    (serves : start.Serves path place) (good : ∀ text ∈ texts, Reader.IsLine text)
    (holds : phase.Holds start place texts c.machine.files c.machine.directory)
    (next : Turn path texts phase c reply phase') :
    ∃ reply m phase', Advances start path place texts phase c reply m phase' := by
  cases next with
  | openWriter named => exact advances_openWriter serves holds.1 holds.2 named
  | writeLine string given =>
    obtain ⟨done, split, holds⟩ := holds
    exact advances_writeLine serves split holds string given
  | closeWriter given =>
    obtain ⟨done, split, holds⟩ := holds
    obtain rfl : texts = done := split.trans (List.append_nil done)
    exact advances_closeWriter serves holds given
  | openReader named => exact advances_openReader serves holds.1 holds.2 named
  | readLine given => exact advances_readLine serves good holds.1 holds.2 given

end Steps

/-! ### Runs of sessions -/

section Session

variable {path : String} {texts : List (List UInt8)} {phase phase' : Phase} {t : FileTable}
  {d : Directory} {c : Call} {reply : Reply}

/-- What a call leads to is seen from its reply. -/
theorem Turn.unique {m : Machine} {phase₁ phase₂ : Phase} {reply₁ reply₂ : Reply}
    (first : Turn path texts phase c reply₁ phase₁) (second : Turn path texts phase c reply₂ phase₂)
    (shown₁ : reply₁.Shown m) (shown₂ : reply₂.Shown m) : phase₁ = phase₂ := by
  cases first with
  | openWriter =>
    cases second
    rw [Reply.handle_unique shown₁ shown₂]
  | writeLine =>
    cases second
    rfl
  | closeWriter =>
    cases second
    rfl
  | openReader =>
    cases second
    rw [Reply.handle_unique shown₁ shown₂]
  | readLine =>
    cases second
    rw [Reply.line_unique shown₁ shown₂]

/-- **What is known of the files is so in every session.** -/
theorem Session.holds (session : Session path texts phase t d)
    (good : ∀ text ∈ texts, Reader.IsLine text) :
    ∃ start place, start.Serves path place ∧ phase.Holds start place texts t d := by
  induction session with
  | @start t d place few serves => exact ⟨d, place, serves, few, rfl⟩
  | @turn phase phase' c reply m before next done shown ih =>
    obtain ⟨start, place, serves, holds⟩ := ih
    obtain ⟨reply₁, m₁, phase₁, advances⟩ := exists_advances serves good holds next
    have pushed : reply₁.push m₁ = .ok () m := advances.result.symm.trans done
    obtain rfl := next.unique advances.turn shown (Reply.shown_of_push pushed)
    have same := reply₁.files_push m₁ rfl
    rw [pushed] at same
    obtain ⟨files, directory⟩ := Prod.mk.inj same
    rw [show m.files = m₁.files from files, show m.directory = m₁.directory from directory]
    exact ⟨start, place, serves, advances.holds⟩

/-- **A call of a session comes off**: it goes on to the next phase and shows its reply, or the
    memory fails; and if the machine is in order below the operand, that is for want of room. -/
def Call.ComesOff (path : String) (texts : List (List UInt8)) (phase : Phase) (c : Call) : Prop :=
  (∃ reply m phase', Turn path texts phase c reply phase' ∧ c.result = .ok () m ∧ reply.Shown m) ∨
    ∃ cause m, c.result = .error (.memory cause) m ∧
      (Machine.InOrder { c.machine with memory := c.machine.memory.popped } → cause.IsNoRoom)

/-- **The lines that are read are those that were written**, one after the other, and null from then
    on; and no call of a session fails but for want of room. -/
theorem lines_written_are_read (session : Session path texts phase t d)
    (good : ∀ text ∈ texts, Reader.IsLine text) :
    (∀ handle answers, phase = .reading handle answers →
      ∀ (i : Nat) answer, answers[i]? = some answer → answer = texts[i]?) ∧
    ∀ c reply phase', c.machine.files = t → c.machine.directory = d →
      Turn path texts phase c reply phase' → c.ComesOff path texts phase := by
  obtain ⟨start, place, serves, holds⟩ := session.holds good
  refine ⟨?right, ?next⟩
  case right =>
    rintro handle answers rfl
    exact holds.2.right
  case next =>
    rintro c reply phase' rfl rfl next
    obtain ⟨reply, m, phase', advances⟩ := exists_advances serves good holds next
    rw [Call.ComesOff, advances.result]
    cases pushed : reply.push m with
    | ok a m' => exact Or.inl ⟨reply, m', phase', advances.turn, rfl, Reply.shown_of_push pushed⟩
    | error e m' =>
      obtain ⟨cause, rfl⟩ := reply.failsOnly_push m e m' pushed
      refine Or.inr ⟨cause, m', rfl, fun order => ?_⟩
      have order' : m.InOrder := by
        rcases advances.machine with rfl | ⟨journal, files, directory, rfl⟩
        · cases pushed
        · obtain ⟨objects, wf⟩ := order.objects
          exact { order with objects := ⟨objects, wf.sound, wf.graph⟩ }
      obtain ⟨cause', same, noRoom⟩ := Reply.noRoom_of_push order'
        (fun text line => (advances.text text line).2) pushed
      cases same
      exact noRoom

/-! ### Sessions with room -/

/-- Where there is room, a session goes on. -/
theorem Session.extend (session : Session path texts phase t d)
    (good : ∀ text ∈ texts, Reader.IsLine text) (short : ∀ text ∈ texts, text.length ≤ 200)
    (files : HasFiles (t, d) c.machine) (room : c.machine.HasRoom 200)
    (next : Turn path texts phase c reply phase') :
    ∃ (reply : Reply) (m : Machine) (phase' : Phase), Turn path texts phase c reply phase' ∧
      Session path texts phase' m.files m.directory := by
  cases files
  obtain ⟨start, place, serves, holds⟩ := session.holds good
  obtain ⟨reply, m, phase', advances⟩ := exists_advances serves good holds next
  obtain ⟨m', pushed⟩ : ∃ m', reply.push m = .ok () m' := by
    rcases advances.machine with rfl | ⟨journal, files, directory, same⟩
    · exact ⟨m, rfl⟩
    · have room' : m.HasRoom 200 := by
        rw [same]
        exact { room.popped with }
      cases reply with
      | nothing => exact ⟨m, rfl⟩
      | handle value => exact room'.pushInteger (by decide) value
      | line text =>
        cases text with
        | none => exact room'.pushNull
        | some text =>
          obtain ⟨mem, small⟩ := advances.text text rfl
          exact room'.pushString (short text mem) small
  exact ⟨reply, m', phase', advances.turn,
    .turn session advances.turn (advances.result.trans pushed) (Reply.shown_of_push pushed)⟩

section Short

variable (good : ∀ text ∈ texts, Reader.IsLine text) (short : ∀ text ∈ texts, text.length ≤ 200)
include good short

theorem Session.opens (session : Session "f" texts .unopened t d) :
    ∃ handle t d, Session "f" texts (.writing handle texts) t d := by
  obtain ⟨m, _, files, -, room, -, named⟩ := exists_with_path (t, d)
  obtain ⟨_, m', _, turn, session⟩ := session.extend good short (c := ⟨.openWriter, m⟩) files room
    (@Turn.openWriter _ texts m _ 0 named)
  cases turn
  exact ⟨_, _, _, session⟩

theorem Session.writes {handle : Word} {left : List (List UInt8)} (some_ : ∀ text ∈ left, text ∈ texts)
    (session : Session "f" texts (.writing handle left) t d) :
    ∃ t d, Session "f" texts (.writing handle []) t d := by
  induction left generalizing t d with
  | nil => exact ⟨t, d, session⟩
  | cons text left ih =>
    obtain ⟨first, rest⟩ := List.forall_mem_cons.1 some_
    obtain ⟨m, files, room, string, given⟩ := exists_with_operands (t, d) handle text (short text first)
    obtain ⟨_, m', _, turn, session⟩ := session.extend good short (c := ⟨.writeLine, m⟩) files room
      (.writeLine string given)
    cases turn
    exact ih rest session

theorem Session.closes {handle : Word} (session : Session "f" texts (.writing handle []) t d) :
    ∃ t d, Session "f" texts .written t d := by
  obtain ⟨m, _, files, room, given⟩ := exists_with_integer (t, d) handle
  obtain ⟨_, m', _, turn, session⟩ := session.extend good short (c := ⟨.closeWriter, m⟩) files room
    (.closeWriter given)
  cases turn
  exact ⟨_, _, session⟩

theorem Session.reopens (session : Session "f" texts .written t d) :
    ∃ handle t d, Session "f" texts (.reading handle []) t d := by
  obtain ⟨m, _, files, -, room, -, named⟩ := exists_with_path (t, d)
  obtain ⟨_, m', _, turn, session⟩ := session.extend good short (c := ⟨.openReader, m⟩) files room
    (@Turn.openReader _ texts m _ 0 named)
  cases turn
  exact ⟨_, _, _, session⟩

theorem Session.reads {handle : Word} {answers : List (Option (List UInt8))}
    (session : Session "f" texts (.reading handle answers) t d) :
    ∃ answer t d, Session "f" texts (.reading handle (answers ++ [answer])) t d := by
  obtain ⟨m, _, files, room, given⟩ := exists_with_integer (t, d) handle
  obtain ⟨_, m', _, turn, session⟩ := session.extend good short (c := ⟨.readLine, m⟩) files room
    (@Turn.readLine _ texts m _ handle answers none given)
  cases turn
  exact ⟨_, _, _, session⟩

/-- **There are sessions** for short lines of any number, which read as often as one likes. -/
theorem exists_session (n : Nat) : ∃ handle answers t d, answers.length = n ∧
    Session "f" texts (.reading handle answers) t d := by
  induction n with
  | zero =>
    have serves : Directory.Serves {} "f" (.here "f") := by
      refine ⟨⟨.put {} (.here "f") #[], ?_⟩, fun _ => rfl, rfl, fun _ => rfl⟩
      unfold Directory.openForWriting
      rw [Directory.follow_f]
      rfl
    have started : Session "f" texts .unopened {} {} := .start (by decide) serves
    obtain ⟨handle, _, _, opened⟩ := started.opens good short
    obtain ⟨_, _, written⟩ := opened.writes good short fun text mem => mem
    obtain ⟨_, _, closed⟩ := written.closes good short
    obtain ⟨handle, t, d, reopened⟩ := closed.reopens good short
    exact ⟨handle, [], t, d, rfl, reopened⟩
  | succ n ih =>
    obtain ⟨handle, answers, _, _, rfl, session⟩ := ih
    obtain ⟨answer, t, d, session⟩ := session.reads good short
    exact ⟨handle, answers ++ [answer], t, d, List.length_append, session⟩

end Short

/-- Two lines, the second of them empty, are written, and three are read. -/
theorem twoLines_are_read : ∃ handle t d,
    Session "f" [[104, 105], []] (.reading handle [some [104, 105], some [], none]) t d := by
  have good : ∀ text ∈ ([[104, 105], []] : List (List UInt8)), Reader.IsLine text := by
    simp only [List.forall_mem_cons, List.not_mem_nil, false_imp_iff, implies_true, and_true]
    exact ⟨⟨by decide +kernel, by decide, by decide⟩, ⟨by decide +kernel, by decide, by decide⟩⟩
  obtain ⟨handle, answers, t, d, length, session⟩ :=
    exists_session good (by simp) 3
  have right := (lines_written_are_read session good).1 handle answers rfl
  obtain ⟨a, b, c, rfl⟩ := List.length_eq_three.1 length
  have first := right 0 a rfl
  have second := right 1 b rfl
  have third := right 2 c rfl
  subst first second third
  exact ⟨handle, t, d, session⟩

end Session

end ObjectMachine

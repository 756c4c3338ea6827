/-
  ObjectMachine/Proofs/ReportedErrors.lean
  ========================================
  **Which error an assembly reports, and what the host was asked before it.**

  A flaw of the text is found before the host is asked anything.  In a text without a flaw the
  operands are gone through in order: each one passes, perhaps with a question to the host, or it
  ends the assembly.  `Follows` says that a part of the assembler goes through some operands in
  this way; it is put together like the program that it is about.
-/
import ObjectMachine.Proofs.SourceFlaws

namespace ObjectMachine

namespace Resolver

variable {σ α β : Type}

/-! ### Questions -/

/-- A question to the host. -/
inductive Call where
  | text (value : String)
  | number (value : Word)
  | name (op : Opcode) (name : String)
  deriving DecidableEq, Repr

/-- What the host makes of a question.  Only a name may be left without an answer. -/
def ask (r : Resolver σ) : Call → σ → Option Word × σ
  | .text value, s => (some ((r.text value).run s).1, ((r.text value).run s).2)
  | .number value, s => (some ((r.number value).run s).1, ((r.number value).run s).2)
  | .name op name, s => (r.name op name).run s

/-- Writes down a question beside the state of the host. -/
def record (call : Call) (x : StateM σ α) : StateM (σ × List Call) α :=
  fun (s, calls) => ((x.run s).1, ((x.run s).2, calls ++ [call]))

/-- A host that answers as another one does, and keeps a list of what it was asked. -/
def logged (r : Resolver σ) : Resolver (σ × List Call) where
  text value := record (.text value) (r.text value)
  number value := record (.number value) (r.number value)
  name op name := record (.name op name) (r.name op name)

theorem ask_logged (r : Resolver σ) (call : Call) (s : σ) (calls : List Call) :
    r.logged.ask call (s, calls) = ((r.ask call s).1, ((r.ask call s).2, calls ++ [call])) := by
  cases call <;> rfl

/-- What the host is asked in the course of an assembly. -/
def callsMade (r : Resolver σ) (source : String) (s : σ) : List Call :=
  ((assemble r.logged source).run.run (s, [])).2.2

/-! ### Operands in order -/

/-- An operand where it is used: the line and the opcode of its instruction, and the offset at
    which that ends. -/
structure Use where
  number : Nat
  op : Opcode
  operand : Operand
  stop : Nat

/-- The question that an operand puts to the host. -/
def Use.call? (u : Use) : Option Call :=
  match u.operand with
  | .text value => some (.text value)
  | .number value => some (.number value)
  | .name name => some (.name u.op name)
  | .word _ | .label _ => none

/-- The operands of an instruction. -/
def uses (line : SourceLine) (stop : Nat) : List Use :=
  line.operands.map fun operand => ⟨line.number, line.op, operand, stop⟩

/-- The operands of instructions whose code starts at an offset. -/
def usesFrom : Nat → List SourceLine → List Use
  | _, [] => []
  | start, line :: rest =>
    uses line (start + line.op.encodedLength) ++ usesFrom (start + line.op.encodedLength) rest

/-- Whether the way to a target leaves the signed words. -/
def Far (target stop : Nat) : Prop :=
  Word.difference? (UInt32.ofNat target) (UInt32.ofNat stop) = none

section Relations

variable (r : Resolver σ) (target? : String → Option Nat)

/-- **An operand passes**: it is a literal, a label that is defined, or the host answers. -/
inductive Passes (u : Use) : σ → σ → Prop where
  | word {s : σ} {w : Word} (written : u.operand = .word w) : Passes u s s
  | label {s : σ} {name : String} {t : Nat} (written : u.operand = .label name)
      (target : target? name = some t) (near : ¬Far t u.stop) : Passes u s s
  | asked {s s' : σ} {call : Call} {w : Word} (asks : u.call? = some call)
      (answer : r.ask call s = (some w, s')) : Passes u s s'

/-- Operands pass, from left to right. -/
inductive PassesAll : List Use → σ → σ → Prop where
  | nil {s : σ} : PassesAll [] s s
  | cons {u : Use} {us : List Use} {s s₁ s' : σ} (first : Passes r target? u s s₁)
      (rest : PassesAll us s₁ s') : PassesAll (u :: us) s s'

/-- **An operand ends the assembly**: it is a label that is not defined or too far away, or a name
    that the host does not know. -/
inductive Stops (u : Use) (s : σ) : AssemblyError → List Call → σ → Prop where
  | unknownLabel {name : String} (written : u.operand = .label name)
      (undefined : target? name = none) : Stops u s (.unknownLabel u.number name) [] s
  | far {name : String} {t : Nat} (written : u.operand = .label name)
      (target : target? name = some t) (far : Far t u.stop) : Stops u s (.fault .overflow) [] s
  | unresolved {name : String} {s' : σ} (written : u.operand = .name name)
      (refused : r.ask (.name u.op name) s = (none, s')) :
      Stops u s (.unresolved u.number u.op name) [.name u.op name] s'

/-- **How operands end.**  Either all of them pass, and the host is asked what they ask; or some
    pass, the host is asked what those ask, and the next one ends the assembly. -/
inductive Ends (us : List Use) (s : σ) : Option AssemblyError → List Call → σ → Prop where
  | done {s' : σ} (passed : PassesAll r target? us s s') : Ends us s none (us.filterMap Use.call?) s'
  | stopped {before after : List Use} {u : Use} {s₁ s' : σ} {e : AssemblyError} {calls : List Call}
      (split : us = before ++ u :: after) (passed : PassesAll r target? before s s₁)
      (stops : Stops r target? u s₁ e calls s') :
      Ends us s (some e) (before.filterMap Use.call? ++ calls) s'

end Relations

variable {r : Resolver σ} {target? : String → Option Nat} {us vs : List Use} {s s' : σ}

theorem passesAll_append :
    PassesAll r target? (us ++ vs) s s' ↔
      ∃ s₁, PassesAll r target? us s s₁ ∧ PassesAll r target? vs s₁ s' := by
  induction us generalizing s with
  | nil =>
    constructor
    · intro h
      exact ⟨s, .nil, h⟩
    · rintro ⟨s₁, ⟨⟩, h⟩
      exact h
  | cons u us ih =>
    constructor
    · rintro (_ | ⟨first, rest⟩)
      obtain ⟨s₁, others, h⟩ := ih.1 rest
      exact ⟨s₁, .cons first others, h⟩
    · rintro ⟨s₁, _ | ⟨first, others⟩, h⟩
      exact .cons first (ih.2 ⟨s₁, others, h⟩)

/-- Each operand passes or ends the assembly. -/
theorem passes_or_stops (u : Use) (s : σ) :
    (∃ s', Passes r target? u s s') ∨ ∃ e calls s', Stops r target? u s e calls s' := by
  cases written : u.operand with
  | word w => exact Or.inl ⟨s, .word written⟩
  | text value => exact Or.inl ⟨_, .asked (by rw [Use.call?, written]) rfl⟩
  | number value => exact Or.inl ⟨_, .asked (by rw [Use.call?, written]) rfl⟩
  | label name =>
    cases target : target? name with
    | none => exact Or.inr ⟨_, _, _, .unknownLabel written target⟩
    | some t =>
      by_cases far : Far t u.stop
      · exact Or.inr ⟨_, _, _, .far written target far⟩
      · exact Or.inl ⟨s, .label written target far⟩
  | name name =>
    rcases answer : r.ask (.name u.op name) s with ⟨_ | w, s'⟩
    · exact Or.inr ⟨_, _, _, .unresolved written answer⟩
    · exact Or.inl ⟨s', .asked (by rw [Use.call?, written]) answer⟩

theorem exists_ends (us : List Use) (s : σ) : ∃ e? calls s', Ends r target? us s e? calls s' := by
  induction us generalizing s with
  | nil => exact ⟨_, _, _, .done .nil⟩
  | cons u us ih =>
    rcases passes_or_stops u s with ⟨s₁, first⟩ | ⟨e, calls, s', stops⟩
    · obtain ⟨e?, calls, s', ends⟩ := ih s₁
      cases ends with
      | done passed => exact ⟨_, _, _, .done (.cons first passed)⟩
      | @stopped before after v s₂ s' e calls split passed stops =>
        have split' : u :: us = u :: before ++ v :: after := congrArg (u :: ·) split
        exact ⟨_, _, _, .stopped split' (.cons first passed) stops⟩
    · exact ⟨_, _, _, .stopped (List.nil_append _).symm .nil stops⟩

/-! ### Going through operands -/

/-- **A part of the assembler follows some operands**: where they all pass it goes on, in the
    state that they leave, and where one of them ends the assembly it reports that. -/
structure Follows (r : Resolver σ) (target? : String → Option Nat) (us : List Use) (x : Run σ α) :
    Prop where
  ok {s s' : σ} (passed : PassesAll r target? us s s') : ∃ a, x.run.run s = (.ok a, s')
  error {before after : List Use} {u : Use} {s s₁ s' : σ} {e : AssemblyError} {calls : List Call}
    (split : us = before ++ u :: after) (passed : PassesAll r target? before s s₁)
    (stops : Stops r target? u s₁ e calls s') : x.run.run s = (.error e, s')

theorem follows_pure (a : α) : Follows r target? [] (pure a : Run σ α) where
  ok := by
    rintro s s' ⟨⟩
    exact ⟨a, rfl⟩
  error split := by simp at split

theorem Follows.bind {x : Run σ α} {f : α → Run σ β} (first : Follows r target? us x)
    (rest : ∀ s a s', x.run.run s = (.ok a, s') → Follows r target? vs (f a)) :
    Follows r target? (us ++ vs) (x >>= f) where
  ok := by
    intro s s' passed
    obtain ⟨s₁, passed₁, passed₂⟩ := passesAll_append.1 passed
    obtain ⟨a, ran⟩ := first.ok passed₁
    rw [run_bind_ok ran]
    exact (rest _ _ _ ran).ok passed₂
  error := by
    intro before after u s s₁ s' e calls split passed stops
    rcases List.append_eq_append_iff.1 split with ⟨others, rfl, later⟩ | ⟨others, earlier, later⟩
    · -- the operands of `x` have all passed
      obtain ⟨s₂, passed₁, passed₂⟩ := passesAll_append.1 passed
      obtain ⟨a, ran⟩ := first.ok passed₁
      rw [run_bind_ok ran]
      exact (rest _ _ _ ran).error later passed₂ stops
    · cases others with
      | nil =>
        rw [List.append_nil] at earlier
        subst earlier
        obtain ⟨a, ran⟩ := first.ok passed
        rw [run_bind_ok ran]
        have next : vs = [] ++ u :: after := later.symm
        exact (rest _ _ _ ran).error next .nil stops
      | cons v others =>
        cases later
        exact run_bind_error (first.error earlier passed stops)

section Steps

variable {layout : Layout} {line : SourceLine} {start stop : Nat}

theorem word_name {name : String} {answer : Option Word}
    (asked : r.ask (.name line.op name) s = (answer, s')) :
    (r.word layout line stop (.name name)).run.run s =
      (match answer with
        | some w => .ok w
        | none => .error (.unresolved line.number line.op name), s') := by
  have lifted : (liftM (r.name line.op name) : Run σ (Option Word)).run.run s =
      (.ok answer, s') := by
    have parts := Prod.ext_iff.1 asked
    exact Prod.ext (congrArg Except.ok parts.1) parts.2
  rw [Resolver.word]
  refine (run_bind_ok lifted).trans ?_
  cases answer <;> rfl

theorem word_of_passes {operand : Operand}
    (passes : Passes r layout.label? ⟨line.number, line.op, operand, stop⟩ s s') :
    ∃ w, (r.word layout line stop operand).run.run s = (.ok w, s') := by
  cases passes with
  | @word w written =>
    cases written
    exact ⟨w, rfl⟩
  | @label name t written target near =>
    cases written
    obtain ⟨w, found⟩ := Option.ne_none_iff_exists'.1 near
    refine ⟨w, ?_⟩
    simp only [Resolver.word, target, found]
    rfl
  | @asked s' call w asks answer =>
    refine ⟨w, ?_⟩
    cases operand with
    | word value | label name => cases asks
    | text value | number value =>
      cases asks
      cases answer
      rfl
    | name name =>
      cases asks
      exact word_name answer

theorem word_of_stops {operand : Operand} {e : AssemblyError} {calls : List Call}
    (stops : Stops r layout.label? ⟨line.number, line.op, operand, stop⟩ s e calls s') :
    (r.word layout line stop operand).run.run s = (.error e, s') := by
  cases stops with
  | unknownLabel written undefined =>
    cases written
    simp only [Resolver.word, undefined]
    rfl
  | far written target far =>
    cases written
    unfold Far at far
    simp only [Resolver.word, target, far]
    rfl
  | unresolved written refused =>
    cases written
    exact word_name refused

theorem follows_word (operand : Operand) :
    Follows r layout.label? [⟨line.number, line.op, operand, stop⟩]
      (r.word layout line stop operand) where
  ok := by
    rintro s s' (_ | ⟨first, _ | _⟩)
    exact word_of_passes first
  error := by
    intro before after u s s₁ s' e calls split passed stops
    cases before with
    | nil =>
      cases split
      cases passed
      exact word_of_stops stops
    | cons v before => simp at split

theorem follows_words (operands : List Operand) :
    Follows r layout.label? (operands.map fun operand => ⟨line.number, line.op, operand, stop⟩)
      (operands.mapM (r.word layout line stop)) := by
  induction operands with
  | nil => exact follows_pure []
  | cons operand operands ih =>
    rw [List.mapM_cons]
    refine (follows_word operand).bind fun _ w _ _ => ?_
    rw [← List.append_nil (operands.map _)]
    exact ih.bind fun _ ws _ _ => follows_pure (w :: ws)

theorem follows_instruction (arity : line.operands.length = line.op.arity) :
    Follows r layout.label? (uses line stop) (r.instruction layout line stop) := by
  rw [← List.append_nil (uses line stop)]
  refine (follows_words line.operands).bind fun _ ws _ ran => ?_
  obtain ⟨i, opcode, rfl⟩ := Instruction.exists_opcode_operands ((length_of_mapM ran).trans arity)
  rw [← opcode, i.ofWords?_operands]
  exact follows_pure i

theorem follows_instructions {lines : List SourceLine}
    (arity : ∀ line ∈ lines, line.operands.length = line.op.arity) :
    Follows r layout.label? (usesFrom start lines) (r.instructions layout start lines) := by
  induction lines generalizing start with
  | nil => exact follows_pure []
  | cons line lines ih =>
    rw [List.forall_mem_cons] at arity
    refine (follows_instruction arity.1).bind fun _ i _ _ => ?_
    rw [← List.append_nil (usesFrom _ lines)]
    exact (ih arity.2).bind fun _ is _ _ => follows_pure (i :: is)

end Steps

/-! ### Keeping a list -/

theorem Passes.logged {u : Use} (h : Passes r target? u s s') (calls : List Call) :
    Passes r.logged target? u (s, calls) (s', calls ++ u.call?.toList) := by
  cases h with
  | word written =>
    rw [Use.call?, written, Option.toList_none, List.append_nil]
    exact .word written
  | label written target near =>
    rw [Use.call?, written, Option.toList_none, List.append_nil]
    exact .label written target near
  | @asked s' call w asks answer =>
    have kept := ask_logged r call s calls
    rw [answer] at kept
    rw [asks]
    exact .asked asks kept

theorem PassesAll.logged (h : PassesAll r target? us s s') (calls : List Call) :
    PassesAll r.logged target? us (s, calls) (s', calls ++ us.filterMap Use.call?) := by
  induction h generalizing calls with
  | nil =>
    rw [List.filterMap_nil, List.append_nil]
    exact .nil
  | @cons u us s s₁ s' first rest ih =>
    have asked : (u :: us).filterMap Use.call? = u.call?.toList ++ us.filterMap Use.call? := by
      cases asks : u.call? <;> simp [asks]
    rw [asked, ← List.append_assoc]
    exact .cons (first.logged calls) (ih _)

theorem Stops.logged {u : Use} {e : AssemblyError} {more : List Call}
    (h : Stops r target? u s e more s') (calls : List Call) :
    Stops r.logged target? u (s, calls) e more (s', calls ++ more) := by
  cases h with
  | unknownLabel written undefined =>
    rw [List.append_nil]
    exact .unknownLabel written undefined
  | far written target far =>
    rw [List.append_nil]
    exact .far written target far
  | unresolved written refused =>
    refine .unresolved written ?_
    rw [ask_logged, refused]

theorem Ends.logged {e? : Option AssemblyError} {more : List Call}
    (h : Ends r target? us s e? more s') (calls : List Call) :
    Ends r.logged target? us (s, calls) e? more (s', calls ++ more) := by
  cases h with
  | done passed => exact .done (passed.logged calls)
  | stopped split passed stops =>
    rw [← List.append_assoc]
    exact .stopped split (passed.logged calls) (stops.logged _)

end Resolver

/-! ### Whole assemblies -/

section Reports

variable {σ : Type}

/-- The error in an answer. -/
def reported? {α : Type} : Except AssemblyError α → Option AssemblyError
  | .ok _ => none
  | .error e => some e

/-- **What an assembly reports**, what it asks the host, and the state in which it leaves the host.
    A text with a flaw is reported for its first one and the host is asked nothing; otherwise the
    operands of the text end the assembly, in the order of the text. -/
inductive Reports (r : Resolver σ) (source : String) (s : σ) :
    Option AssemblyError → List Resolver.Call → σ → Prop where
  | flawed {e : AssemblyError} (flaw : Statement.FirstFlaw source e) :
      Reports r source s (some e) [] s
  | resolved {statements : List Statement} {e? : Option AssemblyError}
      {calls : List Resolver.Call} {s' : σ}
      (clean : Statement.Clean (Text.lines source.toList) statements)
      (ends : r.Ends (Statement.offset? statements)
        (Resolver.usesFrom 0 (Statement.sourceLines 1 statements)) s e? calls s') :
      Reports r source s e? calls s'

variable {r : Resolver σ} {source : String} {s s' : σ} {e? : Option AssemblyError}
  {calls : List Resolver.Call}

theorem Reports.run (h : Reports r source s e? calls s') :
    ∃ answer, (assemble r source).run.run s = (answer, s') ∧ reported? answer = e? := by
  unfold assemble
  cases h with
  | @flawed e flaw =>
    rw [Layout.ofSource_eq_error_iff.2 flaw]
    exact ⟨.error e, rfl, rfl⟩
  | resolved clean ends =>
    obtain ⟨layout, laidOut, laid⟩ := Layout.numbered_of_clean clean
    have follows : r.Follows layout.label? _ (r.instructions layout 0 layout.lines.toList) :=
      Resolver.follows_instructions laid.arity
    rw [laid.numbered, funext laid.label] at follows
    rw [Layout.ofSource, laidOut]
    dsimp only
    rw [laid.numbered]
    cases ends with
    | done passed =>
      obtain ⟨is, ran⟩ := follows.ok passed
      rw [Resolver.run_bind_ok ran]
      exact ⟨_, rfl, rfl⟩
    | stopped split passed stops =>
      rw [Resolver.run_bind_error (follows.error split passed stops)]
      exact ⟨_, rfl, rfl⟩

theorem Reports.logged (h : Reports r source s e? calls s') (before : List Resolver.Call) :
    Reports r.logged source (s, before) e? calls (s', before ++ calls) := by
  cases h with
  | flawed flaw =>
    rw [List.append_nil]
    exact .flawed flaw
  | resolved clean ends => exact .resolved clean (ends.logged before)

theorem Reports.callsMade (h : Reports r source s e? calls s') :
    r.callsMade source s = calls := by
  obtain ⟨answer, kept, -⟩ := (h.logged []).run
  rw [Resolver.callsMade, kept]
  rfl

theorem exists_reports (r : Resolver σ) (source : String) (s : σ) :
    ∃ e? calls s', Reports r source s e? calls s' := by
  cases laidOut : Layout.ofSource source with
  | error e => exact ⟨_, _, _, .flawed (Layout.ofSource_eq_error_iff.1 laidOut)⟩
  | ok layout =>
    obtain ⟨statements, clean, -⟩ := Layout.exists_clean laidOut
    obtain ⟨e?, calls, s', ends⟩ := Resolver.exists_ends _ s
    exact ⟨e?, calls, s', .resolved clean ends⟩

/-- An instruction ends inside the code. -/
theorem Resolver.stop_le {statements : List Statement} {number start : Nat} {u : Use}
    (mem : u ∈ usesFrom start (Statement.sourceLines number statements)) :
    u.stop ≤ start + (statements.map Statement.size).sum := by
  induction statements generalizing number start with
  | nil => cases mem
  | cons statement statements ih =>
    rw [List.map_cons, List.sum_cons]
    rw [Statement.sourceLines] at mem
    rcases written : statement.instruction with _ | ⟨op, operands⟩
    · have none_ : statement.sourceLine? number = none := by rw [Statement.sourceLine?, written]; rfl
      rw [none_] at mem
      have := ih mem
      omega
    · have some_ : statement.sourceLine? number = some ⟨number, op, operands⟩ := by
        rw [Statement.sourceLine?, written]
        rfl
      have size : statement.size = op.encodedLength := by rw [Statement.size, written]
      rw [some_] at mem
      rcases List.mem_append.1 mem with here | later
      · obtain ⟨operand, -, rfl⟩ := List.mem_map.1 here
        dsimp only
        omega
      · have := ih later
        dsimp only at this
        omega

/-- Only code of `2 ^ 31` bytes or more has ways that are too far. -/
theorem Reports.fault (h : Reports r source s e? calls s') {cause : Fault}
    (faulty : e? = some (.fault cause)) :
    Statement.FirstFlaw source (.fault cause) ∨
      ∃ statements, Statement.Clean (Text.lines source.toList) statements ∧
        2 ^ 31 ≤ (statements.map Statement.size).sum := by
  cases h with
  | flawed flaw =>
    cases faulty
    exact Or.inl flaw
  | @resolved statements e? calls s' clean ends =>
    refine Or.inr ⟨statements, clean, ?_⟩
    cases ends with
    | done passed => cases faulty
    | @stopped before after u s₁ s' e calls split passed stops =>
      cases stops with
      | unknownLabel _ _ | unresolved _ _ => cases faulty
      | @far name t written target far =>
        by_contra short
        have stop : u.stop ≤ 0 + (statements.map Statement.size).sum :=
          Resolver.stop_le (split ▸ List.mem_append_right _ List.mem_cons_self)
        have start := Statement.offset?_le target
        rw [Resolver.Far, Word.difference?_ofNat (by omega) (by omega)] at far
        cases far

/-- **Assembling reports the first error**, for every text and every host.  What it reports, what
    it asks and what becomes of the host is as `Reports` has it and nothing else; and a fault comes
    from a numeral, or takes code of `2 ^ 31` bytes. -/
theorem assemble_reports_first_error (r : Resolver σ) (source : String) (s : σ) :
    (∀ (e? : Option AssemblyError) (calls : List Resolver.Call) (s' : σ),
      ((∃ answer, (assemble r source).run.run s = (answer, s') ∧ reported? answer = e?) ∧
        r.callsMade source s = calls) ↔ Reports r source s e? calls s') ∧
    ∀ (cause : Fault) (answer : Except AssemblyError (List UInt8)) (s' : σ),
      (assemble r source).run.run s = (answer, s') → reported? answer = some (.fault cause) →
        Statement.FirstFlaw source (.fault cause) ∨
          ∃ statements, Statement.Clean (Text.lines source.toList) statements ∧
            2 ^ 31 ≤ (statements.map Statement.size).sum := by
  obtain ⟨e?, calls, s', reports⟩ := exists_reports r source s
  obtain ⟨answer, ran, error⟩ := reports.run
  constructor
  · refine fun e?' calls' s'' => ⟨?_, fun reports' => ⟨reports'.run, reports'.callsMade⟩⟩
    rintro ⟨⟨answer', ran', rfl⟩, rfl⟩
    rw [ran] at ran'
    cases ran'
    rw [error, reports.callsMade]
    exact reports
  · intro cause answer' s'' ran' faulty
    rw [ran] at ran'
    cases ran'
    exact reports.fault (error.symm.trans faulty)

/-- A line whose operand leaves the host's integers. -/
def wildSource : String := "push-int -0x-8000000000000000"

/-- The operand of `wildSource` is none, but it is not what is reported. -/
theorem wildSource_faults :
    (∀ operand, ¬Operand.Spelled (.word "-0x-8000000000000000") operand) ∧
      (assemble tally wildSource).run.run 0 = (.error (.fault .overflow), 0) := by
  constructor
  · intro operand spelled
    have read := Operand.ofWord?_eq_some_iff.2 spelled
    have faulty : Operand.ofWord? "-0x-8000000000000000" = .error .overflow := by decide +kernel
    cases read.symm.trans faulty
  · have run : (show Except AssemblyError (List UInt8) × Nat from
        (assemble tally wildSource).run.run 0) = (.error (.fault .overflow), 0) := by
      decide +kernel
    exact run

end Reports

end ObjectMachine

/-
  ObjectMachine/Proofs/AssembledCode.lean
  =======================================
  **The assembler emits what the source says.**

  Laying out counts the bytes of the instructions before each label; emitting counts the
  bytes that it has emitted.  `Laid` is what the first pass knows about the statements that
  it has read, `Translates` what the second makes of them.  Both measure an instruction by
  its opcode, so an offset of the layout is an offset in the code.
-/
import ObjectMachine.Assembly.Resolver
import ObjectMachine.Proofs.CodeRoundTrip
import ObjectMachine.Proofs.SourceGrammar

namespace ObjectMachine

/-! ### Statements and their code -/

namespace Statement

/-- Number of bytes that a statement adds to the code. -/
def size (statement : Statement) : Nat :=
  match statement.instruction with
  | some (op, _) => op.encodedLength
  | none => 0

/-- Number of bytes that some statements have in front of the first one that defines a label. -/
def offset? (statements : List Statement) (name : String) : Option Nat :=
  (statements.findIdx? fun statement => name ∈ statement.labels).map fun k =>
    ((statements.take k).map size).sum

/-- Where a label leads to: the instructions before its definition, as many as there are
    statements with an instruction there, and the bytes of their code. -/
def target? (statements : List Statement) (is : List Instruction) (name : String) : Option Nat :=
  (statements.findIdx? fun statement => name ∈ statement.labels).map fun k =>
    (Instruction.encodeAll (is.take ((statements.take k).filterMap instruction).length)).length

theorem offset?_concat (statements : List Statement) (statement : Statement) (name : String) :
    offset? (statements ++ [statement]) name = (offset? statements name).or
      (if name ∈ statement.labels then some (statements.map size).sum else none) := by
  unfold offset?
  rw [List.findIdx?_append]
  cases found : statements.findIdx? fun statement => name ∈ statement.labels with
  | some k =>
    have inside : k < statements.length := (List.findIdx?_eq_some_iff_findIdx_eq.1 found).1
    rw [Option.some_or, Option.map_some, Option.map_some, Option.some_or,
      List.take_append_of_le_length (Nat.le_of_lt inside)]
  | none => by_cases mem : name ∈ statement.labels <;> simp [mem]

theorem offset?_eq_none_iff (statements : List Statement) (name : String) :
    offset? statements name = none ↔ name ∉ statements.flatMap labels := by
  simp [offset?]

theorem offset?_le {statements : List Statement} {name : String} {t : Nat}
    (h : offset? statements name = some t) : t ≤ (statements.map size).sum := by
  obtain ⟨k, -, rfl⟩ := Option.map_eq_some_iff.1 h
  have whole := congrArg (fun l => (l.map size).sum) (List.take_append_drop k statements)
  simp only [List.map_append, List.sum_append] at whole
  omega

end Statement

/-! ### Laying out -/

namespace Layout

/-- **Laid out.**  The layout lists the instructions of the statements, and knows the length of
    their code and where each label is; no label is defined twice. -/
structure Laid (l : Layout) (statements : List Statement) : Prop where
  lines : l.lines.toList.map (fun line => (line.op, line.operands)) =
    statements.filterMap Statement.instruction
  arity : ∀ line ∈ l.lines.toList, line.operands.length = line.op.arity
  length : l.length = (statements.map Statement.size).sum
  label : ∀ name, l.label? name = Statement.offset? statements name
  nodup : (statements.flatMap Statement.labels).Nodup

theorem laid_nil : Laid {} [] where
  lines := rfl
  arity := by simp
  length := rfl
  label := fun _ => rfl
  nodup := List.nodup_nil

/-- What a row of labels does to a layout. -/
structure Defined (l l' : Layout) (names : List String) : Prop where
  lines : l'.lines = l.lines
  length : l'.length = l.length
  label : ∀ name, l'.label? name =
    (l.label? name).or (if name ∈ names then some l.length else none)
  nodup : names.Nodup
  new : ∀ name ∈ names, l.label? name = none

theorem defined_of_foldlM {number : Nat} {names : List String} {l l' : Layout}
    (h : names.foldlM (define number) l = .ok l') : Defined l l' names := by
  induction names generalizing l with
  | nil =>
    cases h
    constructor <;> simp
  | cons name names ih =>
    rw [List.foldlM_cons] at h
    obtain ⟨l₁, first, h⟩ := exists_of_bind_eq_ok h
    have rest := ih h
    unfold define at first
    split at first
    · cases first
    · rename_i absent
      cases first
      have lookup : ∀ other, Layout.label? { l with labels := (name, l.length) :: l.labels } other =
          if other = name then some l.length else l.label? other := by
        intro other
        unfold label?
        rw [List.lookup_cons]
        by_cases same : other = name
        · simp [same]
        · rw [if_neg same, beq_false_of_ne same]
      constructor
      · exact rest.lines
      · exact rest.length
      · intro other
        rw [rest.label, lookup]
        by_cases same : other = name
        · subst same
          simp [absent]
        · simp [same]
      · refine List.nodup_cons.2 ⟨?_, rest.nodup⟩
        intro mem
        have := rest.new name mem
        rw [lookup, if_pos rfl] at this
        cases this
      · intro other mem
        rcases List.mem_cons.1 mem with rfl | mem
        · exact absent
        · have absent' := rest.new other mem
          rw [lookup] at absent'
          split at absent'
          · cases absent'
          · exact absent'

section Step

variable {l l' : Layout} {statements : List Statement} {names : List String}

/-- The labels of a line. -/
theorem Laid.labels (laid : l.Laid statements) (defined : l.Defined l' names) :
    l'.Laid (statements ++ [⟨names, none⟩]) where
  lines := by simp [defined.lines, laid.lines]
  arity := by
    rw [defined.lines]
    exact laid.arity
  length := by simp [defined.length, laid.length, Statement.size]
  label := by
    intro name
    rw [defined.label, laid.label, laid.length, Statement.offset?_concat]
  nodup := by
    rw [List.flatMap_append, List.flatMap_singleton, List.nodup_append]
    refine ⟨laid.nodup, defined.nodup, ?_⟩
    rintro name before _ mem rfl
    have absent := defined.new name mem
    rw [laid.label, Statement.offset?_eq_none_iff] at absent
    exact absent before

/-- The instruction of a line, after its labels. -/
theorem Laid.push {line : SourceLine} (laid : l.Laid (statements ++ [⟨names, none⟩]))
    (arity : line.operands.length = line.op.arity) :
    (l.push line).Laid (statements ++ [⟨names, some (line.op, line.operands)⟩]) where
  lines := by simpa [Layout.push] using laid.lines
  arity := by
    intro other mem
    simp only [Layout.push, Array.toList_push, List.mem_append, List.mem_singleton] at mem
    rcases mem with mem | rfl
    · exact laid.arity other mem
    · exact arity
  length := by
    have before := laid.length
    simp only [List.map_append, List.sum_append, List.map_cons, List.map_nil, List.sum_cons,
      List.sum_nil, Statement.size, Layout.push] at before ⊢
    omega
  label := by
    intro name
    have before := laid.label name
    rw [Statement.offset?_concat] at before ⊢
    exact before
  nodup := by simpa using laid.nodup

end Step

/-- **One line** is one more statement. -/
theorem Laid.addLine {l l' : Layout} {statements : List Statement} {number : Nat}
    {text : List Char} (laid : l.Laid statements) (h : l.addLine number text = .ok l') :
    ∃ statement, Statement.Says text statement ∧ l'.Laid (statements ++ [statement]) := by
  unfold Layout.addLine at h
  split at h
  · rename_i tokens scanned
    obtain ⟨l₁, defined, h⟩ := exists_of_bind_eq_ok h
    have laid₁ := laid.labels (defined_of_foldlM defined)
    have line := Token.line_of_scan scanned
    rw [Token.leadingLabels_eq tokens] at line
    split at h
    · rename_i body
      cases h
      rw [body] at line
      exact ⟨_, ⟨[], line, .none⟩, laid₁⟩
    · rename_i head tail body
      obtain ⟨source, read, h⟩ := exists_of_bind_eq_ok h
      cases h
      rw [body] at line
      obtain ⟨spelled, arity⟩ := body_of_sourceLine read
      exact ⟨_, ⟨_, line, spelled⟩, laid₁.push arity⟩
  · cases h

/-- **All lines**, from the first one on. -/
theorem Laid.addLines {l l' : Layout} {statements : List Statement} {number : Nat}
    {texts : List (List Char)} (laid : l.Laid statements) (h : l.addLines number texts = .ok l') :
    ∃ more, List.Forall₂ Statement.Says texts more ∧ l'.Laid (statements ++ more) := by
  induction texts generalizing l statements number with
  | nil =>
    cases h
    exact ⟨[], .nil, by simpa using laid⟩
  | cons text texts ih =>
    obtain ⟨l₁, first, h⟩ := exists_of_bind_eq_ok h
    obtain ⟨statement, said, laid₁⟩ := laid.addLine first
    obtain ⟨more, others, laid'⟩ := ih laid₁ h
    exact ⟨statement :: more, .cons said others, by simpa using laid'⟩

theorem laid_of_ofSource {source : String} {l : Layout} (h : ofSource source = .ok l) :
    ∃ statements, List.Forall₂ Statement.Says (Text.lines source.toList) statements ∧
      l.Laid statements := by
  simpa using laid_nil.addLines h

end Layout

/-! ### Emitting -/

/-- The distance between two offsets of code shorter than `2 ^ 31` bytes fits a word. -/
theorem Word.signed_ofNat_sub_ofNat {a b : Nat} (ha : a < 2 ^ 31) (hb : b < 2 ^ 31) :
    Word.signed (UInt32.ofNat a - UInt32.ofNat b) = (a : Int) - b := by
  have wrapped : Word.signed (UInt32.ofNat a - UInt32.ofNat b) =
      ((a : Int) - b).bmod (2 ^ 32) := by
    change (BitVec.ofNat 32 a - BitVec.ofNat 32 b).toInt = _
    rw [BitVec.toInt_sub, BitVec.toInt_ofNat', BitVec.toInt_ofNat', Int.bmod_sub_bmod,
      Int.sub_bmod_bmod]
  rw [wrapped]
  apply Int.bmod_eq_of_le <;> omega

theorem Word.eq_sub_of_difference? {a b w : Word} (h : difference? a b = some w) : w = a - b := by
  unfold difference? at h
  split at h
  · exact (Option.some.inj h).symm
  · cases h

/-- Offsets of code shorter than `2 ^ 31` bytes have a distance. -/
theorem Word.difference?_ofNat {a b : Nat} (ha : a < 2 ^ 31) (hb : b < 2 ^ 31) :
    difference? (UInt32.ofNat a) (UInt32.ofNat b) = some (UInt32.ofNat a - UInt32.ofNat b) := by
  have exact_ : ∀ {n : Nat}, n < 2 ^ 31 → Word.signed (UInt32.ofNat n) = n := by
    intro n hn
    have := Word.signed_ofNat_sub_ofNat hn (show 0 < 2 ^ 31 by decide)
    simpa using this
  unfold difference?
  rw [exact_ ha, exact_ hb]
  exact if_pos (by omega)

theorem Opcode.encodedLength_eq (i : Instruction) : i.opcode.encodedLength = i.encode.length := by
  rw [i.length_encode, encodedLength, Nat.mul_comm]
  rfl

namespace Resolver

section Runs

variable {σ α β : Type} {x : Run σ α} {f : α → Run σ β} {s s' : σ}

theorem run_bind_ok {a : α} (h : x.run.run s = (.ok a, s')) :
    (x >>= f).run.run s = (f a).run.run s' := by
  change (ExceptT.bindCont f (x.run.run s).1).run (x.run.run s).2 = _
  rw [h]
  rfl

theorem run_bind_error {e : AssemblyError} (h : x.run.run s = (.error e, s')) :
    (x >>= f).run.run s = (.error e, s') := by
  change (ExceptT.bindCont f (x.run.run s).1).run (x.run.run s).2 = _
  rw [h]
  rfl

theorem exists_of_run_bind {b : β} (h : (x >>= f).run.run s = (.ok b, s')) :
    ∃ a s₁, x.run.run s = (.ok a, s₁) ∧ (f a).run.run s₁ = (.ok b, s') := by
  rcases first : x.run.run s with ⟨e | a, s₁⟩
  · rw [run_bind_error first] at h
    cases h
  · rw [run_bind_ok first] at h
    exact ⟨a, s₁, rfl, h⟩

end Runs

variable {σ : Type}

/-- **What an operand becomes**, in an instruction that ends at `stop`: a literal is its word, a
    constant the index that the host gives it, a name the word that the host gives it, and a
    label the way from `stop` to its target. -/
inductive Gives (r : Resolver σ) (target? : String → Option Nat) (op : Opcode) (stop : Nat) :
    σ → Operand → Word → σ → Prop where
  | word {s : σ} {w : Word} : Gives r target? op stop s (.word w) w s
  | text {s s' : σ} {text : String} {w : Word} (index : (r.text text).run s = (w, s')) :
      Gives r target? op stop s (.text text) w s'
  | number {s s' : σ} {value w : Word} (index : (r.number value).run s = (w, s')) :
      Gives r target? op stop s (.number value) w s'
  | label {s : σ} {name : String} {t : Nat} {w : Word} (target : target? name = some t)
      (distance : w.signed = (t : Int) - stop) : Gives r target? op stop s (.label name) w s
  | name {s s' : σ} {name : String} {w : Word} (known : (r.name op name).run s = (some w, s')) :
      Gives r target? op stop s (.name name) w s'

/-- What operands become, from left to right. -/
inductive GivesAll (r : Resolver σ) (target? : String → Option Nat) (op : Opcode) (stop : Nat) :
    σ → List Operand → List Word → σ → Prop where
  | nil {s : σ} : GivesAll r target? op stop s [] [] s
  | cons {s s₁ s' : σ} {operand : Operand} {operands : List Operand} {w : Word} {ws : List Word}
      (first : Gives r target? op stop s operand w s₁)
      (rest : GivesAll r target? op stop s₁ operands ws s') :
      GivesAll r target? op stop s (operand :: operands) (w :: ws) s'

/-- **What instructions as written become**, one by one, in code that starts at an offset. -/
inductive Translates (r : Resolver σ) (target? : String → Option Nat) :
    Nat → σ → List (Opcode × List Operand) → List Instruction → σ → Prop where
  | nil {start : Nat} {s : σ} : Translates r target? start s [] [] s
  | cons {start : Nat} {s s₁ s' : σ} {op : Opcode} {operands : List Operand}
      {lines : List (Opcode × List Operand)} {i : Instruction} {is : List Instruction}
      (opcode : i.opcode = op)
      (words : GivesAll r target? op (start + i.encode.length) s operands i.operands s₁)
      (rest : Translates r target? (start + i.encode.length) s₁ lines is s') :
      Translates r target? start s ((op, operands) :: lines) (i :: is) s'

variable {r : Resolver σ} {layout : Layout} {line : SourceLine} {start stop : Nat} {s s' : σ}

theorem gives_of_word {operand : Operand} {w : Word}
    (near : stop < 2 ^ 31) (labels : ∀ name t, layout.label? name = some t → t < 2 ^ 31)
    (h : (r.word layout line stop operand).run.run s = (.ok w, s')) :
    Gives r layout.label? line.op stop s operand w s' := by
  cases operand with
  | word value =>
    cases h
    exact .word
  | text text =>
    apply Gives.text
    have parts := Prod.ext_iff.1 h
    exact Prod.ext (Except.ok.inj parts.1) parts.2
  | number value =>
    apply Gives.number
    have parts := Prod.ext_iff.1 h
    exact Prod.ext (Except.ok.inj parts.1) parts.2
  | label name =>
    unfold Resolver.word at h
    dsimp only at h
    split at h
    · rename_i t found
      split at h
      · rename_i distance fits
        cases h
        rw [Word.eq_sub_of_difference? fits]
        exact .label found (Word.signed_ofNat_sub_ofNat (labels name t found) near)
      · cases h
    · cases h
  | name name =>
    obtain ⟨answer, s₁, asked, h⟩ := exists_of_run_bind h
    cases answer with
    | none => cases h
    | some value =>
      cases h
      apply Gives.name
      have parts := Prod.ext_iff.1 asked
      exact Prod.ext (Except.ok.inj parts.1) parts.2

theorem givesAll_of_mapM {operands : List Operand} {ws : List Word}
    (near : stop < 2 ^ 31) (labels : ∀ name t, layout.label? name = some t → t < 2 ^ 31)
    (h : (operands.mapM (r.word layout line stop)).run.run s = (.ok ws, s')) :
    GivesAll r layout.label? line.op stop s operands ws s' := by
  induction operands generalizing s ws with
  | nil =>
    cases h
    exact .nil
  | cons operand operands ih =>
    rw [List.mapM_cons] at h
    obtain ⟨w, s₁, first, h⟩ := exists_of_run_bind h
    obtain ⟨others, s₂, rest, h⟩ := exists_of_run_bind h
    cases h
    exact .cons (gives_of_word near labels first) (ih rest)

theorem length_of_mapM {operands : List Operand} {ws : List Word}
    (h : (operands.mapM (r.word layout line stop)).run.run s = (.ok ws, s')) :
    ws.length = operands.length := by
  induction operands generalizing s ws with
  | nil =>
    cases h
    rfl
  | cons operand operands ih =>
    rw [List.mapM_cons] at h
    obtain ⟨w, s₁, first, h⟩ := exists_of_run_bind h
    obtain ⟨others, s₂, rest, h⟩ := exists_of_run_bind h
    cases h
    rw [List.length_cons, ih rest, List.length_cons]

/-- An instruction has the opcode of its line, and its operands are the words of the line's. -/
theorem operands_of_instruction {i : Instruction} (arity : line.operands.length = line.op.arity)
    (h : (r.instruction layout line stop).run.run s = (.ok i, s')) :
    i.opcode = line.op ∧
      (line.operands.mapM (r.word layout line stop)).run.run s = (.ok i.operands, s') := by
  obtain ⟨ws, s₁, words, h⟩ := exists_of_run_bind h
  obtain ⟨j, opcode, rfl⟩ := Instruction.exists_opcode_operands
    ((length_of_mapM words).trans arity)
  rw [← opcode, j.ofWords?_operands] at h
  cases h
  exact ⟨opcode, words⟩

theorem opcodes_of_instructions {lines : List SourceLine} {is : List Instruction}
    (arity : ∀ line ∈ lines, line.operands.length = line.op.arity)
    (h : (r.instructions layout start lines).run.run s = (.ok is, s')) :
    is.map Instruction.opcode = lines.map SourceLine.op := by
  induction lines generalizing start s is with
  | nil =>
    cases h
    rfl
  | cons line lines ih =>
    obtain ⟨i, s₁, first, h⟩ := exists_of_run_bind h
    obtain ⟨others, s₂, rest, h⟩ := exists_of_run_bind h
    cases h
    rw [List.forall_mem_cons] at arity
    rw [List.map_cons, List.map_cons, (operands_of_instruction arity.1 first).1, ih arity.2 rest]

theorem translates_of_instructions {lines : List SourceLine} {is : List Instruction}
    (arity : ∀ line ∈ lines, line.operands.length = line.op.arity)
    (labels : ∀ name t, layout.label? name = some t → t < 2 ^ 31)
    (near : start + (Instruction.encodeAll is).length < 2 ^ 31)
    (h : (r.instructions layout start lines).run.run s = (.ok is, s')) :
    Translates r layout.label? start s (lines.map fun line => (line.op, line.operands)) is s' := by
  induction lines generalizing start s is with
  | nil =>
    cases h
    exact .nil
  | cons line lines ih =>
    obtain ⟨i, s₁, first, h⟩ := exists_of_run_bind h
    obtain ⟨others, s₂, rest, h⟩ := exists_of_run_bind h
    cases h
    rw [List.forall_mem_cons] at arity
    obtain ⟨opcode, words⟩ := operands_of_instruction arity.1 first
    rw [← opcode, Opcode.encodedLength_eq] at words rest
    have code : (Instruction.encodeAll (i :: others)).length =
        i.encode.length + (Instruction.encodeAll others).length := List.length_append
    rw [code, ← Nat.add_assoc] at near
    exact .cons opcode (givesAll_of_mapM (Nat.lt_of_le_of_lt (Nat.le_add_right ..) near) labels words)
      (ih arity.2 near rest)

end Resolver

/-! ### Offsets and targets -/

namespace Statement

theorem sum_size {statements : List Statement} {is : List Instruction}
    (opcodes : is.map Instruction.opcode = (statements.filterMap instruction).map Prod.fst) :
    (statements.map size).sum = (Instruction.encodeAll is).length := by
  induction statements generalizing is with
  | nil =>
    obtain rfl : is = [] := by simpa using opcodes
    rfl
  | cons statement statements ih =>
    rw [List.map_cons, List.sum_cons]
    rcases written : statement.instruction with _ | ⟨op, operands⟩
    · rw [List.filterMap_cons_none written] at opcodes
      rw [ih opcodes, size, written, Nat.zero_add]
    · rw [List.filterMap_cons_some written, List.map_cons] at opcodes
      obtain ⟨i, others, rfl, rfl, rest⟩ := List.map_eq_cons_iff.1 opcodes
      have front : Instruction.encodeAll (i :: others) = i.encode ++ Instruction.encodeAll others := rfl
      rw [ih rest, size, written, front, List.length_append, ← Opcode.encodedLength_eq]

/-- The two passes agree: what the layout counts is what the code has. -/
theorem offset?_eq_target? {statements : List Statement} {is : List Instruction}
    (opcodes : is.map Instruction.opcode = (statements.filterMap instruction).map Prod.fst) :
    offset? statements = target? statements is := by
  funext name
  unfold offset? target?
  congr 1
  funext k
  apply sum_size
  have split := congrArg (List.filterMap instruction) (List.take_append_drop k statements)
  rw [List.filterMap_append] at split
  rw [List.map_take, opcodes, ← split, List.map_append, List.take_left' (List.length_map ..)]

theorem boundary_of_target? {statements : List Statement} {is : List Instruction} {name : String}
    {t : Nat} (h : target? statements is name = some t) :
    ∃ before after, is = before ++ after ∧ t = (Instruction.encodeAll before).length := by
  obtain ⟨k, -, rfl⟩ := Option.map_eq_some_iff.1 h
  exact ⟨_, _, (List.take_append_drop _ is).symm, rfl⟩

end Statement

/-! ### Assembling -/

/-- **The code is what the source says.**  Each line is a statement, no label is defined twice,
    the code decodes to one instruction for each statement that has one, with the words that its
    operands become, and every label leads to the end of the code of some first instructions. -/
def Emits {σ : Type} (r : Resolver σ) (source : String) (s : σ) (code : List UInt8) (s' : σ) :
    Prop :=
  ∃ (statements : List Statement) (is : List Instruction),
    List.Forall₂ Statement.Says (Text.lines source.toList) statements ∧
    (statements.flatMap Statement.labels).Nodup ∧
    (Decoder.ofBytes code).items = is.map .ok ∧
    r.Translates (Statement.target? statements is) 0 s (statements.filterMap Statement.instruction)
      is s' ∧
    ∀ name t, Statement.target? statements is name = some t →
      ∃ before after, is = before ++ after ∧ t = (Instruction.encodeAll before).length

/-- **Assembling emits what the source says**, for every source and every host, in code that a
    jump can cross. -/
theorem assemble_emits_source {σ : Type} {r : Resolver σ} {source : String} {s s' : σ}
    {code : List UInt8} (h : (assemble r source).run.run s = (.ok code, s'))
    (short : code.length < 2 ^ 31) : Emits r source s code s' := by
  unfold assemble at h
  split at h
  · cases h
  · rename_i layout laidOut
    obtain ⟨is, s₁, emitted, h⟩ := Resolver.exists_of_run_bind h
    cases h
    obtain ⟨statements, said, laid⟩ := Layout.laid_of_ofSource laidOut
    have opcodes := Resolver.opcodes_of_instructions laid.arity emitted
    replace opcodes : is.map Instruction.opcode =
        (statements.filterMap Statement.instruction).map Prod.fst := by
      rw [opcodes, ← laid.lines, List.map_map]
      rfl
    have labels : ∀ name t, layout.label? name = some t → t < 2 ^ 31 := by
      intro name t found
      rw [laid.label] at found
      have := Statement.offset?_le found
      rw [Statement.sum_size opcodes] at this
      exact Nat.lt_of_le_of_lt this short
    have translated := Resolver.translates_of_instructions laid.arity labels
      ((Nat.zero_add _).symm ▸ short) emitted
    rw [laid.lines, funext laid.label, Statement.offset?_eq_target? opcodes] at translated
    have decoded := Decoder.items_encodeAll is [] 0
    rw [List.append_nil, Decoder.items_of_none (d := ⟨[], _⟩) rfl, List.append_nil] at decoded
    exact ⟨statements, is, said, laid.nodup, decoded, translated,
      fun name t => Statement.boundary_of_target?⟩

/-- A host that numbers its constants as they come, and knows one name. -/
def tally : Resolver Nat where
  text _ := fun n => (UInt32.ofNat n, n + 1)
  number _ := fun n => (UInt32.ofNat n, n + 1)
  name _ name := fun n => (if name = "print" then some 7 else none, n)

/-- A loop with two labels in front of it and one after it. -/
def loopSource : String :=
  "\n".intercalate ["loop: again: new-str \"a;b\" ; text", " push-arg 1 #-2", "",
    " jmp-eq-int @done", " syscall print", " jmp @again", "done:"]

/-- The code of the loop, where two constants are known already. -/
def loopCode : List UInt8 :=
  Instruction.encodeAll [.newStr 2, .storeArg 1 3, .branch .eq 10, .syscall 7, .jump (0 - 29)]

theorem loopSource_emitted : (assemble tally loopSource).run.run 2 = (.ok loopCode, 4) ∧
    loopCode.length < 2 ^ 31 ∧ Emits tally loopSource 2 loopCode 4 := by
  have run : (show Except AssemblyError (List UInt8) × Nat from
      (assemble tally loopSource).run.run 2) = (.ok loopCode, 4) := by
    decide +kernel
  have short : loopCode.length < 2 ^ 31 := by decide
  exact ⟨run, short, assemble_emits_source run short⟩

end ObjectMachine

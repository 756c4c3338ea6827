/-
  ObjectMachine/Proofs/SourceFlaws.lean
  =====================================
  **What is wrong with a source text** — the flaws of a line, and the first line that has one.

  A line is read in a fixed order: its literals, its labels, its mnemonic, its operands from left
  to right, and last their count.  `Statement.Flaw` says for each kind of flaw that everything
  before it is in order.  Laying out a text reports the first flaw of its first line that has one;
  if no line has any, it gives the statements of the text, each instruction with its line.
-/
import ObjectMachine.Proofs.AssembledCode
import ObjectMachine.Proofs.NumericOperands

namespace ObjectMachine

/-! ### Failing computations -/

section Failing

variable {ε α β : Type} {e : ε}

theorem bind_eq_error_iff {x : Except ε α} {f : α → Except ε β} :
    x >>= f = .error e ↔ x = .error e ∨ ∃ a, x = .ok a ∧ f a = .error e := by
  cases x with
  | error e' =>
    change Except.error e' = .error e ↔ _
    simp
  | ok a =>
    change f a = .error e ↔ _
    simp

theorem map_eq_error_iff {x : Except ε α} {f : α → β} : f <$> x = .error e ↔ x = .error e := by
  cases x <;> simp [Functor.map, Except.map]

/-- Folding fails where a step fails after steps that do not. -/
theorem foldlM_eq_error_iff {f : β → α → Except ε β} {b : β} {xs : List α} :
    xs.foldlM f b = .error e ↔ ∃ front x back b', xs = front ++ x :: back ∧
      front.foldlM f b = .ok b' ∧ f b' x = .error e := by
  constructor
  · intro h
    induction xs generalizing b with
    | nil => cases h
    | cons x xs ih =>
      rw [List.foldlM_cons, bind_eq_error_iff] at h
      rcases h with failed | ⟨b₁, first, h⟩
      · exact ⟨[], x, xs, b, rfl, rfl, failed⟩
      · obtain ⟨front, y, back, b', rfl, passed, failed⟩ := ih h
        refine ⟨x :: front, y, back, b', rfl, ?_, failed⟩
        rw [List.foldlM_cons, first]
        exact passed
  · rintro ⟨front, x, back, b', rfl, passed, failed⟩
    rw [List.foldlM_append, passed, ok_bind, List.foldlM_cons, failed]
    rfl

/-- The same for a computation on each entry of a list. -/
theorem mapM_eq_error_iff {f : α → Except ε β} {xs : List α} :
    xs.mapM f = .error e ↔ ∃ front x back ys, xs = front ++ x :: back ∧
      front.mapM f = .ok ys ∧ f x = .error e := by
  constructor
  · intro h
    induction xs with
    | nil => cases h
    | cons x xs ih =>
      rw [List.mapM_cons, bind_eq_error_iff] at h
      rcases h with failed | ⟨y, first, h⟩
      · exact ⟨[], x, xs, [], rfl, rfl, failed⟩
      · rcases bind_eq_error_iff.1 h with h | ⟨ys, -, h⟩
        · obtain ⟨front, z, back, ys, rfl, passed, failed⟩ := ih h
          refine ⟨x :: front, z, back, y :: ys, rfl, ?_, failed⟩
          rw [List.mapM_cons, first, passed]
          rfl
        · cases h
  · rintro ⟨front, x, back, ys, rfl, passed, failed⟩
    rw [List.mapM_append, passed, List.mapM_cons, failed]
    rfl

end Failing

/-! ### Reading what is well formed -/

namespace Token

theorem literal_eq_some_iff {cs text after : List Char} :
    literal cs = some (text, after) ↔ Literal cs text after := by
  constructor
  · exact literal_of_literal?
  · intro h
    induction h with
    | close => rfl
    | escape tail ih => simp [literal, ih]
    | plain quote backslash tail ih => simp [literal, backslash, ih]

theorem scan_of_line {cs : List Char} {tokens : List Token} (h : Line cs tokens) :
    scan cs = some tokens := by
  fun_induction scan cs generalizing tokens with
  | case1 =>
    cases h
    rfl
  | case2 c rest blank ih =>
    cases h with
    | comment => cases blank
    | blank _ line => exact ih line
    | quoted => cases blank
    | word start chars => simp [isWordChar, blank] at chars
  | case3 rest noBlank =>
    cases h with
    | comment => rfl
    | blank blank => exact absurd blank noBlank
    | word start chars => simp [isWordChar] at chars
  | case4 rest open_ noBlank =>
    cases h with
    | blank blank => exact absurd blank noBlank
    | quoted closed =>
      rw [literal_eq_some_iff.2 closed] at open_
      cases open_
    | word start => exact absurd rfl start
  | case5 rest text after found noBlank _ ih =>
    cases h with
    | blank blank => exact absurd blank noBlank
    | quoted closed line =>
      rw [literal_eq_some_iff.2 closed] at found
      cases found
      rw [ih line]
      rfl
    | word start => exact absurd rfl start
  | case6 c rest noBlank semicolon quote ih =>
    generalize whole : c :: rest = cs at h
    cases h with
    | done => cases whole
    | comment =>
      cases whole
      exact absurd rfl semicolon
    | blank blank =>
      cases whole
      exact absurd blank noBlank
    | quoted =>
      cases whole
      exact absurd rfl quote
    | @word d front after tokens start chars stop line =>
      rw [List.cons_append] at whole
      obtain ⟨rfl, rfl⟩ := List.cons.inj whole
      rw [List.forall_mem_cons] at chars
      -- a word goes on as far as it can, so it ends where the reader stops
      have taken : (front ++ after).takeWhile isWordChar = front := by
        rw [List.takeWhile_append_of_pos chars.2]
        cases after with
        | nil => simp
        | cons d after => simp [stop d rfl]
      have dropped : (front ++ after).dropWhile isWordChar = after := by
        rw [List.dropWhile_append_of_pos chars.2]
        cases after with
        | nil => rfl
        | cons d after => simp [stop d rfl]
      rw [dropped] at ih ⊢
      rw [taken, ih line]
      rfl

theorem scan_eq_some_iff {cs : List Char} {tokens : List Token} :
    scan cs = some tokens ↔ Line cs tokens :=
  ⟨line_of_scan, scan_of_line⟩

theorem labelName?_eq_some_iff {text name : String} :
    labelName? text = some name ↔ text = name ++ ":" := by
  constructor
  · exact labelName?_eq_some
  · rintro rfl
    simp [labelName?]

/-- Whether a row of tokens starts with no label. -/
def Unlabelled (tokens : List Token) : Prop := ∀ name rest, tokens ≠ .word (name ++ ":") :: rest

theorem unlabelled_leadingLabels (tokens : List Token) : Unlabelled (leadingLabels tokens).2 := by
  fun_induction leadingLabels tokens with
  | case1 text rest name found names body labels ih => rwa [labels] at ih
  | case2 text rest none_ =>
    intro name rest' h
    cases h
    rw [labelName?_eq_some_iff.2 rfl] at none_
    cases none_
  | case3 tokens other =>
    intro name rest h
    exact other _ _ h

theorem leadingLabels_append {names : List String} {body : List Token} (free : Unlabelled body) :
    leadingLabels (names.map (fun name => .word (name ++ ":")) ++ body) = (names, body) := by
  induction names with
  | nil =>
    rw [List.map_nil, List.nil_append]
    unfold leadingLabels
    split
    · rename_i text rest
      split
      · rename_i name found
        exact absurd (labelName?_eq_some found ▸ rfl) (free name rest)
      · rfl
    · rfl
  | cons name names ih =>
    rw [List.map_cons, List.cons_append, leadingLabels, labelName?_eq_some_iff.2 rfl]
    dsimp only
    rw [ih]

/-- A token as it is quoted in a report. -/
def spelling : Token → String
  | .word text => text
  | .quoted text => "\"" ++ text ++ "\""

end Token

namespace Opcode

theorem ofMnemonic?_eq_some_iff {name : String} {op : Opcode} :
    ofMnemonic? name = some op ↔ name = op.mnemonic := by
  constructor
  · intro h
    exact (mnemonic_of_ofMnemonic? h).symm
  · rintro rfl
    exact ofMnemonic?_mnemonic op

/-- No mnemonic looks like a label. -/
theorem labelName?_mnemonic (op : Opcode) : Token.labelName? op.mnemonic = none := by
  cases op <;> decide +kernel

end Opcode

theorem Statement.Body.unlabelled {body : List Token} {instruction : Option (Opcode × List Operand)}
    (h : Body body instruction) : Token.Unlabelled body := by
  intro name rest same
  cases h with
  | none => cases same
  | @some op tokens operands spelled =>
    have label : Token.labelName? op.mnemonic = .some name :=
      Token.labelName?_eq_some_iff.2 (Token.word.inj (List.cons.inj same).1)
    rw [op.labelName?_mnemonic] at label
    cases label

/-! ### Flaws -/

namespace Statement

/-- Labels that are new: none of them twice, and none that is known. -/
def New (known : String → Prop) (names : List String) : Prop :=
  names.Nodup ∧ ∀ name ∈ names, ¬known name

/-- **The first flaw of a line**, where some labels are known already.  Whatever is read before
    the flaw is in order. -/
inductive Flaw (number : Nat) (known : String → Prop) (text : List Char) : AssemblyError → Prop where
  | unterminated (open_ : ∀ tokens, ¬Token.Line text tokens) :
      Flaw number known text (.unterminated number)
  | duplicateLabel {names : List String} {name : String} {rest : List Token}
      (line : Token.Line text (names.map (fun name => .word (name ++ ":")) ++
        .word (name ++ ":") :: rest))
      (new : New known names) (again : known name ∨ name ∈ names) :
      Flaw number known text (.duplicateLabel number name)
  | unknownMnemonic {names : List String} {head : Token} {rest : List Token}
      (line : Token.Line text (names.map (fun name => .word (name ++ ":")) ++ head :: rest))
      (new : New known names) (noLabel : ∀ name, head ≠ .word (name ++ ":"))
      (unknown : ∀ op : Opcode, head ≠ .word op.mnemonic) :
      Flaw number known text (.unknownMnemonic number head.spelling)
  | badOperand {names : List String} {op : Opcode} {front rest : List Token}
      {operands : List Operand} {word : String}
      (line : Token.Line text (names.map (fun name => .word (name ++ ":")) ++
        .word op.mnemonic :: (front ++ .word word :: rest)))
      (new : New known names) (spelled : List.Forall₂ Operand.Spelled front operands)
      (bad : ∀ operand, ¬Operand.Spelled (.word word) operand)
      (inRange : ¬Operand.Overflows word) : Flaw number known text (.badOperand number word)
  | overflow {names : List String} {op : Opcode} {front rest : List Token}
      {operands : List Operand} {word : String}
      (line : Token.Line text (names.map (fun name => .word (name ++ ":")) ++
        .word op.mnemonic :: (front ++ .word word :: rest)))
      (new : New known names) (spelled : List.Forall₂ Operand.Spelled front operands)
      (outside : Operand.Overflows word) : Flaw number known text (.fault .overflow)
  | arity {names : List String} {op : Opcode} {operands : List Operand}
      (said : Says text ⟨names, some (op, operands)⟩) (new : New known names)
      (count : operands.length ≠ op.arity) :
      Flaw number known text (.arity number op operands.length)

/-- Whether a statement has as many operands as its opcode takes. -/
def Fits (statement : Statement) : Prop :=
  ∀ op operands, statement.instruction = some (op, operands) → operands.length = op.arity

/-- **Lines without a flaw**, and what they say. -/
structure Clean (texts : List (List Char)) (statements : List Statement) : Prop where
  said : List.Forall₂ Says texts statements
  fits : ∀ statement ∈ statements, statement.Fits
  nodup : (statements.flatMap labels).Nodup

/-- **The first flaw of a source text**: that of the first line that has one. -/
def FirstFlaw (source : String) (e : AssemblyError) : Prop :=
  ∃ before text after statements, Text.lines source.toList = before ++ text :: after ∧
    Clean before statements ∧
    Flaw (before.length + 1) (· ∈ statements.flatMap labels) text e

end Statement

/-! ### One line -/

namespace Layout

/-- A label that a layout knows. -/
def Knows (l : Layout) (name : String) : Prop := l.label? name ≠ none

theorem define_eq_error_iff {l : Layout} {number : Nat} {name : String} {e : AssemblyError} :
    define number l name = .error e ↔ l.Knows name ∧ e = .duplicateLabel number name := by
  unfold define Knows
  cases l.label? name <;> simp [eq_comm]

theorem Defined.knows_iff {l l' : Layout} {names : List String} (defined : l.Defined l' names)
    (name : String) : l'.Knows name ↔ l.Knows name ∨ name ∈ names := by
  unfold Knows
  rw [defined.label]
  cases l.label? name <;> simp

theorem exists_foldlM_define {l : Layout} (number : Nat) {names : List String}
    (new : Statement.New l.Knows names) : ∃ l', names.foldlM (define number) l = .ok l' := by
  cases defined : names.foldlM (define number) l with
  | ok l' => exact ⟨l', rfl⟩
  | error e =>
    obtain ⟨front, name, back, l', rfl, passed, failed⟩ := foldlM_eq_error_iff.1 defined
    obtain ⟨nodup, -, apart⟩ := List.nodup_append.1 new.1
    rcases ((defined_of_foldlM passed).knows_iff name).1 (define_eq_error_iff.1 failed).1 with
      known | mem
    · exact absurd known (new.2 name (by simp))
    · exact absurd rfl (apart name mem name List.mem_cons_self)

theorem foldlM_define_eq_error_iff {l : Layout} {number : Nat} {names : List String}
    {e : AssemblyError} :
    names.foldlM (define number) l = .error e ↔ ∃ front name back, names = front ++ name :: back ∧
      Statement.New l.Knows front ∧ (l.Knows name ∨ name ∈ front) ∧
      e = .duplicateLabel number name := by
  rw [foldlM_eq_error_iff]
  constructor
  · rintro ⟨front, name, back, l', rfl, passed, failed⟩
    have defined := defined_of_foldlM passed
    obtain ⟨known, rfl⟩ := define_eq_error_iff.1 failed
    refine ⟨front, name, back, rfl, ⟨defined.nodup, ?_⟩, (defined.knows_iff name).1 known, rfl⟩
    intro other mem knows
    exact knows (defined.new other mem)
  · rintro ⟨front, name, back, rfl, new, again, rfl⟩
    obtain ⟨l', passed⟩ := exists_foldlM_define number new
    have known := ((defined_of_foldlM passed).knows_iff name).2 again
    exact ⟨front, name, back, l', rfl, passed, define_eq_error_iff.2 ⟨known, rfl⟩⟩

theorem opcode_eq_ok_iff {number : Nat} {head : Token} {op : Opcode} :
    opcode number head = .ok op ↔ head = .word op.mnemonic := by
  cases head with
  | quoted text => simp [opcode]
  | word word =>
    rw [Token.word.injEq, ← Opcode.ofMnemonic?_eq_some_iff, opcode]
    cases Opcode.ofMnemonic? word <;> simp

theorem opcode_eq_error_iff {number : Nat} {head : Token} {e : AssemblyError} :
    opcode number head = .error e ↔ (∀ op : Opcode, head ≠ .word op.mnemonic) ∧
      e = .unknownMnemonic number head.spelling := by
  cases head with
  | quoted text => simp [opcode, Token.spelling, eq_comm]
  | word word =>
    simp only [ne_eq, Token.word.injEq, ← Opcode.ofMnemonic?_eq_some_iff, opcode]
    cases Opcode.ofMnemonic? word <;> simp [Token.spelling, eq_comm]

theorem mapM_operand_eq_ok_iff {number : Nat} {tokens : List Token} {operands : List Operand} :
    tokens.mapM (operand number) = .ok operands ↔
      List.Forall₂ Operand.Spelled tokens operands := by
  constructor
  · exact spelled_of_mapM
  · intro h
    induction h with
    | nil => rfl
    | cons spelled _ ih =>
      rw [List.mapM_cons, operand_eq_ok_iff.2 spelled, ok_bind, ih]
      rfl

theorem mapM_operand_eq_error_iff {number : Nat} {tokens : List Token} {e : AssemblyError} :
    tokens.mapM (operand number) = .error e ↔ ∃ front word back operands,
      tokens = front ++ .word word :: back ∧ List.Forall₂ Operand.Spelled front operands ∧
      operand number (.word word) = .error e := by
  rw [mapM_eq_error_iff]
  constructor
  · rintro ⟨front, token, back, operands, rfl, passed, failed⟩
    cases token with
    | quoted text => cases failed
    | word word => exact ⟨front, word, back, operands, rfl, spelled_of_mapM passed, failed⟩
  · rintro ⟨front, word, back, operands, rfl, spelled, failed⟩
    exact ⟨front, .word word, back, operands, rfl, mapM_operand_eq_ok_iff.2 spelled, failed⟩

theorem sourceLine_of_spelled {number : Nat} {op : Opcode} {tokens : List Token}
    {operands : List Operand} (spelled : List.Forall₂ Operand.Spelled tokens operands) :
    sourceLine number (.word op.mnemonic) tokens =
      if operands.length = op.arity then .ok ⟨number, op, operands⟩
      else .error (.arity number op operands.length) := by
  rw [sourceLine, opcode_eq_ok_iff.2 rfl, ok_bind, mapM_operand_eq_ok_iff.2 spelled, ok_bind]
  rfl

/-- What an instruction is reported for: its mnemonic, an operand after others that are in order,
    or the number of its operands. -/
theorem sourceLine_eq_error_iff {number : Nat} {head : Token} {tail : List Token}
    {e : AssemblyError} :
    sourceLine number head tail = .error e ↔
      ((∀ op : Opcode, head ≠ .word op.mnemonic) ∧ e = .unknownMnemonic number head.spelling) ∨
      ∃ op : Opcode, head = .word op.mnemonic ∧
        ((∃ front word back operands, tail = front ++ .word word :: back ∧
            List.Forall₂ Operand.Spelled front operands ∧ operand number (.word word) = .error e) ∨
          ∃ operands, List.Forall₂ Operand.Spelled tail operands ∧ operands.length ≠ op.arity ∧
            e = .arity number op operands.length) := by
  rw [sourceLine, bind_eq_error_iff, opcode_eq_error_iff]
  refine or_congr_right (exists_congr fun op => ?_)
  rw [opcode_eq_ok_iff, bind_eq_error_iff, mapM_operand_eq_error_iff]
  refine and_congr_right fun _ => or_congr_right (exists_congr fun operands => ?_)
  rw [mapM_operand_eq_ok_iff]
  refine and_congr_right fun _ => ?_
  by_cases count : operands.length = op.arity
  · rw [if_pos count]
    simp [count, pure, Except.pure]
  · rw [if_neg count]
    simp [count, throw, throwThe, MonadExceptOf.throw, eq_comm]

/-- How a line goes on after its tokens have been read. -/
theorem addLine_of_line {l : Layout} {number : Nat} {text : List Char} {names : List String}
    {body : List Token}
    (line : Token.Line text (names.map (fun name => .word (name ++ ":")) ++ body))
    (free : Token.Unlabelled body) :
    l.addLine number text = names.foldlM (define number) l >>= fun l =>
      match body with
      | [] => pure l
      | head :: tail => l.push <$> sourceLine number head tail := by
  unfold addLine
  rw [Token.scan_eq_some_iff.2 line]
  dsimp only
  rw [Token.leadingLabels_append free]
  cases body <;> rfl

theorem addLine_of_sourceLine_error {l : Layout} {number : Nat} {text : List Char}
    {names : List String} {head : Token} {tail : List Token} {e : AssemblyError}
    (line : Token.Line text (names.map (fun name => .word (name ++ ":")) ++ head :: tail))
    (free : ∀ name, head ≠ .word (name ++ ":")) (new : Statement.New l.Knows names)
    (failed : sourceLine number head tail = .error e) : l.addLine number text = .error e := by
  have unlabelled : Token.Unlabelled (head :: tail) := by
    intro name rest same
    exact free name (List.cons.inj same).1
  obtain ⟨l₁, defined⟩ := exists_foldlM_define number new
  rw [addLine_of_line line unlabelled, defined]
  exact map_eq_error_iff.2 failed

theorem flaw_of_addLine {l : Layout} {number : Nat} {text : List Char} {e : AssemblyError}
    (h : l.addLine number text = .error e) : Statement.Flaw number l.Knows text e := by
  cases scanned : Token.scan text with
  | none =>
    unfold addLine at h
    rw [scanned] at h
    cases h
    refine .unterminated fun tokens line => ?_
    rw [Token.scan_eq_some_iff.2 line] at scanned
    cases scanned
  | some tokens =>
    have line := Token.line_of_scan scanned
    have free := Token.unlabelled_leadingLabels tokens
    rw [Token.leadingLabels_eq tokens] at line
    generalize (Token.leadingLabels tokens).1 = names at line
    generalize (Token.leadingLabels tokens).2 = body at line free
    rw [addLine_of_line line free, bind_eq_error_iff, foldlM_define_eq_error_iff] at h
    rcases h with ⟨front, name, back, rfl, new, again, rfl⟩ | ⟨l₁, passed, h⟩
    · exact .duplicateLabel (by simpa using line) new again
    · have defined := defined_of_foldlM passed
      have new : Statement.New l.Knows names :=
        ⟨defined.nodup, fun name mem known => known (defined.new name mem)⟩
      cases body with
      | nil => cases h
      | cons head tail =>
        rcases sourceLine_eq_error_iff.1 (map_eq_error_iff.1 h) with
          ⟨unknown, rfl⟩ | ⟨op, rfl, ⟨front, word, back, operands, rfl, spelled, failed⟩ |
            ⟨operands, spelled, count, rfl⟩⟩
        · refine .unknownMnemonic line new ?_ unknown
          rintro name rfl
          exact free name tail rfl
        · rcases operand_eq_error_iff.1 failed with ⟨outside, rfl⟩ | ⟨inRange, bad, rfl⟩
          · exact .overflow line new spelled outside
          · exact .badOperand line new spelled bad inRange
        · exact .arity ⟨_, line, .some spelled⟩ new count

theorem addLine_of_flaw {l : Layout} {number : Nat} {text : List Char} {e : AssemblyError}
    (flaw : Statement.Flaw number l.Knows text e) : l.addLine number text = .error e := by
  have mnemonic : ∀ (op : Opcode) (name : String), Token.word op.mnemonic ≠ .word (name ++ ":") :=
    fun op name same => (Statement.Body.some .nil).unlabelled name [] (congrArg (· :: []) same)
  cases flaw with
  | unterminated open_ =>
    have unread : Token.scan text = none := by
      cases scanned : Token.scan text with
      | none => rfl
      | some tokens => exact absurd (Token.line_of_scan scanned) (open_ tokens)
    unfold addLine
    rw [unread]
    rfl
  | @duplicateLabel names name rest line new again =>
    -- the labels after the one that is known take no part
    rw [Token.leadingLabels_eq rest] at line
    have line' : Token.Line text
        ((names ++ name :: (Token.leadingLabels rest).1).map (fun name => .word (name ++ ":")) ++
          (Token.leadingLabels rest).2) := by
      simpa using line
    rw [addLine_of_line line' (Token.unlabelled_leadingLabels rest), bind_eq_error_iff,
      foldlM_define_eq_error_iff]
    exact Or.inl ⟨names, name, _, rfl, new, again, rfl⟩
  | unknownMnemonic line new noLabel unknown =>
    exact addLine_of_sourceLine_error line noLabel new
      (sourceLine_eq_error_iff.2 (Or.inl ⟨unknown, rfl⟩))
  | @badOperand names op front rest operands word line new spelled bad inRange =>
    have failed : operand number (.word word) = .error (.badOperand number word) :=
      operand_eq_error_iff.2 (Or.inr ⟨inRange, bad, rfl⟩)
    exact addLine_of_sourceLine_error line (mnemonic op) new
      (sourceLine_eq_error_iff.2 (Or.inr ⟨op, rfl, Or.inl ⟨_, _, _, _, rfl, spelled, failed⟩⟩))
  | @overflow names op front rest operands word line new spelled outside =>
    have failed : operand number (.word word) = .error (.fault .overflow) :=
      operand_eq_error_iff.2 (Or.inl ⟨outside, rfl⟩)
    exact addLine_of_sourceLine_error line (mnemonic op) new
      (sourceLine_eq_error_iff.2 (Or.inr ⟨op, rfl, Or.inl ⟨_, _, _, _, rfl, spelled, failed⟩⟩))
  | @arity names op operands said new count =>
    obtain ⟨body, line, written⟩ := said
    cases written with | some spelled =>
    exact addLine_of_sourceLine_error line (mnemonic op) new
      (sourceLine_eq_error_iff.2 (Or.inr ⟨op, rfl, Or.inr ⟨operands, spelled, count, rfl⟩⟩))

/-- **A line is reported for its first flaw.** -/
theorem addLine_eq_error_iff {l : Layout} {number : Nat} {text : List Char} {e : AssemblyError} :
    l.addLine number text = .error e ↔ Statement.Flaw number l.Knows text e :=
  ⟨flaw_of_addLine, addLine_of_flaw⟩

end Layout

/-! ### Lines and their numbers -/

namespace Statement

/-- The instruction of a statement, with the number of its line. -/
def sourceLine? (number : Nat) (statement : Statement) : Option SourceLine :=
  statement.instruction.map fun (op, operands) => ⟨number, op, operands⟩

/-- The instructions of statements whose lines are numbered from a number on. -/
def sourceLines : Nat → List Statement → List SourceLine
  | _, [] => []
  | number, statement :: rest =>
    (statement.sourceLine? number).toList ++ sourceLines (number + 1) rest

theorem sourceLines_append (number : Nat) (statements more : List Statement) :
    sourceLines number (statements ++ more) =
      sourceLines number statements ++ sourceLines (number + statements.length) more := by
  induction statements generalizing number with
  | nil => rfl
  | cons statement statements ih =>
    rw [List.cons_append, sourceLines, sourceLines, ih, List.append_assoc, List.length_cons,
      Nat.add_assoc, Nat.add_comm 1]

end Statement

namespace Layout

/-- **Laid out line by line**: each instruction has the number of its line. -/
structure Numbered (l : Layout) (statements : List Statement) : Prop extends l.Laid statements where
  numbered : l.lines.toList = Statement.sourceLines 1 statements

theorem numbered_nil : Numbered {} [] := ⟨laid_nil, rfl⟩

section Step

variable {l l' : Layout} {statements : List Statement}

theorem Laid.knows_iff (laid : l.Laid statements) (name : String) :
    l.Knows name ↔ name ∈ statements.flatMap Statement.labels := by
  rw [Knows, laid.label, ne_eq, Statement.offset?_eq_none_iff, not_not]

/-- A line without a flaw is added. -/
theorem Numbered.add (laid : l.Numbered statements) {text : List Char} {statement : Statement}
    (said : statement.Says text) (fits : statement.Fits)
    (nodup : ((statements ++ [statement]).flatMap Statement.labels).Nodup) :
    ∃ l', l.addLine (statements.length + 1) text = .ok l' ∧
      l'.Numbered (statements ++ [statement]) := by
  obtain ⟨names, instruction⟩ := statement
  obtain ⟨body, line, written⟩ := said
  rw [List.flatMap_append, List.flatMap_singleton, List.nodup_append] at nodup
  have new : Statement.New l.Knows names := by
    refine ⟨nodup.2.1, fun name mem known => ?_⟩
    exact nodup.2.2 name ((laid.knows_iff name).1 known) name mem rfl
  obtain ⟨l₁, passed⟩ := exists_foldlM_define (statements.length + 1) new
  have defined := defined_of_foldlM passed
  have laid₁ := laid.toLaid.labels defined
  have lines₁ : l₁.lines.toList = Statement.sourceLines 1 statements := by
    rw [defined.lines, laid.numbered]
  rw [addLine_of_line line written.unlabelled, passed, ok_bind]
  cases written with
  | none =>
    refine ⟨l₁, rfl, laid₁, ?_⟩
    rw [lines₁, Statement.sourceLines_append]
    exact (List.append_nil _).symm
  | @some op tokens operands spelled =>
    have count := fits op operands rfl
    dsimp only
    rw [sourceLine_of_spelled spelled, if_pos count]
    refine ⟨_, rfl, laid₁.push count, ?_⟩
    rw [Layout.push, Array.toList_push, lines₁, Statement.sourceLines_append, Nat.add_comm]
    rfl

/-- A line that has been added says a statement. -/
theorem Numbered.addLine (laid : l.Numbered statements) {text : List Char}
    (h : l.addLine (statements.length + 1) text = .ok l') :
    ∃ statement, Statement.Says text statement ∧ statement.Fits ∧
      l'.Numbered (statements ++ [statement]) := by
  obtain ⟨statement, said, laid'⟩ := laid.toLaid.addLine h
  have fits : statement.Fits := by
    intro op operands written
    have mem : (op, operands) ∈ l'.lines.toList.map fun line => (line.op, line.operands) := by
      rw [laid'.lines]
      exact List.mem_filterMap.2 ⟨statement, by simp, written⟩
    obtain ⟨line, listed, same⟩ := List.mem_map.1 mem
    cases same
    exact laid'.arity line listed
  obtain ⟨l₁, added, numbered⟩ := laid.add said fits laid'.nodup
  rw [h] at added
  cases added
  exact ⟨statement, said, fits, numbered⟩

end Step

/-! ### All lines -/

section Lines

variable {l l' : Layout} {statements : List Statement} {texts : List (List Char)}

theorem addLines_append (l : Layout) (number : Nat) (texts more : List (List Char)) :
    l.addLines number (texts ++ more) =
      l.addLines number texts >>= fun l => l.addLines (number + texts.length) more := by
  induction texts generalizing l number with
  | nil => rfl
  | cons text texts ih =>
    rw [List.cons_append, addLines, addLines, bind_assoc]
    congr 1
    funext l
    rw [ih, List.length_cons, Nat.add_assoc, Nat.add_comm 1]

/-- Lines without a flaw are added. -/
theorem Numbered.addAll {more : List Statement} (laid : l.Numbered statements)
    (said : List.Forall₂ Statement.Says texts more) (fits : ∀ statement ∈ more, statement.Fits)
    (nodup : ((statements ++ more).flatMap Statement.labels).Nodup) :
    ∃ l', l.addLines (statements.length + 1) texts = .ok l' ∧ l'.Numbered (statements ++ more) := by
  induction said generalizing l statements with
  | nil => exact ⟨l, rfl, by simpa using laid⟩
  | @cons text statement texts more first rest ih =>
    rw [List.forall_mem_cons] at fits
    rw [List.append_cons] at nodup ⊢
    have nodup₁ : ((statements ++ [statement]).flatMap Statement.labels).Nodup := by
      rw [List.flatMap_append] at nodup
      exact (List.nodup_append.1 nodup).1
    obtain ⟨l₁, added, laid₁⟩ := laid.add first fits.1 nodup₁
    obtain ⟨l', others, laid'⟩ := ih laid₁ fits.2 nodup
    refine ⟨l', ?_, laid'⟩
    rw [addLines, added, ok_bind, ← others, List.length_append]
    rfl

/-- Lines that have been added say statements. -/
theorem Numbered.addLines (laid : l.Numbered statements)
    (h : l.addLines (statements.length + 1) texts = .ok l') :
    ∃ more, List.Forall₂ Statement.Says texts more ∧ (∀ statement ∈ more, statement.Fits) ∧
      l'.Numbered (statements ++ more) := by
  induction texts generalizing l statements with
  | nil =>
    cases h
    exact ⟨[], .nil, nofun, by simpa using laid⟩
  | cons text texts ih =>
    obtain ⟨l₁, first, h⟩ := exists_of_bind_eq_ok h
    obtain ⟨statement, said, fits, laid₁⟩ := laid.addLine first
    have length : statements.length + 1 + 1 = (statements ++ [statement]).length + 1 := by simp
    rw [length] at h
    obtain ⟨more, others, fitting, laid'⟩ := ih laid₁ h
    refine ⟨statement :: more, .cons said others, List.forall_mem_cons.2 ⟨fits, fitting⟩, ?_⟩
    rwa [List.append_cons]

theorem addLines_eq_error_iff {number : Nat} {e : AssemblyError} :
    l.addLines number texts = .error e ↔ ∃ before text after l₁, texts = before ++ text :: after ∧
      l.addLines number before = .ok l₁ ∧ l₁.addLine (number + before.length) text = .error e := by
  constructor
  · intro h
    induction texts generalizing l number with
    | nil => cases h
    | cons text texts ih =>
      rcases bind_eq_error_iff.1 h with failed | ⟨l₁, first, h⟩
      · exact ⟨[], text, texts, l, rfl, rfl, failed⟩
      · obtain ⟨before, text', after, l₂, rfl, passed, failed⟩ := ih h
        refine ⟨text :: before, text', after, l₂, rfl, ?_, ?_⟩
        · rw [addLines, first]
          exact passed
        · rwa [List.length_cons, Nat.add_comm before.length, ← Nat.add_assoc]
  · rintro ⟨before, text, after, l₁, rfl, passed, failed⟩
    rw [addLines_append, passed, ok_bind, addLines, failed]
    rfl

/-- Lines without a flaw are laid out, and what is laid out are lines without a flaw. -/
theorem numbered_of_clean (clean : Statement.Clean texts statements) :
    ∃ l, addLines {} 1 texts = .ok l ∧ l.Numbered statements :=
  numbered_nil.addAll clean.said clean.fits clean.nodup

theorem exists_clean (h : addLines {} 1 texts = .ok l) :
    ∃ statements, Statement.Clean texts statements ∧ l.Numbered statements := by
  obtain ⟨statements, said, fits, laid⟩ := numbered_nil.addLines h
  exact ⟨statements, ⟨said, fits, laid.nodup⟩, laid⟩

end Lines

/-- **Laying out reports the first flaw** of the first line that has one. -/
theorem ofSource_eq_error_iff {source : String} {e : AssemblyError} :
    ofSource source = .error e ↔ Statement.FirstFlaw source e := by
  have known : ∀ {l : Layout} {statements : List Statement}, l.Laid statements →
      l.Knows = (· ∈ statements.flatMap Statement.labels) :=
    fun laid => funext fun name => propext (laid.knows_iff name)
  rw [ofSource, addLines_eq_error_iff]
  constructor
  · rintro ⟨before, text, after, l, split, passed, failed⟩
    obtain ⟨statements, clean, laid⟩ := exists_clean passed
    rw [addLine_eq_error_iff, known laid.toLaid, Nat.add_comm] at failed
    exact ⟨before, text, after, statements, split, clean, failed⟩
  · rintro ⟨before, text, after, statements, split, clean, flaw⟩
    obtain ⟨l, passed, laid⟩ := numbered_of_clean clean
    refine ⟨before, text, after, l, split, passed, ?_⟩
    rwa [addLine_eq_error_iff, known laid.toLaid, Nat.add_comm]

end Layout

end ObjectMachine

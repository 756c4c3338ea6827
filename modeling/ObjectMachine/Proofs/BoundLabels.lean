/-
  ObjectMachine/Proofs/BoundLabels.lean
  =====================================
  **Labels lead to where they were bound** — code that is built with late jump targets, in any
  order of operations.

  Binding a label writes into the middle of the code, while other labels are still open.  One
  description holds at every moment: the code is that of the instructions that the operations so
  far intend, where a jump whose label is open has offset zero.  An operation adds one instruction
  to them at the end, or, if it binds a label, it changes the offset of one and nothing else.
-/
import ObjectMachine.Proofs.AssembledCode

namespace ObjectMachine

namespace Builder

/-! ### Operations -/

/-- What can be done with code under construction.  Labels are numbered as their jumps come. -/
inductive Operation where
  | emit (i : Instruction)
  | jump (op : Opcode)
  | bind (label : Nat)
  | jumpTo (op : Opcode) (target : Nat)
  deriving DecidableEq, Repr

/-- Code under construction, and the labels that its jumps have given out. -/
structure Session where
  builder : Builder := {}
  labels : List Label := []

/-- Carries out an operation. -/
def Session.perform (s : Session) : Operation → Except Fault Session
  | .emit i => .ok { s with builder := s.builder.emit i }
  | .jump op => .ok ⟨(s.builder.jump op).1, s.labels ++ [(s.builder.jump op).2]⟩
  | .bind label =>
    match s.labels[label]? with
    | some open_ => (s.builder.bind open_).map fun b => { s with builder := b }
    | none => .ok s
  | .jumpTo op target => (s.builder.jumpTo op target).map fun b => { s with builder := b }

/-- Carries out operations from the first one on. -/
def Session.run (ops : List Operation) : Except Fault Session := ops.foldlM perform {}

namespace Operation

/-- Number of bytes that an operation adds to the code. -/
def size : Operation → Nat
  | .emit i => i.encode.length
  | .jump op | .jumpTo op _ => op.encodedLength
  | .bind _ => 0

/-- Number of labels that an operation gives out. -/
def labels : Operation → Nat
  | .jump _ => 1
  | _ => 0

/-- The offset that has been reached after some operations. -/
def offsetAfter (ops : List Operation) : Nat := (ops.map size).sum

/-- Number of labels that have been given out. -/
def labelCount (ops : List Operation) : Nat := (ops.map labels).sum

/-- The offset that had been reached when a label was bound. -/
def boundAt? (ops : List Operation) (label : Nat) : Option Nat :=
  (ops.findIdx? (· = .bind label)).map fun n => offsetAfter (ops.take n)

/-- **Operations that may follow each other.**  Only jump opcodes jump, a known target lies below
    `2 ^ 31`, and a label is bound after its jump and at most once. -/
inductive Allowed : List Operation → Prop where
  | nil : Allowed []
  | emit {ops : List Operation} {i : Instruction} (before : Allowed ops) :
      Allowed (ops ++ [.emit i])
  | jump {ops : List Operation} {op : Opcode} (before : Allowed ops) (jump : op.isJump = true) :
      Allowed (ops ++ [.jump op])
  | bind {ops : List Operation} {label : Nat} (before : Allowed ops)
      (given : label < labelCount ops) (open_ : .bind label ∉ ops) :
      Allowed (ops ++ [.bind label])
  | jumpTo {ops : List Operation} {op : Opcode} {target : Nat} (before : Allowed ops)
      (jump : op.isJump = true) (low : target < 2 ^ 31) : Allowed (ops ++ [.jumpTo op target])

/-- **What operations build**, one instruction after another, in code that starts at an offset and
    with labels that are counted on from a number.  A jump leads from its end to where its label
    was bound, or goes nowhere if it never was; a jump to a known target leads from its end to
    there; any other instruction is what was emitted. -/
inductive Builds (bound? : Nat → Option Nat) :
    Nat → Nat → List Operation → List Instruction → Prop where
  | nil {offset label : Nat} : Builds bound? offset label [] []
  | emit {offset label : Nat} {i : Instruction} {ops : List Operation} {is : List Instruction}
      (rest : Builds bound? (offset + i.encode.length) label ops is) :
      Builds bound? offset label (.emit i :: ops) (i :: is)
  | bound {offset label t : Nat} {op : Opcode} {w : Word} {i : Instruction}
      {ops : List Operation} {is : List Instruction} (opcode : i.opcode = op)
      (operands : i.operands = [w]) (bound : bound? label = some t)
      (distance : w.signed = (t : Int) - (offset + i.encode.length : Nat))
      (rest : Builds bound? (offset + i.encode.length) (label + 1) ops is) :
      Builds bound? offset label (.jump op :: ops) (i :: is)
  | unbound {offset label : Nat} {op : Opcode} {i : Instruction}
      {ops : List Operation} {is : List Instruction} (opcode : i.opcode = op)
      (operands : i.operands = [0]) (unbound : bound? label = none)
      (rest : Builds bound? (offset + i.encode.length) (label + 1) ops is) :
      Builds bound? offset label (.jump op :: ops) (i :: is)
  | bind {offset label k : Nat} {ops : List Operation} {is : List Instruction}
      (rest : Builds bound? offset label ops is) : Builds bound? offset label (.bind k :: ops) is
  | jumpTo {offset label target : Nat} {op : Opcode} {w : Word} {i : Instruction}
      {ops : List Operation} {is : List Instruction} (opcode : i.opcode = op)
      (operands : i.operands = [w])
      (distance : w.signed = (target : Int) - (offset + i.encode.length : Nat))
      (rest : Builds bound? (offset + i.encode.length) label ops is) :
      Builds bound? offset label (.jumpTo op target :: ops) (i :: is)

/-! ### Intended instructions -/

/-- The jump with an opcode. -/
def jumpBy (op : Opcode) (distance : Word) : Instruction :=
  match Condition.ofOpcode? op with
  | some condition => .branch condition distance
  | none => .jump distance

/-- The way from the end of a jump to where its label was bound; none if it was not. -/
def distanceFrom (stop : Nat) : Option Nat → Word
  | some t => UInt32.ofNat t - UInt32.ofNat stop
  | none => 0

/-- The instruction that an operation intends, at an offset and with the next label. -/
def instruction? (bound? : Nat → Option Nat) (offset label : Nat) : Operation → Option Instruction
  | .emit i => some i
  | .jump op => some (jumpBy op (distanceFrom (offset + op.encodedLength) (bound? label)))
  | .bind _ => none
  | .jumpTo op target =>
    some (jumpBy op (distanceFrom (offset + op.encodedLength) (some target)))

/-- The instructions that operations intend. -/
def intended (bound? : Nat → Option Nat) : Nat → Nat → List Operation → List Instruction
  | _, _, [] => []
  | offset, label, op :: ops =>
    (op.instruction? bound? offset label).toList ++
      intended bound? (offset + op.size) (label + op.labels) ops

/-- The label that an operation gives out. -/
def label? (offset : Nat) : Operation → Option Label
  | .jump op => some ⟨offset + 1, offset + op.encodedLength⟩
  | _ => none

/-- The labels that operations give out. -/
def labelsFrom : Nat → List Operation → List Label
  | _, [] => []
  | offset, op :: ops => (op.label? offset).toList ++ labelsFrom (offset + op.size) ops

@[simp] theorem offsetAfter_append (ops more : List Operation) :
    offsetAfter (ops ++ more) = offsetAfter ops + offsetAfter more := by
  simp [offsetAfter]

@[simp] theorem labelCount_append (ops more : List Operation) :
    labelCount (ops ++ more) = labelCount ops + labelCount more := by
  simp [labelCount]

theorem intended_append (bound? : Nat → Option Nat) (offset label : Nat) (ops more : List Operation) :
    intended bound? offset label (ops ++ more) = intended bound? offset label ops ++
      intended bound? (offset + offsetAfter ops) (label + labelCount ops) more := by
  induction ops generalizing offset label with
  | nil => rfl
  | cons op ops ih =>
    simp only [List.cons_append, intended, ih, List.append_assoc, offsetAfter, labelCount,
      List.map_cons, List.sum_cons, Nat.add_assoc]

theorem labelsFrom_append (offset : Nat) (ops more : List Operation) :
    labelsFrom offset (ops ++ more) =
      labelsFrom offset ops ++ labelsFrom (offset + offsetAfter ops) more := by
  induction ops generalizing offset with
  | nil => rfl
  | cons op ops ih =>
    simp only [List.cons_append, labelsFrom, ih, List.append_assoc, offsetAfter, List.map_cons,
      List.sum_cons, Nat.add_assoc]

theorem length_labelsFrom (offset : Nat) (ops : List Operation) :
    (labelsFrom offset ops).length = labelCount ops := by
  induction ops generalizing offset with
  | nil => rfl
  | cons op ops ih =>
    rw [labelsFrom, List.length_append, ih, labelCount, labelCount, List.map_cons, List.sum_cons]
    cases op <;> rfl

/-- Only the labels that the operations give out matter to what they intend. -/
theorem intended_congr {bound? bound?' : Nat → Option Nat} {offset label : Nat}
    {ops : List Operation}
    (same : ∀ k, label ≤ k → k < label + labelCount ops → bound? k = bound?' k) :
    intended bound? offset label ops = intended bound?' offset label ops := by
  induction ops generalizing offset label with
  | nil => rfl
  | cons op ops ih =>
    simp only [labelCount, List.map_cons, List.sum_cons] at same
    have first : op.instruction? bound? offset label = op.instruction? bound?' offset label := by
      cases op with
      | jump op =>
        have here := same label (Nat.le_refl _) (by simp only [labels]; omega)
        simp only [instruction?, here]
      | _ => rfl
    rw [intended, intended, first, ih]
    intro k low high
    refine same k (by omega) ?_
    rw [labelCount] at high
    omega

/-! ### Jumps and bounds -/

theorem encodedLength_of_isJump {op : Opcode} (jump : op.isJump = true) : op.encodedLength = 5 := by
  cases op <;> first | rfl | cases jump

theorem jumpBy_parts {op : Opcode} (jump : op.isJump = true) (w : Word) :
    (jumpBy op w).opcode = op ∧ (jumpBy op w).operands = [w] := by
  cases op <;> first | exact ⟨rfl, rfl⟩ | cases jump

theorem encode_jumpBy {op : Opcode} (jump : op.isJump = true) (w : Word) :
    (jumpBy op w).encode = op.byte :: w.bytes := by
  obtain ⟨opcode, operands⟩ := jumpBy_parts jump w
  rw [Instruction.encode, opcode, operands, List.flatMap_singleton]

theorem length_encode_jumpBy {op : Opcode} (jump : op.isJump = true) (w : Word) :
    (jumpBy op w).encode.length = op.encodedLength := by
  rw [encode_jumpBy jump, encodedLength_of_isJump jump]
  rfl

/-- What is asked of a single operation, wherever it stands. -/
def Sound : Operation → Prop
  | .jump op => op.isJump = true
  | .jumpTo op target => op.isJump = true ∧ target < 2 ^ 31
  | _ => True

theorem Allowed.sound {ops : List Operation} (allowed : Allowed ops) : ∀ op ∈ ops, op.Sound := by
  have more : ∀ {ops : List Operation} {last : Operation}, (∀ op ∈ ops, op.Sound) → last.Sound →
      ∀ op ∈ ops ++ [last], op.Sound := by
    intro ops last before here
    rw [List.forall_mem_append, List.forall_mem_singleton]
    exact ⟨before, here⟩
  induction allowed with
  | nil => exact nofun
  | emit _ ih | bind _ _ _ ih =>
    apply more ih
    trivial
  | jump _ jump ih =>
    apply more ih
    exact jump
  | jumpTo _ jump low ih =>
    apply more ih
    exact ⟨jump, low⟩

/-- Only labels that have been given out are bound. -/
theorem Allowed.given {ops : List Operation} (allowed : Allowed ops) {label : Nat}
    (mem : .bind label ∈ ops) : label < labelCount ops := by
  induction allowed with
  | nil => cases mem
  | bind _ given _ ih =>
    rw [labelCount_append]
    rcases List.mem_append.1 mem with mem | mem
    · exact Nat.lt_add_right _ (ih mem)
    · obtain rfl : label = _ := by simpa using mem
      exact Nat.lt_add_right _ given
  | emit _ ih | jump _ _ ih | jumpTo _ _ _ ih =>
    rw [labelCount_append]
    exact Nat.lt_add_right _ (ih (by simpa using mem))

theorem boundAt?_concat (ops : List Operation) (op : Operation) (label : Nat) :
    boundAt? (ops ++ [op]) label = (boundAt? ops label).or
      (if op = .bind label then some (offsetAfter ops) else none) := by
  unfold boundAt?
  rw [List.findIdx?_append]
  cases found : ops.findIdx? (· = .bind label) with
  | some n =>
    have inside : n < ops.length := (List.findIdx?_eq_some_iff_findIdx_eq.1 found).1
    rw [Option.some_or, Option.map_some, Option.map_some, Option.some_or,
      List.take_append_of_le_length (Nat.le_of_lt inside)]
  | none => by_cases same : op = .bind label <;> simp [same]

theorem boundAt?_eq_none {ops : List Operation} {label : Nat} (open_ : .bind label ∉ ops) :
    boundAt? ops label = none := by
  have other : ∀ op ∈ ops, op ≠ .bind label := by
    rintro op mem rfl
    exact open_ mem
  simpa [boundAt?] using other

theorem boundAt?_le {ops : List Operation} {label t : Nat} (h : boundAt? ops label = some t) :
    t ≤ offsetAfter ops := by
  obtain ⟨n, -, rfl⟩ := Option.map_eq_some_iff.1 h
  have whole := congrArg offsetAfter (List.take_append_drop n ops)
  rw [offsetAfter_append] at whole
  omega

/-- The operation that gave out a label. -/
theorem exists_jump {ops : List Operation} {label : Nat} (given : label < labelCount ops) :
    ∃ before op after, ops = before ++ .jump op :: after ∧ labelCount before = label := by
  induction ops generalizing label with
  | nil => cases given
  | cons first ops ih =>
    have count : labelCount (first :: ops) = first.labels + labelCount ops := rfl
    rw [count] at given
    have further : ∀ {k : Nat}, label = first.labels + k → k < labelCount ops →
        ∃ before op after, first :: ops = before ++ .jump op :: after ∧
          labelCount before = label := by
      rintro k rfl given
      obtain ⟨before, op, after, rfl, rfl⟩ := ih given
      exact ⟨first :: before, op, after, rfl, rfl⟩
    cases first with
    | jump op =>
      cases label with
      | zero => exact ⟨[], op, ops, rfl, rfl⟩
      | succ k => exact further (Nat.add_comm k 1) (by simp only [labels] at given; omega)
    | emit i | bind k | jumpTo op target =>
      exact further (Nat.zero_add label).symm (by simpa [labels] using given)

theorem length_intended {bound? : Nat → Option Nat} {offset label : Nat} {ops : List Operation}
    (sound : ∀ op ∈ ops, op.Sound) :
    (Instruction.encodeAll (intended bound? offset label ops)).length = offsetAfter ops := by
  induction ops generalizing offset label with
  | nil => rfl
  | cons op ops ih =>
    rw [List.forall_mem_cons] at sound
    have first : (Instruction.encodeAll (op.instruction? bound? offset label).toList).length =
        op.size := by
      cases op with
      | emit i => simp [instruction?, Instruction.encodeAll, size]
      | jump op =>
        simp [instruction?, Instruction.encodeAll, size, length_encode_jumpBy sound.1]
      | bind k => rfl
      | jumpTo op target =>
        simp [instruction?, Instruction.encodeAll, size, length_encode_jumpBy sound.1.1]
    rw [intended, Instruction.encodeAll, List.flatMap_append, List.length_append]
    exact congrArg₂ (· + ·) first (ih sound.2)

/-- Where the offset of a jump stands in the code. -/
theorem encodeAll_intended_jump (bound? : Nat → Option Nat) (before after : List Operation)
    {op : Opcode} (jump : op.isJump = true) :
    Instruction.encodeAll (intended bound? 0 0 (before ++ .jump op :: after)) =
      (Instruction.encodeAll (intended bound? 0 0 before) ++ [op.byte]) ++
        (distanceFrom (offsetAfter before + op.encodedLength)
          (bound? (labelCount before))).bytes ++
        Instruction.encodeAll (intended bound? (offsetAfter before + op.encodedLength)
          (labelCount before + 1) after) := by
  simp only [intended_append, Nat.zero_add, intended, instruction?, size, labels,
    Option.toList_some, Instruction.encodeAll, List.flatMap_append, List.flatMap_cons,
    encode_jumpBy jump, List.append_assoc, List.cons_append, List.nil_append]

/-- **Where binding a label writes.**  What is intended before and after differs in the offset of
    the jump that gave out the label, and that is where its label points. -/
theorem Allowed.patch {ops : List Operation} (allowed : Allowed ops) {label : Nat}
    (given : label < labelCount ops) (open_ : .bind label ∉ ops) :
    ∃ (front back : List UInt8) (stop : Nat),
      (labelsFrom 0 ops)[label]? = some ⟨front.length, stop⟩ ∧ stop ≤ offsetAfter ops ∧
      Instruction.encodeAll (intended (boundAt? ops) 0 0 ops) =
        front ++ Word.bytes 0 ++ back ∧
      Instruction.encodeAll (intended (boundAt? (ops ++ [.bind label])) 0 0 (ops ++ [.bind label])) =
        front ++ (distanceFrom stop (some (offsetAfter ops))).bytes ++ back := by
  obtain ⟨before, op, after, split, count⟩ := exists_jump given
  have sound := allowed.sound
  rw [split, List.forall_mem_append, List.forall_mem_cons] at sound
  have jump : op.isJump = true := sound.2.1
  let stop := offsetAfter before + op.encodedLength
  let front := Instruction.encodeAll (intended (boundAt? ops) 0 0 before) ++ [op.byte]
  have start : front.length = offsetAfter before + 1 := by
    rw [List.length_append, length_intended sound.1, List.length_singleton]
  refine ⟨front, Instruction.encodeAll (intended (boundAt? ops) stop (label + 1) after), stop,
    ?_, ?_, ?_, ?_⟩
  · have length := length_labelsFrom 0 before
    rw [split, labelsFrom_append, List.getElem?_append_right (by omega), length, count,
      Nat.sub_self, Nat.zero_add, start]
    rfl
  · have whole : offsetAfter ops = offsetAfter before + (op.encodedLength + offsetAfter after) := by
      rw [split, offsetAfter_append]
      rfl
    omega
  · conv_lhs => rw [split, encodeAll_intended_jump _ _ _ jump, ← split, count, boundAt?_eq_none open_]
    rfl
  · -- the other labels stay as they are, so the code around the offset does too
    have here : boundAt? (ops ++ [.bind label]) label = some (offsetAfter ops) := by
      rw [boundAt?_concat, boundAt?_eq_none open_, if_pos rfl, Option.none_or]
    have elsewhere : ∀ k, k ≠ label → boundAt? (ops ++ [.bind label]) k = boundAt? ops k := by
      intro k other
      have different : Operation.bind label ≠ .bind k := fun h => other (bind.inj h).symm
      rw [boundAt?_concat, if_neg different, Option.or_none]
    have earlier : intended (boundAt? (ops ++ [.bind label])) 0 0 before =
        intended (boundAt? ops) 0 0 before :=
      intended_congr fun k _ high => elsewhere k (by omega)
    have later : intended (boundAt? (ops ++ [.bind label])) stop (label + 1) after =
        intended (boundAt? ops) stop (label + 1) after :=
      intended_congr fun k low _ => elsewhere k (by omega)
    have code := encodeAll_intended_jump (boundAt? (ops ++ [.bind label])) before after jump
    rw [← split, count, here, earlier, later] at code
    rw [intended_append, ← code]
    exact congrArg Instruction.encodeAll (List.append_nil _)

/-- **What is intended is built**, in code that a jump can cross. -/
theorem builds_intended {bound? : Nat → Option Nat} {offset label : Nat} {ops : List Operation}
    (sound : ∀ op ∈ ops, op.Sound) (near : ∀ k t, bound? k = some t → t < 2 ^ 31)
    (short : offset + offsetAfter ops < 2 ^ 31) :
    Builds bound? offset label ops (intended bound? offset label ops) := by
  induction ops generalizing offset label with
  | nil => exact .nil
  | cons op ops ih =>
    rw [List.forall_mem_cons] at sound
    have count : offsetAfter (op :: ops) = op.size + offsetAfter ops := rfl
    rw [count, ← Nat.add_assoc] at short
    have here : offset + op.size < 2 ^ 31 := by omega
    have rest : Builds bound? (offset + op.size) (label + op.labels) ops _ := ih sound.2 short
    cases op with
    | emit i => exact .emit rest
    | bind k => exact .bind rest
    | jump op =>
      change offset + op.encodedLength < 2 ^ 31 at here
      change Builds bound? (offset + op.encodedLength) (label + 1) _ _ at rest
      let w := distanceFrom (offset + op.encodedLength) (bound? label)
      obtain ⟨opcode, operands⟩ := jumpBy_parts sound.1 w
      rw [← length_encode_jumpBy sound.1 w] at rest
      cases bound : bound? label with
      | some t =>
        refine .bound opcode operands bound ?_ rest
        rw [length_encode_jumpBy sound.1]
        have found : w = UInt32.ofNat t - UInt32.ofNat (offset + op.encodedLength) :=
          congrArg (distanceFrom _) bound
        rw [found]
        exact Word.signed_ofNat_sub_ofNat (near _ _ bound) here
      | none =>
        refine .unbound opcode ?_ bound rest
        exact operands.trans (congrArg (fun t => [distanceFrom _ t]) bound)
    | jumpTo op target =>
      change offset + op.encodedLength < 2 ^ 31 at here
      change Builds bound? (offset + op.encodedLength) label _ _ at rest
      let w := distanceFrom (offset + op.encodedLength) (some target)
      obtain ⟨opcode, operands⟩ := jumpBy_parts sound.1.1 w
      rw [← length_encode_jumpBy sound.1.1 w] at rest
      refine .jumpTo opcode operands ?_ rest
      rw [length_encode_jumpBy sound.1.1]
      exact Word.signed_ofNat_sub_ofNat sound.1.2 here

end Operation

/-! ### Sessions -/

/-- Laying bytes over as many bytes in the middle of a buffer. -/
theorem toList_overwrite {b : Bytes} {front old new back : List UInt8}
    (h : b.toList = front ++ old ++ back) (length : new.length = old.length) :
    (b.overwrite front.length new).toList = front ++ new ++ back := by
  have size : b.size = front.length + old.length + back.length := by
    rw [← Array.length_toList, h, List.length_append, List.length_append]
  apply List.ext_getElem?
  intro n
  rw [Array.getElem?_toList, Bytes.getElem?_overwrite _ _ _ _ (by omega), ← Array.getElem?_toList, h]
  split
  · rename_i inside
    rw [List.append_assoc, List.getElem?_append_right inside.1, List.getElem?_append_left (by omega)]
  · rename_i outside
    rcases Nat.lt_or_ge n front.length with low | high
    · rw [List.append_assoc, List.append_assoc, List.getElem?_append_left low,
        List.getElem?_append_left low]
    · have high' : front.length + new.length ≤ n := by omega
      rw [List.getElem?_append_right (by simpa [← length] using high'),
        List.getElem?_append_right (by simpa using high'), List.length_append, List.length_append,
        length]

/-- **What a session has built** after some operations: the code of what they intend, with the
    labels bound so far, and their labels. -/
structure Built (ops : List Operation) (s : Session) : Prop where
  code : s.builder.code.toList =
    Instruction.encodeAll (Operation.intended (Operation.boundAt? ops) 0 0 ops)
  labels : s.labels = Operation.labelsFrom 0 ops

theorem toList_append (b : Builder) (xs : List UInt8) :
    (b.append xs).code.toList = b.code.toList ++ xs := by
  rw [append, Array.appendList_eq_append, Array.toList_appendList]

section Step

variable {ops : List Operation} {s : Session}

theorem Built.offset (built : Built ops s) (sound : ∀ op ∈ ops, op.Sound) :
    s.builder.offset = Operation.offsetAfter ops := by
  rw [Builder.offset, ← Array.length_toList, built.code, Operation.length_intended sound]

/-- An operation that binds no label adds what it intends. -/
theorem Built.add (built : Built ops s) {op : Operation} {s' : Session}
    (other : ∀ label, op ≠ .bind label)
    (code : s'.builder.code.toList = s.builder.code.toList ++
      Instruction.encodeAll (op.instruction? (Operation.boundAt? ops) (Operation.offsetAfter ops)
        (Operation.labelCount ops)).toList)
    (labels : s'.labels = s.labels ++ (op.label? (Operation.offsetAfter ops)).toList) :
    Built (ops ++ [op]) s' := by
  have bound : Operation.boundAt? (ops ++ [op]) = Operation.boundAt? ops := by
    funext label
    rw [Operation.boundAt?_concat, if_neg (other label), Option.or_none]
  constructor
  · rw [bound, code, built.code, Operation.intended_append, Instruction.encodeAll,
      Instruction.encodeAll, Instruction.encodeAll, List.flatMap_append, Nat.zero_add, Nat.zero_add,
      Operation.intended, Operation.intended, List.append_nil]
  · rw [labels, built.labels, Operation.labelsFrom_append, Nat.zero_add, Operation.labelsFrom,
      Operation.labelsFrom, List.append_nil]

theorem Built.emit (built : Built ops s) (i : Instruction) :
    ∃ s', s.perform (.emit i) = .ok s' ∧ Built (ops ++ [.emit i]) s' := by
  refine ⟨_, rfl, built.add nofun ?_ (List.append_nil _).symm⟩
  rw [Builder.emit, toList_append]
  exact congrArg (_ ++ ·) (List.flatMap_singleton ..).symm

theorem Built.jump (built : Built ops s) (allowed : Operation.Allowed ops) {op : Opcode}
    (jump : op.isJump = true) :
    ∃ s', s.perform (.jump op) = .ok s' ∧ Built (ops ++ [.jump op]) s' := by
  have offset := built.offset allowed.sound
  -- nothing has been bound to the label that is given out now
  have open_ : Operation.boundAt? ops (Operation.labelCount ops) = none :=
    Operation.boundAt?_eq_none fun mem => Nat.lt_irrefl _ (allowed.given mem)
  refine ⟨_, rfl, built.add nofun ?_ ?_⟩
  · simp only [Builder.jump, toList_append, Operation.instruction?, open_, Operation.distanceFrom,
      Option.toList_some, Instruction.encodeAll, List.flatMap_singleton, Operation.encode_jumpBy jump]
  · have size : (s.builder.append (op.byte :: Word.bytes 0)).offset =
        Operation.offsetAfter ops + 5 := by
      rw [← offset, Builder.offset, ← Array.length_toList, toList_append, List.length_append]
      rfl
    simp only [Builder.jump, size, Operation.label?, Operation.encodedLength_of_isJump jump,
      Option.toList_some]
    rfl

theorem Session.perform_jumpTo {op : Opcode} {target : Nat} {b : Builder}
    (jumped : s.builder.jumpTo op target = .ok b) :
    s.perform (.jumpTo op target) = .ok ⟨b, s.labels⟩ := by
  rw [perform, jumped]
  rfl

theorem Session.perform_bind {label : Nat} {given : Label} {b : Builder}
    (found : s.labels[label]? = some given) (bound : s.builder.bind given = .ok b) :
    s.perform (.bind label) = .ok ⟨b, s.labels⟩ := by
  rw [perform, found]
  dsimp only
  rw [bound]
  rfl

theorem Built.jumpTo (built : Built ops s) (sound : ∀ op ∈ ops, op.Sound) {op : Opcode}
    {target : Nat} (low : target < 2 ^ 31)
    (short : Operation.offsetAfter ops + op.encodedLength < 2 ^ 31) :
    ∃ s', s.perform (.jumpTo op target) = .ok s' ∧ Built (ops ++ [.jumpTo op target]) s' := by
  have emitted : s.builder.jumpTo op target = .ok (s.builder.emit (Operation.jumpBy op
      (Operation.distanceFrom (Operation.offsetAfter ops + op.encodedLength) (some target)))) := by
    unfold Builder.jumpTo Operation.jumpBy
    rw [built.offset sound, Word.difference?_ofNat low short]
    dsimp only
    cases Condition.ofOpcode? op <;> rfl
  refine ⟨_, Session.perform_jumpTo emitted, built.add nofun ?_ (List.append_nil _).symm⟩
  rw [Builder.emit, toList_append]
  exact congrArg (_ ++ ·) (List.flatMap_singleton ..).symm

/-- Binding a label changes the offset of its jump to lead here, and nothing else. -/
theorem Built.bind (built : Built ops s) (allowed : Operation.Allowed ops) {label : Nat}
    (given : label < Operation.labelCount ops) (open_ : .bind label ∉ ops)
    (short : Operation.offsetAfter ops < 2 ^ 31) :
    ∃ s', s.perform (.bind label) = .ok s' ∧ Built (ops ++ [.bind label]) s' := by
  obtain ⟨front, back, stop, found, low, code, patched⟩ := allowed.patch given open_
  rw [← built.code] at code
  rw [← built.labels] at found
  have fits : front.length + 4 ≤ s.builder.code.size := by
    rw [← Array.length_toList, code, List.length_append, List.length_append, Word.length_bytes]
    omega
  have bound : s.builder.bind ⟨front.length, stop⟩ = .ok ⟨s.builder.code.overwrite front.length
      (Operation.distanceFrom stop (some (Operation.offsetAfter ops))).bytes⟩ := by
    unfold Builder.bind
    rw [built.offset allowed.sound, Word.difference?_ofNat short (Nat.lt_of_le_of_lt low short)]
    dsimp only
    rw [Bytes.write?, if_pos (by rw [Word.length_bytes]; exact fits)]
    rfl
  refine ⟨_, Session.perform_bind found bound, ?_, ?_⟩
  · rw [patched]
    exact toList_overwrite code rfl
  · rw [built.labels, Operation.labelsFrom_append]
    exact (List.append_nil _).symm

end Step

/-! ### Runs -/

theorem Session.run_concat (ops : List Operation) (op : Operation) :
    run (ops ++ [op]) = run ops >>= fun s => s.perform op := by
  rw [run, run, List.foldlM_append]
  congr 1
  funext s
  exact bind_pure _

/-- Operations that may follow each other go through, and build what they intend. -/
theorem Built.of_allowed {ops : List Operation} (allowed : Operation.Allowed ops)
    (short : Operation.offsetAfter ops < 2 ^ 31) : ∃ s, Session.run ops = .ok s ∧ Built ops s := by
  have extend : ∀ {ops : List Operation} {op : Operation} {s : Session},
      Session.run ops = .ok s → (∃ s', s.perform op = .ok s' ∧ Built (ops ++ [op]) s') →
      ∃ s', Session.run (ops ++ [op]) = .ok s' ∧ Built (ops ++ [op]) s' := by
    rintro ops op s ran ⟨s', performed, built⟩
    refine ⟨s', ?_, built⟩
    rw [Session.run_concat, ran]
    exact performed
  induction allowed with
  | nil => exact ⟨{}, rfl, rfl, rfl⟩
  | emit before ih =>
    rw [Operation.offsetAfter_append] at short
    obtain ⟨s, ran, built⟩ := ih (by omega)
    exact extend ran (built.emit _)
  | jump before jump ih =>
    rw [Operation.offsetAfter_append] at short
    obtain ⟨s, ran, built⟩ := ih (by omega)
    exact extend ran (built.jump before jump)
  | bind before given open_ ih =>
    rw [Operation.offsetAfter_append] at short
    obtain ⟨s, ran, built⟩ := ih (by omega)
    exact extend ran (built.bind before given open_ (by omega))
  | jumpTo before jump low ih =>
    rw [Operation.offsetAfter_append] at short
    obtain ⟨s, ran, built⟩ := ih (by omega)
    refine extend ran (built.jumpTo before.sound low ?_)
    simpa [Operation.offsetAfter, Operation.size] using short

/-- **Labels lead to where they were bound.**  Operations that may follow each other, in any order
    and with any labels open at once, go through if the code stays below `2 ^ 31` bytes.  The code
    decodes without an error into one instruction for each operation but the bindings: what was
    emitted is as it was, a jump leads from its end to the offset at which its label was bound (it
    goes nowhere if that never happened), and a jump to a known target leads from its end there. -/
theorem labels_lead_where_bound {ops : List Operation} (allowed : Operation.Allowed ops)
    (short : Operation.offsetAfter ops < 2 ^ 31) :
    ∃ (s : Session) (is : List Instruction), Session.run ops = .ok s ∧
      s.builder.offset = Operation.offsetAfter ops ∧
      (Decoder.ofBytes s.builder.code.toList).items = is.map .ok ∧
      Operation.Builds (Operation.boundAt? ops) 0 0 ops is := by
  obtain ⟨s, ran, built⟩ := Built.of_allowed allowed short
  refine ⟨s, Operation.intended (Operation.boundAt? ops) 0 0 ops, ran,
    built.offset allowed.sound, ?_, ?_⟩
  · have decoded :=
      Decoder.items_encodeAll (Operation.intended (Operation.boundAt? ops) 0 0 ops) [] 0
    rw [List.append_nil, Decoder.items_of_none (d := ⟨[], _⟩) rfl, List.append_nil] at decoded
    rw [built.code]
    exact decoded
  · refine Operation.builds_intended allowed.sound ?_ ?_
    · intro k t bound
      exact Nat.lt_of_le_of_lt (Operation.boundAt?_le bound) short
    · rwa [Nat.zero_add]

/-- Two jumps forward whose ways cross, one of them over a jump back. -/
def crossing : List Operation :=
  [.jump .jumpEq, .jump .jump, .bind 0, .emit (.pushInt 7), .jumpTo .jump 0, .bind 1]

theorem crossing_allowed : Operation.Allowed crossing := by
  have first : Operation.Allowed [.jump .jumpEq] := .jump .nil rfl
  have second : Operation.Allowed [.jump .jumpEq, .jump .jump] := .jump first rfl
  have bound : Operation.Allowed [.jump .jumpEq, .jump .jump, .bind 0] :=
    .bind second (by decide) (by decide)
  have emitted : Operation.Allowed [.jump .jumpEq, .jump .jump, .bind 0, .emit (.pushInt 7)] :=
    .emit bound
  have back : Operation.Allowed
      [.jump .jumpEq, .jump .jump, .bind 0, .emit (.pushInt 7), .jumpTo .jump 0] :=
    .jumpTo emitted rfl (by decide)
  exact .bind back (by decide) (by decide)

/-- The jumps of `crossing` lead to 10 and to 20, where their labels were bound. -/
theorem crossing_built :
    Operation.boundAt? crossing 0 = some 10 ∧ Operation.boundAt? crossing 1 = some 20 ∧
    ∃ (s : Session) (is : List Instruction), Session.run crossing = .ok s ∧
      s.builder.offset = 20 ∧ (Decoder.ofBytes s.builder.code.toList).items = is.map .ok ∧
      Operation.Builds (Operation.boundAt? crossing) 0 0 crossing is :=
  ⟨by decide, by decide, labels_lead_where_bound crossing_allowed (by decide)⟩

end Builder

end ObjectMachine

/-
  ObjectMachine/Proofs/CodeRoundTrip.lean
  =======================================
  **Code and instructions** — emitting instructions and decoding the bytes are inverse to
  each other, over all lists of instructions and over all byte strings.

  A byte string is the code of some instructions followed by a rest.  The rest is empty, or it
  begins with a byte that is no opcode, or with an opcode whose operands are cut off; the
  decoder gives exactly these instructions and reports exactly this rest.
-/
import ObjectMachine.Instruction.Builder
import ObjectMachine.Proofs.Runs

namespace ObjectMachine

/-! ### What an opcode reads -/

/-- How an instruction is built: the opcode fixes how many words are drawn, whatever they are
    drawn from, and the words are the operands of what comes out. -/
inductive Opcode.Reads (op : Opcode) : Prop where
  | none (i : Instruction)
      (read : ∀ {m : Type → Type} [Monad m] (next : m Word), Instruction.read op next = pure i)
      (arity : op.arity = 0) (parts : i.opcode = op ∧ i.operands = [])
  | one (f : Word → Instruction)
      (read : ∀ {m : Type → Type} [Monad m] (next : m Word),
        Instruction.read op next = next >>= fun w => pure (f w))
      (arity : op.arity = 1) (parts : ∀ w, (f w).opcode = op ∧ (f w).operands = [w])
  | two (f : Word → Word → Instruction)
      (read : ∀ {m : Type → Type} [Monad m] (next : m Word),
        Instruction.read op next = next >>= fun v => next >>= fun w => pure (f v w))
      (arity : op.arity = 2) (parts : ∀ v w, (f v w).opcode = op ∧ (f v w).operands = [v, w])

theorem Opcode.reads (op : Opcode) : op.Reads := by
  cases op
  case storeArg => exact .two _ (fun _ => rfl) rfl fun _ _ => ⟨rfl, rfl⟩
  all_goals
    first
    | exact .one _ (fun _ => rfl) rfl fun _ => ⟨rfl, rfl⟩
    | exact .none _ (fun _ => rfl) rfl ⟨rfl, rfl⟩

theorem Instruction.ofWords?_operands (i : Instruction) :
    ofWords? i.opcode i.operands = some i := by
  cases i with
  | branch condition offset => cases condition <;> rfl
  | _ => rfl

/-! ### Operand words -/

/-- Bytes can be cut into words as far as they reach. -/
theorem Word.exists_flatMap_bytes {n : Nat} {xs : List UInt8} (enough : 4 * n ≤ xs.length) :
    ∃ (words : List Word) (rest : List UInt8),
      words.length = n ∧ xs = words.flatMap Word.bytes ++ rest := by
  induction n generalizing xs with
  | zero => exact ⟨[], xs, rfl, rfl⟩
  | succ n ih =>
    match xs, enough with
    | a :: b :: c :: d :: xs, enough =>
      simp only [List.length_cons] at enough
      have enough : 4 * n ≤ xs.length := by omega
      obtain ⟨words, rest, length, rfl⟩ := ih enough
      refine ⟨Word.ofBytes a b c d :: words, rest, by rw [List.length_cons, length], ?_⟩
      rw [List.flatMap_cons, Word.bytes_ofBytes]
      rfl
    | [], enough | [_], enough | [_, _], enough | [_, _, _], enough =>
      simp only [List.length_cons, List.length_nil] at enough
      omega

namespace Decoder

variable {o : Opcode} {start offset : Nat}

theorem operand_bytes (w : Word) (rest : List UInt8) :
    operand o start ⟨w.bytes ++ rest, offset⟩ = .ok w ⟨rest, offset + 4⟩ := by
  unfold operand
  rw [Word.ofList?_bytes_append]
  rfl

theorem operand_short {d : Decoder} (short : d.rest.length < 4) :
    operand o start d = .error (.truncated o start) d := by
  have none : Word.ofList? d.rest = none := by
    match d.rest, short with
    | [], _ | [_], _ | [_, _], _ | [_, _, _], _ => rfl
  unfold operand
  rw [none]

/-- Drawing the operands that are there. -/
theorem read_operands (i : Instruction) (rest : List UInt8) :
    Instruction.read i.opcode (operand o start)
        ⟨i.operands.flatMap Word.bytes ++ rest, offset⟩ =
      .ok i ⟨rest, offset + 4 * i.opcode.arity⟩ := by
  have built := i.ofWords?_operands
  have length := i.length_operands
  generalize i.operands = words at built length ⊢
  generalize i.opcode = op at built length ⊢
  unfold Instruction.ofWords? at built
  cases op.reads with
  | none j read arity =>
    obtain rfl : words = [] := List.length_eq_zero_iff.1 (length.trans arity)
    rw [read] at built ⊢
    cases built
    rw [arity]
    rfl
  | one f read arity =>
    obtain ⟨w, rfl⟩ := List.length_eq_one_iff.1 (length.trans arity)
    rw [read] at built ⊢
    cases built
    rw [arity, List.flatMap_singleton, run_bind_ok (operand_bytes w rest)]
    rfl
  | two f read arity =>
    match words, length.trans arity with
    | [v, w], _ =>
      rw [read] at built ⊢
      cases built
      rw [arity, List.flatMap_cons, List.flatMap_singleton, List.append_assoc,
        run_bind_ok (operand_bytes v _), run_bind_ok (operand_bytes w rest)]
      rfl

/-- Drawing operands that are cut off. -/
theorem read_short {op : Opcode} {d : Decoder} (short : d.rest.length < 4 * op.arity) :
    ∃ d', Instruction.read op (operand o start) d = .error (.truncated o start) d' := by
  cases op.reads with
  | none i read arity =>
    rw [arity] at short
    cases short
  | one f read arity =>
    rw [arity] at short
    rw [read]
    exact ⟨d, run_bind_error (operand_short short)⟩
  | two f read arity =>
    rw [arity] at short
    rw [read]
    by_cases first : d.rest.length < 4
    · exact ⟨d, run_bind_error (operand_short first)⟩
    · have enough : 4 * 1 ≤ d.rest.length := by omega
      obtain ⟨words, rest, length, split⟩ := Word.exists_flatMap_bytes enough
      obtain ⟨w, rfl⟩ := List.length_eq_one_iff.1 length
      rw [List.flatMap_singleton] at split
      obtain ⟨bytes, offset⟩ := d
      dsimp only at split short
      subst split
      rw [List.length_append, Word.length_bytes] at short
      rw [run_bind_ok (operand_bytes w rest)]
      exact ⟨_, run_bind_error (operand_short (by dsimp only; omega))⟩

end Decoder

/-! ### One instruction -/

/-- An opcode with as many words as it takes is an instruction. -/
theorem Instruction.exists_opcode_operands {op : Opcode} {words : List Word}
    (h : words.length = op.arity) : ∃ i : Instruction, i.opcode = op ∧ i.operands = words := by
  cases op.reads with
  | none i read arity parts =>
    obtain rfl : words = [] := List.length_eq_zero_iff.1 (h.trans arity)
    exact ⟨i, parts⟩
  | one f read arity parts =>
    obtain ⟨w, rfl⟩ := List.length_eq_one_iff.1 (h.trans arity)
    exact ⟨f w, parts w⟩
  | two f read arity parts =>
    match words, h.trans arity with
    | [v, w], _ => exact ⟨f v w, parts v w⟩

/-- **Malformed bytes**, at an offset, and what is wrong with them: they begin with a byte that
    is no opcode, or with an opcode that has too few bytes for its operands after it. -/
inductive Malformed (offset : Nat) : List UInt8 → DecodeError → Prop where
  | unknownOpcode {x : UInt8} {rest : List UInt8} (unknown : 0x1F < x) :
      Malformed offset (x :: rest) (.unknownOpcode x offset)
  | truncated {op : Opcode} {rest : List UInt8} (short : rest.length < 4 * op.arity) :
      Malformed offset (op.byte :: rest) (.truncated op offset)

/-- Bytes are none, or begin with an instruction, or are malformed. -/
theorem Instruction.leading (code : List UInt8) (offset : Nat) :
    code = [] ∨ (∃ (i : Instruction) (rest : List UInt8), code = i.encode ++ rest) ∨
      ∃ e, Malformed offset code e := by
  cases code with
  | nil => exact Or.inl rfl
  | cons x rest =>
    refine Or.inr ?_
    cases known : Opcode.ofByte? x with
    | none =>
      have large : 32 ≤ x.toNat := (Opcode.ofByte?_eq_none_iff x).1 known
      exact Or.inr ⟨_, .unknownOpcode (UInt8.lt_iff_toNat_lt.2 large)⟩
    | some op =>
      obtain rfl := Opcode.byte_of_ofByte? known
      by_cases short : rest.length < 4 * op.arity
      · exact Or.inr ⟨_, .truncated short⟩
      · obtain ⟨words, rest', length, rfl⟩ := Word.exists_flatMap_bytes (Nat.le_of_not_lt short)
        obtain ⟨i, rfl, rfl⟩ := exists_opcode_operands length
        exact Or.inl ⟨i, rest', rfl⟩

theorem Instruction.length_encode (i : Instruction) :
    i.encode.length = 1 + 4 * i.opcode.arity := by
  have words : ∀ ws : List Word, (ws.flatMap Word.bytes).length = 4 * ws.length := by
    intro ws
    induction ws with
    | nil => rfl
    | cons w ws ih =>
      rw [List.flatMap_cons, List.length_append, Word.length_bytes, ih, List.length_cons]
      omega
  rw [encode, List.length_cons, words, i.length_operands]
  omega

namespace Decoder

theorem next?_encode (i : Instruction) (rest : List UInt8) (offset : Nat) :
    next? ⟨i.encode ++ rest, offset⟩ = some (.ok i, ⟨rest, offset + i.encode.length⟩) := by
  have read : Instruction.read i.opcode (operand i.opcode offset)
      ⟨i.operands.flatMap Word.bytes ++ rest, offset + 1⟩ =
      .ok i ⟨rest, offset + i.encode.length⟩ := by
    rw [read_operands, i.length_encode, Nat.add_assoc]
  rw [Instruction.encode] at read ⊢
  unfold next?
  dsimp only [List.cons_append]
  rw [Opcode.ofByte?_byte]
  dsimp only
  rw [read]

theorem next?_malformed {rest : List UInt8} {offset : Nat} {e : DecodeError}
    (malformed : Malformed offset rest e) : ∃ d, next? ⟨rest, offset⟩ = some (.error e, d) := by
  cases malformed with
  | unknownOpcode unknown =>
    have none := (Opcode.ofByte?_eq_none_iff _).2 (UInt8.lt_iff_toNat_lt.1 unknown)
    unfold next?
    dsimp only
    rw [none]
    exact ⟨_, rfl⟩
  | @truncated op rest short =>
    have cut : (⟨rest, offset + 1⟩ : Decoder).rest.length < 4 * op.arity := short
    obtain ⟨d, failed⟩ : ∃ d, Instruction.read op (operand op offset) ⟨rest, offset + 1⟩ =
      .error (.truncated op offset) d := read_short cut
    unfold next?
    dsimp only
    rw [Opcode.ofByte?_byte]
    dsimp only
    rw [failed]
    exact ⟨d, rfl⟩

/-! ### All instructions -/

section Items

variable {d d' : Decoder} {i : Instruction} {e : DecodeError}

theorem items_of_none (h : d.next? = none) : d.items = [] := by
  rw [items]
  split <;> rename_i found <;> cases h.symm.trans found
  rfl

theorem items_of_error (h : d.next? = some (.error e, d')) : d.items = [.error e] := by
  rw [items]
  split <;> rename_i found <;> cases h.symm.trans found
  rfl

theorem items_of_ok (h : d.next? = some (.ok i, d')) : d.items = .ok i :: d'.items := by
  rw [items]
  split <;> rename_i found <;> cases h.symm.trans found
  rfl

end Items

/-- Decoding gives back the instructions at the front, and goes on after them. -/
theorem items_encodeAll (is : List Instruction) (rest : List UInt8) (offset : Nat) :
    items ⟨Instruction.encodeAll is ++ rest, offset⟩ =
      is.map .ok ++ items ⟨rest, offset + (Instruction.encodeAll is).length⟩ := by
  induction is generalizing offset with
  | nil => rfl
  | cons i is ih =>
    have front : Instruction.encodeAll (i :: is) = i.encode ++ Instruction.encodeAll is := rfl
    rw [front, List.append_assoc, items_of_ok (next?_encode i _ offset), ih, List.length_append,
      Nat.add_assoc]
    rfl

end Decoder

/-- **Every byte string** is the code of some instructions, followed by nothing or by malformed
    bytes. -/
theorem Instruction.exists_encodeAll (code : List UInt8) (offset : Nat) :
    ∃ (is : List Instruction) (rest : List UInt8), code = encodeAll is ++ rest ∧
      (rest = [] ∨ ∃ e, Malformed (offset + (encodeAll is).length) rest e) := by
  -- every instruction takes a byte, so what follows the first one is shorter
  induction length : code.length using Nat.strongRecOn generalizing code offset with
  | ind n ih =>
    subst length
    rcases leading code offset with rfl | ⟨i, rest, rfl⟩ | malformed
    · exact ⟨[], [], rfl, Or.inl rfl⟩
    · have shorter : rest.length < (i.encode ++ rest).length := by
        rw [List.length_append, i.length_encode]
        omega
      obtain ⟨is, rest', rfl, ended⟩ := ih _ shorter rest (offset + i.encode.length) rfl
      refine ⟨i :: is, rest', (List.append_assoc ..).symm, ended.imp_right ?_⟩
      rintro ⟨e, malformed⟩
      rw [Nat.add_assoc, ← List.length_append] at malformed
      exact ⟨e, malformed⟩
    · exact ⟨[], code, rfl, Or.inr malformed⟩

/-! ### Emission -/

namespace Builder

/-- The code that a builder emits for some instructions. -/
def emission (is : List Instruction) : List UInt8 := (is.foldl emit {}).code.toList

theorem emission_eq (is : List Instruction) : emission is = Instruction.encodeAll is := by
  have onto : ∀ (is : List Instruction) (b : Builder),
      (is.foldl emit b).code.toList = b.code.toList ++ Instruction.encodeAll is := by
    intro is
    induction is with
    | nil => exact fun b => (List.append_nil _).symm
    | cons i is ih =>
      intro b
      rw [List.foldl_cons, ih, emit, append, Array.appendList_eq_append, Array.toList_appendList,
        List.append_assoc]
      rfl
  exact onto is {}

end Builder

/-- **Emitting and decoding are inverse.**  The code emitted for a list of instructions decodes
    to that list.  Any code at all is the emission of the instructions that it decodes to,
    followed by a rest: there is none if nothing is wrong, and otherwise it is malformed, and
    the error that comes last says how and where. -/
theorem decoding_inverts_emission :
    (∀ is : List Instruction, (Decoder.ofBytes (Builder.emission is)).items = is.map .ok) ∧
      ∀ code : List UInt8, ∃ (is : List Instruction) (rest : List UInt8),
        code = Builder.emission is ++ rest ∧
        ((rest = [] ∧ (Decoder.ofBytes code).items = is.map .ok) ∨
          ∃ e, Malformed (Builder.emission is).length rest e ∧
            (Decoder.ofBytes code).items = is.map .ok ++ [.error e]) := by
  constructor
  · intro is
    have all := Decoder.items_encodeAll is [] 0
    rw [List.append_nil, Decoder.items_of_none (d := ⟨[], _⟩) rfl, List.append_nil] at all
    rw [Builder.emission_eq]
    exact all
  · intro code
    obtain ⟨is, rest, rfl, ended⟩ := Instruction.exists_encodeAll code 0
    have all := Decoder.items_encodeAll is rest 0
    rw [Nat.zero_add] at ended all
    refine ⟨is, rest, by rw [Builder.emission_eq], ?_⟩
    rw [Builder.emission_eq]
    rcases ended with rfl | ⟨e, malformed⟩
    · rw [Decoder.items_of_none (d := ⟨[], _⟩) rfl, List.append_nil (is.map _)] at all
      exact Or.inl ⟨rfl, all⟩
    · obtain ⟨d, failed⟩ := Decoder.next?_malformed malformed
      rw [Decoder.items_of_error failed] at all
      exact Or.inr ⟨e, malformed, all⟩

end ObjectMachine

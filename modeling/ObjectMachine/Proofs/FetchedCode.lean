/-
  ObjectMachine/Proofs/FetchedCode.lean
  =====================================
  **Two readers of one code** — a machine fetches what a decoder decodes.

  A machine reads its code through an address that wraps around, and asks at each byte and at
  each word whether it is still inside; a decoder walks down a list of bytes.  Both build an
  instruction from the words that they draw, so it is enough that they draw the same words:
  a machine and the decoder that stands where its program counter stands move on together, or
  stop together.
-/
import ObjectMachine.Proofs.StoredCode

namespace ObjectMachine.Machine

/-- The decoder that stands where the program counter of a machine stands. -/
def decoder (m : Machine) : Decoder := ⟨m.unread, m.memory.pc.word.toNat⟩

variable {m : Machine}

/-! ### One byte, one word -/

theorem unread_eq_nil_iff :
    m.unread = [] ↔ m.memory.code.bytes.size ≤ m.memory.pc.word.toNat := by
  rw [unread, List.drop_eq_nil_iff, Array.length_toList]

theorem length_unread :
    m.unread.length = m.memory.code.bytes.size - m.memory.pc.word.toNat := by
  rw [unread, List.length_drop, Array.length_toList]

theorem fetchByte_ended (ended : m.unread = []) :
    (Memory.fetchByte : Run UInt8) m = .error (.memory (.pcOutOfBounds m.memory.pc)) m := by
  have absent : m.memory.code.bytes[m.memory.pc.word.toNat]? = none := getElem?_of_unread ended 0
  have refused : m.memory.code.byteAt m.memory.pc = .error (.pcOutOfBounds m.memory.pc) := by
    unfold CodeArena.byteAt
    rw [absent]
  exact Lockstep.onMemory_error (run_bind_error (Memory.query_error refused))

theorem fetchWord_short (short : m.unread.length < 4) :
    (Memory.fetchWord : Run Word) m = .error (.memory (.pcOutOfBounds m.memory.pc)) m := by
  rw [length_unread] at short
  have absent : m.memory.code.bytes.word? m.memory.pc.word.toNat = none := by
    unfold Bytes.word?
    rw [dif_neg (by omega)]
  have refused : m.memory.code.wordAt m.memory.pc = .error (.pcOutOfBounds m.memory.pc) := by
    unfold CodeArena.wordAt
    rw [absent]
  exact Lockstep.onMemory_error (run_bind_error (Memory.query_error refused))

theorem decoder_withPc {xs more : List UInt8} {delta : Word} (rest : m.unread = xs ++ more)
    (small : m.memory.code.bytes.size < wordLimit) (length : delta.toNat = xs.length)
    (some_ : xs ≠ []) :
    (m.withPc (m.memory.pc.advance delta)).decoder = ⟨more, m.memory.pc.word.toNat + xs.length⟩ := by
  rw [← toNat_advance rest small length some_, ← unread_withPc rest small length some_]
  rfl

/-- **One operand.**  Machine and decoder draw the same word and stand at the same place after
    it, or neither draws one. -/
theorem fetchWord_operand (small : m.memory.code.bytes.size < wordLimit) (o : Opcode)
    (start : Nat) :
    (∃ w q, (Memory.fetchWord : Run Word) m = .ok w (m.withPc q) ∧
        Decoder.operand o start m.decoder = .ok w (m.withPc q).decoder ∧
        q.word.toNat = m.memory.pc.word.toNat + 4 ∧ q.word.toNat ≤ m.memory.code.bytes.size) ∨
      ((Memory.fetchWord : Run Word) m = .error (.memory (.pcOutOfBounds m.memory.pc)) m ∧
        Decoder.operand o start m.decoder = .error (.truncated o start) m.decoder) := by
  by_cases short : m.unread.length < 4
  · exact Or.inr ⟨fetchWord_short short, Decoder.operand_short short⟩
  · have enough : 4 * 1 ≤ m.unread.length := by omega
    obtain ⟨words, more, length, rest⟩ := Word.exists_flatMap_bytes enough
    obtain ⟨w, rfl⟩ := List.length_eq_one_iff.1 length
    rw [List.flatMap_singleton] at rest
    have moved : (m.memory.pc.advance 4).word.toNat = m.memory.pc.word.toNat + 4 :=
      toNat_advance rest small rfl nofun
    have ahead : (m.withPc (m.memory.pc.advance 4)).decoder =
        ⟨more, m.memory.pc.word.toNat + 4⟩ := decoder_withPc rest small rfl nofun
    have inside : m.memory.pc.word.toNat + 4 ≤ m.memory.code.bytes.size := by
      rw [length_unread] at enough
      omega
    refine Or.inl ⟨w, m.memory.pc.advance 4, fetchWord_run rest, ?_, moved, moved ▸ inside⟩
    rw [ahead, decoder, rest]
    exact Decoder.operand_bytes w more

/-! ### One instruction -/

/-- How the operands of an opcode are read, by the machine and by the decoder. -/
inductive Reading (m : Machine) (op o : Opcode) (start : Nat) :
    EStateM.Result MachineError Machine Instruction →
      EStateM.Result DecodeError Decoder Instruction → Prop where
  /-- All of them are there. -/
  | done {i : Instruction} {q : CodeAddress} (opcode : i.opcode = op)
      (moved : q.word.toNat = m.memory.pc.word.toNat + 4 * op.arity)
      (inside : q.word.toNat ≤ m.memory.code.bytes.size) :
      Reading m op o start (.ok i (m.withPc q)) (.ok i (m.withPc q).decoder)
  /-- The code ends before or in one of them. -/
  | cut {q : CodeAddress} (ahead : m.memory.pc.word.toNat ≤ q.word.toNat)
      (inside : q.word.toNat ≤ m.memory.code.bytes.size) :
      Reading m op o start (.error (.memory (.pcOutOfBounds q)) (m.withPc q))
        (.error (.truncated o start) (m.withPc q).decoder)

theorem reading (small : m.memory.code.bytes.size < wordLimit)
    (inside : m.memory.pc.word.toNat ≤ m.memory.code.bytes.size) (op o : Opcode) (start : Nat) :
    Reading m op o start (Instruction.read op (Memory.fetchWord : Run Word) m)
      (Instruction.read op (Decoder.operand o start) m.decoder) := by
  cases op.reads with
  | none i read arity parts =>
    rw [read, read]
    exact .done (q := m.memory.pc) parts.1 (by rw [arity]; rfl) inside
  | one f read arity parts =>
    rw [read, read]
    rcases fetchWord_operand small o start with ⟨w, q, run, drawn, moved, inside'⟩ | ⟨run, drawn⟩
    · rw [run_bind_ok run, run_bind_ok drawn]
      exact .done (parts w).1 (by rw [arity, moved]) inside'
    · rw [run_bind_error run, run_bind_error drawn]
      exact .cut (q := m.memory.pc) (Nat.le_refl _) inside
  | two f read arity parts =>
    rw [read, read]
    rcases fetchWord_operand small o start with ⟨v, q₁, run, drawn, moved₁, inside₁⟩ | ⟨run, drawn⟩
    · rw [run_bind_ok run, run_bind_ok drawn]
      -- the second word is drawn where the first one ended
      have small₁ : (m.withPc q₁).memory.code.bytes.size < wordLimit := small
      rcases fetchWord_operand small₁ o start with ⟨w, q₂, run, drawn, moved₂, inside₂⟩ | ⟨run, drawn⟩
      · rw [run_bind_ok run, run_bind_ok drawn]
        have moved : q₂.word.toNat = m.memory.pc.word.toNat + 4 * op.arity := by
          rw [arity, moved₂]
          exact congrArg (· + 4) moved₁
        exact .done (parts v w).1 moved inside₂
      · rw [run_bind_error run, run_bind_error drawn]
        exact .cut (q := q₁) (by omega) inside₁
    · rw [run_bind_error run, run_bind_error drawn]
      exact .cut (q := m.memory.pc) (Nat.le_refl _) inside

/-- **How an instruction is read**, by the machine that fetches it and by the decoder. -/
inductive FetchDecode (m : Machine) : EStateM.Result MachineError Machine Instruction →
    Option (Except DecodeError Instruction × Decoder) → Prop where
  /-- There is no code left. -/
  | ended (past : m.memory.code.bytes.size ≤ m.memory.pc.word.toNat) :
      FetchDecode m (.error (.memory (.pcOutOfBounds m.memory.pc)) m) none
  /-- The next byte is no opcode; the machine has moved past it. -/
  | unknown {x : UInt8} {q : CodeAddress} (moved : q.word.toNat = m.memory.pc.word.toNat + 1)
      (inside : q.word.toNat ≤ m.memory.code.bytes.size) :
      FetchDecode m (.error (.unknownOpcode x m.memory.pc) (m.withPc q))
        (some (.error (.unknownOpcode x m.memory.pc.word.toNat), m.decoder))
  /-- The next byte is an opcode, and its operands are cut off. -/
  | cut {op : Opcode} {q : CodeAddress} (ahead : m.memory.pc.word.toNat < q.word.toNat)
      (inside : q.word.toNat ≤ m.memory.code.bytes.size) :
      FetchDecode m (.error (.memory (.pcOutOfBounds q)) (m.withPc q))
        (some (.error (.truncated op m.memory.pc.word.toNat), (m.withPc q).decoder))
  /-- There is an instruction. -/
  | done {i : Instruction} {q : CodeAddress}
      (moved : q.word.toNat = m.memory.pc.word.toNat + i.opcode.encodedLength)
      (inside : q.word.toNat ≤ m.memory.code.bytes.size) :
      FetchDecode m (.ok i (m.withPc q)) (some (.ok i, (m.withPc q).decoder))

theorem fetch_decode (small : m.memory.code.bytes.size < wordLimit) :
    FetchDecode m (fetch m) m.decoder.next? := by
  unfold fetch
  rw [run_get_bind]
  cases rest : m.unread with
  | nil =>
    have none : m.decoder.next? = none := by
      unfold Decoder.next? decoder
      rw [rest]
    rw [run_bind_error (fetchByte_ended rest), none]
    exact .ended (unread_eq_nil_iff.1 rest)
  | cons x more =>
    have first : m.unread = [x] ++ more := rest
    have moved : (m.memory.pc.advance 1).word.toNat = m.memory.pc.word.toNat + 1 :=
      toNat_advance first small rfl nofun
    have ahead : (m.withPc (m.memory.pc.advance 1)).decoder =
        ⟨more, m.memory.pc.word.toNat + 1⟩ := decoder_withPc first small rfl nofun
    have inside : (m.memory.pc.advance 1).word.toNat ≤ m.memory.code.bytes.size := by
      have length := length_unread (m := m)
      rw [rest, List.length_cons] at length
      omega
    rw [run_bind_ok (fetchByte_run rest)]
    unfold Decoder.next?
    rw [show m.decoder.rest = x :: more from rest]
    dsimp only
    cases Opcode.ofByte? x with
    | none => exact .unknown moved inside
    | some op =>
      dsimp only
      rw [show m.decoder.offset = m.memory.pc.word.toNat from rfl, ← ahead]
      have small₁ : (m.withPc (m.memory.pc.advance 1)).memory.code.bytes.size < wordLimit := small
      have read := reading small₁ inside op op m.memory.pc.word.toNat
      generalize Instruction.read op (Memory.fetchWord : Run Word) _ = result at read ⊢
      generalize Instruction.read op (Decoder.operand op _) _ = result' at read ⊢
      cases read with
      | @done i q opcode moved' inside' =>
        refine .done ?_ inside'
        have start : (m.withPc (m.memory.pc.advance 1)).memory.pc.word.toNat =
          m.memory.pc.word.toNat + 1 := moved
        rw [moved', start, opcode, Opcode.encodedLength, wordSize]
        omega
      | @cut q ahead' inside' =>
        have start : (m.withPc (m.memory.pc.advance 1)).memory.pc.word.toNat =
          m.memory.pc.word.toNat + 1 := moved
        exact .cut (by omega) inside'

/-! ### All code -/

/-- **Fetching and decoding agree**, at every program counter and over all code whose addresses
    are words.  The machine fetches an instruction exactly if the decoder at the program counter
    gives it, and both end at the same place, as many bytes on as the instruction has.  An opcode
    is unknown to one exactly if it is unknown to the other.  The machine leaves its code exactly
    if it stands at the end or beyond, or if the decoder finds the instruction cut off.  Nothing
    but the program counter changes, and it never wraps around. -/
theorem fetch_agrees_with_decoder (m : Machine)
    (small : m.memory.code.bytes.size < 2 ^ 32 - 1) :
    (∀ i m', fetch m = .ok i m' ↔ ∃ q : CodeAddress, m' = m.withPc q ∧
        q.word.toNat = m.memory.pc.word.toNat + i.opcode.encodedLength ∧
        m.decoder.next? = some (.ok i, (m.withPc q).decoder)) ∧
      (∀ x pc, (∃ m', fetch m = .error (.unknownOpcode x pc) m') ↔ pc = m.memory.pc ∧
        ∃ d, m.decoder.next? = some (.error (.unknownOpcode x m.memory.pc.word.toNat), d)) ∧
      ((∃ pc m', fetch m = .error (.memory (.pcOutOfBounds pc)) m') ↔
        m.memory.code.bytes.size ≤ m.memory.pc.word.toNat ∨
          ∃ op d, m.decoder.next? = some (.error (.truncated op m.memory.pc.word.toNat), d)) ∧
      ∃ q : CodeAddress, endState (fetch m) = m.withPc q ∧
        m.memory.pc.word.toNat ≤ q.word.toNat ∧
        q.word.toNat ≤ max m.memory.pc.word.toNat m.memory.code.bytes.size := by
  have read := fetch_decode (m := m) (by unfold wordLimit; omega)
  generalize fetch m = result at read ⊢
  generalize m.decoder.next? = item at read ⊢
  cases read with
  | ended past => exact ⟨by simp, by simp, by simp [past], m.memory.pc, rfl, by simp⟩
  | @unknown x q moved inside =>
    have before : ¬m.memory.code.bytes.size ≤ m.memory.pc.word.toNat := by omega
    refine ⟨by simp, ?_, by simp [before], q, rfl, by omega, by omega⟩
    intro y pc
    simp [eq_comm, and_comm]
  | @cut op q ahead inside =>
    refine ⟨by simp, by simp, ?_, q, rfl, by omega, by omega⟩
    exact ⟨fun _ => Or.inr ⟨op, _, rfl⟩, fun _ => ⟨q, _, rfl⟩⟩
  | @done i q moved inside =>
    have before : ¬m.memory.code.bytes.size ≤ m.memory.pc.word.toNat := by
      rw [moved, Opcode.encodedLength] at inside
      omega
    refine ⟨?_, by simp, by simp [before], q, rfl, by omega, by omega⟩
    intro j m'
    constructor
    · intro same
      cases same
      exact ⟨q, rfl, moved, rfl⟩
    · rintro ⟨q', rfl, moved', same⟩
      -- both stand behind the same instruction, so at the same address
      obtain rfl : i = j := by
        injection same with same
        injection same with same
        injection same
      obtain rfl : q = q' := by
        cases q
        cases q'
        exact congrArg CodeAddress.mk (UInt32.toNat_inj.1 (moved.trans moved'.symm))
      rfl

/-- A machine with code that ends in the middle of a second operand, at its last instruction. -/
def cutMachine : Machine where
  memory := {
    space := SemiSpaces.new 22
    stack := FrameStack.new 8
    code := { bytes := #[0x0A, 0, 0, 1, 2, 0x13, 0, 0, 0, 1, 0], limit := 16 }
    pc := ⟨5⟩
    methods := #[]
    constants := {}
    classes := #[]
    dictionaries := #[]
    stats := {}
    journal := {} }
  known := {}
  services := .standard
  output := {}
  files := {}
  directory := {}

theorem cutMachine_agrees : cutMachine.memory.code.bytes.size < 2 ^ 32 - 1 ∧
    (∃ pc m', fetch cutMachine = .error (.memory (.pcOutOfBounds pc)) m') ∧
    ∃ m', fetch (cutMachine.withPc ⟨0⟩) = .ok (.pushInt 258) m' := by
  have small : cutMachine.memory.code.bytes.size < 2 ^ 32 - 1 := by decide
  refine ⟨small, ?_, ?_⟩
  · exact (fetch_agrees_with_decoder cutMachine small).2.2.1.2 (Or.inr ⟨.storeArg, _, rfl⟩)
  · exact ⟨_, ((fetch_agrees_with_decoder (cutMachine.withPc ⟨0⟩) small).1 _ _).2
      ⟨⟨5⟩, rfl, rfl, rfl⟩⟩

end ObjectMachine.Machine

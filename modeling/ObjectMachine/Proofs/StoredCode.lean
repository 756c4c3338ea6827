/-
  ObjectMachine/Proofs/StoredCode.lean
  ====================================
  **Stored code** — from the text of a program to the instructions that a machine fetches.

  What a machine has yet to read of its code is a list of bytes.  If it begins with the bytes
  of an instruction, this is the instruction that is fetched, and the rest is what follows.
  A program that needs nothing of the machine to be assembled, neither constants nor classes,
  can be assembled on every new machine that has room for it, and when it is entered all of
  it is yet to be read.
-/
import ObjectMachine.Proofs.CodeRoundTrip
import ObjectMachine.Proofs.Discipline
import ObjectMachine.Proofs.LockstepLibrary

namespace ObjectMachine

open ObjectGraph

/-! ### Fetching -/

namespace Machine

variable {m : Machine} {w : Word} {more : List UInt8}

/-- A machine with another program counter. -/
def withPc (m : Machine) (pc : CodeAddress) : Machine :=
  { m with memory := { m.memory with pc := pc } }

/-- The stored code from the program counter on. -/
def unread (m : Machine) : List UInt8 := m.memory.code.bytes.toList.drop m.memory.pc.word.toNat

theorem getElem?_of_unread (rest : m.unread = more) (k : Nat) :
    m.memory.code.bytes[m.memory.pc.word.toNat + k]? = more[k]? := by
  rw [← rest, unread, List.getElem?_drop, Array.getElem?_toList]

/-- The program counter moves past bytes that are there without wrapping around. -/
theorem toNat_advance {xs : List UInt8} {delta : Word} (rest : m.unread = xs ++ more)
    (small : m.memory.code.bytes.size < wordLimit) (length : delta.toNat = xs.length)
    (some_ : xs ≠ []) :
    (m.memory.pc.advance delta).word.toNat = m.memory.pc.word.toNat + xs.length := by
  have inside := congrArg List.length rest
  have pos := List.length_pos_iff.2 some_
  simp only [unread, List.length_drop, Array.length_toList, List.length_append] at inside
  unfold wordLimit at small
  rw [CodeAddress.advance, UInt32.toNat_add, length]
  omega

theorem unread_withPc {xs : List UInt8} {delta : Word} (rest : m.unread = xs ++ more)
    (small : m.memory.code.bytes.size < wordLimit) (length : delta.toNat = xs.length)
    (some_ : xs ≠ []) : (m.withPc (m.memory.pc.advance delta)).unread = more := by
  have split : (m.withPc (m.memory.pc.advance delta)).unread = m.unread.drop xs.length := by
    rw [unread, unread, List.drop_drop, ← toNat_advance rest small length some_]
    rfl
  rw [split, rest, List.drop_left]

theorem fetchByte_run {x : UInt8} (rest : m.unread = x :: more) :
    (Memory.fetchByte : Run UInt8) m = .ok x (m.withPc (m.memory.pc.advance 1)) := by
  refine Lockstep.onMemory_ok ?_
  have found : m.memory.code.byteAt m.memory.pc = .ok x := by
    have byte : m.memory.code.bytes[m.memory.pc.word.toNat]? = some x := getElem?_of_unread rest 0
    unfold CodeArena.byteAt
    rw [byte]
  exact run_bind_ok (Memory.query_ok found)

theorem fetchWord_run (rest : m.unread = w.bytes ++ more) :
    (Memory.fetchWord : Run Word) m = .ok w (m.withPc (m.memory.pc.advance 4)) := by
  refine Lockstep.onMemory_ok ?_
  have found : m.memory.code.wordAt m.memory.pc = .ok w := by
    have bytes := getElem?_of_unread rest
    unfold CodeArena.wordAt
    rw [Bytes.word?_eq, show m.memory.code.bytes[m.memory.pc.word.toNat]? = _ from bytes 0,
      bytes 1, bytes 2, bytes 3]
    exact congrArg Except.ok (Word.ofBytes_bytes w)
  exact run_bind_ok (Memory.query_ok found)

variable (small : m.memory.code.bytes.size < wordLimit)
include small

theorem fetchByte_eq {x : UInt8} (rest : m.unread = x :: more) :
    ∃ pc, (Memory.fetchByte : Run UInt8) m = .ok x (m.withPc pc) ∧ (m.withPc pc).unread = more :=
  ⟨_, fetchByte_run rest, unread_withPc (show m.unread = [x] ++ more from rest) small rfl nofun⟩

theorem fetchWord_eq (rest : m.unread = w.bytes ++ more) :
    ∃ pc, (Memory.fetchWord : Run Word) m = .ok w (m.withPc pc) ∧ (m.withPc pc).unread = more :=
  ⟨_, fetchWord_run rest, unread_withPc rest small rfl nofun⟩

/-- **Fetching** gives the instruction that is stored at the program counter. -/
theorem fetch_eq {i : Instruction} (rest : m.unread = i.encode ++ more) :
    ∃ pc, fetch m = .ok i (m.withPc pc) ∧ (m.withPc pc).unread = more := by
  have built := i.ofWords?_operands
  have length := i.length_operands
  rw [Instruction.encode, List.cons_append] at rest
  generalize i.operands = words at built length rest
  generalize i.opcode = op at built length rest
  obtain ⟨pc₁, run₁, rest₁⟩ := fetchByte_eq small rest
  unfold fetch
  rw [run_get_bind, run_bind_ok run₁, Opcode.ofByte?_byte]
  dsimp only
  unfold Instruction.ofWords? at built
  have small₁ : (m.withPc pc₁).memory.code.bytes.size < wordLimit := small
  cases op.reads with
  | none j read arity =>
    obtain rfl : words = [] := List.length_eq_zero_iff.1 (length.trans arity)
    rw [read] at built ⊢
    cases built
    exact ⟨pc₁, rfl, rest₁⟩
  | one f read arity =>
    obtain ⟨w, rfl⟩ := List.length_eq_one_iff.1 (length.trans arity)
    rw [List.flatMap_singleton] at rest₁
    obtain ⟨pc₂, run₂, rest₂⟩ := fetchWord_eq small₁ rest₁
    rw [read] at built ⊢
    cases built
    exact ⟨pc₂, run_bind_ok run₂, rest₂⟩
  | two f read arity =>
    obtain ⟨v, w, rfl⟩ := List.length_eq_two.1 (length.trans arity)
    rw [List.flatMap_cons, List.flatMap_singleton, List.append_assoc] at rest₁
    obtain ⟨pc₂, run₂, rest₂⟩ := fetchWord_eq small₁ rest₁
    have small₂ : ((m.withPc pc₁).withPc pc₂).memory.code.bytes.size < wordLimit := small
    obtain ⟨pc₃, run₃, rest₃⟩ := fetchWord_eq small₂ rest₂
    rw [read] at built ⊢
    cases built
    exact ⟨pc₃, (run_bind_ok run₂).trans (run_bind_ok run₃), rest₃⟩

end Machine

/-! ### Starting a program -/

/-- What is known of every new machine. -/
theorem Machine.facts_of_new {setup : Setup} {m : Machine} (made : Machine.new setup = .ok m) :
    m.services = .standard ∧ m.memory.code.bytes.size = libraryCode ∧
      m.memory.code.limit = setup.settings.codeSize ∧ m.memory.stack.sp = 0 ∧
      m.memory.stack.bytes.size = setup.settings.stackSize := by
  have new : ∀ _ : Unit, Machine.new (setup.withHeap setup.settings.heapSize) = .ok m :=
    fun _ => made
  obtain ⟨w, holds, reached⟩ := World.holds_new new
  have shows_ := holds.shows_ ()
  refine ⟨(holds.services ()).trans reached.services, ?_, ?_, ?_, ?_⟩
  · rw [shows_.code, reached.code]
    rfl
  · rw [shows_.code, reached.code_limit]
  · rw [shows_.stack.sp_eq, reached.cells]
    rfl
  · rw [shows_.stack.size_eq, reached.stack_size]

theorem Memory.storeCode_eq {m : Memory} {code : List UInt8}
    (room : m.code.bytes.size + code.length ≤ m.code.limit) :
    Memory.storeCode code m = .ok (CodeAddress.ofOffset m.code.bytes.size)
      { m with code := { m.code with bytes := m.code.bytes.appendList code } } := by
  have enough : ¬m.code.limit - m.code.bytes.size < code.length := by omega
  unfold Memory.storeCode CodeArena.store
  dsimp only
  rw [if_neg enough]

/-- What has been stored is at the address that was given for it. -/
theorem Bytes.drop_appendList {b : Bytes} (small : b.size < wordLimit) (code : List UInt8) :
    (b.appendList code).toList.drop (CodeAddress.ofOffset b.size).word.toNat = code := by
  have start : (CodeAddress.ofOffset b.size).word.toNat = b.toList.length := by
    rw [Array.length_toList]
    exact UInt32.toNat_ofNat_of_lt' small
  rw [start, Array.appendList_eq_append, Array.toList_appendList, List.drop_left]

theorem Machine.assemble_eq {m : Machine} {lines : List String} {code : List UInt8}
    (services : m.services = .standard) (quiet : quietCode? lines = some code)
    (room : m.memory.code.bytes.size + code.length ≤ m.memory.code.limit) :
    Machine.assemble ("\n".intercalate lines) m =
      .ok (CodeAddress.ofOffset m.memory.code.bytes.size) { m with memory := { m.memory with
        code := { m.memory.code with bytes := m.memory.code.bytes.appendList code } } } := by
  have assembled : Machine.runAssembler
      (ObjectMachine.assemble Machine.resolver ("\n".intercalate lines)) m = .ok code m := by
    have run : (ObjectMachine.assemble Machine.resolver ("\n".intercalate lines)).run.run m =
        (.ok code, m) := Resolver.assembleLines_quiet services quiet
    unfold Machine.runAssembler
    rw [run]
  unfold Machine.assemble
  rw [run_bind_ok assembled]
  exact Lockstep.onMemory_ok (Memory.storeCode_eq room)

theorem Machine.enter_eq {m : Machine} (entry : CodeAddress)
    (room : m.memory.stack.sp + 8 ≤ m.memory.stack.bytes.size) :
    Machine.enter entry 0 m = .ok () { m with memory := { m.memory with
      stack := ⟨m.memory.stack.bytes.overwrite m.memory.stack.sp
          (FrameStack.frameBytes m.memory.stack.bp m.memory.pc 0),
        m.memory.stack.sp + 8, UInt32.ofNat m.memory.stack.sp⟩
      pc := entry } } := by
  have framed : Memory.newFrame 0 m.memory = .ok () { m.memory with
      stack := ⟨m.memory.stack.bytes.overwrite m.memory.stack.sp
          (FrameStack.frameBytes m.memory.stack.bp m.memory.pc 0),
        m.memory.stack.sp + 8, UInt32.ofNat m.memory.stack.sp⟩ } := by
    unfold Memory.newFrame
    rw [run_get_bind]
    exact Memory.onStack_ok (FrameStack.newFrame_eq 0 m.memory.pc room)
  exact run_bind_ok (Lockstep.onMemory_ok framed)

/-- **Starting a program.**  On a new machine that has room for it, a quiet program is assembled
    and entered, and all of it is yet to be read. -/
theorem Machine.exists_entered {setup : Setup} {m : Machine} {lines : List String}
    {code : List UInt8} (made : Machine.new setup = .ok m) (quiet : quietCode? lines = some code)
    (room : libraryCode + code.length ≤ setup.settings.codeSize)
    (small : libraryCode + code.length < wordLimit) (frame : 8 ≤ setup.settings.stackSize) :
    ∃ entry p q, Machine.assemble ("\n".intercalate lines) m = .ok entry p ∧
      Machine.enter entry 0 p = .ok () q ∧ q.unread = code ∧
      q.memory.code.bytes.size < wordLimit ∧ q.memory.stack.sp = 8 ∧ q.memory.stack.bp = 0 ∧
      q.memory.stack.bytes.size = setup.settings.stackSize ∧ p.memory.stack = m.memory.stack := by
  obtain ⟨services, library, limit, sp, stack⟩ := Machine.facts_of_new made
  have assembled := Machine.assemble_eq services quiet (by omega)
  generalize p_eq : Machine.mk _ _ _ _ _ _ = p at assembled
  have bytes : p.memory.code.bytes = m.memory.code.bytes.appendList code := p_eq ▸ rfl
  have stack_eq : p.memory.stack = m.memory.stack := p_eq ▸ rfl
  have entered := Machine.enter_eq (m := p) (CodeAddress.ofOffset m.memory.code.bytes.size)
    (by rw [stack_eq, sp, stack]; exact frame)
  have size : (m.memory.code.bytes.appendList code).size = libraryCode + code.length := by
    rw [Array.appendList_eq_append, ← Array.length_toList, Array.toList_appendList,
      List.length_append, Array.length_toList, library]
  refine ⟨_, p, _, assembled, entered, ?_, ?_, ?_, ?_, ?_, stack_eq⟩
  · unfold Machine.unread
    dsimp only
    rw [bytes]
    exact Bytes.drop_appendList (by rw [library]; decide) code
  · dsimp only
    rw [bytes, size]
    exact small
  · dsimp only
    rw [stack_eq, sp]
  · dsimp only
    rw [stack_eq, sp]
    rfl
  · dsimp only
    rw [Bytes.size_overwrite, stack_eq, stack]

/-! ### Single instructions -/

namespace Machine

variable {m : Machine} {w : Word} {more : List UInt8} (entryBase : Word)
  (small : m.memory.code.bytes.size < wordLimit)

/-- Care for an instruction that takes nothing from the stack and uses no slot. -/
theorem careful_of_idle {i : Instruction} (frame : m.memory.stack.HasWords 0)
    (demand : m.demand i = 0) (literal : ∀ w, i.literal? = some w → w.toNat < addressGuard)
    (no_local : i.localSlot? = none) (no_argument : i.argumentSlot? = none)
    (no_bytes : ∀ value, i ≠ .setBytes value) : m.Careful i where
  operands := by rwa [demand]
  literal w eq inside := absurd (literal w eq) (Nat.not_lt.2 inside.1)
  slot index eq := by cases no_local.symm.trans eq
  argument index offset chain eq := by cases no_argument.symm.trans eq
  bytes value r v eq := absurd eq (no_bytes value)

theorem careful_pushInt (frame : m.memory.stack.HasWords 0) (low : w.toNat < addressGuard) :
    m.Careful (.pushInt w) := by
  refine careful_of_idle frame rfl ?_ rfl rfl nofun
  intro value eq
  cases eq
  exact low

theorem careful_halt (frame : m.memory.stack.HasWords 0) : m.Careful .halt :=
  careful_of_idle frame rfl nofun rfl rfl nofun

theorem careful_newInt (frame : m.memory.stack.HasWords 0) : m.Careful (.newInt w) :=
  careful_of_idle frame rfl nofun rfl rfl nofun

theorem careful_jump (frame : m.memory.stack.HasWords 0) : m.Careful (.jump w) :=
  careful_of_idle frame rfl nofun rfl rfl nofun

theorem careful_popRef (word : m.memory.stack.HasWords 1) : m.Careful .popRef :=
  ⟨word, nofun, nofun, nofun, nofun⟩

/-- Only two instructions take an index from the stack. -/
theorem indexed_of_ne {i : Instruction} (get : i ≠ .getField) (set : i ≠ .setField) : m.Indexed i :=
  ⟨fun eq => absurd eq get, fun eq => absurd eq set⟩

include small

theorem advance_pushInt (rest : m.unread = (Instruction.pushInt w).encode ++ more)
    (room : m.memory.stack.sp + 4 ≤ m.memory.stack.bytes.size) :
    ∃ m', advance entryBase m = .ok .next m' ∧ m'.unread = more ∧
      m'.memory.code.bytes.size = m.memory.code.bytes.size ∧
      m'.memory.stack.sp = m.memory.stack.sp + 4 ∧ m'.memory.stack.bp = m.memory.stack.bp := by
  obtain ⟨pc, fetched, rest'⟩ := fetch_eq small rest
  let noted : Machine := { m.withPc pc with memory := { (m.withPc pc).memory with
    journal := m.memory.journal.note (.executed m.memory.pc (.pushInt w)) } }
  have pushed : Memory.pushWord w noted.memory = .ok () { noted.memory with
      stack := ⟨m.memory.stack.bytes.overwrite m.memory.stack.sp w.bytes, m.memory.stack.sp + 4,
        m.memory.stack.bp⟩ } := Memory.onStack_ok (FrameStack.push_eq w room)
  have stepped : step entryBase (.pushInt w) noted = .ok .next { noted with memory := _ } :=
    run_bind_ok (Lockstep.onMemory_ok pushed)
  have advanced : advance entryBase m = step entryBase (.pushInt w) noted := by
    unfold advance
    rw [run_get_bind, run_bind_ok fetched]
    rfl
  exact ⟨_, advanced.trans stepped, rest', rfl, rfl, rfl⟩

theorem advance_halt (rest : m.unread = Instruction.halt.encode ++ more) :
    ∃ m', advance entryBase m = .ok .stop m' := by
  obtain ⟨pc, fetched, -⟩ := fetch_eq small rest
  unfold advance
  rw [run_get_bind, run_bind_ok fetched]
  exact ⟨_, rfl⟩

end Machine

/-- A machine of modest size. -/
def modestSetup : Machine.Setup where
  settings := { heapSize := 2400, stackSize := 64, codeSize := 600 }

/-- Pushes a number and stops. -/
def numberProgram : List String := ["push-int 7", "halt"]

theorem quietCode?_numberProgram : quietCode? numberProgram =
    some ((Instruction.pushInt 7).encode ++ Instruction.halt.encode) := by decide +kernel

/-- **The program on a new machine** with a heap of any size that suffices for the library. -/
theorem numberProgram_entered {heap : Nat} {m : Machine}
    (made : Machine.new (modestSetup.withHeap heap) = .ok m) :
    ∃ entry p q, Machine.assemble ("\n".intercalate numberProgram) m = .ok entry p ∧
      Machine.enter entry 0 p = .ok () q ∧
      (∃ q', Machine.fetch q = .ok (.pushInt 7) q') ∧ q.Careful (.pushInt 7) ∧
      ∃ q₁ q₂ q₁', Machine.advance q.memory.stack.bp q = .ok .next q₁ ∧
        Machine.fetch q₁ = .ok .halt q₁' ∧ q₁.Careful .halt ∧
        Machine.advance q.memory.stack.bp q₁ = .ok .stop q₂ := by
  obtain ⟨entry, p, q, assembled, entered, unread, small, sp, bp, size, -⟩ :=
    Machine.exists_entered made quietCode?_numberProgram (show 271 ≤ 600 by decide) (by decide)
      (show 8 ≤ 64 by decide)
  have room : q.memory.stack.sp + 4 ≤ q.memory.stack.bytes.size := by
    rw [sp, size]
    exact (show 12 ≤ 64 by decide)
  obtain ⟨q₁, pushed, unread₁, code₁, sp₁, bp₁⟩ :=
    Machine.advance_pushInt q.memory.stack.bp small unread room
  have small₁ : q₁.memory.code.bytes.size < wordLimit := by rwa [code₁]
  have rest : q₁.unread = Instruction.halt.encode ++ [] := by rw [unread₁, List.append_nil]
  obtain ⟨q₂, stopped⟩ := Machine.advance_halt q.memory.stack.bp small₁ rest
  obtain ⟨pc, fetched, -⟩ := Machine.fetch_eq small unread
  obtain ⟨pc₁, fetched₁, -⟩ := Machine.fetch_eq small₁ rest
  have frame : q.memory.stack.HasWords 0 := by
    intro _
    rw [sp, bp]
    decide
  have frame₁ : q₁.memory.stack.HasWords 0 := by
    intro _
    rw [sp₁, bp₁, sp, bp]
    decide
  exact ⟨entry, p, q, assembled, entered, ⟨_, fetched⟩,
    Machine.careful_pushInt frame (by decide), q₁, q₂, _, pushed, fetched₁,
    Machine.careful_halt frame₁, stopped⟩

end ObjectMachine

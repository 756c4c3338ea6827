/-
  ObjectMachine/Proofs/LibraryMethods.lean
  ========================================
  **Library methods compute what they are for** — through the whole machine, from the call to the
  return.
-/
import ObjectMachine.Proofs.MethodResults
import ObjectMachine.Proofs.NumericOperands

namespace ObjectMachine

open ObjectGraph

/-! ### Arithmetic -/

namespace Arithmetic

/-- The operation on whole numbers; quotients are cut toward zero. -/
def meaning : Arithmetic → Int → Int → Int
  | .add, a, b => a + b
  | .sub, a, b => a - b
  | .mul, a, b => a * b
  | .div, a, b => a.tdiv b
  | .mod, a, b => a.tmod b

/-- Whether the right operand is a divisor. -/
def divides : Arithmetic → Bool
  | .div | .mod => true
  | _ => false

/-- The operation on words is that on whole numbers, wrapped around. -/
theorem apply_eq (op : Arithmetic) (a b : Word) : op.apply a b =
    if op.divides && b == 0 then .error .divisionByZero
    else .ok (Word.ofInt (op.meaning a.signed b.signed)) := by
  cases op with
  | add => exact congrArg Except.ok (Numeral.eq_ofInt_iff.2 (Int32.toInt_add _ _))
  | sub => exact congrArg Except.ok (Numeral.eq_ofInt_iff.2 (Int32.toInt_sub _ _))
  | mul => exact congrArg Except.ok (Numeral.eq_ofInt_iff.2 (Int32.toInt_mul _ _))
  | div =>
    simp only [apply, divides, Bool.true_and, beq_iff_eq]
    split
    · rfl
    · exact congrArg Except.ok (Numeral.eq_ofInt_iff.2 (Int32.toInt_div _ _))
  | mod =>
    simp only [apply, divides, Bool.true_and, beq_iff_eq]
    split
    · rfl
    · have remainder : (a.toInt32 % b.toInt32).toInt = a.signed.tmod b.signed := Int32.toInt_mod _ _
      refine congrArg Except.ok (Numeral.eq_ofInt_iff.2 ?_)
      rw [meaning, ← remainder]
      exact (BitVec.toInt_bmod_cancel _).symm

end Arithmetic

namespace Machine

open Memory

variable {m q m' : Machine} {past : CodeAddress} {entryBase : Word} {objects : Set Ref} {bases : List Nat}

/-! ### The calls -/

/-- A call of a method of Integer, String or Array: which one, and what the operands are. -/
inductive LibraryCall where
  | arithmetic (op : Arithmetic) (a b : Word)
  | append (text more : List UInt8)
  | stringLength (text : List UInt8)
  | arrayLength (elements : List Ref)
  | get (elements : List Ref) (index : Word)
  | set (elements : List Ref) (index : Word) (value : Ref)

namespace LibraryCall

def selector : LibraryCall → String
  | arithmetic .add _ _ => "add"
  | arithmetic .sub _ _ => "subtract"
  | arithmetic .mul _ _ => "multiply"
  | arithmetic .div _ _ => "divide"
  | arithmetic .mod _ _ => "modulo"
  | append _ _ => "append"
  | stringLength _ | arrayLength _ => "length"
  | get _ _ => "get"
  | set _ _ _ => "set"

/-- The operands in the order in which the method takes them. -/
def indices : LibraryCall → List Word
  | arithmetic _ _ _ | get _ _ => [0, 1]
  | append _ _ => [1, 0]
  | stringLength _ | arrayLength _ => [0]
  | set _ _ _ => [0, 1, 2]

/-- What the method does with the operands, and how it returns. -/
def ending : LibraryCall → List Instruction
  | arithmetic .add _ _ => [.addInt, .retTop]
  | arithmetic .sub _ _ => [.subInt, .retTop]
  | arithmetic .mul _ _ => [.mulInt, .retTop]
  | arithmetic .div _ _ => [.divInt, .retTop]
  | arithmetic .mod _ _ => [.modInt, .retTop]
  | append _ _ => [.syscall 10, .retTop]
  | stringLength _ => [.syscall 9, .retTop]
  | arrayLength _ => [.syscall 11, .retTop]
  | get _ _ => [.getField, .retTop]
  | set _ _ _ => [.setField, .ret]

/-- The instructions of the method. -/
def body (call : LibraryCall) : List Instruction := call.indices.map .loadArg ++ call.ending

/-- The number of the receiver's class. -/
def owner : LibraryCall → Nat
  | arithmetic _ _ _ => 3
  | append _ _ | stringLength _ => 4
  | arrayLength _ | get _ _ | set _ _ _ => 2

/-- **The library has the method**, and these are its instructions. -/
theorem installed (call : LibraryCall) :
    Inventory.library.Answers call.owner call.selector call.body := by
  cases call with
  | arithmetic op a b =>
    cases op with
    | add =>
      change Inventory.library.Answers 3 "add" [.loadArg 0, .loadArg 1, .addInt, .retTop]
      decide +kernel
    | sub =>
      change Inventory.library.Answers 3 "subtract" [.loadArg 0, .loadArg 1, .subInt, .retTop]
      decide +kernel
    | mul =>
      change Inventory.library.Answers 3 "multiply" [.loadArg 0, .loadArg 1, .mulInt, .retTop]
      decide +kernel
    | div =>
      change Inventory.library.Answers 3 "divide" [.loadArg 0, .loadArg 1, .divInt, .retTop]
      decide +kernel
    | mod =>
      change Inventory.library.Answers 3 "modulo" [.loadArg 0, .loadArg 1, .modInt, .retTop]
      decide +kernel
  | append =>
    change Inventory.library.Answers 4 "append" [.loadArg 1, .loadArg 0, .syscall 10, .retTop]
    decide +kernel
  | stringLength =>
    change Inventory.library.Answers 4 "length" [.loadArg 0, .syscall 9, .retTop]
    decide +kernel
  | arrayLength =>
    change Inventory.library.Answers 2 "length" [.loadArg 0, .syscall 11, .retTop]
    decide +kernel
  | get =>
    change Inventory.library.Answers 2 "get" [.loadArg 0, .loadArg 1, .getField, .retTop]
    decide +kernel
  | set =>
    change Inventory.library.Answers 2 "set" [.loadArg 0, .loadArg 1, .loadArg 2, .setField, .ret]
    decide +kernel

/-- **The operands**, receiver first: instances of the classes of the library that hold what the
    call says, and raw indices that are in range. -/
inductive Takes (m : Machine) : LibraryCall → List Ref → Prop where
  | arithmetic {op : Arithmetic} {a b : Word} {r x : Ref}
      (receiver : m.memory.Has ⟨r, m.known.integer, .bytes a.bytes⟩)
      (argument : m.memory.Has ⟨x, m.known.integer, .bytes b.bytes⟩) : Takes m (arithmetic op a b) [r, x]
  | append {text more : List UInt8} {r x : Ref}
      (receiver : m.memory.Has ⟨r, m.known.string, .bytes text⟩)
      (argument : m.memory.Has ⟨x, m.known.string, .bytes more⟩) : Takes m (append text more) [r, x]
  | stringLength {text : List UInt8} {r : Ref}
      (receiver : m.memory.Has ⟨r, m.known.string, .bytes text⟩) : Takes m (stringLength text) [r]
  | arrayLength {elements : List Ref} {r : Ref}
      (receiver : m.memory.Has ⟨r, m.known.array, .refs elements⟩) : Takes m (arrayLength elements) [r]
  | get {elements : List Ref} {index : Word} {r : Ref}
      (receiver : m.memory.Has ⟨r, m.known.array, .refs elements⟩)
      (inside : index.toNat < elements.length) : Takes m (get elements index) [r, ⟨index⟩]
  | set {elements : List Ref} {index : Word} {value r : Ref}
      (receiver : m.memory.Has ⟨r, m.known.array, .refs elements⟩)
      (inside : index.toNat < elements.length) :
      Takes m (set elements index value) [r, ⟨index⟩, value]

/-- The operands as the method takes them. -/
def loaded (call : LibraryCall) (refs : List Ref) : List Word :=
  call.indices.map fun index => (refs.getD index.toNat Ref.null).word

/-- Whether the method makes a new object. -/
def allocates : LibraryCall → Bool
  | get _ _ | set _ _ _ => false
  | _ => true

/-- Whether the argument is a divisor that is zero. -/
def dividesByZero : LibraryCall → Bool
  | arithmetic op _ b => op.divides && b == 0
  | _ => false

/-- **What a call comes to**: the result of the method, or what it changes.  An element that has been
    set is what a following `get` with the same operands returns. -/
def Answers (entryBase : Word) (objects : Set Ref) (bases : List Nat) (m : Machine) (past : CodeAddress) :
    LibraryCall → List Ref → Machine → Prop
  | arithmetic op a b, _, m' => m.ReturnsNew past objects bases m.known.integer
      (.bytes (Word.ofInt (op.meaning a.signed b.signed)).bytes) m'
  | append text more, _, m' => m.ReturnsNew past objects bases m.known.string (.bytes (text ++ more)) m'
  | stringLength text, _, m' => m.ReturnsNew past objects bases m.known.integer
      (.bytes (Word.bytes (UInt32.ofNat text.length))) m'
  | arrayLength elements, _, m' => m.ReturnsNew past objects bases m.known.integer
      (.bytes (Word.bytes (UInt32.ofNat elements.length))) m'
  | get elements index, _, m' =>
      ∃ value, elements[index.toNat]? = some value ∧ m.ReturnsValue past value m'
  | set elements index value, refs, m' => ∃ r, refs[0]? = some r ∧
      m.Sets past bases r index.toNat value m' ∧
      m'.memory.Has ⟨r, m.known.array, .refs (elements.set index.toNat value)⟩ ∧
      (r ∈ objects → ∀ d ∈ objects, d ≠ r → ∀ c content,
        m.memory.Holds d c content → m'.memory.Holds d c content) ∧
      (m'.HasLibrary → ∀ k m₁, fetch m' = .ok (.call k) m₁ → textConstant m'.memory k = .ok "get" →
        ∃ m'', Runs entryBase (.call k :: (get elements index).body) m' m'' ∧
          m'.ReturnsValue m₁.memory.pc value m'')

/-- **How the rest of a call goes** when there is room on the stack. -/
def Ends (entryBase : Word) (objects : Set Ref) (bases : List Nat) (m : Machine) (past : CodeAddress)
    (call : LibraryCall) (refs : List Ref) (rest : List Instruction) (q : Machine) : Prop :=
  if call.dividesByZero then Breaks entryBase .divisionByZero rest q
  else (call.allocates ∧ ∃ need available,
      Breaks entryBase (.memory (.outOfMemory need available)) rest q) ∨
    ∃ m', Runs entryBase rest q m' ∧ call.Answers entryBase objects bases m past refs m'

section Ends

variable {call : LibraryCall} {refs : List Ref} {rest : List Instruction}

/-- Nothing is divided, and there may not be room for a new object. -/
theorem ends_of_new (other : call.dividesByZero = false) (allocates : call.allocates = true)
    (outcome : (∃ need available, Breaks entryBase (.memory (.outOfMemory need available)) rest q) ∨
      ∃ m', Runs entryBase rest q m' ∧ call.Answers entryBase objects bases m past refs m') :
    call.Ends entryBase objects bases m past refs rest q := by
  unfold Ends
  rw [other, if_neg Bool.false_ne_true]
  exact outcome.imp_left (And.intro allocates)

theorem ends_of_answers (other : call.dividesByZero = false) (runs : Runs entryBase rest q m')
    (answers : call.Answers entryBase objects bases m past refs m') :
    call.Ends entryBase objects bases m past refs rest q := by
  unfold Ends
  rw [other, if_neg Bool.false_ne_true]
  exact Or.inr ⟨m', runs, answers⟩

/-- What comes before the end does not matter for how a call ends. -/
theorem Ends.after {first : List Instruction} (runs : Runs entryBase first m' q)
    (ends : call.Ends entryBase objects bases m past refs rest q) :
    call.Ends entryBase objects bases m past refs (first ++ rest) m' := by
  unfold Ends at ends ⊢
  split
  · rename_i zero
    rw [if_pos zero] at ends
    exact runs.breaks ends
  · rename_i nonzero
    rw [if_neg nonzero] at ends
    rcases ends with ⟨allocates, need, available, breaks⟩ | ⟨m'', last, answers⟩
    · exact Or.inl ⟨allocates, need, available, runs.breaks breaks⟩
    · exact Or.inr ⟨m'', runs.trans last, answers⟩

end Ends

section Endings

variable (library : m.HasLibrary) (wf : m.memory.WellFormed objects)
  (nested : m.memory.stack.Nested bases) (entered : entryBase.toNat ∈ bases)
  (room : m.memory.stack.sp + 12 ≤ m.memory.stack.bytes.size)
include library wf nested entered room

theorem arithmetic_ends {op : Arithmetic} {a b : Word} {r x : Ref}
    (receiver : m.memory.Has ⟨r, m.known.integer, .bytes a.bytes⟩)
    (argument : m.memory.Has ⟨x, m.known.integer, .bytes b.bytes⟩)
    (inCall : m.InCall past [r.word, x.word] (arithmetic op a b).ending q) :
    (arithmetic op a b).Ends entryBase objects bases m past [r, x] (arithmetic op a b).ending q := by
  obtain ⟨i, ending, run⟩ : ∃ i, (arithmetic op a b).ending = [i, .retTop] ∧
      ∀ q, step entryBase i q = (Machine.arithmetic op >>= fun _ => pure .next) q := by
    cases op <;> exact ⟨_, rfl, fun _ => rfl⟩
  rw [ending] at inCall ⊢
  obtain ⟨q₁, q₂, fetched, advanced, inCall₂⟩ := inCall.advance_eq library.small entryBase
  have both : m.InCall past ([r.word] ++ [x.word]) [.retTop] q₂ := inCall₂
  obtain ⟨q₃, popped, inCall₃⟩ := both.popInteger_ok wf.sound argument
  have one : m.InCall past ([] ++ [r.word]) [.retTop] q₃ := inCall₃
  obtain ⟨q₄, popped', inCall₄⟩ := one.popInteger_ok wf.sound receiver
  have performed : Machine.arithmetic op q₂ = (liftExcept (op.apply a b) >>= pushInteger) q₄ :=
    (run_bind_ok popped).trans (run_bind_ok popped')
  rw [op.apply_eq] at performed
  by_cases zero : op.divides && b == 0
  · rw [if_pos zero] at performed
    have failed : Machine.arithmetic op q₂ = .error .divisionByZero q₄ :=
      performed.trans (run_bind_error rfl)
    refine (if_pos zero).mpr (.here fetched (advanced.trans ((run _).trans (run_bind_error failed))))
  · rw [if_neg zero] at performed
    obtain ⟨c, known⟩ := library.exists_integer
    refine ends_of_new (Bool.eq_false_iff.2 zero) rfl ?_
    exact InCall.answers fetched (advanced.trans (run _)) performed inCall₄ wf nested entered
      library.small room known rfl (inCall₄.newInteger_makes wf nested known _)

theorem append_ends {text more : List UInt8} {r x : Ref}
    (receiver : m.memory.Has ⟨r, m.known.string, .bytes text⟩)
    (argument : m.memory.Has ⟨x, m.known.string, .bytes more⟩)
    (inCall : m.InCall past [x.word, r.word] (append text more).ending q) :
    (append text more).Ends entryBase objects bases m past [r, x] (append text more).ending q := by
  have short : (text ++ more).length < wordLimit := by
    obtain ⟨_, -, first⟩ := receiver
    obtain ⟨_, -, second⟩ := argument
    have first : 2 * (11 + text.length) < wordLimit := first.twice_extent_lt wf.sound
    have second : 2 * (11 + more.length) < wordLimit := second.twice_extent_lt wf.sound
    rw [List.length_append]
    omega
  obtain ⟨q₁, q₂, fetched, advanced, inCall₂⟩ := inCall.advance_eq library.small entryBase
  obtain ⟨q₃, invoked, inCall₃⟩ :=
    inCall₂.invoke_eq library (show ⟨10, "str-append", .stringAppend⟩ ∈ _ by decide)
  have both : m.InCall past ([x.word] ++ [r.word]) [.retTop] q₃ := inCall₃
  obtain ⟨q₄, popped, inCall₄⟩ := both.popString_ok wf.sound receiver
  have one : m.InCall past ([] ++ [x.word]) [.retTop] q₄ := inCall₄
  obtain ⟨q₅, popped', inCall₅⟩ := one.popString_ok wf.sound argument
  have performed : invoke 10 q₂ = pushString (text ++ more) q₅ :=
    invoked.trans ((run_bind_ok popped).trans (run_bind_ok popped'))
  obtain ⟨c, known⟩ := library.exists_string
  refine ends_of_new rfl rfl ?_
  exact InCall.answers fetched advanced performed inCall₅ wf nested entered library.small room known rfl
    (inCall₅.newString_makes wf nested known short)

theorem stringLength_ends {text : List UInt8} {r : Ref}
    (receiver : m.memory.Has ⟨r, m.known.string, .bytes text⟩)
    (inCall : m.InCall past [r.word] (stringLength text).ending q) :
    (stringLength text).Ends entryBase objects bases m past [r] (stringLength text).ending q := by
  obtain ⟨q₁, q₂, fetched, advanced, inCall₂⟩ := inCall.advance_eq library.small entryBase
  obtain ⟨q₃, invoked, inCall₃⟩ :=
    inCall₂.invoke_eq library (show ⟨9, "str-length", .stringLength⟩ ∈ _ by decide)
  have one : m.InCall past ([] ++ [r.word]) [.retTop] q₃ := inCall₃
  obtain ⟨q₄, popped, inCall₄⟩ := one.popString_ok wf.sound receiver
  have performed : invoke 9 q₂ = pushInteger (UInt32.ofNat text.length) q₄ :=
    invoked.trans (run_bind_ok popped)
  obtain ⟨c, known⟩ := library.exists_integer
  refine ends_of_new rfl rfl ?_
  exact InCall.answers fetched advanced performed inCall₄ wf nested entered library.small room known rfl
    (inCall₄.newInteger_makes wf nested known _)

theorem arrayLength_ends {elements : List Ref} {r : Ref}
    (receiver : m.memory.Has ⟨r, m.known.array, .refs elements⟩)
    (inCall : m.InCall past [r.word] (arrayLength elements).ending q) :
    (arrayLength elements).Ends entryBase objects bases m past [r] (arrayLength elements).ending q := by
  obtain ⟨q₁, q₂, fetched, advanced, inCall₂⟩ := inCall.advance_eq library.small entryBase
  obtain ⟨q₃, invoked, inCall₃⟩ :=
    inCall₂.invoke_eq library (show ⟨11, "arr-length", .arrayLength⟩ ∈ _ by decide)
  have one : m.InCall past ([] ++ [r.word]) [.retTop] q₃ := inCall₃
  obtain ⟨q₄, popped, inCall₄⟩ := one.popRef_ok
  obtain ⟨_, -, holds⟩ := inCall₄.has receiver
  have read : Machine.arrayLength q₄.memory r = .ok (UInt32.ofNat elements.length) :=
    holds.arrayLength_eq (inCall₄.sound wf.sound)
  have performed : invoke 11 q₂ = pushInteger (UInt32.ofNat elements.length) q₄ :=
    invoked.trans ((run_bind_ok popped).trans (run_bind_ok (Machine.query_ok read)))
  obtain ⟨c, known⟩ := library.exists_integer
  refine ends_of_new rfl rfl ?_
  exact InCall.answers fetched advanced performed inCall₄ wf nested entered library.small room known rfl
    (inCall₄.newInteger_makes wf nested known _)

end Endings

theorem get_ends (library : m.HasLibrary) (sound : m.memory.space.Sound)
    (nested : m.memory.stack.Nested bases) (entered : entryBase.toNat ∈ bases)
    (room : m.memory.stack.sp + 12 ≤ m.memory.stack.bytes.size) {elements : List Ref} {index : Word}
    {r : Ref} (receiver : m.memory.Has ⟨r, m.known.array, .refs elements⟩)
    (inside : index.toNat < elements.length)
    (inCall : m.InCall past [r.word, index] (get elements index).ending q) :
    ∃ value m', elements[index.toNat]? = some value ∧ Runs entryBase (get elements index).ending q m' ∧
      m.ReturnsValue past value m' := by
  obtain ⟨q₁, q₂, fetched, advanced, inCall₂⟩ := inCall.advance_eq library.small entryBase
  have both : m.InCall past ([r.word] ++ [index]) [.retTop] q₂ := inCall₂
  obtain ⟨q₃, popped, inCall₃⟩ := both.popWord_ok
  have one : m.InCall past ([] ++ [r.word]) [.retTop] q₃ := inCall₃
  obtain ⟨q₄, popped', inCall₄⟩ := one.popRef_ok
  have element := List.getElem?_eq_getElem inside
  obtain ⟨_, -, holds⟩ := inCall₄.has receiver
  have read : fieldValue q₄.memory r index = .ok elements[index.toNat] :=
    holds.fieldValue_eq (inCall₄.sound sound) element
  obtain ⟨q₅, pushed, inCall₅⟩ := inCall₄.pushRef_ok room elements[index.toNat]
  have performed : Machine.getField q₂ = .ok () q₅ :=
    (run_bind_ok popped).trans ((run_bind_ok popped').trans
      ((run_bind_ok (Machine.query_ok read)).trans pushed))
  obtain ⟨m', runs, returned⟩ := InCall.returns nested entered library.small inCall₅
  exact ⟨_, m', element, .step fetched (advanced.trans (run_bind_ok performed)) runs, returned⟩

theorem set_ends (library : m.HasLibrary) (sound : m.memory.space.Sound)
    (nested : m.memory.stack.Nested bases) (entered : entryBase.toNat ∈ bases) {elements : List Ref}
    {index : Word} {value r : Ref} (receiver : m.memory.Has ⟨r, m.known.array, .refs elements⟩)
    (inside : index.toNat < elements.length)
    (inCall : m.InCall past [r.word, index, value.word] (set elements index value).ending q) :
    ∃ m', Runs entryBase (set elements index value).ending q m' ∧
      m.Sets past bases r index.toNat value m' := by
  obtain ⟨q₁, q₂, fetched, advanced, inCall₂⟩ := inCall.advance_eq library.small entryBase
  have three : m.InCall past ([r.word, index] ++ [value.word]) [.ret] q₂ := inCall₂
  obtain ⟨q₃, popped, inCall₃⟩ := three.popRef_ok
  have both : m.InCall past ([r.word] ++ [index]) [.ret] q₃ := inCall₃
  obtain ⟨q₄, popped', inCall₄⟩ := both.popWord_ok
  have one : m.InCall past ([] ++ [r.word]) [.ret] q₄ := inCall₄
  obtain ⟨q₅, popped'', inCall₅⟩ := one.popRef_ok
  obtain ⟨_, -, holds⟩ := inCall₅.has receiver
  have sound₅ := inCall₅.sound sound
  have header : Memory.query (·.header r) q₅.memory = .ok _ q₅.memory :=
    Memory.query_ok (holds.header sound₅)
  have stored : Memory.setField r index.toNat value.word q₅.memory = _ :=
    Memory.setField_eq holds sound₅ inside value.word
  have performed : Machine.setField q₂ = .ok () (q₅.withField r index.toNat value) := by
    refine (run_bind_ok popped).trans ((run_bind_ok popped').trans ((run_bind_ok popped'').trans ?_))
    refine (run_bind_ok (Lockstep.onMemory_ok header)).trans ?_
    rw [holds.fieldIndex_eq sound₅ inside]
    exact run_bind_ok (Lockstep.onMemory_ok stored)
  -- from here on, it is a call in the machine that has the field set
  have inCall₆ : (m.withField r index.toNat value).InCall past [] [.ret] (q₅.withField r index.toNat value) := by
    obtain ⟨pc, journal, same⟩ := inCall₅.same
    refine ⟨inCall₅.stack, ⟨pc, journal, ?_⟩, inCall₅.unread⟩
    rw [same]
    rfl
  obtain ⟨s, journal, runs, closed⟩ :=
    @InCall.leaves (m.withField r index.toNat value) _ _ _ _ nested entered library.small inCall₆
  exact ⟨_, .step fetched (advanced.trans (run_bind_ok performed)) runs, ⟨journal, rfl⟩, closed,
    bp_eq_of_nested closed.nested nested⟩


/-! ### The whole call -/

section Whole

variable {call : LibraryCall} {refs : List Ref}

theorem length_of_takes (takes : call.Takes m refs) : refs.length = call.indices.length := by
  cases takes <;> rfl

/-- The receiver is an instance of a class of the library. -/
theorem receiver_of_takes (library : m.HasLibrary) (takes : call.Takes m refs) : ∃ r content,
    refs[0]? = some r ∧ m.memory.Has ⟨r, some ⟨UInt32.ofNat call.owner⟩, content⟩ := by
  have array : m.known.array = some ⟨2⟩ := congrArg KnownClasses.array library.known
  have integer : m.known.integer = some ⟨3⟩ := congrArg KnownClasses.integer library.known
  have string : m.known.string = some ⟨4⟩ := congrArg KnownClasses.string library.known
  cases takes with
  | arithmetic receiver => exact ⟨_, _, rfl, integer ▸ receiver⟩
  | append receiver | stringLength receiver => exact ⟨_, _, rfl, string ▸ receiver⟩
  | arrayLength receiver | get receiver | set receiver => exact ⟨_, _, rfl, array ▸ receiver⟩

/-- The method is found. -/
theorem finds_of_takes (library : m.HasLibrary) (sound : m.memory.space.Sound) (takes : call.Takes m refs) :
    ∃ r method, refs[0]? = some r ∧ lookup m.memory r call.selector = .ok method ∧ method.locals = 0 ∧
      ∃ more, m.memory.code.bytes.toList.drop method.entry.word.toNat =
        Instruction.encodeAll call.body ++ more := by
  obtain ⟨r, content, first, c, entry, holds⟩ := receiver_of_takes library takes
  have instance_ : receiverClass m.memory r = .ok c := by
    unfold receiverClass
    rw [holds.header sound]
    rfl
  obtain ⟨method, found⟩ := library.finds call.installed entry instance_
  exact ⟨r, method, first, found⟩

theorem lt_of_mem_indices {index : Word} (mem : index ∈ call.indices) :
    index.toNat < call.indices.length := by
  revert index
  cases call <;> simp [indices]

/-- The arguments are where the method looks for them. -/
theorem arguments_of_takes (takes : call.Takes m refs)
    (operands : ∀ (i : Nat) r, refs[i]? = some r → m.memory.peekRef i = .ok r) :
    List.Forall₂ m.memory.stack.Argument call.indices (call.loaded refs) := by
  unfold loaded
  rw [List.forall₂_map_right_iff, List.forall₂_same]
  intro index mem
  have inside : index.toNat < refs.length := length_of_takes takes ▸ lt_of_mem_indices mem
  have listed := List.getElem?_eq_getElem inside
  obtain ⟨deep, word⟩ := word_of_peek (operands _ _ listed)
  have back : 4 * (1 + index.toNat) = (index.toNat + 1) * 4 := by omega
  rw [List.getD_eq_getElem?_getD, listed]
  exact ⟨back ▸ deep, back ▸ word⟩

section Call

variable {m₁ : Machine} {k : Word} (library : m.HasLibrary) (sound : m.memory.space.Sound)
  (bounded : m.memory.stack.Bounded) (fetched : fetch m = .ok (.call k) m₁)
  (constant : textConstant m.memory k = .ok call.selector) (takes : call.Takes m refs)
  (operands : ∀ (i : Nat) r, refs[i]? = some r → m.memory.peekRef i = .ok r)

include library sound bounded fetched constant takes operands

/-- **A call without room** for its frame and its operands. -/
theorem call_overflows
    (full : m.memory.stack.bytes.size < m.memory.stack.sp + 8 + 4 * refs.length) (entryBase : Word) :
    Breaks entryBase (.memory .stackOverflow) (.call k :: call.body) m := by
  obtain ⟨r, method, first, found, locals, stored⟩ := finds_of_takes library sound takes
  have top := operands 0 r first
  by_cases room : m.memory.stack.sp + 8 ≤ m.memory.stack.bytes.size
  · obtain ⟨q, called, inCall⟩ :=
      advance_call fetched constant top found locals bounded stored room entryBase
    refine .later fetched called (inCall.breaks_loads bounded library.small
      (arguments_of_takes takes operands) ?_ entryBase)
    rw [← length_of_takes takes, List.length_nil, Nat.zero_add]
    exact full
  · obtain ⟨m', failed⟩ :=
      advance_call_full fetched constant top found locals bounded (Nat.not_le.1 room) entryBase
    exact .here fetched failed

/-- **A call with room for all**: the method has its operands before it. -/
theorem call_loads
    (room : m.memory.stack.sp + 8 + 4 * refs.length ≤ m.memory.stack.bytes.size) (entryBase : Word) :
    ∃ q, Runs entryBase (.call k :: call.indices.map .loadArg) m q ∧
      m.InCall m₁.memory.pc (call.loaded refs) call.ending q := by
  obtain ⟨r, method, first, found, locals, stored⟩ := finds_of_takes library sound takes
  obtain ⟨q, called, inCall⟩ := advance_call fetched constant (operands 0 r first) found locals
    bounded stored (by omega) entryBase
  obtain ⟨q', loads, inCall'⟩ := inCall.runs_loads bounded library.small
    (arguments_of_takes takes operands)
    (by rw [← length_of_takes takes, List.length_nil, Nat.zero_add]; exact room) entryBase
  exact ⟨q', .step fetched called loads, inCall'⟩

end Call

/-- **`get` after `set`** returns what has been set. -/
theorem get_after_set {elements : List Ref} {index : Word} {value r : Ref}
    (sets : m.Sets past bases r index.toNat value m') (sound : m.memory.space.Sound)
    (entered : entryBase.toNat ∈ bases) (room : m.memory.stack.sp + 16 ≤ m.memory.stack.bytes.size)
    (has : m'.memory.Has ⟨r, m.known.array, .refs (elements.set index.toNat value)⟩)
    (inside : index.toNat < elements.length)
    (operands : ∀ (i : Nat) a, [r, ⟨index⟩][i]? = some a → m.memory.peekRef i = .ok a)
    (library : m'.HasLibrary) {k : Word} {m₁ : Machine} (fetched : fetch m' = .ok (.call k) m₁)
    (constant : textConstant m'.memory k = .ok "get") :
    ∃ m'', Runs entryBase (.call k :: (get elements index).body) m' m'' ∧
      m'.ReturnsValue m₁.memory.pc value m'' := by
  have receiver : m'.memory.Has ⟨r, m'.known.array, .refs (elements.set index.toNat value)⟩ :=
    sets.known_eq ▸ has
  have inside' : index.toNat < (elements.set index.toNat value).length := by
    rw [List.length_set]
    exact inside
  have room' : m'.memory.stack.sp + 16 ≤ m'.memory.stack.bytes.size := by
    rw [sets.stack.sp, sets.stack.size]
    exact room
  have nested' := sets.stack.nested
  have sound' := sets.sound sound
  let call := get (elements.set index.toNat value) index
  have takes : call.Takes m' [r, ⟨index⟩] := .get receiver inside'
  have constant : textConstant m'.memory k = .ok call.selector := constant
  obtain ⟨q, loads, inCall⟩ := call_loads library sound' nested'.bounded fetched constant takes
    (fun i a listed => sets.peekRef_eq (operands i a listed)) room' entryBase
  obtain ⟨value', m'', element, runs, returned⟩ :=
    get_ends library sound' nested' entered (by omega) receiver inside' inCall
  rw [List.getElem?_set_self inside] at element
  cases element
  exact ⟨m'', loads.trans runs, returned⟩

/-- **The end of a call**, whatever the method is. -/
theorem ends_of_takes (library : m.HasLibrary) (wf : m.memory.WellFormed objects)
    (nested : m.memory.stack.Nested bases) (entered : entryBase.toNat ∈ bases)
    (room : m.memory.stack.sp + 8 + 4 * refs.length ≤ m.memory.stack.bytes.size)
    (takes : call.Takes m refs)
    (operands : ∀ (i : Nat) r, refs[i]? = some r → m.memory.peekRef i = .ok r)
    (inCall : m.InCall past (call.loaded refs) call.ending q) :
    call.Ends entryBase objects bases m past refs call.ending q := by
  have room₁ : m.memory.stack.sp + 12 ≤ m.memory.stack.bytes.size := by
    obtain ⟨r, -, first, -⟩ := receiver_of_takes library takes
    have := (List.getElem?_eq_some_iff.1 first).1
    omega
  cases takes with
  | arithmetic receiver argument =>
    exact arithmetic_ends library wf nested entered room₁ receiver argument inCall
  | append receiver argument =>
    exact append_ends library wf nested entered room₁ receiver argument inCall
  | stringLength receiver => exact stringLength_ends library wf nested entered room₁ receiver inCall
  | arrayLength receiver => exact arrayLength_ends library wf nested entered room₁ receiver inCall
  | get receiver inside =>
    obtain ⟨value, m', element, runs, returned⟩ :=
      get_ends library wf.sound nested entered room₁ receiver inside inCall
    exact ends_of_answers rfl runs ⟨value, element, returned⟩
  | @set elements index value r receiver inside =>
    obtain ⟨m', runs, sets⟩ := set_ends library wf.sound nested entered receiver inside inCall
    have has := sets.has wf inside receiver
    refine ends_of_answers rfl runs ⟨r, rfl, sets, has, ?_, ?_⟩
    · intro object d other ne c content kept
      obtain ⟨_, -, holds⟩ := receiver
      exact sets.holds_other wf inside holds object other ne kept
    · intro library' k m₁ fetched constant
      have room₂ : m.memory.stack.sp + 8 + 4 * 3 ≤ m.memory.stack.bytes.size := room
      refine get_after_set sets wf.sound entered (by omega) has inside ?_ library' fetched constant
      intro i a listed
      refine operands i a ?_
      have inside := (List.getElem?_eq_some_iff.1 listed).1
      rw [← listed]
      exact List.getElem?_append_left inside

end Whole

end LibraryCall

/-- **Library methods compute what they are for.**  Take a machine with the library of new ones in the
    middle of a run, with its frames in order and the operands of a method on top of its stack, and
    let the next instruction be the call of that method.  The instructions of the method are carried
    out up to the return, unless the stack overflows, a divisor is zero, or there is no room for a
    new object; and the outcome is the one that the method is for, wherever a collection has moved
    everything to. -/
theorem library_methods_compute {setup : Setup} {m₀ m₁ : Machine} {k : Word} {call : LibraryCall}
    {refs : List Ref} (made : Machine.new setup = .ok m₀) (keeps : KeepsLibrary m₀ m)
    (wf : m.memory.WellFormed objects) (nested : m.memory.stack.Nested bases)
    (entered : entryBase.toNat ∈ bases) (fetched : fetch m = .ok (.call k) m₁)
    (constant : textConstant m.memory k = .ok call.selector) (takes : call.Takes m refs)
    (operands : ∀ (i : Nat) r, refs[i]? = some r → m.memory.peekRef i = .ok r) :
    if m.memory.stack.bytes.size < m.memory.stack.sp + 8 + 4 * refs.length then
      Breaks entryBase (.memory .stackOverflow) (.call k :: call.body) m
    else call.Ends entryBase objects bases m m₁.memory.pc refs (.call k :: call.body) m := by
  have library := keeps.hasLibrary made
  split
  · rename_i full
    exact LibraryCall.call_overflows library wf.sound nested.bounded fetched constant takes operands full
      entryBase
  · rename_i room
    have room := Nat.not_lt.1 room
    obtain ⟨q, loads, inCall⟩ := LibraryCall.call_loads library wf.sound nested.bounded fetched constant
      takes operands room entryBase
    exact (LibraryCall.ends_of_takes library wf nested entered room takes operands inCall).after loads

/-! ### Calls on a new machine -/

/-- **Code that is to come.**  Where there is room for it, code that sends a selector is stored. -/
theorem KeepsLibrary.exists_stored {m₀ m : Machine} (keeps : KeepsLibrary m₀ m) (selector : String)
    (code : Word → List UInt8) (few : m.memory.constants.entries.size < wordLimit)
    (small : m.memory.code.bytes.size < wordLimit) (limit : m.memory.code.limit = m₀.memory.code.limit)
    (room : ∀ k, m.memory.code.bytes.size + (code k).length ≤ m.memory.code.limit) :
    ∃ k entry m₁ arena constants, let m₂ : Machine := { m with memory := { m.memory with
        code := arena, constants := constants } }
      (Memory.addConstant (.text selector) : Run Word) m = .ok k m₁ ∧
      (Memory.storeCode (code k) : Run CodeAddress) m₁ = .ok entry m₂ ∧
      textConstant m₂.memory k = .ok selector ∧
      m₂.memory.code.bytes.toList.drop entry.word.toNat = code k ∧ KeepsLibrary m₀ m₂ := by
  let pool := m.memory.constants.add (.text selector)
  have constant : pool.2.entries[pool.1.toNat]? = some (.text selector) :=
    ConstantPool.getElem?_add _ _ ((ConstantPool.size_add _ _).trans few)
  let m₁ : Machine := { m with memory := { m.memory with constants := pool.2 } }
  have stored : Memory.storeCode (code pool.1) m₁.memory = _ := Memory.storeCode_eq (room pool.1)
  refine ⟨pool.1, _, m₁, _, pool.2, rfl, Lockstep.onMemory_ok stored, ?_,
    Bytes.drop_appendList small _, { keeps with code := ?_, fits := ?_ }⟩
  · change (liftMemory (pool.2.get pool.1) >>= _) = _
    unfold ConstantPool.get
    rw [constant]
    rfl
  · change _ <+: (m.memory.code.bytes.appendList _).toList
    rw [Array.appendList_eq_append, Array.toList_appendList]
    exact keeps.code.trans (List.prefix_append _ _)
  · change (m.memory.code.bytes.appendList _).size ≤ _
    rw [Array.appendList_eq_append, ← Array.length_toList, Array.toList_appendList,
      List.length_append, Array.length_toList, ← limit]
    exact room pool.1

theorem KeepsLibrary.refl {m : Machine} (fits : m.memory.code.bytes.size ≤ m.memory.code.limit) :
    KeepsLibrary m m :=
  ⟨rfl, fun _ _ found => found, List.prefix_refl _, fits, List.prefix_refl _, fun _ _ found => found⟩

/-- **A call that is to come.**  On a new machine of modest size, a call of any selector is stored and
    entered. -/
theorem exists_calling {m₀ : Machine} (made : Machine.new modestSetup = .ok m₀) (selector : String) :
    ∃ k entry m₁ m₂ m₃, (Memory.addConstant (.text selector) : Run Word) m₀ = .ok k m₁ ∧
      (Memory.storeCode (Instruction.call k).encode : Run CodeAddress) m₁ = .ok entry m₂ ∧
      enter entry 0 m₂ = .ok () m₃ ∧ textConstant m₃.memory k = .ok selector ∧
      m₃.unread = (Instruction.call k).encode ++ [] ∧ KeepsLibrary m₀ m₃ ∧
      ∃ code constants, m₃ = { m₀ with memory := { m₀.memory with
        code := code, constants := constants, pc := entry
        stack := m₀.memory.stack.opened m₀.memory.pc } } := by
  obtain ⟨-, library, limit, sp, size⟩ := facts_of_new made
  have keeps : KeepsLibrary m₀ m₀ := .refl (by rw [library, limit]; decide)
  have few := constants_of_new made
  obtain ⟨k, entry, m₁, code, constants, added, stored, constant, unread, keeps⟩ :=
    keeps.exists_stored selector (fun k => (Instruction.call k).encode) (few.trans_lt (by decide))
      (by rw [library]; decide) rfl fun k => by
        rw [library, limit, show (Instruction.call k).encode.length = 5 from Instruction.length_encode _]
        decide
  have frame : m₀.memory.stack.sp + 8 ≤ m₀.memory.stack.bytes.size := by
    rw [sp, size]
    decide
  exact ⟨k, entry, m₁, _, _, added, stored, enter_eq _ frame, constant,
    unread.trans (List.append_nil _).symm, { keeps with }, code, constants, rfl⟩

/-- **Operands are offered**: they are pushed, the first one last. -/
structure Offers (m : Machine) (objects : Set Ref) (bases : List Nat) (refs : List Ref) (q : Machine) :
    Prop where
  same : q = { m with memory := { m.memory with stack := q.memory.stack } }
  wf : q.memory.WellFormed objects
  nested : q.memory.stack.Nested bases
  sp : q.memory.stack.sp = m.memory.stack.sp + 4 * refs.length
  size : q.memory.stack.bytes.size = m.memory.stack.bytes.size
  operands : ∀ (i : Nat) a, refs[i]? = some a → q.memory.peekRef i = .ok a

theorem Offers.pushRef {refs : List Ref} {a : Ref} (offers : m.Offers objects bases refs q)
    (room : m.memory.stack.sp + 4 * refs.length + 4 ≤ m.memory.stack.bytes.size)
    (value : a ∈ objects ∨ Stray addressGuard m.memory.space.bytes.size a) :
    ∃ q', (Memory.pushRef a : Run Unit) q = .ok () q' ∧ m.Offers objects bases (a :: refs) q' := by
  have room : q.memory.stack.sp + 4 ≤ q.memory.stack.bytes.size := by
    rw [offers.sp, offers.size]
    exact room
  have value : a ∈ objects ∨ Stray addressGuard q.memory.space.bytes.size a := by
    rw [offers.same]
    exact value
  refine ⟨_, Lockstep.onMemory_ok (Memory.pushRef_eq room), ?_,
    wellFormed_pushed offers.wf offers.nested room value, offers.nested.pushed room a.word, ?_,
    (Bytes.size_overwrite _ _ _).trans offers.size, ?_⟩
  · rw [offers.same]
  · change q.memory.stack.sp + 4 = _
    rw [offers.sp, List.length_cons]
    omega
  · intro i b listed
    cases i with
    | zero =>
      cases listed
      exact peekRef_eq (Nat.le_add_left 4 _) (Bytes.word?_overwrite_self _ _ _ room)
    | succ i => exact peekRef_pushed offers.nested.bounded room (offers.operands i b listed) a.word

/-- An element of a new Array is set. -/
theorem library_sets_element : ∃ m₀ m₁ m₂ m₃ m₄ m₅ m₆ m₇ m' k entry r,
    Machine.new modestSetup = .ok m₀ ∧ (Memory.addConstant (.text "set") : Run Word) m₀ = .ok k m₁ ∧
    (Memory.storeCode (Instruction.call k).encode : Run CodeAddress) m₁ = .ok entry m₂ ∧
    enter entry 0 m₂ = .ok () m₃ ∧ newArray 1 m₃ = .ok r m₄ ∧
    (pushRef ⟨7⟩ : Run Unit) m₄ = .ok () m₅ ∧ (pushRef ⟨0⟩ : Run Unit) m₅ = .ok () m₆ ∧
    (pushRef r : Run Unit) m₆ = .ok () m₇ ∧
    Runs 0 [.call k, .loadArg 0, .loadArg 1, .loadArg 2, .setField, .ret] m₇ m' ∧
    m'.memory.Has ⟨r, m₇.known.array, .refs [⟨7⟩]⟩ ∧ m'.memory.peekRef 0 = .ok r := by
  obtain ⟨m₀, made⟩ := Machine.exists_new (show modestSetup.settings.validate = .ok () from rfl)
    (by decide) (by decide)
  obtain ⟨objects, new⟩ := isNew_of_new made
  obtain ⟨k, entry, m₁, m₂, m₃, added, stored, entered, constant, unread, keeps, code, constants, rfl⟩ :=
    exists_calling made "set"
  have frame : m₀.memory.stack.sp + 8 ≤ m₀.memory.stack.bytes.size := by
    rw [new.sp, new.stack_size]
    decide
  have opened := @FrameStack.inCall_opened _ m₀.memory.pc frame
  let m₃ : Machine := { m₀ with memory := { m₀.memory with
    code := code, constants := constants, pc := entry
    stack := m₀.memory.stack.opened m₀.memory.pc } }
  have nested₃ : m₃.memory.stack.Nested [0] := new.sp ▸ opened.nested new.nested
  have wf₃ : m₃.memory.WellFormed objects := by
    have inside := new.wf.withStack fun a live =>
      new.wf.graph.root a (List.mem_append_right _ (liveWords_inCall opened new.nested a live))
    exact ⟨inside.sound, inside.graph⟩
  -- the Array
  obtain ⟨c, known⟩ := new.exists_array
  obtain ⟨r, M, array, adds⟩ := @newArray_of_room m₃ c new.wf.sound known 1 (by
    have room : 1200 ≤ m₀.memory.space.free + 351 := new.half_le_free
    change 15 ≤ m₀.memory.space.free
    omega)
  have fields : ∀ w, Value.raw w ∈ (Content.refs [Ref.null]).values →
      (⟨w⟩ : Ref) ∈ objects ∨ Stray addressGuard m₃.memory.space.bytes.size ⟨w⟩ := by
    intro w mem
    cases List.mem_singleton.1 mem
    exact Or.inr (stray_null wf₃.sound)
  have work : Working m₃.memory objects [0] M (insert r objects) id _ :=
    wf₃.working.adds wf₃ known adds fields
  obtain ⟨code_eq, pc_eq, methods_eq, constants_eq⟩ :
      M.code = code ∧ M.pc = entry ∧ M.methods = m₀.memory.methods ∧ M.constants = constants :=
    Memory.program_eq_iff.1 adds.program
  -- the operands
  have nested₄ : M.stack.Nested [0] := adds.stack ▸ nested₃
  have sp₄ : M.stack.sp = 8 := adds.stack ▸ congrArg (· + 8) new.sp
  have size₄ : M.stack.bytes.size = 64 := adds.stack ▸ opened.size.trans new.stack_size
  let m₄ : Machine := { m₃ with memory := M }
  have none : m₄.Offers (insert r objects) [0] [] m₄ := ⟨rfl, work.wf, nested₄, rfl, rfl, by simp⟩
  have low : ∀ a : Ref, a.offset 0 < addressGuard → Stray addressGuard M.space.bytes.size a :=
    fun a below inside => absurd inside.1 (Nat.not_le.2 below)
  obtain ⟨m₅, pushed₅, one⟩ := none.pushRef (by change M.stack.sp + 0 + 4 ≤ M.stack.bytes.size; omega)
    (Or.inr (low ⟨7⟩ (by decide)))
  obtain ⟨m₆, pushed₆, two⟩ := one.pushRef (by change M.stack.sp + 4 + 4 ≤ M.stack.bytes.size; omega)
    (Or.inr (low ⟨0⟩ (by decide)))
  obtain ⟨m₇, pushed₇, three⟩ := two.pushRef (by change M.stack.sp + 8 + 4 ≤ M.stack.bytes.size; omega)
    (Or.inl (Set.mem_insert r objects))
  -- the call
  have keeps₇ : KeepsLibrary m₀ m₇ := by
    have kept := keeps.carried wf₃ nested₃ work.carries code_eq methods_eq
    rw [three.same]
    exact { kept with }
  have unread₇ : m₇.unread = (Instruction.call k).encode ++ [] := by
    rw [three.same]
    change M.code.bytes.toList.drop M.pc.word.toNat = _
    rw [code_eq, pc_eq]
    exact unread
  obtain ⟨pc, fetched, -⟩ := fetch_eq (keeps₇.hasLibrary made).small unread₇
  have constant₇ : textConstant m₇.memory k = .ok "set" := by
    rw [three.same]
    change (liftMemory (M.constants.get k) >>= _) = _
    rw [constants_eq]
    exact constant
  have receiver : m₇.memory.Has ⟨r, m₇.known.array, .refs [Ref.null]⟩ := by
    have holds := adds.holds wf₃.sound.start_le_top
    rw [three.same]
    exact ⟨c, (classOrNull_congr adds.classes _).trans known, holds.low, holds.high, holds.shows_⟩
  let call : LibraryCall := .set [Ref.null] 0 ⟨7⟩
  have takes : call.Takes m₇ [r, ⟨0⟩, ⟨7⟩] := .set receiver (by decide)
  have outcome := library_methods_compute made keeps₇ three.wf three.nested
    (show (0 : Word).toNat ∈ [0] by decide) fetched
    (show textConstant _ _ = .ok call.selector from constant₇) takes three.operands
  have room : ¬m₇.memory.stack.bytes.size <
      m₇.memory.stack.sp + 8 + 4 * ([r, ⟨0⟩, ⟨7⟩] : List Ref).length := by
    have length : ([r, ⟨0⟩, ⟨7⟩] : List Ref).length = 3 := rfl
    have sp₇ : m₇.memory.stack.sp = M.stack.sp + 12 := three.sp
    have size₇ : m₇.memory.stack.bytes.size = M.stack.bytes.size := three.size
    omega
  rw [if_neg room] at outcome
  unfold LibraryCall.Ends at outcome
  rw [if_neg (show ¬call.dividesByZero = true from Bool.false_ne_true)] at outcome
  rcases outcome with ⟨impossible, -⟩ | ⟨m', runs, a, first, sets, has, -⟩
  · cases impossible
  · cases first
    exact ⟨m₀, m₁, m₂, _, m₄, m₅, m₆, m₇, m', k, entry, r, made, added, stored, entered, array, pushed₅,
      pushed₆, pushed₇, runs, has, sets.peekRef_eq (three.operands 0 r rfl)⟩

/-! ### A receiver in the place of bookkeeping -/

/-- **A method that cannot return.**  The String lies in the place of the bookkeeping of the frame;
    so does the frame of the method, and the machine refuses to go back to what is below it. -/
theorem stringLength_cannot_return {m₁ : Machine} {k : Word} {text : List UInt8} {s : Ref}
    (library : m.HasLibrary) (sound : m.memory.space.Sound) (bounded : m.memory.stack.Bounded)
    (fetched : fetch m = .ok (.call k) m₁) (constant : textConstant m.memory k = .ok "length")
    (receiver : m.memory.Has ⟨s, m.known.string, .bytes text⟩) (top : m.memory.peekRef 0 = .ok s)
    (open_ : m.memory.stack.bp ≠ noFrame) (overlap : m.memory.stack.sp < m.memory.stack.bp.toNat + 8)
    (room : m.memory.stack.sp + 12 ≤ m.memory.stack.bytes.size) (free : 15 ≤ m.memory.space.free)
    (entryBase : Word) :
    Breaks entryBase (.memory (.corruptFrame (UInt32.ofNat m.memory.stack.sp)))
      (.call k :: (LibraryCall.stringLength text).body) m := by
  let call := LibraryCall.stringLength text
  have takes : call.Takes m [s] := .stringLength receiver
  have operands : ∀ (i : Nat) a, [s][i]? = some a → m.memory.peekRef i = .ok a := by
    intro i a listed
    rw [List.getElem?_singleton] at listed
    split at listed
    · rename_i first
      cases listed
      exact first ▸ top
    · cases listed
  obtain ⟨q, loads, inCall⟩ := LibraryCall.call_loads library sound bounded fetched
    (show textConstant m.memory k = .ok call.selector from constant) takes operands room entryBase
  obtain ⟨q₁, q₂, fetched₁, advanced, inCall₂⟩ := inCall.advance_eq library.small entryBase
  obtain ⟨q₃, invoked, inCall₃⟩ :=
    inCall₂.invoke_eq library (show ⟨9, "str-length", .stringLength⟩ ∈ _ by decide)
  have one : m.InCall m₁.memory.pc ([] ++ [s.word]) [.retTop] q₃ := inCall₃
  obtain ⟨q₄, popped, inCall₄⟩ := one.popString_ok sound receiver
  -- there is room for the result
  obtain ⟨c, known⟩ := library.exists_integer
  rw [← inCall₄.known_eq, ← inCall₄.classOrNull_eq] at known
  have free₄ : 15 ≤ q₄.memory.space.free := by
    obtain ⟨t, pc, journal, rfl, -⟩ := inCall₄.exists_eq
    exact free
  obtain ⟨r, M, made, adds⟩ :=
    newInteger_of_room (inCall₄.sound sound) known (UInt32.ofNat text.length) free₄
  have inCall₅ := inCall₄.adds adds
  obtain ⟨q₅, pushed, inCall₅⟩ := inCall₅.pushRef_ok room r
  have performed : invoke 9 q₂ = .ok () q₅ :=
    invoked.trans ((run_bind_ok popped).trans ((run_bind_ok made).trans pushed))
  -- but not for going back
  have small : M.code.bytes.size < wordLimit := by
    rw [(Memory.program_eq_iff.1 adds.program).1]
    obtain ⟨t, pc, journal, rfl, -⟩ := inCall₄.exists_eq
    exact library.small
  obtain ⟨q₆, q₇, fetched₆, advanced₆, inCall₇⟩ := inCall₅.advance_eq small entryBase
  obtain ⟨q₈, failed⟩ := inCall₇.retTop_corrupt bounded open_ overlap entryBase
  exact loads.breaks (.later fetched₁ (advanced.trans (run_bind_ok performed))
    (.here fetched₆ (advanced₆.trans failed)))

/-- **Not every call of a library method returns.**  On a new machine, a frame is entered and both
    words of its bookkeeping are popped; a String is pushed in their place, and asked for its
    length. -/
theorem library_length_cannot_return : ∃ m₀ m₁ m₂ m₃ m₄ m₅ m₆ m₇ k entry v w s objects,
    Machine.new modestSetup = .ok m₀ ∧ (Memory.addConstant (.text "length") : Run Word) m₀ = .ok k m₁ ∧
    (Memory.storeCode (Instruction.call k).encode : Run CodeAddress) m₁ = .ok entry m₂ ∧
    enter entry 0 m₂ = .ok () m₃ ∧ (popWord : Run Word) m₃ = .ok v m₄ ∧
    (popWord : Run Word) m₄ = .ok w m₅ ∧ newString [97, 98] m₅ = .ok s m₆ ∧
    (Memory.pushRef s : Run Unit) m₆ = .ok () m₇ ∧ KeepsLibrary m₀ m₇ ∧
    m₇.memory.WellFormed objects ∧ (LibraryCall.stringLength [97, 98]).Takes m₇ [s] ∧
    m₇.memory.peekRef 0 = .ok s ∧ textConstant m₇.memory k = .ok "length" ∧
    Breaks 0 (.memory (.corruptFrame 4)) (.call k :: (LibraryCall.stringLength [97, 98]).body) m₇ := by
  obtain ⟨m₀, made⟩ := Machine.exists_new (show modestSetup.settings.validate = .ok () from rfl)
    (by decide) (by decide)
  obtain ⟨objects, new⟩ := isNew_of_new made
  obtain ⟨k, entry, m₁, m₂, m₃, added, stored, entered, constant, unread, keeps, code, constants, rfl⟩ :=
    exists_calling made "length"
  -- the frame without its bookkeeping
  have frame : m₀.memory.stack.sp + 8 ≤ m₀.memory.stack.bytes.size := by
    rw [new.sp, new.stack_size]
    decide
  have opened := @FrameStack.inCall_opened _ m₀.memory.pc frame
  let t := m₀.memory.stack.opened m₀.memory.pc
  have sp : t.sp = 8 := congrArg (· + 8) new.sp
  have size : t.bytes.size = 64 := opened.size.trans new.stack_size
  have link : t.bytes.word? (t.dropped.sp - 4) = some m₀.memory.stack.bp := by
    have word := opened.link
    rw [new.sp] at word
    change t.bytes.word? (t.sp - 4 - 4) = _
    rw [sp]
    exact word
  have returnTo : t.bytes.word? (t.sp - 4) = some m₀.memory.pc.word := by
    have word := opened.returnTo
    rw [new.sp] at word
    rw [sp]
    exact word
  let inFrame (s : FrameStack) : Machine := { m₀ with memory := { m₀.memory with
    code := code, constants := constants, pc := entry, stack := s } }
  have popped₄ : (popWord : Run Word) (inFrame t) = .ok m₀.memory.pc.word (inFrame t.dropped) := by
    have pop : Memory.popWord (inFrame t).memory = .ok _ (inFrame t.dropped).memory :=
      Memory.onStack_ok (FrameStack.pop_eq (show 4 ≤ t.sp by omega) returnTo)
    exact Lockstep.onMemory_ok pop
  have popped₅ : (popWord : Run Word) (inFrame t.dropped) =
      .ok m₀.memory.stack.bp (inFrame t.dropped.dropped) := by
    have pop : Memory.popWord (inFrame t.dropped).memory = .ok _ (inFrame t.dropped.dropped).memory :=
      Memory.onStack_ok (FrameStack.pop_eq (show 4 ≤ t.sp - 4 by omega) link)
    exact Lockstep.onMemory_ok pop
  -- the String
  obtain ⟨c, known⟩ := new.exists_string
  have free₀ : 1200 ≤ m₀.memory.space.free + 351 := new.half_le_free
  obtain ⟨s, M, string, adds⟩ := @newString_of_room (inFrame t.dropped.dropped) c new.wf.sound known
    [97, 98] (by decide) (show 13 ≤ m₀.memory.space.free by omega)
  have stack : M.stack = t.dropped.dropped := adds.stack
  have sp₆ : M.stack.sp = 0 := by
    rw [stack]
    change t.sp - 4 - 4 = 0
    omega
  have size₆ : M.stack.bytes.size = 64 := stack ▸ size
  have room : M.stack.sp + 4 ≤ M.stack.bytes.size := by omega
  let m₇ : Machine := { inFrame t with memory := { M with stack := M.stack.pushed s.word } }
  have pushed : (Memory.pushRef s : Run Unit) { inFrame t with memory := M } = .ok () m₇ :=
    Lockstep.onMemory_ok (Memory.pushRef_eq room)
  have word : m₇.memory.stack.bytes.word? M.stack.sp = some s.word :=
    Bytes.word?_overwrite_self _ _ _ room
  have sp₇ : m₇.memory.stack.sp = 4 := congrArg (· + 4) sp₆
  have size₇ : m₇.memory.stack.bytes.size = 64 := (Bytes.size_overwrite _ _ _).trans size₆
  have bp₇ : m₇.memory.stack.bp = 0 := by
    change M.stack.bp = 0
    rw [stack]
    change UInt32.ofNat m₀.memory.stack.sp = 0
    rw [new.sp]
    rfl
  have top₇ : m₇.memory.peekRef 0 = .ok s := by
    exact peekRef_eq (Nat.le_add_left 4 _) word
  -- everything else is in order
  let start := inFrame m₀.memory.stack
  have wf : start.memory.WellFormed objects := ⟨new.wf.sound, new.wf.graph⟩
  have with_string : start.memory.Adds { M with stack := m₀.memory.stack } s c (.bytes [97, 98]) :=
    { adds with stack := rfl }
  have work : Working start.memory objects [] { M with stack := m₀.memory.stack } (insert s objects) id _ :=
    wf.working.adds wf known with_string nofun
  have wf₇ : m₇.memory.WellFormed (insert s objects) := by
    refine work.wf.withStack fun a live => ?_
    obtain ⟨offset, aligned, below, found⟩ := FrameStack.word?_of_liveWords live
    have bottom : offset = M.stack.sp := by
      change offset < M.stack.sp + 4 at below
      omega
    rw [bottom] at found
    have same : a = s := congrArg Ref.mk (Option.some.inj (found.symm.trans word))
    exact Or.inl (same ▸ Set.mem_insert s objects)
  obtain ⟨code_eq, pc_eq, methods_eq, constants_eq⟩ :
      M.code = code ∧ M.pc = entry ∧ M.methods = m₀.memory.methods ∧ M.constants = constants :=
    Memory.program_eq_iff.1 adds.program
  have keeps₇ : KeepsLibrary m₀ m₇ := by
    have before : KeepsLibrary m₀ start := { keeps with }
    have kept := before.carried wf new.nested work.carries code_eq methods_eq
    exact { kept with }
  have unread₇ : m₇.unread = (Instruction.call k).encode ++ [] := by
    change M.code.bytes.toList.drop M.pc.word.toNat = _
    rw [code_eq, pc_eq]
    exact unread
  obtain ⟨pc, fetched, -⟩ := fetch_eq (keeps₇.hasLibrary made).small unread₇
  have constant₇ : textConstant m₇.memory k = .ok "length" := by
    change (liftMemory (M.constants.get k) >>= _) = _
    rw [constants_eq]
    exact constant
  have receiver : m₇.memory.Has ⟨s, m₇.known.string, .bytes [97, 98]⟩ := by
    have holds := adds.holds new.wf.sound.start_le_top
    exact ⟨c, (classOrNull_congr adds.classes _).trans known, holds.low, holds.high, holds.shows_⟩
  have free₇ : 15 ≤ m₇.memory.space.free := by
    have taken : M.space.free + 13 = m₀.memory.space.free := adds.free_eq new.wf.sound
    change 15 ≤ M.space.free
    omega
  have bounded : m₇.memory.stack.Bounded := by
    refine ⟨?_, ?_, fun _ => ?_⟩
    · rw [size₇]
      decide
    · rw [size₇, sp₇]
      decide
    · rw [size₇, bp₇]
      decide
  have breaks := stringLength_cannot_return (keeps₇.hasLibrary made) adds.sound bounded fetched constant₇
    receiver top₇ (by rw [bp₇]; decide) (by rw [sp₇, bp₇]; decide) (by rw [sp₇, size₇]; decide) free₇ 0
  rw [sp₇] at breaks
  exact ⟨m₀, m₁, m₂, _, _, _, _, m₇, k, entry, _, _, s, _, made, added, stored, entered, popped₄, popped₅,
    string, pushed, keeps₇, wf₇, .stringLength receiver, top₇, constant₇, breaks⟩

end Machine

end ObjectMachine

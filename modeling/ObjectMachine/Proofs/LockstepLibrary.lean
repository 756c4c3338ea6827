/-
  ObjectMachine/Proofs/LockstepLibrary.lean
  =========================================
  **The library in lockstep** — the machine as it is made, and how much room its library
  takes.

  The methods of the library are quiet: assembling them asks for services only, and leaves
  the machine as it was.  So the classes, the methods and the code of a new machine are
  counted, and the library can be made wherever it has room.
-/
import ObjectMachine.Proofs.LockstepAssembly

namespace ObjectMachine

open IdealMemory

/-! ### Quiet code -/

/-- A host that knows the standard services and nothing else. -/
def Resolver.standard : Resolver Unit where
  text _ := pure 0
  number _ := pure 0
  name op value :=
    match op with
    | .syscall => pure (ServiceTable.standard.idOf? value)
    | _ => pure none

/-- Whether the operands are words, labels and names of services. -/
def SourceLine.quiet (line : SourceLine) : Bool :=
  line.operands.all fun
    | .word _ | .label _ => true
    | .name _ => line.op == .syscall
    | _ => false

/-- Quiet code. -/
def quietCode? (lines : List String) : Option (List UInt8) :=
  match Layout.ofSource ("\n".intercalate lines) with
  | .error _ => none
  | .ok layout =>
    if layout.lines.toList.all SourceLine.quiet then
      match (Resolver.standard.instructions layout 0 layout.lines.toList).run.run () with
      | (.ok code, _) => some (Instruction.encodeAll code)
      | _ => none
    else none

/-- The length of the code of quiet methods. -/
def codeLength? : List MethodSource → Option Nat
  | [] => some 0
  | source :: rest => do return (← quietCode? source.body).length + (← codeLength? rest)

/-- The code of quiet methods, one after the other. -/
def quietCodes? (sources : List MethodSource) : Option (List (List UInt8)) :=
  sources.mapM fun source => quietCode? source.body

theorem quietCodes?_cons {source : MethodSource} {rest : List MethodSource} {codes : List (List UInt8)}
    (quiet : quietCodes? (source :: rest) = some codes) :
    ∃ code others, codes = code :: others ∧ quietCode? source.body = some code ∧
      quietCodes? rest = some others := by
  unfold quietCodes? at quiet
  rw [List.mapM_cons] at quiet
  obtain ⟨code, first, quiet⟩ := Option.bind_eq_some_iff.1 quiet
  obtain ⟨others, later, quiet⟩ := Option.bind_eq_some_iff.1 quiet
  exact ⟨code, others, (Option.some.inj quiet).symm, first, later⟩

theorem codeLength?_of_codes {sources : List MethodSource} {codes : List (List UInt8)}
    (quiet : quietCodes? sources = some codes) :
    codeLength? sources = some (codes.map List.length).sum := by
  induction sources generalizing codes with
  | nil =>
    cases quiet
    rfl
  | cons source rest ih =>
    obtain ⟨code, others, rfl, first, later⟩ := quietCodes?_cons quiet
    rw [codeLength?, first, ih later]
    rfl

namespace Library

/-! The methods of the library, as instructions. -/

def objectBodies : List (List Instruction) := [[.ret]]

def arrayBodies : List (List Instruction) := [
  [.loadArg 0, .syscall 11, .retTop],
  [.loadArg 0, .loadArg 1, .getField, .retTop],
  [.loadArg 0, .loadArg 1, .loadArg 2, .setField, .ret]]

def integerBodies : List (List Instruction) :=
  [.addInt, .subInt, .mulInt, .divInt, .modInt].map fun op => [.loadArg 0, .loadArg 1, op, .retTop]

def stringBodies : List (List Instruction) := [
  [.loadArg 0, .syscall 9, .retTop],
  [.loadArg 1, .loadArg 0, .syscall 10, .retTop]]

def openBody (service : Word) : List Instruction :=
  [.loadArg 1, .syscall service, .storeLocal 0, .loadArg 0, .pushInt 0, .loadLocal 0, .setField, .ret]

def handleBody : List Instruction := [.loadArg 0, .pushInt 0, .getField]

def textFileReaderBodies : List (List Instruction) :=
  [openBody 2, handleBody ++ [.syscall 4, .ret], handleBody ++ [.syscall 6, .retTop]]

def textFileWriterBodies : List (List Instruction) :=
  [openBody 3, handleBody ++ [.syscall 5, .ret], handleBody ++ [.loadArg 1, .syscall 7, .ret]]

end Library

namespace Resolver

variable {α β : Type} {m : Machine}

/-- The machine does what the standard host does, and stays as it is. -/
def Quiet (x : Run Machine α) (y : Run Unit α) (m : Machine) : Prop :=
  ∀ r, y.run.run () = (r, ()) → x.run.run m = (r, m)

theorem Quiet.of_pure (a : α) : Quiet (pure a) (pure a) m := by
  intro r run
  cases run
  rfl

theorem Quiet.of_throw (e : AssemblyError) : Quiet (throw e : Run Machine α) (throw e) m := by
  intro r run
  cases run
  rfl

theorem Quiet.bind {x : Run Machine α} {y : Run Unit α} {f : α → Run Machine β}
    {g : α → Run Unit β} (h : Quiet x y m) (next : ∀ a, Quiet (f a) (g a) m) :
    Quiet (x >>= f) (y >>= g) m := by
  intro r run
  generalize first : y.run.run () = result at *
  obtain ⟨r₁, ⟨⟩⟩ := result
  cases r₁ with
  | error e =>
    rw [run_bind_error first] at run
    cases run
    exact run_bind_error (h _ first)
  | ok a =>
    rw [run_bind_ok first] at run
    rw [run_bind_ok (h _ first)]
    exact next a r run

theorem Quiet.mapM {f : α → Run Machine β} {g : α → Run Unit β} {xs : List α}
    (h : ∀ x ∈ xs, Quiet (f x) (g x) m) : Quiet (xs.mapM f) (xs.mapM g) m := by
  induction xs with
  | nil => exact Quiet.of_pure []
  | cons x xs ih =>
    rw [List.mapM_cons, List.mapM_cons]
    refine Quiet.bind (h x List.mem_cons_self) fun y => ?_
    refine Quiet.bind (ih fun x mem => h x (List.mem_cons_of_mem _ mem)) fun ys => ?_
    exact Quiet.of_pure (y :: ys)

variable (services : m.services = .standard)
include services

theorem quiet_instruction (layout : Layout) {line : SourceLine} (stop : Nat)
    (quiet : line.quiet = true) :
    Quiet (Machine.resolver.instruction layout line stop) (standard.instruction layout line stop)
      m := by
  refine Quiet.bind (Quiet.mapM ?_) fun words => ?_
  · intro o mem
    have fits := List.all_eq_true.1 quiet o mem
    cases o with
    | word value => exact Quiet.of_pure value
    | label label =>
      unfold word
      dsimp only
      split
      · split
        · exact Quiet.of_pure _
        · exact Quiet.of_throw _
      · exact Quiet.of_throw _
    | name value =>
      have op : line.op = .syscall := by simpa using fits
      refine Quiet.bind ?_ fun found => ?_
      · intro r run
        rw [op] at run ⊢
        cases run
        rw [← services]
        rfl
      · cases found with
        | some index => exact Quiet.of_pure index
        | none => exact Quiet.of_throw _
    | text value => cases fits
    | number value => cases fits
  · split
    · exact Quiet.of_pure _
    · exact Quiet.of_throw _

theorem quiet_instructions (layout : Layout) {lines : List SourceLine} {start : Nat}
    (quiet : ∀ line ∈ lines, line.quiet = true) :
    Quiet (Machine.resolver.instructions layout start lines)
      (standard.instructions layout start lines) m := by
  induction lines generalizing start with
  | nil => exact Quiet.of_pure []
  | cons line lines ih =>
    refine Quiet.bind (quiet_instruction services layout _ (quiet line List.mem_cons_self))
      fun i => ?_
    refine Quiet.bind (ih fun line mem => quiet line (List.mem_cons_of_mem _ mem)) fun rest => ?_
    exact Quiet.of_pure (i :: rest)

/-- **Quiet code** is assembled, and the machine stays as it is. -/
theorem assembleLines_quiet {lines : List String} {code : List UInt8}
    (h : quietCode? lines = some code) :
    (assembleLines Machine.resolver lines).run.run m = (.ok code, m) := by
  unfold quietCode? at h
  unfold assembleLines assemble
  cases found : Layout.ofSource ("\n".intercalate lines) with
  | error e =>
    rw [found] at h
    cases h
  | ok layout =>
    rw [found] at h
    dsimp only at h ⊢
    split at h
    · rename_i quiet
      split at h
      · rename_i run
        cases h
        have same := quiet_instructions services layout (List.all_eq_true.1 quiet) _ run
        rw [run_bind_ok same]
        rfl
      · cases h
    · cases h

end Resolver

/-! ### How far a machine is made -/

/-- Heap bytes of the objects of the library. -/
def libraryVolume : Nat := 351

/-- Bytes of the code of the library. -/
def libraryCode : Nat := 265

/-- What there is of a machine. -/
structure Stage where
  records : List ClassRecord
  volume : Nat
  code : Nat
  methods : Nat
  known : KnownClasses

/-- Number of classes. -/
def Stage.classes (s : Stage) : Nat := s.records.length

/-- A machine without classes. -/
def Stage.bare : Stage := ⟨[], 0, 0, 0, {}⟩

/-- The classes of the library. -/
def libraryRecords : List ClassRecord := [
  ⟨"Metaclass", some ⟨1⟩, some ⟨0⟩⟩,
  ⟨"Object", none, some ⟨0⟩⟩,
  ⟨"Array", some ⟨1⟩, some ⟨0⟩⟩,
  ⟨"Integer", some ⟨1⟩, some ⟨0⟩⟩,
  ⟨"String", some ⟨1⟩, some ⟨0⟩⟩,
  ⟨"TextFileReader", some ⟨1⟩, some ⟨0⟩⟩,
  ⟨"TextFileWriter", some ⟨1⟩, some ⟨0⟩⟩]

/-- A machine with the library. -/
def Stage.ready : Stage where
  records := libraryRecords
  volume := libraryVolume
  code := libraryCode
  methods := 17
  known := ⟨some ⟨0⟩, some ⟨1⟩, some ⟨2⟩, some ⟨3⟩, some ⟨4⟩, some ⟨5⟩, some ⟨6⟩⟩

/-- The world is at a stage. -/
structure World.At {ι : Type} (w : World ι) (settings : Settings) (s : Stage) : Prop where
  described : w.memory.Describes s.records
  volume : ObjectMachine.volume w.memory.store w.memory.next = s.volume
  code : w.memory.code.bytes.size = s.code
  code_limit : w.memory.code.limit = settings.codeSize
  stack_size : w.memory.stackSize = settings.stackSize
  cells : w.memory.cells = []
  methods : w.memory.methods.size = s.methods
  known : w.host.known = s.known
  services : w.host.services = .standard

/-- The class is registered, if there is one. -/
def Stage.Has (s : Stage) (c : Option ClassId) : Prop := ∀ id ∈ c, id.index.toNat < s.classes

instance (s : Stage) (c : Option ClassId) : Decidable (s.Has c) :=
  inferInstanceAs (Decidable (∀ id ∈ c, id.index.toNat < s.classes))

namespace IdealMemory

variable (A : IdealMemory)

theorem volume_setContent {id : Nat} {c : Content} (same : c.extent = (A.store id).content.extent) :
    volume (A.setContent id c).store (A.setContent id c).next = volume A.store A.next := by
  refine volume_congr fun id' _ => ?_
  change (Function.update A.store id _ id').content.extent = _
  by_cases eq : id' = id
  · rw [eq, Function.update_self]
    exact same
  · rw [Function.update_of_ne eq]

theorem volume_setCls (id : Nat) (v : Value) :
    volume (A.setCls id v).store (A.setCls id v).next = volume A.store A.next := by
  refine volume_congr fun id' _ => ?_
  change (Function.update A.store id _ id').content.extent = _
  by_cases eq : id' = id
  · rw [eq, Function.update_self]
  · rw [Function.update_of_ne eq]

theorem volume_allocate (o : Entity) :
    volume (A.allocate o).store (A.allocate o).next = volume A.store A.next + o.content.extent := by
  have same : volume (Function.update A.store A.next o) A.next = volume A.store A.next :=
    volume_congr fun id named => by rw [Function.update_of_ne (Nat.ne_of_lt named)]
  change volume (Function.update A.store A.next o) (A.next + 1) = _
  rw [volume_succ, same, Function.update_self]

end IdealMemory

theorem World.At.classValue?_ne_none {ι : Type} {w : World ι} {settings : Settings} {s : Stage}
    (reached : w.At settings s) {c : Option ClassId} (has : s.Has c) :
    w.memory.classValue? c ≠ none := by
  cases c with
  | none => simp [classValue?]
  | some id =>
    have inside : id.index.toNat < w.memory.classes.length := by
      rw [reached.described.length]
      exact has id rfl
    simp [classValue?, inside]

namespace Lockstep

variable {ι : Type} {limit : ι → Nat} {w : World ι} {settings : Settings} {s : Stage}
  {fail : MachineError → IdealMemory → Prop}

theorem runAssembler_quiet (services : w.host.services = .standard) {lines : List String}
    {code : List UInt8} (quiet : quietCode? lines = some code) :
    Lockstep limit w (fun _ => Machine.runAssembler (assembleLines Machine.resolver lines))
      (fun w' a => (a = fun _ => code) ∧ w' = w) fail := by
  intro m holds
  refine Or.inr (Or.inl ⟨w, fun _ => code, m, ?_, holds, rfl, rfl⟩)
  intro i
  unfold Machine.runAssembler
  dsimp only
  rw [Resolver.assembleLines_quiet ((holds.services i).trans services) quiet]

section Stages

variable (reached : w.At settings s)
include reached

theorem setKnown_stage (f : KnownClasses → KnownClasses) :
    Lockstep limit w (fun _ => Machine.setKnown f)
      (fun w' _ => w'.At settings { s with known := f s.known }) fail := by
  refine mono (setKnown f) ?_ fun _ _ h => h
  rintro w' - rfl
  exact { reached with known := congrArg f reached.known }

theorem setClassLinks_stage {id superclass metaclass : ClassId} (has : s.Has (some id))
    (has_super : s.Has (some superclass)) (has_meta : s.Has (some metaclass)) :
    Lockstep limit w (fun _ => Machine.setClassLinks id superclass metaclass)
      (fun w' _ => w'.At settings { s with records := s.records.modify id.index.toNat fun r =>
        { r with superclass := some superclass, metaclass := some metaclass } }) fail := by
  refine mono (setClassLinks id superclass metaclass ?missing) ?_ fun _ _ h => h
  case missing =>
    rintro (none | none | none)
    · exact absurd none (reached.classValue?_ne_none has)
    · exact absurd none (reached.classValue?_ne_none has_super)
    · exact absurd none (reached.classValue?_ne_none has_meta)
  rintro ⟨A, host, place⟩ -
    ⟨cid, sup, met, name, oldSuper, oldMeta, size, methods, entry, content, hsup, hmet, rfl, rfl⟩
  refine { reached with described := reached.described.setLinks entry content hsup hmet, volume := ?_ }
  refine (volume_setCls _ _ _).trans ((volume_setContent _ ?_).trans reached.volume)
  rw [content]
  rfl

theorem addMethod_stage (method : Method) :
    Lockstep limit w (fun _ => (Memory.addMethod method : Machine.Run Word))
      (fun w' a => (a = fun _ => UInt32.ofNat s.methods) ∧
        w'.At settings { s with methods := s.methods + 1 }) fail := by
  refine mono (addMethod method) ?_ fun _ _ h => h
  rintro w' - ⟨rfl, rfl⟩
  have described : ({ w.memory with methods := w.memory.methods.push method } : IdealMemory).Describes
      s.records := reached.described.congr ⟨rfl, fun _ _ => rfl, List.prefix_refl _⟩
  refine ⟨by rw [reached.methods], { reached with described := described, methods := ?_ }⟩
  exact (Array.size_push _).trans (congrArg (· + 1) reached.methods)

variable (failed : (∃ i, limit i < addressGuard + 2 * libraryVolume) ∨ settings.codeSize < libraryCode →
  ∀ e A, fail e A)
include failed

theorem newClass_stage (name : String) (size : Word) {superclass : Option ClassId}
    (has : s.Has superclass) (has_meta : s.Has s.known.metaclass)
    (room : s.volume + 31 ≤ libraryVolume) :
    Lockstep limit w (fun _ => Machine.newClass name size superclass)
      (fun w' a => (a = fun _ => ⟨UInt32.ofNat s.classes⟩) ∧
        w'.At settings { s with
          records := s.records ++ [⟨name, superclass, s.known.metaclass⟩]
          volume := s.volume + 31 }) fail := by
  refine of_valid fun valid => mono (newClass name size superclass ?missing ?full) ?_ fun _ _ h => h
  case missing =>
    rintro (none | none)
    · exact absurd none (reached.classValue?_ne_none has)
    · rw [reached.known] at none
      exact absurd none (reached.classValue?_ne_none has_meta)
  case full =>
    rintro ⟨i, small⟩ e A -
    rw [reached.volume] at small
    exact failed (Or.inl ⟨i, by omega⟩) e A
  rintro ⟨A, host, place⟩ - ⟨sup, met, hsup, hmet, rfl, rfl, rfl⟩
  rw [reached.known] at hmet
  refine ⟨by rw [reached.described.length]; rfl, { reached with described := ?_, volume := ?_ }⟩
  · exact reached.described.newClass valid hsup hmet
  · exact (volume_allocate _ _).trans (congrArg (· + 31) reached.volume)

theorem setMethods_stage {id : ClassId} {methods : List Word}
    (small : ∀ y ∈ methods, y.toNat < s.methods) (has : s.Has (some id))
    (has_array : s.Has s.known.array)
    (room : s.volume + (11 + 4 * methods.length) ≤ libraryVolume) :
    Lockstep limit w (fun _ => Machine.setMethods id methods)
      (fun w' _ => w'.At settings { s with volume := s.volume + (11 + 4 * methods.length) })
      fail := by
  have length : (UInt32.ofNat methods.length).toNat = methods.length := by
    have total : libraryVolume = 351 := rfl
    exact UInt32.toNat_ofNat_of_lt' (by simp only [UInt32.size]; omega)
  refine of_valid fun valid => mono (setMethods id methods ?small ?missing ?full) ?_ fun _ _ h => h
  case small =>
    rw [reached.methods]
    exact small
  case missing =>
    rintro (none | none)
    · rw [reached.known] at none
      exact absurd none (reached.classValue?_ne_none has_array)
    · exact absurd none (reached.classValue?_ne_none has)
  case full =>
    rintro ⟨i, less⟩ e A -
    rw [reached.volume, ObjectKind.objectBytes, ObjectKind.payloadBytes, length] at less
    exact failed (Or.inl ⟨i, by omega⟩) e A
  rintro ⟨A, host, place⟩ -
    ⟨cls, cid, name, superclass, metaclass, size, old, entry, content, rfl, rfl⟩
  have mem := List.mem_of_getElem? entry
  have kept : (w.memory.newDictionary cls (dictionaryWords methods)).store cid =
      w.memory.store cid := w.memory.store_allocate_of_lt (valid.classes_lt cid mem) _
  have filled : (Content.fields ((dictionaryWords methods).map .raw)).extent =
      11 + 4 * methods.length := by
    rw [Content.extent, List.length_map, dictionaryWords, length_fillWords, List.length_replicate,
      length]
    omega
  refine { reached with
    described := reached.described.newMethods valid mem content cls _, volume := ?_ }
  refine (volume_setContent _ ?_).trans ((w.memory.volume_allocate _).trans ?_)
  · rw [kept, content]
    rfl
  · rw [reached.volume, filled]

theorem storeCode_stage {code : List UInt8} (room : s.code + code.length ≤ libraryCode) :
    Lockstep limit w (fun _ => (Memory.storeCode code : Machine.Run CodeAddress))
      (fun w' a => (a = fun _ => CodeAddress.ofOffset s.code) ∧
        w'.At settings { s with code := s.code + code.length }) fail := by
  refine mono (storeCode code ?full) ?_ fun _ _ h => h
  case full =>
    intro short e
    rw [reached.code, reached.code_limit] at short
    exact failed (Or.inr (by omega)) e _
  rintro w' - ⟨rfl, -, rfl⟩
  have described : ({ w.memory with code := { w.memory.code with
      bytes := w.memory.code.bytes.appendList code } } : IdealMemory).Describes s.records :=
    reached.described.congr ⟨rfl, fun _ _ => rfl, List.prefix_refl _⟩
  refine ⟨by rw [reached.code], { reached with described := described, code := ?_ }⟩
  change (w.memory.code.bytes.appendList code).size = _
  rw [Array.appendList_eq_append, ← Array.length_toList, Array.toList_appendList, List.length_append,
    Array.length_toList, reached.code]

theorem addMethodSource_stage {source : MethodSource} {code : List UInt8}
    (quiet : quietCode? source.body = some code) (room : s.code + code.length ≤ libraryCode) :
    Lockstep limit w (fun _ => Machine.addMethodSource source)
      (fun w' a => (a = fun _ => UInt32.ofNat s.methods) ∧
        w'.At settings { s with code := s.code + code.length, methods := s.methods + 1 }) fail := by
  have stored : Lockstep limit w (fun _ => Machine.assembleLines source.body)
      (fun w' a => (a = fun _ => CodeAddress.ofOffset s.code) ∧
        w'.At settings { s with code := s.code + code.length }) fail := by
    refine bind (runAssembler_quiet reached.services quiet) ?_
    rintro w' - ⟨rfl, rfl⟩
    exact storeCode_stage reached failed room
  refine bind stored ?_
  rintro w' - ⟨rfl, reached'⟩
  exact addMethod_stage reached' _

theorem mapM_addMethodSource_stage {methods : List MethodSource} {n : Nat}
    (quiet : codeLength? methods = some n) (room : s.code + n ≤ libraryCode)
    (few : s.methods + methods.length < wordLimit) :
    Lockstep limit w (fun _ => methods.mapM Machine.addMethodSource)
      (fun w' a => ∃ words : List Word, (a = fun _ => words) ∧ words.length = methods.length ∧
        (∀ y ∈ words, y.toNat < s.methods + methods.length) ∧ w'.At settings { s with
          code := s.code + n, methods := s.methods + methods.length }) fail := by
  induction methods generalizing w s n with
  | nil =>
    cases quiet
    exact of_pure ⟨[], rfl, rfl, by simp, reached⟩
  | cons source methods ih =>
    obtain ⟨code, found, others⟩ := Option.bind_eq_some_iff.1 quiet
    obtain ⟨total, found', sum⟩ := Option.bind_eq_some_iff.1 others
    cases sum
    rw [List.length_cons] at few ⊢
    simp only [List.mapM_cons]
    refine bind (addMethodSource_stage reached failed found (by omega)) ?_
    rintro w₁ - ⟨rfl, reached₁⟩
    refine bind (ih reached₁ found' (by dsimp only; omega) (by dsimp only; omega)) ?_
    rintro w₂ - ⟨words, rfl, length, small, reached₂⟩
    refine of_pure ⟨UInt32.ofNat s.methods :: words, rfl, by rw [List.length_cons, length], ?_, ?_⟩
    · intro y mem
      rcases List.mem_cons.1 mem with rfl | mem
      · have : (UInt32.ofNat s.methods).toNat = s.methods % 4294967296 := UInt32.toNat_ofNat' ..
        omega
      · have := small y mem
        dsimp only at this
        omega
    · rw [show s.code + (code.length + total) = s.code + code.length + total by omega,
        show s.methods + (methods.length + 1) = s.methods + 1 + methods.length by omega]
      exact reached₂

theorem install_stage {id : ClassId} {methods : List MethodSource} {n : Nat}
    (quiet : codeLength? methods = some n) (room : s.code + n ≤ libraryCode)
    (few : s.methods + methods.length < wordLimit) (has : s.Has (some id))
    (has_array : s.Has s.known.array)
    (heap : s.volume + (11 + 4 * methods.length) ≤ libraryVolume) :
    Lockstep limit w (fun _ => Machine.install id methods)
      (fun w' _ => w'.At settings { s with
        volume := s.volume + (11 + 4 * methods.length)
        code := s.code + n
        methods := s.methods + methods.length }) fail := by
  refine bind (mapM_addMethodSource_stage reached failed quiet room few) ?_
  rintro w₁ - ⟨words, rfl, length, small, reached₁⟩
  rw [← length] at small reached₁ heap ⊢
  exact setMethods_stage reached₁ failed small has has_array heap

theorem addLibraryClass_stage (name : String) (size : Word)
    (record : ClassId → KnownClasses → KnownClasses) {methods : List MethodSource} {n : Nat}
    (quiet : codeLength? methods = some n) (room : s.code + n ≤ libraryCode)
    (few : s.methods + methods.length < wordLimit) (has : s.Has s.known.object)
    (has_meta : s.Has s.known.metaclass)
    (has_array : { s with records :=
        s.records ++ [⟨name, s.known.object, s.known.metaclass⟩] : Stage }.Has
      (record ⟨UInt32.ofNat s.classes⟩ s.known).array)
    (heap : s.volume + 31 + (11 + 4 * methods.length) ≤ libraryVolume) :
    Lockstep limit w (fun _ => Machine.addLibraryClass name size record methods)
      (fun w' _ => w'.At settings {
        records := s.records ++ [⟨name, s.known.object, s.known.metaclass⟩]
        volume := s.volume + 31 + (11 + 4 * methods.length)
        code := s.code + n
        methods := s.methods + methods.length
        known := record ⟨UInt32.ofNat s.classes⟩ s.known }) fail := by
  have defined : Lockstep limit w (fun _ => Machine.defineClass name size)
      (fun w' a => (a = fun _ => ⟨UInt32.ofNat s.classes⟩) ∧
        w'.At settings { s with
          records := s.records ++ [⟨name, s.known.object, s.known.metaclass⟩]
          volume := s.volume + 31 }) fail := by
    refine get_bind ?_
    intro m holds
    simp only [holds.known, reached.known]
    exact newClass_stage reached failed name size has has_meta (by omega)
  refine bind defined ?_
  rintro w₁ - ⟨rfl, reached₁⟩
  refine bind (setKnown_stage reached₁ (record ⟨UInt32.ofNat s.classes⟩)) ?_
  intro w₂ _ reached₂
  refine install_stage reached₂ failed quiet room few ?_ has_array heap
  rintro id ⟨⟩
  have : (UInt32.ofNat s.classes).toNat = s.classes % 4294967296 := UInt32.toNat_ofNat' ..
  change (UInt32.ofNat s.classes).toNat < (s.records ++ [_]).length
  rw [List.length_append, List.length_singleton, show s.records.length = s.classes from rfl]
  omega

end Stages

/-! ### The library -/

open Library

theorem codes_object : quietCodes? objectMethods = some (objectBodies.map Instruction.encodeAll) := by
  decide +kernel

theorem codes_array : quietCodes? arrayMethods = some (arrayBodies.map Instruction.encodeAll) := by
  decide +kernel

theorem codes_integer : quietCodes? integerMethods = some (integerBodies.map Instruction.encodeAll) := by
  decide +kernel

theorem codes_string : quietCodes? stringMethods = some (stringBodies.map Instruction.encodeAll) := by
  decide +kernel

theorem codes_reader :
    quietCodes? textFileReaderMethods = some (textFileReaderBodies.map Instruction.encodeAll) := by
  decide +kernel

theorem codes_writer :
    quietCodes? textFileWriterMethods = some (textFileWriterBodies.map Instruction.encodeAll) := by
  decide +kernel

theorem codeLength?_object : codeLength? objectMethods = some 1 := codeLength?_of_codes codes_object

theorem codeLength?_array : codeLength? arrayMethods = some 40 := codeLength?_of_codes codes_array

theorem codeLength?_integer : codeLength? integerMethods = some 60 := codeLength?_of_codes codes_integer

theorem codeLength?_string : codeLength? stringMethods = some 27 := codeLength?_of_codes codes_string

theorem codeLength?_reader : codeLength? textFileReaderMethods = some 66 :=
  codeLength?_of_codes codes_reader

theorem codeLength?_writer : codeLength? textFileWriterMethods = some 71 :=
  codeLength?_of_codes codes_writer

/-- **Making the library** fails only where there is no room for it. -/
theorem installLibrary (reached : w.At settings .bare)
    (failed : (∃ i, limit i < addressGuard + 2 * libraryVolume) ∨ settings.codeSize < libraryCode →
      ∀ e A, fail e A) :
    Lockstep limit w (fun _ => Machine.installLibrary) (fun w' _ => w'.At settings .ready)
      fail := by
  refine bind (newClass_stage reached failed "Metaclass" 0 (by decide) (by decide) (by decide)) ?_
  rintro w₁ - ⟨rfl, r₁⟩
  refine bind (setKnown_stage r₁ _) ?_
  intro w₂ _ r₂
  refine bind (newClass_stage r₂ failed "Object" 0 (by decide) (by decide) (by decide)) ?_
  rintro w₃ - ⟨rfl, r₃⟩
  refine bind (setKnown_stage r₃ _) ?_
  intro w₄ _ r₄
  refine bind (setClassLinks_stage r₄ (by decide) (by decide) (by decide)) ?_
  intro w₅ _ r₅
  refine bind (addLibraryClass_stage r₅ failed "Array" 0 _ codeLength?_array (by decide) (by decide)
    (by decide) (by decide) (by decide) (by decide)) ?_
  intro w₆ _ r₆
  refine bind (install_stage r₆ failed codeLength?_object (by decide) (by decide) (by decide)
    (by decide) (by decide)) ?_
  intro w₇ _ r₇
  refine bind (addLibraryClass_stage r₇ failed "Integer" 0 _ codeLength?_integer (by decide)
    (by decide) (by decide) (by decide) (by decide) (by decide)) ?_
  intro w₈ _ r₈
  refine bind (addLibraryClass_stage r₈ failed "String" 0 _ codeLength?_string (by decide)
    (by decide) (by decide) (by decide) (by decide) (by decide)) ?_
  intro w₉ _ r₉
  refine bind (addLibraryClass_stage r₉ failed "TextFileReader" 1 _ codeLength?_reader (by decide)
    (by decide) (by decide) (by decide) (by decide) (by decide)) ?_
  intro w₁₀ _ r₁₀
  refine bind (addLibraryClass_stage r₁₀ failed "TextFileWriter" 1 _ codeLength?_writer (by decide)
    (by decide) (by decide) (by decide) (by decide) (by decide)) ?_
  intro w₁₁ _ r₁₁
  refine get_bind fun m holds => ?_
  refine mono (note _) ?_ fun _ _ h => h
  rintro w₁₂ - rfl
  exact r₁₁

end Lockstep

/-! ### New machines -/

/-- The same setup with a heap of another size. -/
def Machine.Setup.withHeap (setup : Setup) (size : Nat) : Setup :=
  { setup with settings := { setup.settings with heapSize := size } }

/-- The size of the buffer of a heap. -/
def bufferSize (heapSize : Nat) : Nat := addressGuard + 2 * (heapSize / 2)

/-- A memory without any objects. -/
def IdealMemory.bare (settings : Settings) : IdealMemory where
  store _ := ⟨.raw Ref.null.word, .bytes []⟩
  next := 0
  classes := []
  dictionaries := []
  cells := []
  bp := noFrame
  bases := []
  stackSize := settings.stackSize
  code := { limit := settings.codeSize }
  pc := ⟨0⟩
  methods := #[]
  constants := {}

/-- Machines without any objects. -/
def World.bare (ι : Type) (setup : Machine.Setup) : World ι where
  memory := .bare setup.settings
  host := ⟨{}, .standard, setup.output, {}, setup.directory⟩
  place _ _ := none

theorem arenas_lt_of_validate {settings : Settings} (valid : settings.validate = .ok ()) :
    settings.stackSize < wordLimit - 1 ∧ settings.codeSize < wordLimit - 1 := by
  unfold Settings.validate at valid
  dsimp only at valid
  split at valid
  · cases valid
  split at valid
  · cases valid
  split at valid
  · cases valid
  split at valid
  · cases valid
  split at valid
  · cases valid
  · omega

theorem Memory.shows_new {settings : Settings} {level : Option Level} {mem : Memory}
    (made : Memory.new settings level = .ok mem) :
    mem.Shows (.bare settings) (fun _ => none) ∧
      mem.space.bytes.size = bufferSize settings.heapSize := by
  obtain ⟨⟨⟩, valid, made⟩ := exists_of_bind_eq_ok made
  cases made
  have nothing : ∀ {α : Prop} {r : Ref}, none = some r → α := by
    intro α r eq
    cases eq
  refine ⟨⟨?heap, ⟨Array.size_replicate, rfl, rfl, ?_⟩, rfl, rfl, rfl, rfl, rfl, rfl⟩,
    Array.size_replicate⟩
  case heap =>
    exact ⟨SemiSpaces.sound_new valid, fun _ _ => nothing, fun _ _ => nothing, fun _ _ => nothing,
      fun _ _ => nothing, fun _ _ _ _ => nothing, Nat.le_of_eq (Nat.sub_self _)⟩
  · intro k v cell
    cases cell

theorem IdealMemory.valid_bare (harmless : Word → Prop) {settings : Settings}
    (valid : settings.validate = .ok ()) : (bare settings).Valid harmless where
  stack_addressable := (arenas_lt_of_validate valid).1
  classes_lt id mem := by cases mem
  dictionaries_lt id mem := by cases mem
  tables_apart id mem := by cases mem
  cls id named := by cases named
  class_layout id mem := by cases mem
  dictionary_layout id mem := by cases mem
  fields id named := by cases named
  framed := .none
  live k v cell := by cases cell

section New

theorem World.at_bare {ι : Type} {setup : Machine.Setup} :
    (World.bare ι setup).At setup.settings .bare :=
  ⟨⟨rfl, List.nodup_nil, nofun⟩, rfl, rfl, rfl, rfl, rfl, rfl, rfl, rfl⟩

variable {ι : Type} [Nonempty ι] {setup : Machine.Setup} {heap : ι → Nat} {m : ι → Machine}

theorem World.holds_bare (made : ∀ i, Machine.bare (setup.withHeap (heap i)) = .ok (m i)) :
    (World.bare ι setup).Holds (fun i => bufferSize (heap i)) m := by
  have each : ∀ i, ∃ mem level, Memory.new (setup.withHeap (heap i)).settings level = .ok mem ∧
      m i = ⟨mem, {}, .standard, setup.output, {}, setup.directory⟩ := by
    intro i
    obtain ⟨mem, run, eq⟩ := exists_of_bind_eq_ok (made i)
    exact ⟨mem, _, Lockstep.liftMemory_eq_ok run, (Except.ok.inj eq).symm⟩
  refine ⟨?_, ?_, ?_, ?_⟩
  · intro i
    obtain ⟨mem, level, run, eq⟩ := each i
    rw [eq]
    exact (Memory.shows_new run).1
  · intro i
    obtain ⟨mem, level, run, eq⟩ := each i
    rw [eq]
    exact (Memory.shows_new run).2
  · intro i
    obtain ⟨mem, level, run, eq⟩ := each i
    rw [eq]
    rfl
  · obtain ⟨i⟩ := ‹Nonempty ι›
    obtain ⟨mem, level, run, eq⟩ := each i
    obtain ⟨⟨⟩, valid, -⟩ := exists_of_bind_eq_ok run
    exact { valid_bare (Harmless fun i => bufferSize (heap i)) valid with }

/-- What making the library leads to is so of new machines. -/
theorem World.holds_installed {post : World ι → Prop}
    (library : Lockstep (fun i => bufferSize (heap i)) (World.bare ι setup)
      (fun _ => Machine.installLibrary) (fun w _ => post w) fun _ _ => True)
    (made : ∀ i, Machine.new (setup.withHeap (heap i)) = .ok (m i)) :
    ∃ w : World ι, w.Holds (fun i => bufferSize (heap i)) m ∧ post w := by
  have each : ∀ i, ∃ m₀, Machine.bare (setup.withHeap (heap i)) = .ok m₀ ∧
      Machine.installLibrary m₀ = .ok () (m i) := by
    intro i
    obtain ⟨m₀, run, h⟩ := exists_of_bind_eq_ok (made i)
    refine ⟨m₀, run, ?_⟩
    cases result : Machine.installLibrary m₀ with
    | ok u m₁ =>
      rw [result] at h
      cases h
      rfl
    | error e m₁ =>
      rw [result] at h
      cases h
  choose m₀ bare installed using each
  rcases library m₀ (World.holds_bare bare) with exhausted | succeeds | fails
  · obtain ⟨i, n, available, m', A, η, run, -⟩ := exhausted
    cases (installed i).symm.trans run
  · obtain ⟨w, a, m', run, holds, reached⟩ := succeeds
    have same : m' = m := by
      funext i
      exact (EStateM.Result.ok.inj ((run i).symm.trans (installed i))).2
    rw [same] at holds
    exact ⟨w, holds, reached⟩
  · obtain ⟨w, e, m', run, -⟩ := fails
    obtain ⟨i⟩ := ‹Nonempty ι›
    cases (run i).symm.trans (installed i)

/-- **New machines** that differ in the size of their heaps only are the same, apart from
    where their objects lie. -/
theorem World.holds_new (made : ∀ i, Machine.new (setup.withHeap (heap i)) = .ok (m i)) :
    ∃ w : World ι, w.Holds (fun i => bufferSize (heap i)) m ∧ w.At setup.settings .ready :=
  World.holds_installed (Lockstep.installLibrary World.at_bare fun _ _ _ => trivial) made

end New

/-- **A new machine** can be made wherever there is room for the library. -/
theorem Machine.exists_new {setup : Setup} (valid : setup.settings.validate = .ok ())
    (heap : libraryVolume ≤ setup.settings.heapSize / 2)
    (code : libraryCode ≤ setup.settings.codeSize) : ∃ m, Machine.new setup = .ok m := by
  have made : ∃ m₀, Machine.bare setup = .ok m₀ := by
    unfold Machine.bare Memory.new
    rw [valid]
    exact ⟨_, rfl⟩
  obtain ⟨m₀, made⟩ := made
  have holds : (World.bare Unit setup).Holds (fun _ => bufferSize setup.settings.heapSize)
      fun _ => m₀ := World.holds_bare fun _ => made
  have failed : (∃ _ : Unit, bufferSize setup.settings.heapSize < addressGuard + 2 * libraryVolume) ∨
      setup.settings.codeSize < libraryCode → ∀ (_ : MachineError) (_ : IdealMemory), False := by
    rintro (⟨-, small⟩ | small)
    · unfold bufferSize at small
      omega
    · omega
  rcases Lockstep.installLibrary World.at_bare failed _ holds with exhausted | succeeds | fails
  · obtain ⟨-, n, available, m', A, η, -, -, -, -, impossible⟩ := exhausted
    exact impossible.elim
  · obtain ⟨w, a, m', run, -⟩ := succeeds
    refine ⟨m' (), ?_⟩
    have run := run ()
    unfold Machine.new
    rewrite [made, ok_bind,
      show Machine.installLibrary m₀ = .ok (a ()) (m' ()) from run]
    rfl
  · obtain ⟨w, e, m', -, -, -, impossible⟩ := fails
    exact (impossible ()).elim

end ObjectMachine

/-
  ObjectMachine/Proofs/LibraryContents.lean
  =========================================
  **What is in the library** — the code, the methods and the dictionaries of a new machine.

  The room that the library takes is counted in `LockstepLibrary`; here it is listed.  An
  `Inventory` grows with each class and each method, as the memory does, and the one at the end
  is a closed term: what a new machine has in its tables can be computed.
-/
import ObjectMachine.Proofs.ClassTables
import ObjectMachine.Proofs.StableDispatch
import ObjectMachine.Proofs.StoredCode

namespace ObjectMachine

open IdealMemory

/-! ### Inventories -/

/-- The code and the methods that there are, and the methods that each class lists. -/
structure Inventory where
  code : List UInt8 := []
  methods : List Method := []
  listed : List (List Word) := []
  known : KnownClasses := {}

namespace Inventory

/-- One more method, with its instructions. -/
def addMethod (s : Inventory) (method : MethodSource × List Instruction) : Inventory :=
  { s with
    code := s.code ++ Instruction.encodeAll method.2
    methods := s.methods ++
      [⟨method.1.selector, CodeAddress.ofOffset s.code.length, method.1.locals⟩] }

theorem length_methods_foldl (methods : List (MethodSource × List Instruction)) (s : Inventory) :
    (methods.foldl addMethod s).methods.length = s.methods.length + methods.length := by
  induction methods generalizing s with
  | nil => rfl
  | cons method methods ih =>
    rw [List.foldl_cons, ih, List.length_cons]
    simp only [addMethod, List.length_append, List.length_singleton]
    omega

/-- One more class, without methods. -/
def addClass (s : Inventory) : Inventory := { s with listed := s.listed ++ [[]] }

/-- A class lists these methods. -/
def setMethods (s : Inventory) (index : Nat) (words : List Word) : Inventory :=
  { s with listed := s.listed.set index (Lockstep.dictionaryWords words) }

/-- Methods are added and listed by a class. -/
def install (s : Inventory) (index : Nat) (sources : List MethodSource)
    (bodies : List (List Instruction)) : Inventory :=
  ((sources.zip bodies).foldl addMethod s).setMethods index
    ((List.range sources.length).map fun i => UInt32.ofNat (s.methods.length + i))

/-- One more class, with methods. -/
def addLibraryClass (s : Inventory) (record : ClassId → KnownClasses → KnownClasses)
    (sources : List MethodSource) (bodies : List (List Instruction)) : Inventory :=
  { s.addClass with known := record ⟨UInt32.ofNat s.listed.length⟩ s.known }.install s.listed.length
    sources bodies

open Library in
/-- The inventory of a new machine. -/
def library : Inventory :=
  let s : Inventory := addClass {}
  let s := { s with known := { s.known with metaclass := some ⟨0⟩ } }.addClass
  let s := { s with known := { s.known with object := some ⟨1⟩ } }
  let s := s.addLibraryClass (fun id k => { k with array := some id }) arrayMethods arrayBodies
  let s := s.install 1 objectMethods objectBodies
  let s := s.addLibraryClass (fun id k => { k with integer := some id }) integerMethods integerBodies
  let s := s.addLibraryClass (fun id k => { k with string := some id }) stringMethods stringBodies
  let s := s.addLibraryClass (fun id k => { k with textFileReader := some id })
    textFileReaderMethods textFileReaderBodies
  s.addLibraryClass (fun id k => { k with textFileWriter := some id }) textFileWriterMethods
    textFileWriterBodies

example : library.listed = [[], [3], [0, 1, 2], [4, 5, 6, 7, 8], [9, 10], [11, 12, 13], [14, 15, 16]] := by
  decide +kernel

/-- A class answers a selector with a method that has no locals and these instructions. -/
def Answers (s : Inventory) (k : Nat) (selector : String) (body : List Instruction) : Prop :=
  ∃ words ∈ s.listed[k]?, words ≠ [] ∧ (∀ index ∈ words, index.toNat < s.methods.length) ∧
    ∃ method ∈ (words.filterMap fun index => s.methods[index.toNat]?).find?
      (fun method => method.selector = selector),
      method.locals = 0 ∧ Instruction.encodeAll body <+: s.code.drop method.entry.word.toNat

instance (s : Inventory) (k : Nat) (selector : String) (body : List Instruction) :
    Decidable (s.Answers k selector body) :=
  -- asked of the words that are listed, not of all words
  have (words : List Word) : Decidable (∀ index ∈ words, index.toNat < s.methods.length) :=
    List.decidableBAll _ words
  inferInstanceAs (Decidable (∃ words ∈ s.listed[k]?, words ≠ [] ∧
    (∀ index ∈ words, index.toNat < s.methods.length) ∧
    ∃ method ∈ (words.filterMap fun index => s.methods[index.toNat]?).find?
      (fun method => method.selector = selector),
      method.locals = 0 ∧ Instruction.encodeAll body <+: s.code.drop method.entry.word.toNat))

end Inventory

/-! ### Worlds -/

namespace IdealMemory

variable (A : IdealMemory)

@[simp] theorem content_setContent_self (id : Nat) (c : Content) :
    ((A.setContent id c).store id).content = c :=
  congrArg Entity.content (Function.update_self id _ A.store)

@[simp] theorem store_setContent_of_ne {id id' : Nat} (ne : id' ≠ id) (c : Content) :
    (A.setContent id c).store id' = A.store id' := Function.update_of_ne ne _ _

@[simp] theorem store_setCls_of_ne {id id' : Nat} (ne : id' ≠ id) (v : Value) :
    (A.setCls id v).store id' = A.store id' := Function.update_of_ne ne _ _

@[simp] theorem content_setCls_self (id : Nat) (v : Value) :
    ((A.setCls id v).store id).content = (A.store id).content := by
  have same : (A.setCls id v).store id = { A.store id with cls := v } := Function.update_self ..
  rw [same]

end IdealMemory

/-- A class lists these methods in its dictionary. -/
def IdealMemory.Lists (A : IdealMemory) (index : Nat) (words : List Word) : Prop :=
  ∃ cid did name superclass metaclass size, A.classes[index]? = some cid ∧
    (A.store cid).content = .fields [.raw name, superclass, metaclass, .raw size, .object did] ∧
    did ∈ A.dictionaries ∧ (A.store did).content = .fields (words.map .raw)

/-- The world has what is on the inventory. -/
structure World.Stocks {ι : Type} (w : World ι) (s : Inventory) : Prop where
  code : w.memory.code.bytes.toList = s.code
  methods : w.memory.methods.toList = s.methods
  nodup : w.memory.classes.Nodup
  classes : w.memory.classes.length = s.listed.length
  constants : w.memory.constants.entries.size ≤ w.memory.classes.length
  lists : ∀ k words, s.listed[k]? = some words → words ≠ [] → w.memory.Lists k words
  known : w.host.known = s.known
  services : w.host.services = .standard

namespace IdealMemory.Lists

variable {A B : IdealMemory} {harmless : Word → Prop} {index : Nat} {words : List Word}

/-- A class goes on listing its methods while it keeps its dictionary, and that its words. -/
theorem congr (lists : A.Lists index words) (classes : A.classes <+: B.classes)
    (dictionaries : A.dictionaries <+: B.dictionaries)
    (same : ∀ id, id ∈ A.dictionaries → B.store id = A.store id)
    (kept : ∀ cid name superclass metaclass size methods, A.classes[index]? = some cid →
      (A.store cid).content = .fields [.raw name, superclass, metaclass, .raw size, methods] →
      ∃ superclass metaclass, (B.store cid).content =
        .fields [.raw name, superclass, metaclass, .raw size, methods]) : B.Lists index words := by
  obtain ⟨cid, did, name, superclass, metaclass, size, entry, content, listed, filled⟩ := lists
  obtain ⟨superclass', metaclass', content'⟩ := kept cid name superclass metaclass size _ entry content
  have entry' : B.classes[index]? = some cid := by
    obtain ⟨more, eq⟩ := classes
    rw [← eq, List.getElem?_append_left (List.getElem?_eq_some_iff.1 entry).1]
    exact entry
  refine ⟨cid, did, name, superclass', metaclass', size, entry', content', dictionaries.subset listed, ?_⟩
  rw [same did listed]
  exact filled

/-- Another object makes no difference. -/
theorem grow (lists : A.Lists index words) (valid : A.Valid harmless) {o : Entity}
    (store : B.store = (A.allocate o).store) (classes : A.classes <+: B.classes)
    (dictionaries : A.dictionaries <+: B.dictionaries) : B.Lists index words := by
  refine lists.congr classes dictionaries ?_ ?_
  · intro id mem
    rw [store, A.store_allocate_of_lt (valid.dictionaries_lt id mem)]
  · intro cid name superclass metaclass size methods entry content
    have mem := List.mem_of_getElem? entry
    refine ⟨superclass, metaclass, ?_⟩
    rw [store, A.store_allocate_of_lt (valid.classes_lt cid mem)]
    exact content

end IdealMemory.Lists

namespace Lockstep

variable {ι : Type} {limit : ι → Nat} {w : World ι} {s : Inventory}

section Stocks

variable (stocks : w.Stocks s)
include stocks

theorem setKnown_stocks (f : KnownClasses → KnownClasses) :
    Lockstep limit w (fun _ => Machine.setKnown f)
      (fun w' _ => w'.Stocks { s with known := f s.known }) fun _ _ => True := by
  refine mono (setKnown f) ?_ fun _ _ h => h
  rintro w' - rfl
  exact { stocks with known := congrArg f stocks.known }

theorem storeCode_stocks (code : List UInt8) :
    Lockstep limit w (fun _ => (Memory.storeCode code : Machine.Run CodeAddress))
      (fun w' a => (a = fun _ => CodeAddress.ofOffset s.code.length) ∧
        w'.Stocks { s with code := s.code ++ code }) fun _ _ => True := by
  refine mono (storeCode code fun _ _ => trivial) ?_ fun _ _ h => h
  rintro w' - ⟨rfl, -, rfl⟩
  refine ⟨?_, { stocks with code := ?_ }⟩
  · rw [← stocks.code, Array.length_toList]
  · change (w.memory.code.bytes.appendList code).toList = _
    rw [Array.appendList_eq_append, Array.toList_appendList, stocks.code]

theorem addMethod_stocks (method : Method) :
    Lockstep limit w (fun _ => (Memory.addMethod method : Machine.Run Word))
      (fun w' a => (a = fun _ => UInt32.ofNat s.methods.length) ∧
        w'.Stocks { s with methods := s.methods ++ [method] }) fun _ _ => True := by
  refine mono (addMethod method) ?_ fun _ _ h => h
  rintro w' - ⟨rfl, rfl⟩
  refine ⟨?_, { stocks with methods := ?_ }⟩
  · rw [← stocks.methods, Array.length_toList]
  · change (w.memory.methods.push method).toList = _
    rw [Array.toList_push, stocks.methods]

theorem newClass_stocks (name : String) (size : Word) (superclass : Option ClassId) :
    Lockstep limit w (fun _ => Machine.newClass name size superclass)
      (fun w' a => (a = fun _ => ⟨UInt32.ofNat s.listed.length⟩) ∧ w'.Stocks s.addClass)
      fun _ _ => True := by
  refine of_valid fun valid => mono (newClass name size superclass (fun _ _ _ _ => trivial)
    fun _ _ _ _ => trivial) ?_ fun _ _ h => h
  rintro ⟨A, host, place⟩ - ⟨sup, met, -, -, rfl, rfl, rfl⟩
  refine ⟨by rw [stocks.classes], { stocks with nodup := ?_, classes := ?_, constants := ?_, lists := ?_ }⟩
  · refine List.nodup_append.2 ⟨stocks.nodup, List.nodup_singleton _, ?_⟩
    intro id mem id' last
    have := valid.classes_lt id mem
    have := List.mem_singleton.1 last
    omega
  · exact (List.length_append.trans (congrArg (· + 1) stocks.classes)).trans List.length_append.symm
  · have longer : (w.memory.classes ++ [w.memory.next]).length = w.memory.classes.length + 1 :=
      List.length_append
    exact (ConstantPool.size_add _ _).trans ((Nat.add_le_add_right stocks.constants 1).trans longer.ge)
  · intro k words listed some_
    by_cases inside : k < s.listed.length
    · have old : s.listed[k]? = some words := (List.getElem?_append_left inside).symm.trans listed
      exact (stocks.lists k words old some_).grow valid rfl (List.prefix_append _ _) (List.prefix_refl _)
    · have new : [[]][k - s.listed.length]? = some words :=
        (List.getElem?_append_right (Nat.not_lt.1 inside)).symm.trans listed
      rw [List.getElem?_singleton] at new
      split at new
      · cases new
        exact absurd rfl some_
      · cases new

theorem setClassLinks_stocks (id superclass metaclass : ClassId) :
    Lockstep limit w (fun _ => Machine.setClassLinks id superclass metaclass)
      (fun w' _ => w'.Stocks s) fun _ _ => True := by
  refine of_valid fun valid => mono (setClassLinks id superclass metaclass fun _ _ _ => trivial) ?_
    fun _ _ h => h
  rintro ⟨A, host, place⟩ -
    ⟨cid, sup, met, name, oldSuper, oldMeta, size, methods, entry, content, hsup, hmet, rfl, rfl⟩
  refine { stocks with lists := ?_ }
  intro k words listed some_
  have mem := List.mem_of_getElem? entry
  refine (stocks.lists k words listed some_).congr (List.prefix_refl _) (List.prefix_refl _) ?_ ?_
  · intro id listed
    have ne : id ≠ cid := fun same => valid.tables_apart cid mem (same ▸ listed)
    simp [ne]
  · intro cid' name' superclass' metaclass' size' methods' entry' content'
    by_cases same : cid' = cid
    · subst same
      cases content.symm.trans content'
      exact ⟨sup, met, by simp⟩
    · exact ⟨superclass', metaclass', by simp [same, content']⟩

theorem setMethods_stocks (id : ClassId) {methods : List Word}
    (small : ∀ y ∈ methods, y.toNat < s.methods.length) :
    Lockstep limit w (fun _ => Machine.setMethods id methods)
      (fun w' _ => w'.Stocks (s.setMethods id.index.toNat methods)) fun _ _ => True := by
  refine of_valid fun valid => mono (setMethods id methods ?small (fun _ _ _ _ => trivial)
    fun _ _ _ _ => trivial) ?_ fun _ _ h => h
  case small =>
    rw [← Array.length_toList, stocks.methods]
    exact small
  rintro ⟨A, host, place⟩ -
    ⟨cls, cid, name, superclass, metaclass, size, old, entry, content, rfl, rfl⟩
  have mem := List.mem_of_getElem? entry
  have lt := valid.classes_lt cid mem
  refine { stocks with classes := stocks.classes.trans List.length_set.symm, lists := ?_ }
  intro k words listed some_
  by_cases here : k = id.index.toNat
  · -- the class lists the new dictionary
    subst here
    have inside : id.index.toNat < s.listed.length := by
      rw [← stocks.classes]
      exact (List.getElem?_eq_some_iff.1 entry).1
    have eq : dictionaryWords methods = words := by
      rw [Inventory.setMethods, List.getElem?_set_self inside] at listed
      exact Option.some.inj listed
    refine ⟨cid, w.memory.next, name, superclass, metaclass, size, entry, ?_,
      List.mem_append_right _ (List.mem_singleton_self _), ?_⟩
    · exact content_setContent_self _ _ _
    · rw [store_setContent_of_ne _ (Nat.ne_of_gt lt), ← eq]
      exact congrArg Entity.content (w.memory.store_allocate_next _)
  · have old : s.listed[k]? = some words := by
      rw [Inventory.setMethods, List.getElem?_set_ne (Ne.symm here)] at listed
      exact listed
    have grown : (w.memory.newDictionary cls (dictionaryWords methods)).Lists k words :=
      (stocks.lists k words old some_).grow valid rfl (List.prefix_refl _) (List.prefix_append _ _)
    refine grown.congr (List.prefix_refl _) (List.prefix_refl _) ?_ ?_
    · intro did listed
      apply store_setContent_of_ne
      rintro rfl
      rcases List.mem_append.1 listed with old | new
      · exact valid.tables_apart did mem old
      · exact Nat.ne_of_lt lt (List.mem_singleton.1 new)
    · intro cid' name' superclass' metaclass' size' methods' entry' content'
      have ne : cid' ≠ cid := by
        rintro rfl
        have entry' : w.memory.classes[k]? = some cid' := entry'
        obtain ⟨inside, at_⟩ := List.getElem?_eq_some_iff.1 entry'
        obtain ⟨inside', at_'⟩ := List.getElem?_eq_some_iff.1 entry
        exact here (stocks.nodup.getElem_inj_iff.1 (at_.trans at_'.symm))
      refine ⟨superclass', metaclass', ?_⟩
      rw [store_setContent_of_ne _ ne]
      exact content'

theorem addMethodSource_stocks {source : MethodSource} {body : List Instruction}
    (quiet : quietCode? source.body = some (Instruction.encodeAll body)) :
    Lockstep limit w (fun _ => Machine.addMethodSource source)
      (fun w' a => (a = fun _ => UInt32.ofNat s.methods.length) ∧ w'.Stocks (s.addMethod (source, body)))
      fun _ _ => True := by
  have stored : Lockstep limit w (fun _ => Machine.assembleLines source.body)
      (fun w' a => (a = fun _ => CodeAddress.ofOffset s.code.length) ∧
        w'.Stocks { s with code := s.code ++ Instruction.encodeAll body }) fun _ _ => True := by
    refine bind (runAssembler_quiet stocks.services quiet) ?_
    rintro w' - ⟨rfl, rfl⟩
    exact storeCode_stocks stocks _
  refine bind stored ?_
  rintro w' - ⟨rfl, stocks'⟩
  exact addMethod_stocks stocks' _

/-- Methods get numbers one after the other. -/
theorem mapM_addMethodSource_stocks {sources : List MethodSource} {bodies : List (List Instruction)}
    (quiet : quietCodes? sources = some (bodies.map Instruction.encodeAll)) :
    Lockstep limit w (fun _ => sources.mapM Machine.addMethodSource)
      (fun w' a => (a = fun _ => (List.range sources.length).map fun i =>
          UInt32.ofNat (s.methods.length + i)) ∧
        w'.Stocks ((sources.zip bodies).foldl Inventory.addMethod s)) fun _ _ => True := by
  induction sources generalizing w s bodies with
  | nil => exact of_pure ⟨rfl, stocks⟩
  | cons source sources ih =>
    obtain ⟨code, others, split, first, later⟩ := quietCodes?_cons quiet
    obtain ⟨body, bodies, rfl, rfl, rfl⟩ := List.map_eq_cons_iff.1 split
    simp only [List.mapM_cons]
    refine bind (addMethodSource_stocks stocks first) ?_
    rintro w₁ - ⟨rfl, stocks₁⟩
    refine bind (ih stocks₁ later) ?_
    rintro w₂ - ⟨rfl, stocks₂⟩
    refine of_pure ⟨?_, stocks₂⟩
    funext _
    rw [List.length_cons, List.range_succ_eq_map, List.map_cons, List.map_map]
    refine congrArg (_ :: ·) (List.map_congr_left fun i _ => ?_)
    simp only [Inventory.addMethod, List.length_append, List.length_singleton, Function.comp_apply,
      Nat.succ_eq_add_one]
    rw [Nat.add_assoc, Nat.add_comm 1 i]

theorem install_stocks (id : ClassId) {sources : List MethodSource} {bodies : List (List Instruction)}
    (quiet : quietCodes? sources = some (bodies.map Instruction.encodeAll))
    (same : sources.length = bodies.length) (few : s.methods.length + sources.length < wordLimit) :
    Lockstep limit w (fun _ => Machine.install id sources)
      (fun w' _ => w'.Stocks (s.install id.index.toNat sources bodies)) fun _ _ => True := by
  refine bind (mapM_addMethodSource_stocks stocks quiet) ?_
  rintro w₁ - ⟨rfl, stocks₁⟩
  refine setMethods_stocks stocks₁ id ?_
  intro y mem
  obtain ⟨i, inside, rfl⟩ := List.mem_map.1 mem
  have inside := List.mem_range.1 inside
  have small : (UInt32.ofNat (s.methods.length + i)).toNat = s.methods.length + i :=
    UInt32.toNat_ofNat_of_lt' (show _ < wordLimit by omega)
  rw [Inventory.length_methods_foldl, List.length_zip, small]
  omega

theorem addLibraryClass_stocks (name : String) (size : Word)
    (record : ClassId → KnownClasses → KnownClasses) {sources : List MethodSource}
    {bodies : List (List Instruction)}
    (quiet : quietCodes? sources = some (bodies.map Instruction.encodeAll))
    (same : sources.length = bodies.length) (few : s.methods.length + sources.length < wordLimit)
    (small : s.listed.length < wordLimit) :
    Lockstep limit w (fun _ => Machine.addLibraryClass name size record sources)
      (fun w' _ => w'.Stocks (s.addLibraryClass record sources bodies)) fun _ _ => True := by
  have defined : Lockstep limit w (fun _ => Machine.defineClass name size)
      (fun w' a => (a = fun _ => ⟨UInt32.ofNat s.listed.length⟩) ∧ w'.Stocks s.addClass)
      fun _ _ => True := by
    refine get_bind ?_
    intro m holds
    simp only [holds.known]
    exact newClass_stocks stocks name size _
  refine bind defined ?_
  rintro w₁ - ⟨rfl, stocks₁⟩
  refine bind (setKnown_stocks stocks₁ (record ⟨UInt32.ofNat s.listed.length⟩)) ?_
  intro w₂ _ stocks₂
  refine mono (install_stocks stocks₂ ⟨UInt32.ofNat s.listed.length⟩ quiet same few) ?_ fun _ _ h => h
  intro w₃ _ stocks₃
  have index : (UInt32.ofNat s.listed.length).toNat = s.listed.length :=
    UInt32.toNat_ofNat_of_lt' small
  rw [index] at stocks₃
  exact stocks₃

end Stocks

open Library

/-- **The library is made** as the inventory has it. -/
theorem installLibrary_stocks (stocks : w.Stocks {}) :
    Lockstep limit w (fun _ => Machine.installLibrary) (fun w' _ => w'.Stocks .library)
      fun _ _ => True := by
  refine bind (newClass_stocks stocks "Metaclass" 0 _) ?_
  rintro w₁ - ⟨rfl, s₁⟩
  refine bind (setKnown_stocks s₁ _) ?_
  intro w₂ _ s₂
  refine bind (newClass_stocks s₂ "Object" 0 _) ?_
  rintro w₃ - ⟨rfl, s₃⟩
  refine bind (setKnown_stocks s₃ _) ?_
  intro w₄ _ s₄
  refine bind (setClassLinks_stocks s₄ _ _ _) ?_
  intro w₅ _ s₅
  refine bind (addLibraryClass_stocks s₅ "Array" 0 _ codes_array rfl (by decide) (by decide)) ?_
  intro w₆ _ s₆
  refine bind (install_stocks s₆ _ codes_object rfl (by decide)) ?_
  intro w₇ _ s₇
  refine bind (addLibraryClass_stocks s₇ "Integer" 0 _ codes_integer rfl (by decide) (by decide)) ?_
  intro w₈ _ s₈
  refine bind (addLibraryClass_stocks s₈ "String" 0 _ codes_string rfl (by decide) (by decide)) ?_
  intro w₉ _ s₉
  refine bind (addLibraryClass_stocks s₉ "TextFileReader" 1 _ codes_reader rfl (by decide)
    (by decide)) ?_
  intro w₁₀ _ s₁₀
  refine bind (addLibraryClass_stocks s₁₀ "TextFileWriter" 1 _ codes_writer rfl (by decide)
    (by decide)) ?_
  intro w₁₁ _ s₁₁
  refine get_bind fun m holds => ?_
  refine mono (note _) ?_ fun _ _ h => h
  rintro w₁₂ - rfl
  exact s₁₁

end Lockstep

/-! ### New machines -/

theorem World.stocks_bare {ι : Type} {setup : Machine.Setup} : (World.bare ι setup).Stocks {} :=
  ⟨rfl, rfl, List.nodup_nil, rfl, Nat.le_refl _, nofun, rfl, rfl⟩

namespace Machine

/-- The numbers of the methods that a class lists. -/
def methodNumbers (m : Memory) (id : ClassId) : Except MachineError (List Word) := do
  let c ← classView m (← liftMemory (m.classRef id))
  return (← liftMemory (m.view c.methods)).fieldWords

theorem methodNumbers_of_lists {m : Memory} {A : IdealMemory} {η : Placement} (shows_ : m.Shows A η)
    {k : Nat} {words : List Word} (lists : A.Lists k words) (small : k < wordLimit) :
    methodNumbers m ⟨UInt32.ofNat k⟩ = .ok words := by
  obtain ⟨cid, did, name, superclass, metaclass, size, entry, content, -, filled⟩ := lists
  obtain ⟨a, entry', placed⟩ : ∃ a, m.classes[k]? = some a ∧ η cid = some a := by
    have each := congrArg (·[k]?) shows_.classes
    simp only [List.getElem?_map, entry, Array.getElem?_toList, Option.map_some] at each
    obtain ⟨a, entry', eq⟩ := Option.map_eq_some_iff.1 each.symm
    exact ⟨a, entry', eq.symm⟩
  have found : m.classRef ⟨UInt32.ofNat k⟩ = .ok a := by
    unfold Memory.classRef
    rw [show (UInt32.ofNat k).toNat = k from UInt32.toNat_ofNat_of_lt' small, entry']
  have object : A.store cid =
      ⟨(A.store cid).cls, .fields [.raw name, superclass, metaclass, .raw size, .object did]⟩ := by
    rw [← content]
  obtain ⟨_, _, z, _, -, -, dictionary, -, view, -⟩ := classView_shown shows_ placed object
  obtain ⟨d, placed', rfl⟩ := Option.map_eq_some_iff.1 dictionary
  obtain ⟨v, seen, viewed⟩ := shows_.viewed placed'
  unfold methodNumbers
  rw [found]
  change (do
    let c ← classView m a
    return (← liftMemory (m.view c.methods)).fieldWords) = _
  rw [view, ok_bind]
  change (do return (← liftMemory (m.view d)).fieldWords) = _
  rw [seen]
  exact congrArg Except.ok (viewed.fieldWords_eq filled)

/-- **A machine with the library.**  Its tables and its code begin with those of the library, and
    the classes of the library list their methods. -/
structure HasLibrary (m : Machine) : Prop where
  known : m.known = Inventory.library.known
  services : ∀ entry ∈ ServiceTable.standard.entries, m.services.get? entry.id = some entry
  code : Inventory.library.code <+: m.memory.code.bytes.toList
  small : m.memory.code.bytes.size < wordLimit
  methods : Inventory.library.methods <+: m.memory.methods.toList
  numbers : ∀ k words, Inventory.library.listed[k]? = some words → words ≠ [] →
    methodNumbers m.memory ⟨UInt32.ofNat k⟩ = .ok words

theorem hasLibrary_of_new {setup : Setup} {m : Machine} (made : Machine.new setup = .ok m) :
    m.HasLibrary := by
  have new : ∀ _ : Unit, Machine.new (setup.withHeap setup.settings.heapSize) = .ok m :=
    fun _ => made
  obtain ⟨w, holds, stocks⟩ :=
    World.holds_installed (Lockstep.installLibrary_stocks World.stocks_bare) new
  have shows_ := holds.shows_ ()
  have services : m.services = .standard := (holds.services ()).trans stocks.services
  refine
    { known := (holds.known ()).trans stocks.known
      services := ?services
      code := ?code
      small := ?small
      methods := ?methods
      numbers := ?numbers }
  case services =>
    rw [services]
    decide
  case code =>
    rw [shows_.code, stocks.code]
  case small =>
    rw [(facts_of_new made).2.1]
    decide
  case methods =>
    rw [shows_.methods, stocks.methods]
  case numbers =>
    intro k words listed some_
    have inside : k < 7 := (List.getElem?_eq_some_iff.1 listed).1
    exact methodNumbers_of_lists shows_ (stocks.lists k words listed some_)
      (Nat.lt_trans inside (by decide))

/-- A new machine has no more constants than classes. -/
theorem constants_of_new {setup : Setup} {m : Machine} (made : Machine.new setup = .ok m) :
    m.memory.constants.entries.size ≤ 7 := by
  have new : ∀ _ : Unit, Machine.new (setup.withHeap setup.settings.heapSize) = .ok m :=
    fun _ => made
  obtain ⟨w, holds, stocks⟩ :=
    World.holds_installed (Lockstep.installLibrary_stocks World.stocks_bare) new
  rw [(holds.shows_ ()).constants]
  exact stocks.constants.trans stocks.classes.le

/-- **The library is kept.**  The machine may have more classes, methods, services and code than
    another one, but the classes of the other one list the same methods as there. -/
structure KeepsLibrary (m₀ m : Machine) : Prop where
  known : m.known = m₀.known
  services : ∀ id entry, m₀.services.get? id = some entry → m.services.get? id = some entry
  code : m₀.memory.code.bytes.toList <+: m.memory.code.bytes.toList
  fits : m.memory.code.bytes.size ≤ m₀.memory.code.limit
  methods : m₀.memory.methods.toList <+: m.memory.methods.toList
  dictionaries : ∀ id numbers, methodNumbers m₀.memory id = .ok numbers →
    methodNumbers m.memory id = .ok numbers

theorem KeepsLibrary.hasLibrary {setup : Setup} {m₀ m : Machine} (made : Machine.new setup = .ok m₀)
    (keeps : KeepsLibrary m₀ m) : m.HasLibrary := by
  have new := hasLibrary_of_new made
  have limit : m₀.memory.code.limit < wordLimit := by
    obtain ⟨_, bare, -⟩ := exists_of_bind_eq_ok made
    obtain ⟨_, memory, -⟩ := exists_of_bind_eq_ok bare
    obtain ⟨⟨⟩, valid, -⟩ := exists_of_bind_eq_ok (Lockstep.liftMemory_eq_ok memory)
    have := (arenas_lt_of_validate valid).2
    rw [(facts_of_new made).2.2.1]
    omega
  exact
    { known := keeps.known.trans new.known
      services := fun entry listed => keeps.services _ _ (new.services entry listed)
      code := new.code.trans keeps.code
      small := Nat.lt_of_le_of_lt keeps.fits limit
      methods := new.methods.trans keeps.methods
      numbers := fun k words listed some_ => keeps.dictionaries _ _ (new.numbers k words listed some_) }

/-- A class that lists methods is in the table. -/
theorem classRef_of_methodNumbers {m : Memory} {id : ClassId} {numbers : List Word}
    (found : methodNumbers m id = .ok numbers) : ∃ c, m.classRef id = .ok c := by
  obtain ⟨c, found, -⟩ := exists_of_bind_eq_ok found
  exact ⟨c, Lockstep.liftMemory_eq_ok found⟩

theorem HasLibrary.exists_integer {m : Machine} (library : m.HasLibrary) :
    ∃ c, m.memory.classOrNull m.known.integer = .ok c := by
  rw [library.known]
  exact classRef_of_methodNumbers (library.numbers 3 _ rfl (by decide))

theorem HasLibrary.exists_string {m : Machine} (library : m.HasLibrary) :
    ∃ c, m.memory.classOrNull m.known.string = .ok c := by
  rw [library.known]
  exact classRef_of_methodNumbers (library.numbers 4 _ rfl (by decide))

/-- **A library method is found** where the receiver is an instance of a class of the library. -/
theorem HasLibrary.finds {m : Machine} (library : m.HasLibrary) {k : Nat} {receiver c : Ref}
    {selector : String} {body : List Instruction} (answers : Inventory.library.Answers k selector body)
    (entry : m.memory.classRef ⟨UInt32.ofNat k⟩ = .ok c)
    (instance_ : receiverClass m.memory receiver = .ok c) :
    ∃ method, lookup m.memory receiver selector = .ok method ∧ method.locals = 0 ∧
      ∃ more, m.memory.code.bytes.toList.drop method.entry.word.toNat =
        Instruction.encodeAll body ++ more := by
  obtain ⟨words, listed, some_, known, method, found, locals, stored⟩ := answers
  have numbers := library.numbers k words listed some_
  unfold methodNumbers at numbers
  rw [entry] at numbers
  obtain ⟨_, ⟨⟩, numbers⟩ := exists_of_bind_eq_ok numbers
  obtain ⟨view, class_, numbers⟩ := exists_of_bind_eq_ok numbers
  obtain ⟨dictionary, seen, numbers⟩ := exists_of_bind_eq_ok numbers
  have seen := Lockstep.liftMemory_eq_ok seen
  have same : ∀ index ∈ words, m.memory.methods[index.toNat]? =
      Inventory.library.methods[index.toNat]? := by
    intro index mem
    obtain ⟨more, eq⟩ := library.methods
    rw [← Array.getElem?_toList, ← eq, List.getElem?_append_left (known index mem)]
  have inside : ∀ index ∈ words, index.toNat < m.memory.methods.size := by
    intro index mem
    rw [← Array.length_toList]
    exact Nat.lt_of_lt_of_le (known index mem) library.methods.length_le
  have own : ownMethod m.memory selector view = .ok (some method) := by
    unfold ownMethod
    rw [(Ref.isNull_eq_false_iff _).2 (ne_null_of_view seen), if_neg Bool.false_ne_true, seen]
    change findMethod m.memory selector dictionary.fieldWords = _
    rw [show dictionary.fieldWords = words from Except.ok.inj numbers, findMethod_eq inside,
      List.filterMap_congr same, found]
  refine ⟨method, ?_, locals, ?_⟩
  · rw [Machine.lookup_eq instance_, inheritedMethod_link _ _ _ (ne_null_of_classView class_), class_,
      ok_bind, own]
    rfl
  · obtain ⟨more, eq⟩ := stored
    obtain ⟨others, whole⟩ := library.code
    by_cases inside : method.entry.word.toNat ≤ Inventory.library.code.length
    · refine ⟨more ++ others, ?_⟩
      rw [← whole, List.drop_append_of_le_length inside, ← eq, List.append_assoc]
    · have none : Instruction.encodeAll body ++ more = [] :=
        eq.trans (List.drop_eq_nil_of_le (Nat.le_of_not_le inside))
      rw [(List.append_eq_nil_iff.1 none).1]
      exact ⟨_, (List.nil_append _).symm⟩

end Machine

end ObjectMachine

/-
  ObjectMachine/Proofs/LockstepClasses.lean
  =========================================
  **Tables in lockstep** — classes, methods and method dictionaries.

  A class and a dictionary are made in one step: while its fields are being filled, a new
  object is neither an ordinary object nor an entry of a table, and nothing is allocated in
  between.
-/
import ObjectMachine.Machine.Library
import ObjectMachine.Proofs.ClassRecords
import ObjectMachine.Proofs.LockstepObjects

namespace ObjectMachine

open IdealMemory

/-! ### Ideal tables -/

/-- The words in the fields of an object after `setFields`. -/
def fillWords : (index : Word) → List Word → List Word → List Word
  | _, [], fields => fields
  | index, value :: rest, fields => fillWords (index + 1) rest (fields.set index.toNat value)

theorem length_fillWords (index : Word) (values fields : List Word) :
    (fillWords index values fields).length = fields.length := by
  induction values generalizing index fields with
  | nil => rfl
  | cons value rest ih => rw [fillWords, ih, List.length_set]

/-- A field that is passed gets one of the values; the others keep what they have, unless
    the index wraps around. -/
theorem mem_fillWords {index : Word} {values fields : List Word} {j : Nat} {y : Word}
    (small : fields.length < wordLimit) (field : (fillWords index values fields)[j]? = some y) :
    y ∈ values ∨ fields[j]? = some y ∧ ¬(index.toNat ≤ j ∧ j < index.toNat + values.length) := by
  induction values generalizing index fields with
  | nil => exact Or.inr ⟨field, by simp⟩
  | cons value rest ih =>
    have limit : wordLimit = 4294967296 := rfl
    have inside : j < fields.length := by
      have := (List.getElem?_eq_some_iff.1 field).1
      rwa [length_fillWords] at this
    rcases ih (by rwa [List.length_set]) field with mem | ⟨kept, apart⟩
    · exact Or.inl (List.mem_cons_of_mem _ mem)
    · rw [List.getElem?_set] at kept
      split at kept
      · rw [if_pos (by omega)] at kept
        cases kept
        exact Or.inl List.mem_cons_self
      · rename_i ne
        refine Or.inr ⟨kept, ?_⟩
        rintro ⟨low, high⟩
        rw [List.length_cons] at high
        have next : (index + 1).toNat = (index.toNat + 1) % 4294967296 := by
          rw [UInt32.toNat_add]
          rfl
        have := index.toNat_lt
        omega

/-- A dictionary is filled to the last field. -/
theorem mem_of_mem_fillWords {values : List Word} {y : Word}
    (mem : y ∈ fillWords 0 values
      (List.replicate (UInt32.ofNat values.length).toNat Ref.null.word)) : y ∈ values := by
  obtain ⟨j, field⟩ := List.mem_iff_getElem?.1 mem
  have length : (UInt32.ofNat values.length).toNat = values.length % 4294967296 :=
    UInt32.toNat_ofNat' ..
  have small : (List.replicate (UInt32.ofNat values.length).toNat Ref.null.word).length <
      wordLimit := by
    rw [List.length_replicate]
    exact UInt32.toNat_lt _
  rcases mem_fillWords small field with mem | ⟨kept, apart⟩
  · exact mem
  · have inside := (List.getElem?_eq_some_iff.1 kept).1
    rw [List.length_replicate] at inside
    refine absurd ⟨Nat.zero_le j, ?_⟩ apart
    have : (0 : Word).toNat = 0 := rfl
    omega

namespace IdealMemory

variable (A : IdealMemory)

/-- A class with null methods. -/
def newClass (name : String) (size : Word) (superclass metaclass : Value) : IdealMemory :=
  { A.allocate ⟨metaclass, .fields [.raw (A.constants.add (.text name)).1, superclass, metaclass,
      .raw size, .raw Ref.null.word]⟩ with
    classes := A.classes ++ [A.next]
    constants := (A.constants.add (.text name)).2 }

/-- A method dictionary. -/
def newDictionary (cls : Value) (words : List Word) : IdealMemory :=
  { A.allocate ⟨cls, .fields (words.map .raw)⟩ with dictionaries := A.dictionaries ++ [A.next] }

variable {A} {harmless : Word → Prop} {records : List ClassRecord}

theorem Valid.sameClasses_newDictionary (valid : A.Valid harmless) (cls : Value) (words : List Word) :
    A.SameClasses (A.newDictionary cls words) :=
  { SameClasses.allocate valid ⟨cls, .fields (words.map .raw)⟩ with }

/-- A new dictionary for a class. -/
theorem Describes.newMethods {cid : Nat} {name size : Word} {sup met old : Value}
    (h : A.Describes records) (valid : A.Valid harmless) (mem : cid ∈ A.classes)
    (content : (A.store cid).content = .fields [.raw name, sup, met, .raw size, old])
    (cls : Value) (words : List Word) :
    ((A.newDictionary cls words).setContent cid
      (.fields [.raw name, sup, met, .raw size, .object A.next])).Describes records := by
  have same := valid.sameClasses_newDictionary cls words
  have kept : ((A.newDictionary cls words).store cid).content = _ :=
    (congrArg Entity.content (same.store cid mem)).trans content
  exact (h.congr same).setMethods kept _

/-- **A new class** is one more record. -/
theorem Describes.newClass {name : String} {size : Word} {superclass metaclass : Option ClassId}
    {sup met : Value} (h : A.Describes records) (valid : A.Valid harmless)
    (hsup : A.classValue? superclass = some sup) (hmet : A.classValue? metaclass = some met) :
    (A.newClass name size sup met).Describes (records ++ [⟨name, superclass, metaclass⟩]) := by
  have new : A.next ∉ A.classes := fun mem => Nat.lt_irrefl _ (valid.classes_lt _ mem)
  have links : ∀ c v, A.classValue? c = some v →
      (A.newClass name size sup met).classValue? c = some v := by
    intro c v found
    cases c with
    | none => exact found
    | some id =>
      obtain ⟨cid, entry, rfl⟩ := Option.map_eq_some_iff.1 found
      have inside := (List.getElem?_eq_some_iff.1 entry).1
      exact Option.map_eq_some_iff.2 ⟨cid, (List.getElem?_append_left inside).trans entry, rfl⟩
  refine ⟨?_, ?_, fun k id r entry record => ?_⟩
  · change (A.classes ++ [A.next]).length = _
    rw [List.length_append, List.length_append, h.length]
    rfl
  · refine List.nodup_append.2 ⟨h.nodup, List.nodup_singleton _, ?_⟩
    rintro id mem _ last rfl
    obtain rfl := List.mem_singleton.1 last
    exact new mem
  have entry : (A.classes ++ [A.next])[k]? = some id := entry
  by_cases old : k < A.classes.length
  · rw [List.getElem?_append_left old] at entry
    rw [List.getElem?_append_left (h.length ▸ old)] at record
    exact (h.recorded k id r entry record).congr links
      (A.store_allocate_of_lt (valid.classes_lt id (List.mem_of_getElem? entry)) _)
      (A.constants.entries_add _)
  · obtain rfl : k = A.classes.length := by
      have := (List.getElem?_eq_some_iff.1 entry).1
      rw [List.length_append, List.length_singleton] at this
      omega
    rw [List.getElem?_concat_length] at entry
    rw [h.length, List.getElem?_concat_length] at record
    cases entry
    cases record
    exact ⟨_, sup, met, size, _, links _ _ hsup, links _ _ hmet, A.store_allocate_next _,
      fun few => A.constants.getElem?_add _ few⟩

end IdealMemory

/-- Filling the fields of an object with raw words. -/
theorem SemiSpaces.Shows.setFields {η : Placement} {store : Nat → Entity}
    {next id : Nat} {r : Ref} {cls : Value} {header : Header} (kind : header.kind = .pointers)
    (placed : η id = some r) (values : List Word) :
    ∀ (index : Word) {fields : List Word} {s : SemiSpaces}, header.size.toNat = fields.length →
      s.Shows η (Function.update store id ⟨cls, .fields (fields.map .raw)⟩) next →
      (s.mapBytes (Object.setFields header r index values)).Shows η
        (Function.update store id ⟨cls, .fields ((fillWords index values fields).map .raw)⟩) next := by
  induction values with
  | nil =>
    intro index fields s _ shows_
    exact shows_
  | cons value rest ih =>
    intro index fields s length shows_
    rw [fillWords]
    by_cases inside : index.toNat < fields.length
    · have has : Object.hasField header index.toNat = true := by
        simp [Object.hasField, kind, length, inside]
      have stored := shows_.setField_update (i := index.toNat) (v := .raw value) placed
        (by simpa using inside) rfl
      rw [← List.map_set] at stored
      have after := ih (index + 1) (by rw [List.length_set]; exact length) stored
      have same : (s.mapBytes (Object.setField · r index.toNat value)).mapBytes
          (Object.setFields header r (index + 1) rest) =
          s.mapBytes (Object.setFields header r index (value :: rest)) := by
        cases s
        simp only [SemiSpaces.mapBytes, Object.setFields, has, if_true]
      rwa [same] at after
    · have hasnt : Object.hasField header index.toNat = false := by
        simp [Object.hasField, kind, length]
        omega
      have after := ih (index + 1) length shows_
      have same : s.mapBytes (Object.setFields header r (index + 1) rest) =
          s.mapBytes (Object.setFields header r index (value :: rest)) := by
        cases s
        simp only [SemiSpaces.mapBytes, Object.setFields, hasnt, if_false, Bool.false_eq_true]
      rw [List.set_eq_of_length_le (by omega)]
      rwa [same] at after

namespace Lockstep

variable {ι α : Type} {limit : ι → Nat} {w : World ι} {post : World ι → (ι → α) → Prop}
  {fail : MachineError → IdealMemory → Prop} {v : Value}

/-! ### Tables without references -/

theorem addConstant (c : Constant) :
    Lockstep limit w (fun _ => (Memory.addConstant c : Machine.Run Word))
      (fun w' a => (a = fun _ => (w.memory.constants.add c).1) ∧
        w' = { w with memory := { w.memory with constants := (w.memory.constants.add c).2 } })
      fail := by
  refine of_valid fun valid => memory (P := fun _ a => a = (w.memory.constants.add c).1)
    (A := { w.memory with constants := (w.memory.constants.add c).2 }) { valid with } ?_
    (fun a all => ⟨funext all, rfl⟩)
  intro m holds i
  have same := (holds.shows_ i).constants
  refine ⟨((m i).memory.constants.add c).1,
    { (m i).memory with constants := ((m i).memory.constants.add c).2 }, rfl,
    { holds.shows_ i with constants := by rw [same] }, rfl, by rw [same]⟩

theorem addMethod (method : Method) :
    Lockstep limit w (fun _ => (Memory.addMethod method : Machine.Run Word))
      (fun w' a => (a = fun _ => UInt32.ofNat w.memory.methods.size) ∧
        w' = { w with memory := { w.memory with methods := w.memory.methods.push method } })
      fail := by
  refine of_valid fun valid => memory (P := fun _ a => a = UInt32.ofNat w.memory.methods.size)
    (valid.addMethod method) ?_ (fun a all => ⟨funext all, rfl⟩)
  intro m holds i
  have same := (holds.shows_ i).methods
  refine ⟨_, { (m i).memory with methods := (m i).memory.methods.push method }, rfl,
    { holds.shows_ i with methods := by rw [same] }, rfl, by rw [same]⟩

theorem storeCode (code : List UInt8)
    (full : w.memory.code.limit - w.memory.code.bytes.size < code.length → ∀ e, fail e w.memory) :
    Lockstep limit w (fun _ => (Memory.storeCode code : Machine.Run CodeAddress))
      (fun w' a => (a = fun _ => CodeAddress.ofOffset w.memory.code.bytes.size) ∧
        code.length ≤ w.memory.code.limit - w.memory.code.bytes.size ∧
        w' = { w with memory := { w.memory with code :=
          { w.memory.code with bytes := w.memory.code.bytes.appendList code } } }) fail := by
  by_cases room : w.memory.code.limit - w.memory.code.bytes.size < code.length
  · refine memory_error (e := fun _ => .codeOverflow code.length
      (w.memory.code.limit - w.memory.code.bytes.size)) ?_ (fun _ _ => rfl) fun _ => full room _
    intro m holds i
    have same := (holds.shows_ i).code
    unfold Memory.storeCode CodeArena.store
    dsimp only
    rw [same, if_pos room]
    dsimp only
    rw [← same]
  · refine of_valid fun valid => memory
      (P := fun _ a => a = CodeAddress.ofOffset w.memory.code.bytes.size)
      (A := { w.memory with code :=
        { w.memory.code with bytes := w.memory.code.bytes.appendList code } }) { valid with } ?_
      (fun a all => ⟨funext all, Nat.not_lt.1 room, rfl⟩)
    intro m holds i
    have same := (holds.shows_ i).code
    refine ⟨_, { (m i).memory with code := { w.memory.code with
      bytes := w.memory.code.bytes.appendList code } }, ?_,
      { holds.shows_ i with code := rfl }, rfl, rfl⟩
    unfold Memory.storeCode CodeArena.store
    dsimp only
    rw [same, if_neg room]

theorem setKnown (f : KnownClasses → KnownClasses) :
    Lockstep limit w (fun _ => Machine.setKnown f)
      (fun w' _ => w' = { w with host := { w.host with known := f w.host.known } }) fail := by
  intro m holds
  refine Or.inr (Or.inl ⟨{ w with host := { w.host with known := f w.host.known } }, fun _ => (),
    fun i => { m i with known := f (m i).known }, fun _ => rfl,
    ⟨holds.shows_, holds.size, ?_, holds.valid⟩, rfl⟩)
  intro i
  have := holds.host i
  unfold Machine.host at this ⊢
  rw [← this]

/-! ### Classes -/

/-- The fields of a new class, one after the other. -/
theorem showsClass {s : SemiSpaces} {η : Placement} {store : Nat → Entity} {next id : Nat} {r : Ref}
    {superclass metaclass : Value} {x y : Word} (name size : Word)
    (shows_ : s.Shows η (Function.update store id
      ⟨metaclass, .blank .pointers (UInt32.ofNat ClassField.count)⟩) next)
    (placed : η id = some r) (at_super : η.word? superclass = some x)
    (at_meta : η.word? metaclass = some y) :
    (s.mapBytes fun b =>
      let b := Object.setField b r ClassField.name name
      let b := Object.setField b r ClassField.superclass x
      let b := Object.setField b r ClassField.metaclass y
      let b := Object.setField b r ClassField.objectSize size
      Object.setField b r ClassField.methods Ref.null.word).Shows η (Function.update store id
        ⟨metaclass, .fields [.raw name, superclass, metaclass, .raw size, .raw Ref.null.word]⟩)
        next := by
  have h₀ : s.Shows η (Function.update store id
      ⟨metaclass, .fields (List.replicate 5 (.raw Ref.null.word))⟩) next := shows_
  have h₁ := h₀.setField_update (i := 0) (v := .raw name) placed (by decide) rfl
  have h₂ := h₁.setField_update (i := 1) placed (by simp) at_super
  have h₃ := h₂.setField_update (i := 2) placed (by simp) at_meta
  have h₄ := h₃.setField_update (i := 3) (v := .raw size) placed (by simp) rfl
  exact h₄.setField_update (i := 4) (v := .raw Ref.null.word) placed (by simp) rfl

theorem registered {classes : List Nat} {entries : Array Ref} {η : Placement} {id : Nat} {r : Ref}
    (eq : classes.map η = entries.toList.map some) (placed : η id = some r) :
    (classes ++ [id]).map η = (entries.push r).toList.map some := by
  rw [List.map_append, eq, Array.toList_push, List.map_append, List.map_singleton,
    List.map_singleton, placed]

/-- Filling an object and registering it as a class. -/
theorem registerFilled {m : Machine} {r : Ref} {header : Header}
    (found : m.memory.header r = .ok header) (f : Bytes → Bytes) (event : ClassId → Event) :
    (do
      let _ ← Memory.query (·.header r)
      Memory.modifyHeap f
      let id ← Memory.registerClass r
      Memory.note (event id)
      return id : Machine.Run ClassId) m =
    .ok ⟨UInt32.ofNat m.memory.classes.size⟩ { m with memory := { m.memory with
      space := m.memory.space.mapBytes f
      classes := m.memory.classes.push r
      journal := m.memory.journal.note (event ⟨UInt32.ofNat m.memory.classes.size⟩) } } := by
  have read : (Memory.query (·.header r) : Machine.Run Header) m = .ok header m :=
    onMemory_ok (Memory.query_ok found)
  rw [run_bind_ok read]
  rfl

theorem newClass (name : String) (size : Word) (superclass : Option ClassId)
    (missing : w.memory.classValue? superclass = none ∨
      w.memory.classValue? w.host.known.metaclass = none →
        ∀ e A, w.memory.SameClasses A → fail e A)
    (full : (∃ i, limit i < addressGuard + 2 * (volume w.memory.store w.memory.next + 31)) →
      ∀ e A, w.memory.SameClasses A → fail e A) :
    Lockstep limit w (fun _ => Machine.newClass name size superclass)
      (fun w' a => ∃ sup met, w.memory.classValue? superclass = some sup ∧
        w.memory.classValue? w.host.known.metaclass = some met ∧
        w'.memory = w.memory.newClass name size sup met ∧ w'.host = w.host ∧
        a = fun _ => ⟨UInt32.ofNat w.memory.classes.length⟩) fail := by
  refine of_valid fun valid => bind (addConstant (.text name)) ?_
  rintro w₁ - ⟨rfl, rfl⟩
  refine get_bind ?_
  intro m holds
  simp only [holds.known]
  have valid₁ : IdealMemory.Valid (Harmless limit)
      { w.memory with constants := (w.memory.constants.add (.text name)).2 } := { valid with }
  have added := SameClasses.addConstant w.memory (.text name)
  refine bind (allocateObject .pointers _ _ (fun none e => missing (Or.inr none) e _ added)
    fun none e => full none e _ added) ?_
  rintro w₂ r ⟨met, found_met, made⟩
  have memory₂ := made.memory
  have same : w.memory.SameClasses w₂.memory := by
    rw [memory₂]
    exact added.trans (.allocate valid₁ _)
  have stays : ∀ {c v}, w.memory.classValue? c = v → w₂.memory.classValue? c = v := by
    intro c v found
    rw [memory₂]
    exact found
  refine bind (classRefOrNull superclass fun none e => missing (Or.inl ?_) e _ same) ?_
  · rw [memory₂] at none
    exact none
  rintro w₃ superRef ⟨rfl, sup, found_sup, at_super⟩
  refine bind (classRefOrNull w.host.known.metaclass fun none e => missing (Or.inr ?_) e _ same) ?_
  · rw [memory₂] at none
    exact none
  rintro w₄ metaRef ⟨rfl, met', found_met', at_meta⟩
  obtain rfl : met = met' := Option.some.inj ((stays found_met).symm.trans found_met')
  have found_sup' : w.memory.classValue? superclass = some sup := by
    rw [memory₂] at found_sup
    exact found_sup
  refine each (A := w.memory.newClass name size sup met)
    (P := fun _ id => id = ⟨UInt32.ofNat w.memory.classes.length⟩) ?_ ?_ ?_
  · exact valid₁.allocateClass (entry_classValue? found_met)
      ⟨_, _, _, _, _, rfl, entry_classValue? found_sup', entry_classValue? found_met, Or.inl rfl⟩
  · intro m holds i
    have shows_ := holds.shows_ i
    have placed := made.place i
    obtain ⟨size', c, header, -, -⟩ := shows_.header_object placed
    have heap := shows_.heap
    have classes := shows_.classes
    rw [memory₂] at heap classes
    have classes : w.memory.classes.map _ = _ := classes
    have filled := showsClass (w.memory.constants.add (.text name)).1 size heap
      placed (at_super i) (at_meta i)
    have length : (m i).memory.classes.size = w.memory.classes.length := by
      have := congrArg List.length classes
      simpa using this.symm
    have same := shows_
    rw [memory₂] at same
    refine ⟨_, _, registerFilled header _ _,
      { same with heap := filled, classes := registered classes placed }, ?_, rfl, by rw [length]⟩
    simp [SemiSpaces.mapBytes, Object.setField]
  · intro a ids
    exact ⟨sup, met, found_sup', found_met, rfl, made.host, funext ids⟩

theorem defineClass (name : String) (size : Word)
    (missing : w.memory.classValue? w.host.known.object = none ∨
      w.memory.classValue? w.host.known.metaclass = none →
        ∀ e A, w.memory.SameClasses A → fail e A)
    (full : (∃ i, limit i < addressGuard + 2 * (volume w.memory.store w.memory.next + 31)) →
      ∀ e A, w.memory.SameClasses A → fail e A) :
    Lockstep limit w (fun _ => Machine.defineClass name size)
      (fun w' a => ∃ sup met, w.memory.classValue? w.host.known.object = some sup ∧
        w.memory.classValue? w.host.known.metaclass = some met ∧
        w'.memory = w.memory.newClass name size sup met ∧ w'.host = w.host ∧
        a = fun _ => ⟨UInt32.ofNat w.memory.classes.length⟩) fail := by
  refine get_bind ?_
  intro m holds
  simp only [holds.known]
  exact newClass name size w.host.known.object missing full

/-! ### Dictionaries -/

/-- What a dictionary of these methods holds. -/
def dictionaryWords (methods : List Word) : List Word :=
  fillWords 0 methods (List.replicate (UInt32.ofNat methods.length).toNat Ref.null.word)

theorem registerDictionary_eq {m : Machine} {r : Ref} {header : Header}
    (found : m.memory.header r = .ok header) (methods : List Word) :
    (do
      let header ← Memory.query (·.header r)
      Memory.modifyHeap (Object.setFields header r 0 methods)
      let _ ← Memory.registerDictionary r
      return r : Machine.Run Ref) m =
    .ok r { m with memory := { m.memory with
      space := m.memory.space.mapBytes (Object.setFields header r 0 methods)
      dictionaries := m.memory.dictionaries.push r } } := by
  have read : (Memory.query (·.header r) : Machine.Run Header) m = .ok header m :=
    onMemory_ok (Memory.query_ok found)
  rw [run_bind_ok read]
  rfl

theorem size_setFields (header : Header) (r : Ref) (values : List Word) (index : Word) (b : Bytes) :
    (Object.setFields header r index values b).size = b.size := by
  induction values generalizing index b with
  | nil => rfl
  | cons value rest ih =>
    rw [Object.setFields, ih]
    split
    · exact Bytes.size_overwrite _ _ _
    · rfl

theorem newDictionary (methods : List Word)
    (small : ∀ y ∈ methods, y.toNat < w.memory.methods.size)
    (missing : w.memory.classValue? w.host.known.array = none → ∀ e, fail e w.memory)
    (full : (∃ i, limit i < addressGuard + 2 * (volume w.memory.store w.memory.next +
      ObjectKind.pointers.objectBytes (UInt32.ofNat methods.length))) → ∀ e, fail e w.memory) :
    Lockstep limit w (fun _ => Machine.newDictionary methods)
      (fun w' r => ∃ cls, w.memory.classValue? w.host.known.array = some cls ∧
        w'.memory = w.memory.newDictionary cls (dictionaryWords methods) ∧ w'.host = w.host ∧
        ∀ i, w'.place i w.memory.next = some (r i)) fail := by
  refine of_valid fun valid => bind (newArray _ missing full) ?_
  rintro w₁ r ⟨cls, found, made⟩
  have memory₁ := made.memory
  refine each (A := w.memory.newDictionary cls (dictionaryWords methods))
    (P := fun i r' => r' = r i) ?_ ?_ ?_
  · refine valid.allocateDictionary (entry_classValue? found) ⟨_, rfl, ?_⟩
    intro y mem
    exact small y (mem_of_mem_fillWords mem)
  · intro m holds i
    have shows_ := holds.shows_ i
    have placed := made.place i
    obtain ⟨size, c, header, length, -⟩ := shows_.header_object placed
    have content : (w₁.memory.store w.memory.next).content =
        .blank .pointers (UInt32.ofNat methods.length) := by
      rw [memory₁, store_allocate_next]
    have same := shows_
    rw [memory₁] at same
    have dictionaries : w.memory.dictionaries.map _ = _ := same.dictionaries
    have blank : (m i).memory.space.Shows (w₁.place i) (Function.update w.memory.store
        w.memory.next ⟨cls, .fields ((List.replicate (UInt32.ofNat methods.length).toNat
          Ref.null.word).map .raw)⟩) (w.memory.next + 1) := by
      rw [List.map_replicate]
      exact same.heap
    rw [content] at header length
    have kind : (⟨.pointers, size, .normal c⟩ : Header).kind = .pointers := rfl
    have filled := SemiSpaces.Shows.setFields kind placed methods 0
      (by rw [List.length_replicate]; simpa using length) blank
    refine ⟨r i, _, registerDictionary_eq header methods, { same with
      heap := filled, dictionaries := registered dictionaries placed }, ?_, rfl, rfl⟩
    exact size_setFields _ _ _ _ _
  · intro r' same
    obtain rfl : r' = r := funext same
    exact ⟨cls, found, rfl, made.host, made.place⟩

/-- The fields of a class that is in the table. -/
theorem class_fields {A : IdealMemory} {harmless : Word → Prop} (valid : A.Valid harmless) {cid : Nat}
    (mem : cid ∈ A.classes) : ∃ name superclass metaclass size methods,
      (A.store cid).content = .fields [.raw name, superclass, metaclass, .raw size, methods] ∧
        Entry A.classes superclass ∧ Entry A.classes metaclass ∧ Entry A.dictionaries methods :=
  valid.class_layout cid mem

theorem setMethods (id : ClassId) (methods : List Word)
    (small : ∀ y ∈ methods, y.toNat < w.memory.methods.size)
    (missing : w.memory.classValue? w.host.known.array = none ∨
      w.memory.classValue? (some id) = none → ∀ e A, w.memory.SameClasses A → fail e A)
    (full : (∃ i, limit i < addressGuard + 2 * (volume w.memory.store w.memory.next +
      ObjectKind.pointers.objectBytes (UInt32.ofNat methods.length))) →
        ∀ e A, w.memory.SameClasses A → fail e A) :
    Lockstep limit w (fun _ => Machine.setMethods id methods)
      (fun w' _ => ∃ cls cid name superclass metaclass size old,
        w.memory.classes[id.index.toNat]? = some cid ∧
        (w.memory.store cid).content = .fields [.raw name, superclass, metaclass, .raw size, old] ∧
        w'.memory = (w.memory.newDictionary cls (dictionaryWords methods)).setContent cid
          (.fields [.raw name, superclass, metaclass, .raw size, .object w.memory.next]) ∧
        w'.host = w.host) fail := by
  refine of_valid fun valid => bind (newDictionary methods small
    (fun none e => missing (Or.inl none) e _ (.refl _)) fun none e => full none e _ (.refl _)) ?_
  rintro w₁ dictionary ⟨cls, -, memory₁, host₁, placed⟩
  have same : w.memory.SameClasses w₁.memory := by
    rw [memory₁]
    exact valid.sameClasses_newDictionary _ _
  refine bind (classRefOrNull (some id) fun none e => missing (Or.inr ?_) e _ same) ?_
  · rw [memory₁] at none
    exact none
  rintro w₂ r ⟨rfl, v, found, value⟩
  rw [memory₁] at found
  obtain ⟨cid, entry, rfl⟩ := Option.map_eq_some_iff.1 found
  have entry : w.memory.classes[id.index.toNat]? = some cid := entry
  have mem := List.mem_of_getElem? entry
  obtain ⟨name, superclass, metaclass, size, old, content, hsuper, hmeta, -⟩ :=
    class_fields valid mem
  have content₁ : (w₂.memory.store cid).content =
      .fields [.raw name, superclass, metaclass, .raw size, old] := by
    rw [memory₁, ← content]
    exact congrArg Entity.content (w.memory.store_allocate_of_lt (valid.classes_lt cid mem) _)
  have made_at : ∀ i, (w₂.place i).word? (.object w.memory.next) = _ :=
    fun i => Placement.word?_object (placed i)
  refine of_valid fun valid₁ => bind (setField_at
    (fun i => Placement.word?_object_eq_some (value i)) content₁ (show 4 < 5 by decide)
    made_at ?_) ?_
  · have mem₁ : cid ∈ w₂.memory.classes := by
      rw [memory₁]
      exact mem
    have new : w.memory.next ∈ w₂.memory.dictionaries := by
      rw [memory₁]
      exact List.mem_append_right _ (List.mem_singleton_self _)
    have classes : ∀ {u}, Entry w.memory.classes u → Entry w₂.memory.classes u := by
      intro u entry
      rw [memory₁]
      exact entry
    exact valid₁.setClass mem₁ (valid₁.cls cid (valid₁.classes_lt cid mem₁))
      ⟨name, superclass, metaclass, size, .object w.memory.next, rfl, classes hsuper, classes hmeta,
        Or.inr ⟨_, new, rfl⟩⟩
  · rintro w₃ - ⟨rfl, rfl⟩
    refine of_pure ⟨cls, cid, name, superclass, metaclass, size, old, entry, content, ?_, host₁⟩
    dsimp only
    rw [memory₁]
    rfl

/-! ### Links between classes -/

theorem setClass {id : Nat} {r c : ι → Ref} (placed : ∀ i, w.place i id = some (r i))
    (value : ∀ i, (w.place i).word? v = some (c i).word)
    (valid : (w.memory.setCls id v).Valid (Harmless limit)) :
    Lockstep limit w (fun i => (Memory.setClass (r i) (c i) : Machine.Run Unit))
      (fun w' _ => w' = { w with memory := w.memory.setCls id v }) fail := by
  refine memory (P := fun _ _ => True) valid ?_ (fun _ _ => rfl)
  intro m holds i
  obtain ⟨size, cls, header, -, -⟩ := (holds.shows_ i).header_object (placed i)
  have heap := (holds.shows_ i).heap.setClass (placed i) (value i)
  refine ⟨(), { (m i).memory with
    space := (m i).memory.space.mapBytes (Object.setClass · (r i) (c i)) }, ?_,
    { holds.shows_ i with heap := heap }, Bytes.size_overwrite _ _ _, trivial⟩
  unfold Memory.setClass
  rw [run_bind_ok (Memory.query_ok header)]
  rfl

theorem setClassLinks (id superclass metaclass : ClassId)
    (missing : w.memory.classValue? (some id) = none ∨
      w.memory.classValue? (some superclass) = none ∨
      w.memory.classValue? (some metaclass) = none → ∀ e A, fail e A) :
    Lockstep limit w (fun _ => Machine.setClassLinks id superclass metaclass)
      (fun w' _ => ∃ cid sup met name oldSuper oldMeta size methods,
        w.memory.classes[id.index.toNat]? = some cid ∧ (w.memory.store cid).content =
          .fields [.raw name, oldSuper, oldMeta, .raw size, methods] ∧
        w.memory.classValue? (some superclass) = some sup ∧
        w.memory.classValue? (some metaclass) = some met ∧
        w'.memory = (w.memory.setContent cid
          (.fields [.raw name, sup, met, .raw size, methods])).setCls cid met ∧
        w'.host = w.host) fail := by
  refine of_valid fun valid => bind (classRefOrNull (some superclass)
    fun none e => missing (Or.inr (Or.inl none)) e _) ?_
  rintro w₁ superRef ⟨rfl, sup, found_sup, at_super⟩
  refine bind (classRefOrNull (some metaclass)
    fun none e => missing (Or.inr (Or.inr none)) e _) ?_
  rintro w₂ metaRef ⟨rfl, met, found_met, at_meta⟩
  refine bind (classRefOrNull (some id) fun none e => missing (Or.inl none) e _) ?_
  rintro w₃ r ⟨rfl, v, found, value⟩
  obtain ⟨cid, entry, rfl⟩ := Option.map_eq_some_iff.1 found
  have mem := List.mem_of_getElem? entry
  have placed := fun i => Placement.word?_object_eq_some (value i)
  have hsup := entry_classValue? found_sup
  have hmet := entry_classValue? found_met
  have hcls := valid.cls cid (valid.classes_lt cid mem)
  obtain ⟨name, superclass, metaclass, size, methods, content, hsuper, hmeta, hmethods⟩ :=
    class_fields valid mem
  refine bind (setField_at placed content (show 1 < 5 by decide) at_super
    (valid.setClass mem hcls ⟨name, sup, metaclass, size, methods, rfl, hsup, hmeta, hmethods⟩)) ?_
  rintro w₄ - ⟨rfl, rfl⟩
  refine of_valid fun valid₄ => ?_
  have content₄ : ((w₃.memory.setContent cid (.fields [.raw name, sup, metaclass, .raw size,
      methods])).store cid).content = .fields [.raw name, sup, metaclass, .raw size, methods] :=
    congrArg Entity.content (Function.update_self cid _ w₃.memory.store)
  have hcls₄ := valid₄.cls cid (valid₄.classes_lt cid mem)
  refine bind (setField_at placed content₄ (show 2 < 5 by decide) at_meta
    (valid₄.setClass mem hcls₄ ⟨name, sup, met, size, methods, rfl, hsup, hmet, hmethods⟩)) ?_
  rintro w₅ - ⟨rfl, rfl⟩
  refine of_valid fun valid₅ => ?_
  refine mono (setClass placed at_meta (valid₅.setClass mem hmet ?_)) ?_ (fun _ _ h => h)
  · exact valid₅.class_layout cid mem
  · rintro w₆ - rfl
    refine ⟨cid, sup, met, name, superclass, metaclass, size, methods, entry, content, found_sup,
      found_met, ?_, rfl⟩
    simp only [IdealMemory.setCls, IdealMemory.setContent, Function.update_idem,
      Function.update_self]
    rfl

end Lockstep

end ObjectMachine

/-
  ObjectMachine/Proofs/LockstepObjects.lean
  =========================================
  **Objects in lockstep** — making objects and changing them.

  Whether an allocation collects, and whether it succeeds, is the one thing that depends on
  the size of the heap.  If it succeeds everywhere, the same new object has been made
  everywhere.
-/
import ObjectMachine.Proofs.LockstepStack

namespace ObjectMachine

open IdealMemory

/-- The world after an object has been made. -/
structure World.Made {ι : Type} (w : World ι) (o : Entity) (w' : World ι) (r : ι → Ref) : Prop where
  memory : w'.memory = w.memory.allocate o
  host : w'.host = w.host
  place : ∀ i, w'.place i w.memory.next = some (r i)

/-- The same stack with the same frames. -/
structure IdealMemory.SameStack (A A' : IdealMemory) : Prop where
  cells : A'.cells = A.cells
  bp : A'.bp = A.bp
  bases : A'.bases = A.bases

theorem IdealMemory.SameStack.trans {A A' A'' : IdealMemory} (h : A.SameStack A')
    (h' : A'.SameStack A'') : A.SameStack A'' :=
  ⟨h'.cells.trans h.cells, h'.bp.trans h.bp, h'.bases.trans h.bases⟩

/-- There is at most one object more. -/
inductive IdealMemory.Grown (A : IdealMemory) : IdealMemory → Prop where
  | same : Grown A A
  | object (o : Entity) : Grown A (A.allocate o)

theorem IdealMemory.Grown.sameStack {A A' : IdealMemory} (h : A.Grown A') : A.SameStack A' := by
  cases h <;> exact ⟨rfl, rfl, rfl⟩

theorem World.Made.grown {ι : Type} {w w' : World ι} {o : Entity} {r : ι → Ref}
    (made : w.Made o w' r) : w.memory.Grown w'.memory := by
  rw [made.memory]
  exact .object o

theorem World.Made.sameStack {ι : Type} {w w' : World ι} {o : Entity} {r : ι → Ref}
    (made : w.Made o w' r) : w.memory.SameStack w'.memory := made.grown.sameStack

/-- Nobody knows a new object yet. -/
theorem IdealMemory.Valid.plain_next {harmless : Word → Prop} {A : IdealMemory}
    (valid : A.Valid harmless) (o : Entity) : (A.allocate o).Plain harmless (.object A.next) :=
  ⟨Nat.lt_succ_self _, fun mem => Nat.lt_irrefl _ (valid.classes_lt _ mem),
    fun mem => Nat.lt_irrefl _ (valid.dictionaries_lt _ mem)⟩

theorem IdealMemory.entry_classValue? {A : IdealMemory} {classId : Option ClassId} {cls : Value}
    (h : A.classValue? classId = some cls) : Entry A.classes cls := by
  cases classId with
  | none =>
    cases h
    exact Or.inl rfl
  | some id =>
    obtain ⟨cid, found, rfl⟩ := Option.map_eq_some_iff.1 h
    exact Or.inr ⟨cid, List.mem_of_getElem? found, rfl⟩

theorem Content.values_blank {kind : ObjectKind} {size : Word} {v : Value}
    (h : v ∈ (Content.blank kind size).values) : v = .raw Ref.null.word := by
  cases kind with
  | pointers => exact List.eq_of_mem_replicate h
  | bytes => cases h

namespace Lockstep

variable {ι α : Type} {limit : ι → Nat} {w : World ι} {post : World ι → (ι → α) → Prop}
  {fail : MachineError → IdealMemory → Prop} {v : Value}

/-! ### Classes -/

/-- The address of a class, or null. -/
theorem classRefOrNull (classId : Option ClassId)
    (missing : w.memory.classValue? classId = none → ∀ e, fail e w.memory) :
    Lockstep limit w (fun _ => (Machine.classRefOrNull classId : Machine.Run Ref))
      (fun w' r => w' = w ∧ ∃ v, w.memory.classValue? classId = some v ∧
        ∀ i, (w.place i).word? v = some (r i).word) fail := by
  refine of_valid fun valid => ?_
  cases classId with
  | none =>
    refine memory (A := w.memory) (P := fun _ r => r = Ref.null) valid
      (fun m holds i => ⟨Ref.null, _, rfl, holds.shows_ i, rfl, rfl⟩) ?_
    intro r null
    exact ⟨rfl, .raw Ref.null.word, rfl, fun i => by rw [null i]; rfl⟩
  | some id =>
    cases found : w.memory.classValue? (some id) with
    | none =>
      refine memory_error (e := fun _ => .classOutOfRange id.index) ?_ (fun _ _ => rfl)
        (fun _ => missing found _)
      intro m holds i
      rcases (holds.shows_ i).classRef_eq id with ⟨r, v, value, -, -⟩ | ⟨-, absent⟩
      · rw [found] at value
        cases value
      · exact Memory.query_error (f := (·.classRef id)) absent
    | some v =>
      refine memory (A := w.memory) (P := fun i r => (w.place i).word? v = some r.word) valid ?_
        (fun r value => ⟨rfl, v, rfl, value⟩)
      intro m holds i
      rcases (holds.shows_ i).classRef_eq id with ⟨r, v', value, run, word⟩ | ⟨value, -⟩
      · rw [found] at value
        cases value
        exact ⟨r, _, Memory.query_ok (f := (·.classRef id)) run, holds.shows_ i, rfl, word⟩
      · rw [found] at value
        cases value

/-! ### Making objects -/

theorem allocateObject (kind : ObjectKind) (size : Word) (classId : Option ClassId)
    (missing : w.memory.classValue? classId = none → ∀ e, fail e w.memory)
    (full : (∃ i, limit i <
        addressGuard + 2 * (volume w.memory.store w.memory.next + kind.objectBytes size)) →
      ∀ e, fail e w.memory) :
    Lockstep limit w (fun _ => (Memory.allocateObject kind size classId : Machine.Run Ref))
      (fun w' r => ∃ cls, w.memory.classValue? classId = some cls ∧
        w.Made ⟨cls, .blank kind size⟩ w' r) fail := by
  intro m holds
  have spec := fun i =>
    (holds.shows_ i).allocateObject_spec holds.valid (holds.stray i) kind size classId
  cases value : w.memory.classValue? classId with
  | none =>
    obtain ⟨id, rfl⟩ : ∃ id, classId = some id := by
      cases classId with
      | none => cases value
      | some id => exact ⟨id, rfl⟩
    refine memory_error (e := fun _ => .classOutOfRange id.index) ?_ (fun _ _ => rfl)
      (fun _ => missing value _) m holds
    intro m holds i
    rcases (holds.shows_ i).allocateObject_spec holds.valid (holds.stray i) kind size (some id) with
      ⟨-, id', eq, run⟩ | ⟨cls, -, -, found, -⟩
    · cases eq
      exact run
    · rw [value] at found
      cases found
  | some cls =>
    have outcome : ∀ i, (∃ m' η' available, m'.Shows w.memory η' ∧
          m'.space.bytes.size = (m i).memory.space.bytes.size ∧ m'.space.bytes.size <
            addressGuard + 2 * (volume w.memory.store w.memory.next + kind.objectBytes size) ∧
          Memory.allocateObject kind size classId (m i).memory =
            .error (.outOfMemory (kind.objectBytes size) available) m') ∨
        ∃ m' η' r, m'.Shows (w.memory.allocate ⟨cls, .blank kind size⟩) η' ∧
          m'.space.bytes.size = (m i).memory.space.bytes.size ∧ η' w.memory.next = some r ∧
          Memory.allocateObject kind size classId (m i).memory = .ok r m' := by
      intro i
      rcases spec i with ⟨found, -⟩ | ⟨cls', m', η', found, size_eq, result⟩
      · rw [value] at found
        cases found
      · obtain rfl : cls = cls' := Option.some.inj (value.symm.trans found)
        rcases result with ⟨shows_, less, available, run⟩ | ⟨shows_, r, placed, run⟩
        · exact Or.inl ⟨m', η', available, shows_, size_eq, less, run⟩
        · exact Or.inr ⟨m', η', r, shows_, size_eq, placed, run⟩
    by_cases exhausted : ∃ i, ∃ m' η' available, m'.Shows w.memory η' ∧
        m'.space.bytes.size = (m i).memory.space.bytes.size ∧ m'.space.bytes.size <
          addressGuard + 2 * (volume w.memory.store w.memory.next + kind.objectBytes size) ∧
        Memory.allocateObject kind size classId (m i).memory =
          .error (.outOfMemory (kind.objectBytes size) available) m'
    · obtain ⟨i, m', η', available, shows_, size_eq, less, run⟩ := exhausted
      have size_eq := size_eq.trans (holds.size i)
      exact Or.inl ⟨i, _, available, { m i with memory := m' }, w.memory, η', onMemory_error run,
        shows_, size_eq, holds.valid, full ⟨i, size_eq ▸ less⟩ _⟩
    · choose m' η' r shows_ size_eq placed run using fun i =>
        (outcome i).resolve_left fun h => exhausted ⟨i, h⟩
      refine Or.inr (Or.inl ⟨⟨_, w.host, η'⟩, r, fun i => { m i with memory := m' i },
        fun i => onMemory_ok (run i), ⟨shows_, ?_, holds.host, ?_⟩, cls, rfl, rfl, rfl, placed⟩)
      · intro i
        exact (size_eq i).trans (holds.size i)
      · refine holds.valid.allocate (entry_classValue? value) ?_
        intro v mem
        rw [Content.values_blank mem]
        exact holds.harmless_null

/-- Laying bytes over an object of bytes, all of it. -/
theorem fillPayload {id : Nat} {r : ι → Ref} {old xs : List UInt8}
    (placed : ∀ i, w.place i id = some (r i)) (plain : w.memory.Plain (Harmless limit) (.object id))
    (content : (w.memory.store id).content = .bytes old)
    (misfit : old.length ≠ xs.length → ∀ e, fail e w.memory) :
    Lockstep limit w (fun i => Machine.fillPayload (r i) xs)
      (fun w' _ => w' = { w with memory := w.memory.setContent id (.bytes xs) }) fail := by
  intro m holds
  have found : ∀ i, ∃ header, (m i).memory.header (r i) = .ok header ∧
      header.payloadBytes = old.length := by
    intro i
    obtain ⟨size, c, header, length, -⟩ := (holds.shows_ i).header_object (placed i)
    refine ⟨_, header, ?_⟩
    rw [content] at length ⊢
    exact length
  choose header read bytes using found
  have step : ∀ i, Machine.fillPayload (r i) xs (m i) = (if (header i).payloadBytes = xs.length then
      (Memory.modifyHeap (Object.setPayload · (r i) 0 xs) : Machine.Run Unit)
      else MonadExcept.throw (MachineError.memory (.fault .outOfBuffer))) (m i) := fun i =>
    run_bind_ok (onMemory_ok (Memory.query_ok (read i)))
  refine congr_run step ?_
  by_cases long : old.length = xs.length
  · refine each (A := w.memory.setContent id (.bytes xs)) (P := fun _ _ => True)
      (holds.valid.setContent plain.1 plain.2.1 plain.2.2 (fun v mem => by cases mem)) ?_
      (fun _ _ => rfl) m holds
    intro m holds i
    have fits : 0 + xs.length ≤ old.length := by omega
    have heap := (holds.shows_ i).heap.setPayload (placed i) content fits
    have all : old.take 0 ++ xs ++ old.drop (0 + xs.length) = xs := by
      rw [List.take_zero, List.nil_append, List.drop_eq_nil_of_le (by omega), List.append_nil]
    rw [all] at heap
    rw [if_pos ((bytes i).trans long)]
    refine ⟨(), _, onMemory_ok (Memory.modifyHeap_eq _ _), { holds.shows_ i with heap := heap }, ?_,
      rfl, trivial⟩
    exact Bytes.size_overwrite _ _ _
  · refine Or.inr (Or.inr ⟨w, fun _ => .memory (.fault .outOfBuffer), m, ?_, fun _ _ => rfl, holds,
      fun _ => misfit long _⟩)
    intro i
    dsimp only
    rw [if_neg fun eq => long ((bytes i).symm.trans eq)]
    rfl

theorem setContent_allocate (A : IdealMemory) (cls : Value) (c c' : Content) :
    (A.allocate ⟨cls, c⟩).setContent A.next c' = A.allocate ⟨cls, c'⟩ := by
  simp only [IdealMemory.setContent, IdealMemory.allocate, Function.update_self,
    Function.update_idem]

/-- A new object of bytes that are given. -/
theorem newBytes {xs : List UInt8} {size : Word} (classId : Option ClassId)
    (failed : ∀ e A, w.memory.Grown A → fail e A) {event : Ref → Event} :
    Lockstep limit w (fun _ => (do
        let addr ← Memory.allocateObject .bytes size classId
        Machine.fillPayload addr xs
        Memory.note (event addr)
        return addr : Machine.Run Ref))
      (fun w' r => ∃ cls, w.memory.classValue? classId = some cls ∧ w.Made ⟨cls, .bytes xs⟩ w' r)
      fail := by
  refine of_valid fun valid => ?_
  refine bind (allocateObject .bytes size classId (fun _ _ => failed _ _ .same)
    fun _ _ => failed _ _ .same) ?_
  rintro w₁ r ⟨cls, value, made⟩
  have content : (w₁.memory.store w.memory.next).content = .bytes (List.replicate size.toNat 0) := by
    rw [made.memory, IdealMemory.store_allocate_next]
    rfl
  have plain : w₁.memory.Plain (Harmless limit) (.object w.memory.next) := by
    rw [made.memory]
    exact valid.plain_next _
  refine bind (fillPayload made.place plain content fun _ _ => failed _ _ made.grown) ?_
  rintro w₂ - rfl
  refine bind (note _) ?_
  rintro w₂ - rfl
  refine of_pure ⟨cls, value, ?_, made.host, made.place⟩
  dsimp only
  rw [made.memory, setContent_allocate]

theorem newInteger (n : Word) (failed : ∀ e A, w.memory.Grown A → fail e A) :
    Lockstep limit w (fun _ => Machine.newInteger n)
      (fun w' r => ∃ cls, w.memory.classValue? w.host.known.integer = some cls ∧
        w.Made ⟨cls, .bytes n.bytes⟩ w' r) fail := by
  refine get_bind ?_
  intro m holds
  simp only [holds.known]
  exact newBytes w.host.known.integer failed

theorem newString (xs : List UInt8) (failed : ∀ e A, w.memory.Grown A → fail e A) :
    Lockstep limit w (fun _ => Machine.newString xs)
      (fun w' r => ∃ cls, w.memory.classValue? w.host.known.string = some cls ∧
        w.Made ⟨cls, .bytes xs⟩ w' r) fail := by
  refine get_bind ?_
  intro m holds
  simp only [holds.known]
  exact newBytes w.host.known.string failed

theorem newArray (length : Word)
    (missing : w.memory.classValue? w.host.known.array = none → ∀ e, fail e w.memory)
    (full : (∃ i, limit i < addressGuard +
        2 * (volume w.memory.store w.memory.next + ObjectKind.pointers.objectBytes length)) →
      ∀ e, fail e w.memory) :
    Lockstep limit w (fun _ => Machine.newArray length)
      (fun w' r => ∃ cls, w.memory.classValue? w.host.known.array = some cls ∧
        w.Made ⟨cls, .blank .pointers length⟩ w' r) fail := by
  refine get_bind ?_
  intro m holds
  simp only [holds.known]
  refine bind (allocateObject .pointers length w.host.known.array missing full) ?_
  rintro w₁ r made
  refine bind (note _) ?_
  rintro w₂ - rfl
  exact of_pure made

theorem newObject (id : ClassId) (size : Word) (failed : ∀ e, fail e w.memory) :
    Lockstep limit w (fun _ => Machine.newObject id size)
      (fun w' r => ∃ cls, w.memory.classValue? (some id) = some cls ∧
        w.Made ⟨cls, .blank .pointers size⟩ w' r) fail := by
  refine bind (allocateObject .pointers size (some id) (fun _ => failed) fun _ => failed) ?_
  rintro w₁ r made
  refine get_bind ?_
  intro m holds
  refine bind (note _) ?_
  rintro w₂ - rfl
  exact of_pure made

/-! ### Changing objects -/

/-- Storing a value in a field that is there. -/
theorem setField_at {id index : Nat} {values : List Value} {v' : Value} {r : ι → Ref} {y : ι → Word}
    (placed : ∀ i, w.place i id = some (r i)) (content : (w.memory.store id).content = .fields values)
    (inside : index < values.length) (value' : ∀ i, (w.place i).word? v' = some (y i))
    (valid : (w.memory.setContent id (.fields (values.set index v'))).Valid (Harmless limit)) :
    Lockstep limit w (fun i => (Memory.setField (r i) index (y i) : Machine.Run Bool))
      (fun w' a => (a = fun _ => true) ∧
        w' = { w with memory := w.memory.setContent id (.fields (values.set index v')) }) fail := by
  refine memory (P := fun _ a => a = true) valid ?_ (fun a all => ⟨funext all, rfl⟩)
  intro m holds i
  obtain ⟨size, c, header, length, -⟩ := (holds.shows_ i).header_object (placed i)
  have heap := (holds.shows_ i).heap.setField (placed i) content inside (value' i)
  have has : Object.hasField ⟨(w.memory.store id).content.kind, size, .normal c⟩ index = true := by
    rw [content] at length ⊢
    have : size.toNat = values.length := length
    simp [Object.hasField, Content.kind, this, inside]
  refine ⟨true, { (m i).memory with
    space := (m i).memory.space.mapBytes (Object.setField · (r i) index (y i)) }, ?_,
    { holds.shows_ i with heap := heap }, Bytes.size_overwrite _ _ _, rfl⟩
  unfold Memory.setField
  rw [run_bind_ok (Memory.query_ok header), has]
  rfl

/-- Storing a value in a field of an object that is in no table. -/
theorem setField {index : Nat} {v' : Value} {r : ι → Ref} {y : ι → Word}
    (value : ∀ i, (w.place i).word? v = some (r i).word)
    (plain : w.memory.Plain (Harmless limit) v)
    (value' : ∀ i, (w.place i).word? v' = some (y i))
    (plain' : w.memory.Plain (Harmless limit) v') (failed : ∀ e, fail e w.memory) :
    Lockstep limit w (fun i => (Memory.setField (r i) index (y i) : Machine.Run Bool))
      (fun w' a => (w' = w ∧ a = fun _ => false) ∨ (a = fun _ => true) ∧
        ∃ id c, w' = { w with memory := w.memory.setContent id c }) fail := by
  refine of_valid fun valid => ?_
  cases v with
  | raw z =>
    refine memory_error (e := fun _ => if z = Ref.null.word then .nullDereference
      else .invalidObject ⟨z⟩) ?_ (fun _ _ => rfl) (fun _ => failed _)
    intro m holds i
    have same : r i = ⟨z⟩ := congrArg Ref.mk (Option.some.inj (value i)).symm
    rw [same]
    exact run_bind_error (Memory.query_error
      ((holds.shows_ i).header_stray (holds.stray i z plain)))
  | object id =>
    have placed := fun i => Placement.word?_object_eq_some (value i)
    by_cases inside : ∃ values, (w.memory.store id).content = .fields values ∧ index < values.length
    · obtain ⟨values, content, hi⟩ := inside
      refine mono (setField_at placed content hi value' ?_) ?_ (fun _ _ h => h)
      · refine valid.setContent plain.1 plain.2.1 plain.2.2 ?_
        intro u mem
        rcases List.mem_or_eq_of_mem_set mem with mem | rfl
        · exact valid.fields id plain.1 plain.2.1 plain.2.2 u (by rw [content]; exact mem)
        · exact plain'
      · rintro w' a ⟨rfl, rfl⟩
        exact Or.inr ⟨rfl, id, _, rfl⟩
    · refine memory (A := w.memory) (P := fun _ a => a = false) valid ?_ fun a all =>
        Or.inl ⟨rfl, funext all⟩
      intro m holds i
      obtain ⟨size, c, header, length, -⟩ := (holds.shows_ i).header_object (placed i)
      have hasnt : Object.hasField ⟨(w.memory.store id).content.kind, size, .normal c⟩ index =
          false := by
        cases content : (w.memory.store id).content with
        | bytes xs => rfl
        | fields values =>
          rw [content] at length
          have : size.toNat = values.length := length
          have : values.length ≤ index := Nat.not_lt.1 fun hi => inside ⟨values, content, hi⟩
          simp [Object.hasField, Content.kind]
          omega
      refine ⟨false, (m i).memory, ?_, holds.shows_ i, rfl, rfl⟩
      unfold Memory.setField
      rw [run_bind_ok (Memory.query_ok header), hasnt]
      rfl

/-- Storing bytes in an object of bytes. -/
theorem setPayload {start : Nat} {xs : List UInt8} {r : ι → Ref}
    (value : ∀ i, (w.place i).word? v = some (r i).word)
    (plain : w.memory.Plain (Harmless limit) v)
    (bytes : ∀ id, v = .object id → ∃ old, (w.memory.store id).content = .bytes old)
    (failed : ∀ e, fail e w.memory) :
    Lockstep limit w (fun i => (Memory.setPayload (r i) start xs : Machine.Run Bool))
      (fun _ a => ∃ b, a = fun _ => b) fail := by
  refine of_valid fun valid => ?_
  cases v with
  | raw z =>
    refine memory_error (e := fun _ => if z = Ref.null.word then .nullDereference
      else .invalidObject ⟨z⟩) ?_ (fun _ _ => rfl) (fun _ => failed _)
    intro m holds i
    have same : r i = ⟨z⟩ := congrArg Ref.mk (Option.some.inj (value i)).symm
    rw [same]
    exact run_bind_error (Memory.query_error
      ((holds.shows_ i).header_stray (holds.stray i z plain)))
  | object id =>
    have placed := fun i => Placement.word?_object_eq_some (value i)
    obtain ⟨old, content⟩ := bytes id rfl
    have found : ∀ m, w.Holds limit m → ∀ i, ∃ header,
        (m i).memory.header (r i) = .ok header ∧ header.payloadBytes = old.length := by
      intro m holds i
      obtain ⟨size, c, header, length, -⟩ := (holds.shows_ i).header_object (placed i)
      refine ⟨_, header, ?_⟩
      rw [content] at length ⊢
      exact length
    by_cases fits : start + xs.length ≤ old.length
    · refine memory (A := w.memory.setContent id
          (.bytes (old.take start ++ xs ++ old.drop (start + xs.length))))
        (P := fun _ a => a = true) ?_ ?_ fun a all => ⟨true, funext all⟩
      · exact valid.setContent plain.1 plain.2.1 plain.2.2 fun u mem => by cases mem
      · intro m holds i
        obtain ⟨header, read, length⟩ := found m holds i
        have heap := (holds.shows_ i).heap.setPayload (placed i) content fits
        refine ⟨true, { (m i).memory with
          space := (m i).memory.space.mapBytes (Object.setPayload · (r i) start xs) }, ?_,
          { holds.shows_ i with heap := heap }, Bytes.size_overwrite _ _ _, rfl⟩
        unfold Memory.setPayload
        rw [run_bind_ok (Memory.query_ok read), length, if_pos fits]
        rfl
    · refine memory (A := w.memory) (P := fun _ a => a = false) valid ?_ fun a all =>
        ⟨false, funext all⟩
      intro m holds i
      obtain ⟨header, read, length⟩ := found m holds i
      refine ⟨false, (m i).memory, ?_, holds.shows_ i, rfl, rfl⟩
      unfold Memory.setPayload
      rw [run_bind_ok (Memory.query_ok read), length, if_neg fits]
      rfl

theorem collect : Lockstep limit w (fun _ => (Memory.collect : Machine.Run Unit))
    (fun w' _ => w'.memory = w.memory ∧ w'.host = w.host) fail := by
  intro m holds
  choose m' η' run shows_ size using fun i =>
    (holds.shows_ i).collect_eq holds.valid (holds.stray i)
  exact Or.inr (Or.inl ⟨⟨w.memory, w.host, η'⟩, fun _ => (), fun i => { m i with memory := m' i },
    fun i => onMemory_ok (run i), ⟨shows_, fun i => (size i).trans (holds.size i), holds.host,
      holds.valid⟩, rfl, rfl⟩)

end Lockstep

end ObjectMachine

/-
  ObjectMachine/Proofs/LockstepQueries.lean
  =========================================
  **Questions in lockstep** — what machines say about an object depends on the object, not
  on its address.

  A view of an object is understood once, field by field and byte by byte (`Viewed`).  The
  questions that the interpreter and the services ask are built from views, up to the search
  for a method along the chain of superclasses.
-/
import ObjectMachine.Proofs.Lockstep
import ObjectMachine.Proofs.NearestMethod

namespace ObjectMachine

open IdealMemory ObjectGraph

/-! ### Views -/

/-- A view of the object under a placement. -/
structure Viewed (view : ObjectView) (η : Placement) (o : Entity) : Prop where
  object : ShowsObject view.heap η view.addr o
  fits : view.addr.offset o.content.extent ≤ view.heap.size
  kind : view.header.kind = o.content.kind
  size : view.header.size.toNat = o.content.length
  cls : ∃ c, view.header.state = .normal c ∧ η.word? o.cls = some c.word

namespace Viewed

variable {view : ObjectView} {η : Placement} {o : Entity} (h : Viewed view η o)
include h

theorem hasPointers {values : List Value} (content : o.content = .fields values) :
    view.hasPointers = true := by
  unfold ObjectView.hasPointers
  rw [h.kind, content]
  rfl

theorem hasPointers_bytes {xs : List UInt8} (content : o.content = .bytes xs) :
    view.hasPointers = false := by
  unfold ObjectView.hasPointers
  rw [h.kind, content]
  rfl

theorem fieldWord?_eq {values : List Value} (content : o.content = .fields values) {i : Nat}
    {v : Value} (field : values[i]? = some v) :
    ∃ w, view.fieldWord? i = some w ∧ η.word? v = some w := by
  have field' : o.content.values[i]? = some v := by
    rw [content]
    exact field
  obtain ⟨w, value, word⟩ := h.object.fields i v field'
  have inside : i < view.header.size.toNat := by
    rw [h.size, content]
    exact (List.getElem?_eq_some_iff.1 field).1
  refine ⟨w, ?_, value⟩
  unfold ObjectView.fieldWord?
  rw [h.hasPointers content, if_pos (by simpa using inside)]
  exact word

theorem fieldWord?_none {values : List Value} (content : o.content = .fields values) {i : Nat}
    (field : values[i]? = none) : view.fieldWord? i = none := by
  have outside : ¬i < view.header.size.toNat := by
    rw [h.size, content]
    exact Nat.not_lt.2 (List.getElem?_eq_none_iff.1 field)
  unfold ObjectView.fieldWord?
  rw [if_neg (by simpa using fun _ => Nat.not_lt.1 outside)]

theorem fieldWord?_bytes {xs : List UInt8} (content : o.content = .bytes xs) (i : Nat) :
    view.fieldWord? i = none := by
  unfold ObjectView.fieldWord?
  rw [h.hasPointers_bytes content]
  rfl

/-- The words of a dictionary. -/
theorem fieldWords_eq {words : List Word} (content : o.content = .fields (words.map .raw)) :
    view.fieldWords = words := by
  have each : ∀ i (hi : i < words.length), view.fieldWord? i = some words[i] := by
    intro i hi
    have field : (words.map Value.raw)[i]? = some (.raw words[i]) := by
      rw [List.getElem?_map, List.getElem?_eq_getElem hi]
      rfl
    obtain ⟨w, found, value⟩ := h.fieldWord?_eq content field
    cases value
    exact found
  have length : view.header.size.toNat = words.length := by
    rw [h.size, content]
    exact List.length_map _
  unfold ObjectView.fieldWords
  rw [h.hasPointers content, if_pos rfl, length]
  apply List.ext_getElem?
  intro i
  have all : (List.range words.length).filterMap view.fieldWord? =
      (List.range words.length).map fun i => words[i]?.getD 0 := by
    rw [← List.filterMap_eq_map]
    refine List.filterMap_congr ?_
    intro j hj
    have hj := List.mem_range.1 hj
    rw [each j hj, Function.comp_apply, List.getElem?_eq_getElem hj]
    rfl
  rw [all, List.getElem?_map]
  by_cases hi : i < words.length
  · rw [List.getElem?_range hi, Option.map_some, List.getElem?_eq_getElem hi]
    rfl
  · rw [List.getElem?_eq_none (by simpa using hi), List.getElem?_eq_none (by omega)]
    rfl

theorem payload_eq {xs : List UInt8} (content : o.content = .bytes xs) : view.payload = xs := by
  have length : view.header.payloadBytes = xs.length := by
    unfold Header.payloadBytes
    rw [h.kind, content]
    exact h.size.trans (by rw [content]; rfl)
  unfold ObjectView.payload
  rw [length]
  apply List.ext_getElem?
  intro i
  rw [Bytes.getElem?_slice]
  by_cases hi : i < xs.length
  · rw [if_pos hi]
    have byte := h.object.payload xs content i hi
    rw [← byte]
    simp only [payloadOffset, Ref.offset]
    congr 1
    omega
  · rw [if_neg hi, List.getElem?_eq_none (by omega)]

theorem intValue?_bytes {xs : List UInt8} (content : o.content = .bytes xs) :
    view.intValue? = Word.ofList? xs := by
  have kind : (view.header.kind == ObjectKind.bytes) = true := by
    rw [h.kind, content]
    rfl
  have size : view.header.size.toNat = xs.length := by
    rw [h.size, content]
    rfl
  have byte : ∀ i < xs.length, view.heap[payloadOffset view.addr i]? = xs[i]? :=
    h.object.payload xs content
  unfold ObjectView.intValue?
  rw [kind, size]
  match xs, byte with
  | a :: b :: c :: d :: rest, byte =>
    rw [if_pos (by simp), Bytes.word?_eq]
    have at_ : ∀ k, payloadOffset view.addr 0 + k = payloadOffset view.addr k := by
      intro k
      simp only [payloadOffset, Ref.offset]
      omega
    rw [at_, at_, at_, byte 0 (by simp), byte 1 (by simp), byte 2 (by simp), byte 3 (by simp)]
    rfl
  | [], _ | [_], _ | [_, _], _ | [_, _, _], _ => rfl

theorem intValue?_fields {values : List Value} (content : o.content = .fields values) :
    view.intValue? = none := by
  have kind : (view.header.kind == ObjectKind.bytes) = false := by
    rw [h.kind, content]
    rfl
  unfold ObjectView.intValue?
  rw [kind]
  rfl

/-- A class, decoded. -/
theorem ofObject?_eq {name size : Word} {superclass metaclass methods : Value}
    (content : o.content = .fields [.raw name, superclass, metaclass, .raw size, methods]) :
    ∃ c, ClassView.ofObject? view = some c ∧ c.name = name ∧ c.objectSize = size ∧
      η.word? superclass = some c.superclass.word ∧ η.word? methods = some c.methods.word := by
  obtain ⟨w₀, word₀, value₀⟩ := h.fieldWord?_eq content (i := 0) rfl
  obtain ⟨w₁, word₁, value₁⟩ := h.fieldWord?_eq content (i := 1) rfl
  obtain ⟨w₂, word₂, value₂⟩ := h.fieldWord?_eq content (i := 2) rfl
  obtain ⟨w₃, word₃, value₃⟩ := h.fieldWord?_eq content (i := 3) rfl
  obtain ⟨w₄, word₄, value₄⟩ := h.fieldWord?_eq content (i := 4) rfl
  cases value₀
  cases value₃
  have enough : ClassField.count ≤ view.header.size.toNat := by
    rw [h.size, content]
    exact Nat.le_refl _
  refine ⟨⟨view.addr, name, ⟨w₁⟩, ⟨w₂⟩, size, ⟨w₄⟩⟩, ?_, rfl, rfl, value₁, value₄⟩
  unfold ClassView.ofObject?
  rw [h.hasPointers content, if_pos (by simpa using enough)]
  dsimp only [ClassField.name, ClassField.superclass, ClassField.metaclass, ClassField.objectSize,
    ClassField.methods]
  rw [word₀, word₁, word₂, word₃, word₄]
  rfl

end Viewed

theorem Memory.Shows.viewed {m : Memory} {A : IdealMemory} {η : Placement} (shows_ : m.Shows A η)
    {id : Nat} {r : Ref} (placed : η id = some r) :
    ∃ view, m.view r = .ok view ∧ Viewed view η (A.store id) := by
  obtain ⟨size, c, view, length, cls⟩ := shows_.view_object placed
  exact ⟨_, view, shows_.heap.object id _ placed, shows_.heap.fits placed, rfl, length, c, rfl, cls⟩

/-! ### Objects -/

namespace IdealMemory

variable (A : IdealMemory)

/-- The value of an Integer. -/
def integer? : Value → Option Word
  | .raw _ => none
  | .object id =>
    match (A.store id).content with
    | .fields _ => none
    | .bytes xs => Word.ofList? xs

/-- The bytes of a String. -/
def string? : Value → Option (List UInt8)
  | .raw _ => none
  | .object id =>
    match (A.store id).content with
    | .fields _ => none
    | .bytes xs => some xs

/-- The text of a string constant. -/
def text? (index : Word) : Option String :=
  match A.constants.get index with
  | .ok (.text value) => some value
  | _ => none

end IdealMemory

namespace Answers

variable {ι : Type} {limit : ι → Nat} {w : World ι} {v : Value} {x : ι → Word}

theorem congr {α : Type} {f g : ι → Memory → Except MachineError α} {post : (ι → α) → Prop}
    (h : Answers limit w f post)
    (same : ∀ m, w.Holds limit m → ∀ i, g i (m i).memory = f i (m i).memory) :
    Answers limit w g post := by
  intro m holds
  rcases h m holds with ⟨a, run, posted⟩ | ⟨e, run, kinds⟩
  · exact Or.inl ⟨a, fun i => (same m holds i).trans (run i), posted⟩
  · exact Or.inr ⟨e, fun i => (same m holds i).trans (run i), kinds⟩

section Objects

variable (value : ∀ i, (w.place i).word? v = some (x i))
  (safe : ∀ y, v = .raw y → Harmless limit y)
include value safe

theorem view : Answers limit w (fun i mem => Machine.liftMemory (mem.view ⟨x i⟩))
    fun view => ∃ id, v = .object id ∧ ∀ i, Viewed (view i) (w.place i) (w.memory.store id) := by
  intro m holds
  cases v with
  | raw y =>
    have same : ∀ i, x i = y := fun i => (Option.some.inj (value i)).symm
    refine Or.inr ⟨fun _ => .memory (if y = Ref.null.word then .nullDereference
      else .invalidObject ⟨y⟩), ?_, fun _ _ => rfl⟩
    intro i
    have stray := holds.stray i y (safe y rfl)
    dsimp only
    rw [same i, (holds.shows_ i).view_stray stray]
    rfl
  | object id =>
    choose view run viewed using fun i =>
      (holds.shows_ i).viewed (Placement.word?_object_eq_some (value i))
    refine Or.inl ⟨view, ?_, id, rfl, viewed⟩
    intro i
    dsimp only
    rw [run i]
    rfl

/-- The object at an address that has to have one. -/
theorem header : Answers limit w (fun i mem => Machine.liftMemory (mem.header ⟨x i⟩))
    fun header => ∃ id, v = .object id ∧ ∀ i,
      (header i).kind = (w.memory.store id).content.kind ∧
      (header i).size.toNat = (w.memory.store id).content.length ∧
      ∃ c, (header i).state = .normal c ∧
        (w.place i).word? (w.memory.store id).cls = some c.word := by
  intro m holds
  rcases view value safe m holds with ⟨view, run, id, eq, viewed⟩ | ⟨e, run, kinds⟩
  · refine Or.inl ⟨fun i => (view i).header, ?_, id, eq, fun i =>
      ⟨(viewed i).kind, (viewed i).size, (viewed i).cls⟩⟩
    intro i
    have found := Lockstep.liftMemory_eq_ok (run i)
    dsimp only [Memory.header]
    rw [found]
    rfl
  · refine Or.inr ⟨e, ?_, kinds⟩
    intro i
    obtain ⟨cause, found, eq⟩ := Lockstep.liftMemory_eq_error (run i)
    dsimp only [Memory.header]
    rw [found, eq]
    rfl

theorem integerValue : Answers limit w (fun i mem => Machine.integerValue mem ⟨x i⟩)
    fun a => ∃ n, a = (fun _ => n) ∧ w.memory.integer? v = some n := by
  refine bind (view value safe) ?_
  rintro view ⟨id, rfl, viewed⟩
  cases content : (w.memory.store id).content with
  | fields values =>
    refine error (e := fun i => .typeMismatch .integer ⟨x i⟩) ?_ (fun _ _ => rfl)
    intro m holds i
    rw [(viewed i).intValue?_fields content]
    rfl
  | bytes xs =>
    have integer : w.memory.integer? (.object id) = Word.ofList? xs := by
      simp only [IdealMemory.integer?, content]
    cases first : Word.ofList? xs with
    | none =>
      refine error (e := fun i => .typeMismatch .integer ⟨x i⟩) ?_ (fun _ _ => rfl)
      intro m holds i
      rw [(viewed i).intValue?_bytes content, first]
      rfl
    | some n =>
      refine ok (a := fun _ => n) ?_ ⟨n, rfl, integer.trans first⟩
      intro m holds i
      rw [(viewed i).intValue?_bytes content, first]
      rfl

theorem stringValue : Answers limit w (fun i mem => Machine.stringValue mem ⟨x i⟩)
    fun a => ∃ xs, a = (fun _ => xs) ∧ w.memory.string? v = some xs := by
  refine bind (view value safe) ?_
  rintro view ⟨id, rfl, viewed⟩
  cases content : (w.memory.store id).content with
  | fields values =>
    refine error (e := fun i => .typeMismatch .string ⟨x i⟩) ?_ (fun _ _ => rfl)
    intro m holds i
    rw [(viewed i).kind, content]
    rfl
  | bytes xs =>
    have string : w.memory.string? (.object id) = some xs := by
      simp only [IdealMemory.string?, content]
    refine ok (a := fun _ => xs) ?_ ⟨xs, rfl, string⟩
    intro m holds i
    rw [(viewed i).kind, content, (viewed i).payload_eq content]
    rfl

theorem arrayLength : Answers limit w (fun i mem => Machine.arrayLength mem ⟨x i⟩)
    fun a => ∃ n, a = fun _ => n := by
  refine bind (view value safe) ?_
  rintro view ⟨id, rfl, viewed⟩
  cases content : (w.memory.store id).content with
  | bytes xs =>
    refine error (e := fun i => .typeMismatch .array ⟨x i⟩) ?_ (fun _ _ => rfl)
    intro m holds i
    rw [(viewed i).hasPointers_bytes content]
    rfl
  | fields values =>
    refine ok (a := fun _ => UInt32.ofNat values.length) ?_ ⟨_, rfl⟩
    intro m holds i
    have size : (view i).header.size = UInt32.ofNat values.length := by
      have := (viewed i).size
      rw [content] at this
      rw [show values.length = (view i).header.size.toNat from this.symm, UInt32.ofNat_toNat]
    rw [(viewed i).hasPointers content, size]
    rfl

omit value safe in
/-- A field that an object does not have is out of bounds on all machines. -/
theorem field_missing {view : ι → ObjectView} {index : ι → Word}
    (uniform : ∀ i j, index i = index j)
    (step : ∀ i, Machine.fieldIndex (index i) = .ok (index i).toNat)
    (missing : ∀ i, (view i).field? (index i).toNat = none) :
    ∃ e : ι → MachineError, (∀ i, (do
      match (view i).field? (← Machine.fieldIndex (index i)) with
      | some value => return value
      | none => throw (.fieldOutOfBounds ⟨x i⟩ (index i)) : Except MachineError Ref) =
        .error (e i)) ∧ ∀ i j, (e i).kind = (e j).kind := by
  refine ⟨fun i => .fieldOutOfBounds ⟨x i⟩ (index i), ?_, ?_⟩
  · intro i
    rw [step i]
    change (match (view i).field? (index i).toNat with
      | some value => _
      | none => _) = _
    rewrite [missing i]
    rfl
  · intro i j
    dsimp only [MachineError.kind]
    rw [uniform i j]

/-- The value of a field of an object that is in no table. -/
theorem fieldValue {index : ι → Word} (uniform : ∀ i j, index i = index j)
    (plain : w.memory.Plain (Harmless limit) v) :
    Answers limit w (fun i mem => Machine.fieldValue mem ⟨x i⟩ (index i))
      fun a => ∃ v', w.memory.Plain (Harmless limit) v' ∧
        ∀ i, (w.place i).word? v' = some (a i).word := by
  refine bind (view value safe) ?_
  rintro view ⟨id, rfl, viewed⟩
  intro m holds
  have fields := holds.valid.fields id plain.1 plain.2.1 plain.2.2
  by_cases negative : ∃ i, (index i).signed < 0
  · obtain ⟨j, negative⟩ := negative
    refine Or.inr ⟨fun i => .fieldOutOfBounds Ref.null (index i), ?_, ?_⟩
    · intro i
      dsimp only [Machine.fieldIndex]
      rw [if_pos (uniform i j ▸ negative)]
      rfl
    · intro i j
      dsimp only
      rw [uniform i j]
  · have nonnegative : ∀ i, ¬(index i).signed < 0 := fun i h => negative ⟨i, h⟩
    have step : ∀ i, Machine.fieldIndex (index i) = .ok (index i).toNat := fun i =>
      if_neg (nonnegative i)
    cases content : (w.memory.store id).content with
    | bytes xs =>
      refine Or.inr (field_missing uniform step ?_)
      intro i
      unfold ObjectView.field?
      rw [(viewed i).fieldWord?_bytes content]
      rfl
    | fields values =>
      by_cases inside : ∃ i, ∃ v', values[(index i).toNat]? = some v'
      · obtain ⟨j, v', field⟩ := inside
        have found : ∀ i, ∃ y, (view i).fieldWord? (index i).toNat = some y ∧
            (w.place i).word? v' = some y := by
          intro i
          refine (viewed i).fieldWord?_eq content ?_
          rw [uniform i j]
          exact field
        choose y word value' using found
        refine Or.inl ⟨fun i => ⟨y i⟩, ?_, v', ?_, value'⟩
        · intro i
          dsimp only
          rw [step i]
          change (match (view i).field? (index i).toNat with
            | some value => _
            | none => _) = _
          unfold ObjectView.field?
          rw [word i]
          rfl
        · refine fields v' ?_
          rw [content]
          exact List.mem_of_getElem? field
      · refine Or.inr (field_missing uniform step ?_)
        intro i
        have missing : values[(index i).toNat]? = none := by
          cases found : values[(index i).toNat]? with
          | none => rfl
          | some v' => exact absurd ⟨i, v', found⟩ inside
        unfold ObjectView.field?
        rw [(viewed i).fieldWord?_none content missing]
        rfl

end Objects

/-! ### Classes and methods -/

/-- What depends on nothing that differs between the machines. -/
theorem uniform [Nonempty ι] {α : Type} {f : ι → Memory → Except MachineError α}
    (same : ∀ m, w.Holds limit m → ∀ i j, f i (m i).memory = f j (m j).memory) :
    Answers limit w f fun a => ∃ r, a = fun _ => r := by
  intro m holds
  obtain ⟨j⟩ := ‹Nonempty ι›
  cases result : f j (m j).memory with
  | ok r => exact Or.inl ⟨fun _ => r, fun i => (same m holds i j).trans result, r, rfl⟩
  | error e => exact Or.inr ⟨fun _ => e, fun i => (same m holds i j).trans result, fun _ _ => rfl⟩

theorem classView (valid : w.memory.Valid (Harmless limit)) {id : Nat}
    (value : ∀ i, (w.place i).word? (.object id) = some (x i)) (registered : id ∈ w.memory.classes) :
    Answers limit w (fun i mem => Machine.classView mem ⟨x i⟩) fun c =>
      ∃ size superclass methods, Entry w.memory.classes superclass ∧
        Entry w.memory.dictionaries methods ∧ ∀ i, (c i).objectSize = size ∧
          (w.place i).word? superclass = some (c i).superclass.word ∧
          (w.place i).word? methods = some (c i).methods.word := by
  obtain ⟨name, superclass, metaclass, size, methods, content, hsuper, -, hmethods⟩ :=
    valid.class_layout id registered
  refine bind (view value (fun y eq => by cases eq)) ?_
  rintro view ⟨id', eq, viewed⟩
  cases eq
  have found : ∀ i, ∃ c, ClassView.ofObject? (view i) = some c ∧ c.objectSize = size ∧
      (w.place i).word? superclass = some c.superclass.word ∧
      (w.place i).word? methods = some c.methods.word := by
    intro i
    obtain ⟨c, decoded, -, rest⟩ := (viewed i).ofObject?_eq content
    exact ⟨c, decoded, rest⟩
  choose c decoded rest using found
  refine ok (a := c) ?_ ⟨size, superclass, methods, hsuper, hmethods, rest⟩
  intro m holds i
  rw [decoded i]
  rfl

theorem instanceSize (valid : w.memory.Valid (Harmless limit)) {id : Nat}
    (value : ∀ i, (w.place i).word? (.object id) = some (x i)) (registered : id ∈ w.memory.classes) :
    Answers limit w (fun i mem => Machine.instanceSize mem ⟨x i⟩) fun a => ∃ n, a = fun _ => n := by
  intro m holds
  rcases classView valid value registered m holds with ⟨c, run, size, _, _, -, -, same⟩ | failed
  · refine Or.inl ⟨fun _ => size, ?_, size, rfl⟩
    intro i
    have run : Machine.classView (m i).memory ⟨x i⟩ = .ok (c i) := run i
    dsimp only [Machine.instanceSize]
    rw [run]
    exact congrArg Except.ok (same i).1
  · obtain ⟨e, run, -⟩ := failed
    refine Or.inr ⟨fun i => .typeMismatch .classObject ⟨x i⟩, ?_, fun _ _ => rfl⟩
    intro i
    have run : Machine.classView (m i).memory ⟨x i⟩ = .error (e i) := run i
    dsimp only [Machine.instanceSize]
    rw [run]

theorem isNull_of_placed {r : Ref} {id : Nat} {η : Placement} {m : Memory}
    (shows_ : m.Shows w.memory η) (placed : η id = some r) : r.isNull = false := by
  have nonnull := (shows_.heap.object id r placed).nonnull
  simpa using nonnull

theorem ownMethod [Nonempty ι] (valid : w.memory.Valid (Harmless limit)) (selector : String)
    {methods : Value} {c : ι → ClassView} (entry : Entry w.memory.dictionaries methods)
    (value : ∀ i, (w.place i).word? methods = some (c i).methods.word) :
    Answers limit w (fun i mem => Machine.ownMethod mem selector (c i))
      fun a => ∃ r, a = fun _ => r := by
  rcases entry with rfl | ⟨id, registered, rfl⟩
  · refine ok (a := fun _ => none) ?_ ⟨none, rfl⟩
    intro m holds i
    have null : (c i).methods = Ref.null := by
      have := Option.some.inj (value i)
      exact congrArg Ref.mk this.symm
    unfold Machine.ownMethod
    rw [null]
    rfl
  · obtain ⟨words, content, -⟩ := valid.dictionary_layout id registered
    have found : Answers limit w (fun i mem => do
        let dictionary ← Machine.liftMemory (mem.view (c i).methods)
        Machine.findMethod mem selector dictionary.fieldWords) fun a => ∃ r, a = fun _ => r := by
      refine bind (view (x := fun i => (c i).methods.word) value (fun y eq => by cases eq)) ?_
      rintro view ⟨id', eq, viewed⟩
      cases eq
      refine uniform ?_
      intro m holds i j
      rw [(viewed i).fieldWords_eq content, (viewed j).fieldWords_eq content]
      refine Machine.findMethod_congr ?_ selector words
      rw [(holds.shows_ i).methods, (holds.shows_ j).methods]
    refine found.congr ?_
    intro m holds i
    have nonnull : (c i).methods.isNull = false :=
      isNull_of_placed (holds.shows_ i) (Placement.word?_object_eq_some (value i))
    unfold Machine.ownMethod
    rw [nonnull]
    rfl

/-- **The search along the chain of superclasses.** -/
theorem inheritedMethod [Nonempty ι] (valid : w.memory.Valid (Harmless limit)) (selector : String)
    (budget : Nat) {cls : Value} {c : ι → Ref} (entry : Entry w.memory.classes cls)
    (value : ∀ i, (w.place i).word? cls = some (c i).word) :
    Answers limit w (fun i mem => Machine.inheritedMethod mem selector budget (c i))
      fun a => ∃ r, a = fun _ => r := by
  induction budget generalizing cls c with
  | zero => exact ok (a := fun _ => none) (fun _ _ _ => rfl) ⟨none, rfl⟩
  | succ budget ih =>
    rcases entry with rfl | ⟨id, registered, rfl⟩
    · refine ok (a := fun _ => none) ?_ ⟨none, rfl⟩
      intro m holds i
      have null : c i = Ref.null := congrArg Ref.mk (Option.some.inj (value i)).symm
      rw [Machine.inheritedMethod, null]
      rfl
    · have found : Answers limit w (fun i mem => do
          let c ← Machine.classView mem (c i)
          let own ← Machine.ownMethod mem selector c
          own.elim (Machine.inheritedMethod mem selector budget c.superclass) fun method =>
            .ok (some method)) fun a => ∃ r, a = fun _ => r := by
        refine bind (classView (x := fun i => (c i).word) valid value registered) ?_
        rintro view ⟨_, superclass, methods, hsuper, hmethods, views⟩
        refine bind (ownMethod valid selector hmethods fun i => (views i).2.2) ?_
        rintro - ⟨own, rfl⟩
        cases own with
        | some method => exact ok (a := fun _ => some method) (fun _ _ _ => rfl) ⟨_, rfl⟩
        | none => exact ih hsuper fun i => (views i).2.1
      refine found.congr ?_
      intro m holds i
      have nonnull := isNull_of_placed (holds.shows_ i) (Placement.word?_object_eq_some (value i))
      exact Machine.inheritedMethod_link _ selector budget ((Ref.isNull_eq_false_iff _).1 nonnull)

/-- The method that a receiver answers a selector with is the same on all machines. -/
theorem lookup [Nonempty ι] (valid : w.memory.Valid (Harmless limit)) (selector : String)
    (value : ∀ i, (w.place i).word? v = some (x i)) (plain : w.memory.Plain (Harmless limit) v) :
    Answers limit w (fun i mem => Machine.lookup mem ⟨x i⟩ selector)
      fun a => ∃ r, a = fun _ => r := by
  refine bind (header value (by rintro y rfl; exact plain)) ?_
  rintro header ⟨id, rfl, headers⟩
  choose kind size c state cls using headers
  have found : Answers limit w (fun i mem => do
      let found ← Machine.inheritedMethod mem selector (w.memory.classes.length + 1) (c i)
      found.elim (.error (.methodNotFound selector (Machine.className mem (c i)))) .ok)
      fun a => ∃ r, a = fun _ => r := by
    refine bind (inheritedMethod valid selector _ (valid.cls id plain.1) cls) ?_
    rintro - ⟨own, rfl⟩
    cases own with
    | some method => exact ok (a := fun _ => method) (fun _ _ _ => rfl) ⟨_, rfl⟩
    | none =>
      intro m holds
      exact Or.inr ⟨fun i => .methodNotFound selector (Machine.className (m i).memory (c i)),
        fun i => rfl, fun _ _ => rfl⟩
  refine found.congr ?_
  intro m holds i
  have length : (m i).memory.classes.size = w.memory.classes.length := by
    have := congrArg List.length (holds.shows_ i).classes
    simpa using this.symm
  have classRef : (header i).classRef?.getD Ref.null = c i := by
    unfold Header.classRef?
    rw [state i]
    rfl
  dsimp only
  rewrite [classRef, length]
  rcases Machine.inheritedMethod (m i).memory selector (w.memory.classes.length + 1) (c i) with
    e | _ | method <;> rfl

/-! ### Constants -/

/-- All machines have the same table of constants. -/
theorem textConstant_eq (index : Word) (m : ι → Machine) (holds : w.Holds limit m) (i : ι) :
    Machine.textConstant (m i).memory index = (do
      match ← Machine.liftMemory (w.memory.constants.get index) with
      | .text value => return value
      | .number _ => throw (.constantKind index .text) : Except MachineError String) := by
  unfold Machine.textConstant Memory.constantAt
  rewrite [(holds.shows_ i).constants]
  rfl

theorem textConstant (index : Word) :
    Answers limit w (fun _ mem => Machine.textConstant mem index)
      fun a => ∃ r, a = (fun _ => r) ∧ w.memory.text? index = some r := by
  have same := fun m (holds : w.Holds limit m) => textConstant_eq index m holds
  unfold IdealMemory.text?
  cases found : w.memory.constants.get index with
  | error e =>
    rw [found] at same
    exact error (e := fun _ => .memory e) same fun _ _ => rfl
  | ok c =>
    rw [found] at same
    cases c with
    | text value => exact ok (a := fun _ => value) same ⟨value, rfl, rfl⟩
    | number n => exact error (e := fun _ => .constantKind index .text) same fun _ _ => rfl

theorem lengthConstant [Nonempty ι] (index : Word) :
    Answers limit w (fun _ mem => Machine.lengthConstant mem index)
      fun a => ∃ r, a = fun _ => r := by
  refine uniform ?_
  intro m holds i j
  unfold Machine.lengthConstant Memory.constantAt
  rw [(holds.shows_ i).constants, (holds.shows_ j).constants]

end Answers

end ObjectMachine

/-
  ObjectMachine/Proofs/NearestMethod.lean
  =======================================
  **Dispatch finds the nearest definition.**

  A search visits the receiver's class and what lies above it, and it may take one step more
  than the class table has entries.  Above a class there are no more classes than that, also
  where the links run in a circle, so all that the budget cuts off has been visited before.
-/
import ObjectMachine.Machine.Dispatch
import ObjectMachine.Proofs.MemoryOperations
import Mathlib.Data.Finset.Card
import Mathlib.Data.List.Basic
import Mathlib.Logic.Function.Iterate

namespace ObjectMachine

/-- The words of an object's fields depend on its kind, its size and these words. -/
theorem ObjectView.fieldWords_congr {v v' : ObjectView} (kind : v'.header.kind = v.header.kind)
    (size : v'.header.size = v.header.size)
    (same : ∀ i < v.header.size.toNat, v.header.kind = .pointers →
      v'.heap.word? (fieldOffset v'.addr i) = v.heap.word? (fieldOffset v.addr i)) :
    v'.fieldWords = v.fieldWords := by
  unfold fieldWords hasPointers
  rw [kind, size]
  split
  · rename_i pointers
    apply List.filterMap_congr
    intro i mem
    have inside := List.mem_range.1 mem
    simp [fieldWord?, hasPointers, kind, size, inside, same i inside (by simpa using pointers)]
  · rfl

namespace Machine

/-! ### Classes, upwards -/

/-- The superclass of the class at an address; null where there is none, or no class. -/
def superclassOf (m : Memory) (a : Ref) : Ref :=
  match classView m a with
  | .ok c => c.superclass
  | .error _ => Ref.null

/-- The class that is `k` links above an address. -/
def ancestor (m : Memory) (a : Ref) (k : Nat) : Ref := (superclassOf m)^[k] a

/-- The methods that a class itself defines, in the order of its dictionary. -/
def ownMethods (m : Memory) (a : Ref) : List Method :=
  match classView m a with
  | .error _ => []
  | .ok c =>
    match m.view c.methods with
    | .error _ => []
    | .ok dictionary => dictionary.fieldWords.filterMap fun index => m.methods[index.toNat]?

/-- The first of a class's own methods that has a selector. -/
def definition? (m : Memory) (a : Ref) (selector : String) : Option Method :=
  (ownMethods m a).find? fun method => method.selector = selector

/-- **A class in order** is in the class table and has the layout of a class, and its dictionary,
    if it has one, is an object of references that holds indices of methods only. -/
structure Orderly (m : Memory) (a : Ref) : Prop where
  registered : a ∈ m.classes
  layout : ∃ c, classView m a = .ok c ∧ (c.methods ≠ Ref.null →
    ∃ dictionary, m.view c.methods = .ok dictionary ∧ dictionary.hasPointers = true ∧
      ∀ index ∈ dictionary.fieldWords, index.toNat < m.methods.size)

section Chain

variable (m : Memory) (a : Ref)

theorem view_null : m.view Ref.null = .error .nullDereference := rfl

theorem classView_null : classView m Ref.null = .error (.memory .nullDereference) := rfl

@[simp] theorem ancestor_zero : ancestor m a 0 = a := rfl

theorem ancestor_succ (k : Nat) : ancestor m a (k + 1) = ancestor m (superclassOf m a) k := rfl

theorem ancestor_add (j k : Nat) : ancestor m a (j + k) = ancestor m (ancestor m a k) j :=
  Function.iterate_add_apply ..

@[simp] theorem ancestor_null (k : Nat) : ancestor m Ref.null k = Ref.null :=
  Function.iterate_fixed rfl k

@[simp] theorem definition?_null (selector : String) : definition? m Ref.null selector = none := rfl

end Chain

variable {m : Memory} {a : Ref} {selector : String}

theorem definition?_eq_none_iff :
    definition? m a selector = none ↔ ∀ method ∈ ownMethods m a, method.selector ≠ selector := by
  simp [definition?]

/-! ### One class -/

/-- A class is read off the words of its first five fields. -/
theorem classView_of_words {v : ObjectView} {name superclass metaclass size methods : Word}
    (view : m.view a = .ok v) (pointers : v.header.kind = .pointers)
    (enough : ClassField.count ≤ v.header.size.toNat)
    (words : v.heap.word? (fieldOffset v.addr 0) = some name ∧
      v.heap.word? (fieldOffset v.addr 1) = some superclass ∧
      v.heap.word? (fieldOffset v.addr 2) = some metaclass ∧
      v.heap.word? (fieldOffset v.addr 3) = some size ∧
      v.heap.word? (fieldOffset v.addr 4) = some methods) :
    classView m a = .ok ⟨v.addr, name, ⟨superclass⟩, ⟨metaclass⟩, size, ⟨methods⟩⟩ := by
  have field : ∀ i < 5, v.fieldWord? i = v.heap.word? (fieldOffset v.addr i) := by
    intro i lt
    have inside : i < v.header.size.toNat := Nat.lt_of_lt_of_le lt enough
    simp [ObjectView.fieldWord?, ObjectView.hasPointers, pointers, inside]
  have decoded : ClassView.ofObject? v =
      some ⟨v.addr, name, ⟨superclass⟩, ⟨metaclass⟩, size, ⟨methods⟩⟩ := by
    obtain ⟨w₀, w₁, w₂, w₃, w₄⟩ := words
    rw [← field 0 (by decide)] at w₀
    rw [← field 1 (by decide)] at w₁
    rw [← field 2 (by decide)] at w₂
    rw [← field 3 (by decide)] at w₃
    rw [← field 4 (by decide)] at w₄
    simp [ClassView.ofObject?, ObjectView.hasPointers, pointers, enough, ClassField.name,
      ClassField.superclass, ClassField.metaclass, ClassField.objectSize, ClassField.methods,
      w₀, w₁, w₂, w₃, w₄]
  have lifted : liftMemory (.ok v : Except MemoryError ObjectView) = .ok v := rfl
  unfold classView
  rw [view, lifted, ok_bind, decoded]
  rfl

theorem className?_of_classView {c : ClassView} {name : String} (found : classView m a = .ok c)
    (text : m.constantAt c.name = .ok (.text name)) : className? m a = some name := by
  unfold className?
  rw [found]
  dsimp only
  rw [text]

theorem findMethod_congr {m' : Memory} (methods : m'.methods = m.methods) (selector : String)
    (words : List Word) : findMethod m' selector words = findMethod m selector words := by
  induction words with
  | nil => rfl
  | cons index rest ih =>
    have same : m'.methodAt index = m.methodAt index := by
      unfold Memory.methodAt
      rw [methods]
    rw [findMethod, findMethod, same, ih]

theorem findMethod_eq {words : List Word} (known : ∀ index ∈ words, index.toNat < m.methods.size) :
    findMethod m selector words = .ok ((words.filterMap fun index => m.methods[index.toNat]?).find?
      fun method => method.selector = selector) := by
  induction words with
  | nil => rfl
  | cons index rest ih =>
    rw [List.forall_mem_cons] at known
    obtain ⟨method, entry⟩ : ∃ method, m.methods[index.toNat]? = some method :=
      ⟨_, Array.getElem?_eq_getElem known.1⟩
    have read : m.methodAt index = .ok method := by
      unfold Memory.methodAt
      rw [entry]
    rw [findMethod, read, List.filterMap_cons, entry, List.find?_cons]
    by_cases hit : method.selector = selector
    · rw [decide_eq_true hit]
      exact if_pos hit
    · rw [decide_eq_false hit]
      exact (if_neg hit).trans (ih known.2)

theorem Orderly.ownMethod_eq (orderly : Orderly m a) (selector : String) :
    ∃ c, classView m a = .ok c ∧ c.superclass = superclassOf m a ∧
      ownMethod m selector c = .ok (definition? m a selector) := by
  obtain ⟨c, found, dictionary⟩ := orderly.layout
  refine ⟨c, found, by rw [superclassOf, found], ?_⟩
  unfold ownMethod definition? ownMethods
  rw [found]
  dsimp only
  by_cases null : c.methods = Ref.null
  · rw [null]
    rfl
  · obtain ⟨view, run, -, known⟩ := dictionary null
    rw [(Ref.isNull_eq_false_iff _).2 null, run]
    exact findMethod_eq known

/-! ### The search -/

/-- One link of the chain of superclasses. -/
theorem inheritedMethod_link (m : Memory) (selector : String) (budget : Nat) (nonnull : a ≠ Ref.null) :
    inheritedMethod m selector (budget + 1) a = (do
      let c ← classView m a
      let own ← ownMethod m selector c
      own.elim (inheritedMethod m selector budget c.superclass) fun method => .ok (some method)) := by
  rw [inheritedMethod, (Ref.isNull_eq_false_iff a).2 nonnull, if_neg Bool.false_ne_true]
  cases classView m a with
  | error e => rfl
  | ok c =>
    rw [ok_bind, ok_bind]
    rcases ownMethod m selector c with e | _ | method <;> rfl

/-- What is found `k` links up, and not below. -/
def DefinedAt (m : Memory) (a : Ref) (selector : String) (k : Nat) (method : Method) : Prop :=
  definition? m (ancestor m a k) selector = some method ∧
    ∀ j < k, definition? m (ancestor m a j) selector = none

/-- **A search with a budget** finds the nearest definition in as many classes, or there is none
    in them. -/
theorem inheritedMethod_cases
    (orderly : ∀ k, ancestor m a k ≠ Ref.null → Orderly m (ancestor m a k)) (budget : Nat) :
    (∃ k < budget, ∃ method, DefinedAt m a selector k method ∧
        inheritedMethod m selector budget a = .ok (some method)) ∨
      ((∀ k < budget, definition? m (ancestor m a k) selector = none) ∧
        inheritedMethod m selector budget a = .ok none) := by
  induction budget generalizing a with
  | zero => exact Or.inr ⟨by simp, rfl⟩
  | succ budget ih =>
    by_cases null : a = Ref.null
    · subst null
      exact Or.inr ⟨by simp, rfl⟩
    · obtain ⟨c, found, superclass, own⟩ := (orderly 0 null).ownMethod_eq selector
      rw [ancestor_zero] at found superclass own
      have link := inheritedMethod_link m selector budget null
      rw [found, ok_bind, own, ok_bind, superclass] at link
      rw [link]
      cases here : definition? m a selector with
      | some method =>
        exact Or.inl ⟨0, Nat.zero_lt_succ _, method, ⟨here, by simp⟩, rfl⟩
      | none =>
        -- nothing here: what lies above is what lies above the superclass, one link farther
        have shifted : ∀ k, (∀ j < k, definition? m (ancestor m (superclassOf m a) j) selector = none) →
            ∀ j < k + 1, definition? m (ancestor m a j) selector = none := by
          intro k none j lt
          cases j with
          | zero => exact here
          | succ j => exact none j (Nat.lt_of_succ_lt_succ lt)
        rcases ih fun k => orderly (k + 1) with ⟨k, lt, method, ⟨defined, below⟩, run⟩ | ⟨none, run⟩
        · exact Or.inl ⟨k + 1, Nat.succ_lt_succ lt, method, ⟨defined, shifted k below⟩, run⟩
        · exact Or.inr ⟨shifted budget none, run⟩

theorem DefinedAt.ne_none {k : Nat} {method : Method} (h : DefinedAt m a selector k method) :
    definition? m (ancestor m a k) selector ≠ none := by
  rw [h.1]
  exact Option.some_ne_none method

theorem DefinedAt.unique {j k : Nat} {method other : Method} (h : DefinedAt m a selector j method)
    (h' : DefinedAt m a selector k other) : method = other := by
  rcases Nat.lt_trichotomy j k with lt | rfl | lt
  · exact absurd (h'.2 j lt) h.ne_none
  · exact Option.some.inj (h.1.symm.trans h'.1)
  · exact absurd (h.2 k lt) h'.ne_none

/-! ### Counting classes -/

theorem ancestor_ne_null {i k : Nat} (le : i ≤ k) (nonnull : ancestor m a k ≠ Ref.null) :
    ancestor m a i ≠ Ref.null := by
  intro null
  rw [← Nat.sub_add_cancel le, ancestor_add, null, ancestor_null] at nonnull
  exact nonnull rfl

/-- What comes back to a class that was there before is found on a shorter way. -/
theorem ancestor_shortcut {i j k : Nat} (lt : i < j) (le : j ≤ k)
    (same : ancestor m a i = ancestor m a j) :
    ∃ l < k, ancestor m a l = ancestor m a k := by
  refine ⟨k - j + i, by omega, ?_⟩
  rw [ancestor_add, same, ← ancestor_add, Nat.sub_add_cancel le]

/-- **No class is farther away than the class table is long**, by the shortest way. -/
theorem exists_nearer (registered : ∀ k, ancestor m a k ≠ Ref.null → ancestor m a k ∈ m.classes)
    {k : Nat} (nonnull : ancestor m a k ≠ Ref.null) :
    ∃ j < m.classes.size, ancestor m a j = ancestor m a k := by
  induction k using Nat.strongRecOn with
  | ind k ih =>
    by_cases near : k < m.classes.size
    · exact ⟨k, near, rfl⟩
    · have below : ∀ i ∈ Finset.range (k + 1), ancestor m a i ∈ m.classes.toList.toFinset := by
        intro i mem
        have le : i ≤ k := Nat.le_of_lt_succ (Finset.mem_range.1 mem)
        simpa using registered i (ancestor_ne_null le nonnull)
      have fewer : m.classes.toList.toFinset.card < (Finset.range (k + 1)).card := by
        have := m.classes.toList.toFinset_card_le
        rw [Array.length_toList] at this
        rw [Finset.card_range]
        omega
      obtain ⟨i, hi, j, hj, ne, same⟩ := Finset.exists_ne_map_eq_of_card_lt_of_maps_to fewer below
      rw [Finset.mem_range] at hi hj
      obtain ⟨l, lt, shorter⟩ : ∃ l < k, ancestor m a l = ancestor m a k := by
        rcases Nat.lt_or_gt_of_ne ne with lt | lt
        · exact ancestor_shortcut lt (Nat.le_of_lt_succ hj) same
        · exact ancestor_shortcut lt (Nat.le_of_lt_succ hi) same.symm
      rw [← shorter] at nonnull ⊢
      exact ih l lt nonnull

/-! ### Dispatch -/

/-- **The budget never matters**: one step for each entry of the class table is enough to find
    whatever is defined at any distance. -/
theorem inheritedMethod_enough
    (orderly : ∀ k, ancestor m a k ≠ Ref.null → Orderly m (ancestor m a k)) {budget : Nat}
    (enough : m.classes.size ≤ budget) :
    (∃ k method, DefinedAt m a selector k method ∧
        inheritedMethod m selector budget a = .ok (some method)) ∨
      ((∀ k, definition? m (ancestor m a k) selector = none) ∧
        inheritedMethod m selector budget a = .ok none) := by
  rcases inheritedMethod_cases orderly budget with ⟨k, -, found⟩ | ⟨none, run⟩
  · exact Or.inl ⟨k, found⟩
  · refine Or.inr ⟨?_, run⟩
    intro k
    by_cases null : ancestor m a k = Ref.null
    · rw [null, definition?_null]
    · obtain ⟨j, lt, same⟩ := exists_nearer (fun k nonnull => (orderly k nonnull).registered) null
      rw [← same]
      exact none j (Nat.lt_of_lt_of_le lt enough)

/-- The class that a receiver's header names. -/
def receiverClass (m : Memory) (receiver : Ref) : Except MemoryError Ref :=
  (m.header receiver).map fun header => header.classRef?.getD Ref.null

theorem lookup_eq {receiver cls : Ref} (found : receiverClass m receiver = .ok cls) :
    lookup m receiver selector = (do
      let found ← inheritedMethod m selector (m.classes.size + 1) cls
      found.elim (.error (.methodNotFound selector (className m cls))) .ok) := by
  unfold receiverClass at found
  unfold lookup
  cases read : m.header receiver with
  | error e =>
    rw [read] at found
    cases found
  | ok header =>
    rw [read] at found
    cases found
    have lifted : liftMemory (.ok header : Except MemoryError Header) = .ok header := rfl
    rw [lifted, ok_bind]
    dsimp only
    rcases inheritedMethod m selector (m.classes.size + 1) (header.classRef?.getD Ref.null) with
      e | _ | method <;> rfl

/-- **Dispatch finds the nearest definition.**  Where the classes above a receiver are in order,
    be they ever so many or in a circle, the answer is the first method with the selector, class
    by class upwards and in each in the order of its dictionary; it is an error that names the
    selector and the receiver's class exactly if no class defines one; and any budget of at least
    the length of the class table finds the same. -/
theorem lookup_finds_nearest {receiver cls : Ref} (found : receiverClass m receiver = .ok cls)
    (orderly : ∀ k, ancestor m cls k ≠ Ref.null → Orderly m (ancestor m cls k))
    (selector : String) :
    (∀ method, lookup m receiver selector = .ok method ↔
      ∃ k, DefinedAt m cls selector k method) ∧
    (∀ e, lookup m receiver selector = .error e ↔
      e = .methodNotFound selector (className m cls) ∧
        ∀ k, ∀ method ∈ ownMethods m (ancestor m cls k), method.selector ≠ selector) ∧
    ∀ budget, m.classes.size ≤ budget → inheritedMethod m selector budget cls =
      inheritedMethod m selector (m.classes.size + 1) cls := by
  rw [lookup_eq found]
  simp only [← definition?_eq_none_iff]
  rcases inheritedMethod_enough orderly (Nat.le_succ m.classes.size) with
    ⟨k, method, defined, run⟩ | ⟨nowhere, run⟩
  · rw [run]
    refine ⟨?_, ?_, ?_⟩
    · intro other
      constructor
      · rintro ⟨⟩
        exact ⟨k, defined⟩
      · rintro ⟨j, defined'⟩
        rw [defined.unique defined']
        rfl
    · intro e
      constructor
      · rintro ⟨⟩
      · rintro ⟨-, nowhere⟩
        exact absurd (nowhere k) defined.ne_none
    · intro budget enough
      rcases inheritedMethod_enough orderly enough with ⟨j, other, defined', run'⟩ | ⟨nowhere, -⟩
      · rw [run', defined.unique defined']
      · exact absurd (nowhere k) defined.ne_none
  · rw [run]
    refine ⟨?_, ?_, ?_⟩
    · intro other
      constructor
      · rintro ⟨⟩
      · rintro ⟨j, defined'⟩
        exact absurd (nowhere j) defined'.ne_none
    · intro e
      constructor
      · rintro ⟨⟩
        exact ⟨rfl, nowhere⟩
      · rintro ⟨rfl, -⟩
        rfl
    · intro budget enough
      rcases inheritedMethod_enough orderly enough with ⟨j, other, defined', -⟩ | ⟨-, run'⟩
      · exact absurd (nowhere j) defined'.ne_none
      · exact run'

/-! ### A circle of classes -/

/-- Two classes that are each other's superclass, the dictionary of the second one, and an
    instance of the first one. -/
def circleObjects : List UInt8 :=
  Header.encode ⟨.pointers, 5, .normal Ref.null⟩ ++ (0 : Word).bytes ++ (4127 : Word).bytes ++
    Ref.null.word.bytes ++ (0 : Word).bytes ++ Ref.null.word.bytes ++
    Header.encode ⟨.pointers, 5, .normal Ref.null⟩ ++ (1 : Word).bytes ++ (4096 : Word).bytes ++
    Ref.null.word.bytes ++ (0 : Word).bytes ++ (4158 : Word).bytes ++
    Header.encode ⟨.pointers, 3, .normal Ref.null⟩ ++ (1 : Word).bytes ++ (0 : Word).bytes ++
    (1 : Word).bytes ++ Header.encode ⟨.bytes, 0, .normal ⟨4096⟩⟩

def circleMemory : Memory where
  space := { SemiSpaces.new 256 with
    bytes := (SemiSpaces.new 256).bytes.overwrite 4096 circleObjects
    top := 4192 }
  stack := FrameStack.new 16
  code := { limit := 16 }
  pc := ⟨0⟩
  methods := #[⟨"size", ⟨0⟩, 0⟩, ⟨"name", ⟨4⟩, 0⟩]
  constants := ⟨#[.text "Moon", .text "Tide"]⟩
  classes := #[⟨4096⟩, ⟨4127⟩]
  dictionaries := #[⟨4158⟩]
  stats := {}
  journal := { level := none }

theorem size_circle : circleMemory.space.bytes.size = 4352 :=
  (Bytes.size_overwrite _ _ _).trans Array.size_replicate

theorem same_circleObjects :
    Bytes.Same circleMemory.space.bytes 4096 circleObjects.toArray 0 96 := by
  intro i hi
  have fits : 4096 + circleObjects.length ≤ (SemiSpaces.new 256).bytes.size := by
    rw [show (SemiSpaces.new 256).bytes.size = 4352 from Array.size_replicate]
    decide
  have written := Bytes.getElem?_overwrite_self _ _ _ i fits hi
  rw [Nat.zero_add]
  exact written.trans List.getElem?_toArray.symm

theorem ne_null_of_place {k : Nat} {a : Ref} (place : a.offset 0 = 4096 + k) (low : k < 96) :
    a ≠ Ref.null := by
  rintro rfl
  have : Ref.null.offset 0 = 4294967295 := rfl
  omega

/-- Headers are read off the objects that were written. -/
theorem read?_circle (k : Nat) (header : Header) (a : Ref) (place : a.offset 0 = 4096 + k)
    (read : Header.read? circleObjects.toArray (Ref.ofOffset k) = some header)
    (fits : k + header.objectBytes ≤ 96) :
    Header.read? circleMemory.space.bytes a = some header := by
  have long : 11 ≤ header.objectBytes := Nat.le_add_right _ _
  have here : (Ref.ofOffset k).offset 0 = 0 + k := by
    rw [Ref.offset_ofOffset (by simp only [wordLimit]; omega)]
    omega
  have nonnull : Ref.ofOffset k ≠ Ref.null := ((Header.read?_eq_some_iff _ _ _).1 read).1
  have same := same_circleObjects.part k header.objectBytes (by omega)
  rw [← place, ← here] at same
  rw [Header.read?_congr same long (ne_null_of_place place (by omega)) nonnull, read]

theorem circle_view (k : Nat) (header : Header) (a : Ref) (place : a.offset 0 = 4096 + k)
    (read : Header.read? circleObjects.toArray (Ref.ofOffset k) = some header)
    (fits : k + header.objectBytes ≤ 96) :
    circleMemory.view a = .ok ⟨circleMemory.space.bytes, a, header⟩ := by
  have long : 11 ≤ header.objectBytes := Nat.le_add_right _ _
  have at_ : ∀ n, a.offset n = a.offset 0 + n := fun _ => rfl
  apply Memory.view_of_read (read?_circle k header a place read fits)
  · rw [place]
    exact Nat.le_add_right _ _
  · rw [at_, place]
    exact show 4096 + k + 11 ≤ 4192 by omega
  · rw [at_, place, size_circle]
    omega

/-- What matters about the memory: no proof below reads its bytes. -/
structure Circle (m : Memory) : Prop where
  classes : m.classes = #[⟨4096⟩, ⟨4127⟩]
  methods : m.methods = #[⟨"size", ⟨0⟩, 0⟩, ⟨"name", ⟨4⟩, 0⟩]
  constants : m.constants = ⟨#[.text "Moon", .text "Tide"]⟩
  moon : classView m ⟨4096⟩ = .ok ⟨⟨4096⟩, 0, ⟨4127⟩, Ref.null, 0, Ref.null⟩
  tide : classView m ⟨4127⟩ = .ok ⟨⟨4127⟩, 1, ⟨4096⟩, Ref.null, 0, ⟨4158⟩⟩
  dictionary : ∃ v, m.view ⟨4158⟩ = .ok v ∧ v.hasPointers = true ∧ v.fieldWords = [1, 0, 1]
  receiver : m.header ⟨4181⟩ = .ok ⟨.bytes, 0, .normal ⟨4096⟩⟩

theorem circle_circleMemory : Circle circleMemory where
  classes := rfl
  methods := rfl
  constants := rfl
  moon := by
    have view := circle_view 0 ⟨.pointers, 5, .normal Ref.null⟩ ⟨4096⟩ rfl (by decide) (by decide)
    have word := fun j h => same_circleObjects.word? j h
    apply classView_of_words view rfl (by decide)
    exact ⟨(word 11 (by decide)).trans (by decide), (word 15 (by decide)).trans (by decide),
      (word 19 (by decide)).trans (by decide), (word 23 (by decide)).trans (by decide),
      (word 27 (by decide)).trans (by decide)⟩
  tide := by
    have view := circle_view 31 ⟨.pointers, 5, .normal Ref.null⟩ ⟨4127⟩ rfl (by decide) (by decide)
    have word := fun j h => same_circleObjects.word? j h
    apply classView_of_words view rfl (by decide)
    exact ⟨(word 42 (by decide)).trans (by decide), (word 46 (by decide)).trans (by decide),
      (word 50 (by decide)).trans (by decide), (word 54 (by decide)).trans (by decide),
      (word 58 (by decide)).trans (by decide)⟩
  dictionary := by
    have view := circle_view 62 ⟨.pointers, 3, .normal Ref.null⟩ ⟨4158⟩ rfl (by decide) (by decide)
    have same := same_circleObjects
    generalize circleMemory.space.bytes = b at view same
    refine ⟨_, view, rfl, ?_⟩
    have words := @ObjectView.fieldWords_congr
      ⟨circleObjects.toArray, ⟨62⟩, ⟨.pointers, 3, .normal Ref.null⟩⟩
      ⟨b, ⟨4158⟩, ⟨.pointers, 3, .normal Ref.null⟩⟩ rfl rfl
    rw [words]
    · decide
    · intro i lt _
      have lt : i < 3 := lt
      have here : fieldOffset ⟨4158⟩ i = 4096 + (62 + (11 + i * 4)) := Nat.add_assoc 4096 62 _
      have there : fieldOffset ⟨62⟩ i = 0 + (62 + (11 + i * 4)) := (Nat.zero_add _).symm
      dsimp only
      rw [here, there]
      exact same.word? _ (by omega)
  receiver := Memory.header_of_view (circle_view 85 ⟨.bytes, 0, .normal ⟨4096⟩⟩ ⟨4181⟩ rfl
    (by decide) (by decide))

namespace Circle

variable (circle : Circle m)
include circle

theorem ancestor_cases (k : Nat) : ancestor m ⟨4096⟩ k = ⟨4096⟩ ∨ ancestor m ⟨4096⟩ k = ⟨4127⟩ := by
  induction k with
  | zero => exact Or.inl rfl
  | succ k ih =>
    rw [Nat.add_comm, ancestor_add]
    rcases ih with here | here
    · rw [here, ancestor_succ, superclassOf, circle.moon]
      exact Or.inr rfl
    · rw [here, ancestor_succ, superclassOf, circle.tide]
      exact Or.inl rfl

theorem orderly (k : Nat) : Orderly m (ancestor m ⟨4096⟩ k) := by
  rcases circle.ancestor_cases k with here | here
  · rw [here]
    exact ⟨by simp [circle.classes], _, circle.moon, fun nonnull => absurd rfl nonnull⟩
  · rw [here]
    obtain ⟨v, view, pointers, words⟩ := circle.dictionary
    refine ⟨by simp [circle.classes], _, circle.tide, fun _ => ⟨v, view, pointers, ?_⟩⟩
    rw [words, circle.methods]
    simp

theorem ownMethods_eq : ownMethods m ⟨4096⟩ = [] ∧
    ownMethods m ⟨4127⟩ = [⟨"name", ⟨4⟩, 0⟩, ⟨"size", ⟨0⟩, 0⟩, ⟨"name", ⟨4⟩, 0⟩] := by
  obtain ⟨v, view, -, words⟩ := circle.dictionary
  unfold ownMethods
  rw [circle.moon, circle.tide]
  dsimp only
  rw [view_null, view]
  dsimp only
  rw [words, circle.methods]
  decide

theorem className_eq : className m ⟨4096⟩ = "Moon" := by
  unfold className
  rw [className?_of_classView circle.moon (by rw [Memory.constantAt, circle.constants]; rfl)]
  rfl

theorem definedAt : DefinedAt m ⟨4096⟩ "size" 1 ⟨"size", ⟨0⟩, 0⟩ := by
  have next : ancestor m ⟨4096⟩ 1 = ⟨4127⟩ := by
    rw [ancestor_succ, superclassOf, circle.moon]
    rfl
  constructor
  · rw [next, definition?, circle.ownMethods_eq.2]
    decide
  · intro j lt
    obtain rfl := Nat.lt_one_iff.1 lt
    rw [ancestor_zero, definition?, circle.ownMethods_eq.1]
    rfl

theorem ne_area (k : Nat) (method : Method) (mem : method ∈ ownMethods m (ancestor m ⟨4096⟩ k)) :
    method.selector ≠ "area" := by
  rcases circle.ancestor_cases k with here | here
  · rw [here, circle.ownMethods_eq.1] at mem
    cases mem
  · rw [here, circle.ownMethods_eq.2] at mem
    revert method
    decide

end Circle

theorem circle_finds_nearest : receiverClass circleMemory ⟨4181⟩ = .ok ⟨4096⟩ ∧
    (∀ k, ancestor circleMemory ⟨4096⟩ k ≠ Ref.null →
      Orderly circleMemory (ancestor circleMemory ⟨4096⟩ k)) ∧
    lookup circleMemory ⟨4181⟩ "size" = .ok ⟨"size", ⟨0⟩, 0⟩ ∧
    lookup circleMemory ⟨4181⟩ "area" = .error (.methodNotFound "area" "Moon") := by
  have circle := circle_circleMemory
  generalize circleMemory = m at circle ⊢
  have found : receiverClass m ⟨4181⟩ = .ok ⟨4096⟩ := by
    rw [receiverClass, circle.receiver]
    rfl
  have orderly : ∀ k, ancestor m ⟨4096⟩ k ≠ Ref.null → Orderly m (ancestor m ⟨4096⟩ k) :=
    fun k _ => circle.orderly k
  refine ⟨found, orderly, ?_, ?_⟩
  · apply ((lookup_finds_nearest found orderly "size").1 _).2
    exact ⟨1, circle.definedAt⟩
  · apply ((lookup_finds_nearest found orderly "area").2.1 _).2
    exact ⟨by rw [circle.className_eq], circle.ne_area⟩

end Machine

end ObjectMachine

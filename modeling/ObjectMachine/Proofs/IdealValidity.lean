/-
  ObjectMachine/Proofs/IdealValidity.lean
  =======================================
  **Valid memories stay valid** — one lemma for each thing that operations do.

  Everything here is about ideal memories, so nothing moves and there are no bytes.  An
  object is made and put into a table in one step: between the two it would be an ordinary
  object with the fields of a class.
-/
import ObjectMachine.Proofs.StackOperations

namespace ObjectMachine.IdealMemory

variable {harmless : Word → Prop} {A A' : IdealMemory} {v : Value}

/-! ### What may stand where, in a larger memory -/

theorem Plain.mono (h : A.Plain harmless v) (next : A.next ≤ A'.next)
    (classes : ∀ id < A.next, id ∈ A'.classes → id ∈ A.classes)
    (dictionaries : ∀ id < A.next, id ∈ A'.dictionaries → id ∈ A.dictionaries) :
    A'.Plain harmless v := by
  cases v with
  | raw w => exact h
  | object id =>
    obtain ⟨named, not_class, not_dictionary⟩ := h
    exact ⟨by omega, fun mem => not_class (classes id named mem),
      fun mem => not_dictionary (dictionaries id named mem)⟩

theorem Entry.mono {table table' : List Nat} (h : Entry table v) (sub : ∀ id ∈ table, id ∈ table') :
    Entry table' v := by
  rcases h with null | ⟨id, mem, eq⟩
  · exact Or.inl null
  · exact Or.inr ⟨id, sub id mem, eq⟩

theorem ClassLayout.mono {c : Content} (h : A.ClassLayout c)
    (classes : ∀ id ∈ A.classes, id ∈ A'.classes)
    (dictionaries : ∀ id ∈ A.dictionaries, id ∈ A'.dictionaries) : A'.ClassLayout c := by
  obtain ⟨name, superclass, metaclass, size, methods, eq, hsuper, hmeta, hmethods⟩ := h
  exact ⟨name, superclass, metaclass, size, methods, eq, hsuper.mono classes, hmeta.mono classes,
    hmethods.mono dictionaries⟩

namespace Valid

variable (valid : A.Valid harmless)
include valid

/-! ### The stack -/

theorem push (plain : A.Plain harmless v) :
    Valid harmless { A with cells := A.cells ++ [v] } := by
  refine { valid with framed := ?framed, live := ?live }
  case framed =>
    refine valid.framed.congr ?_
    intro k control
    exact List.getElem?_append_left (valid.framed.control_lt control)
  case live =>
    intro k v' cell live
    by_cases old : k < A.cells.length
    · exact valid.live k v' ((List.getElem?_append_left old).symm.trans cell) live
    · have : v' ∈ [v] := by
        rw [List.getElem?_append_right (by omega)] at cell
        exact List.mem_of_getElem? cell
      rw [List.mem_singleton.1 this]
      exact plain

/-- Dropping cells above the frames. -/
theorem take {n : Nat} (bases : List Nat) (bp : Word) (framed : Framed A.cells bp bases)
    (below : ∀ k, Control bases k → k < n)
    (same : ∀ k < n, Control A.bases k → Control bases k) :
    Valid harmless { A with cells := A.cells.take n, bp := bp, bases := bases } := by
  refine { valid with framed := ?framed, live := ?live }
  case framed =>
    refine framed.congr ?_
    intro k control
    exact List.getElem?_take_of_lt (below k control)
  case live =>
    intro k v' cell live
    dsimp only at cell live
    rw [List.getElem?_take] at cell
    split at cell
    · rename_i hk
      exact valid.live k v' cell fun control => live (same k hk control)
    · cases cell

theorem pop {cs : List Value} (eq : A.cells = cs ++ [v]) (operand : ¬Control A.bases cs.length) :
    Valid harmless { A with cells := cs } := by
  have taken := valid.take (n := cs.length) A.bases A.bp valid.framed ?_ (fun _ _ control => control)
  · rwa [eq, List.take_left] at taken
  · intro k control
    have := valid.framed.control_lt control
    rw [eq, List.length_append, List.length_singleton] at this
    have : k ≠ cs.length := by
      rintro rfl
      exact operand control
    omega

/-- The value on top is one that a program can have in its hands. -/
theorem plain_top {cs : List Value} (eq : A.cells = cs ++ [v])
    (operand : ¬Control A.bases cs.length) : A.Plain harmless v :=
  valid.live cs.length v (by rw [eq]; exact List.getElem?_concat_length) operand

theorem setCell {k : Nat} (slot : ¬Control A.bases k) (plain : A.Plain harmless v) :
    Valid harmless { A with cells := A.cells.set k v } := by
  refine { valid with framed := ?framed, live := ?live }
  case framed =>
    refine valid.framed.congr ?_
    intro j control
    refine List.getElem?_set_ne ?_
    rintro rfl
    exact slot control
  case live =>
    intro j v' cell live
    dsimp only at cell
    rw [List.getElem?_set] at cell
    split at cell
    · split at cell
      · cases cell
        exact plain
      · cases cell
    · exact valid.live j v' cell live

/-- Opening a frame. -/
theorem newFrame {returnTo : Word} {n : Nat} (null : harmless Ref.null.word)
    (room : 4 * A.cells.length + (8 + n * 4) ≤ A.stackSize) :
    Valid harmless { A with
      cells := A.cells ++ [.raw A.bp, .raw returnTo] ++ List.replicate n (.raw Ref.null.word)
      bp := UInt32.ofNat (4 * A.cells.length)
      bases := 4 * A.cells.length :: A.bases } := by
  have addressable := valid.stack_addressable
  have limit : wordLimit = 4294967296 := rfl
  have base : (UInt32.ofNat (4 * A.cells.length)).toNat = 4 * A.cells.length :=
    UInt32.toNat_ofNat_of_lt' (show 4 * A.cells.length < 2 ^ 32 by omega)
  have open_ : UInt32.ofNat (4 * A.cells.length) ≠ noFrame := by
    intro eq
    have := congrArg UInt32.toNat eq
    rw [base] at this
    have : noFrame.toNat = 4294967295 := rfl
    omega
  have below := valid.framed.le_length
  have old : ∀ k < A.cells.length, (A.cells ++ [.raw A.bp, .raw returnTo] ++
      List.replicate n (.raw Ref.null.word))[k]? = A.cells[k]? := by
    intro k hk
    rw [List.append_assoc]
    exact List.getElem?_append_left hk
  have outer : Framed (A.cells ++ [.raw A.bp, .raw returnTo] ++
      List.replicate n (.raw Ref.null.word)) A.bp A.bases :=
    valid.framed.congr fun k control => old k (valid.framed.control_lt control)
  refine { valid with framed := ?framed, live := ?live }
  case framed =>
    have frame := @Framed.frame _ _ A.bp returnTo _ A.cells.length open_ base ?_ ?_ outer
      (by rw [base]; exact below)
    · rwa [base] at frame
    · rw [List.append_assoc, List.getElem?_append_right (Nat.le_refl _), Nat.sub_self]
      rfl
    · rw [List.append_assoc, List.getElem?_append_right (Nat.le_succ _),
        show A.cells.length.succ - A.cells.length = 1 by omega]
      rfl
  case live =>
    intro k v' cell live
    by_cases hk : k < A.cells.length
    · refine valid.live k v' ((old k hk).symm.trans cell) ?_
      rintro ⟨b, hb, where_⟩
      exact live ⟨b, List.mem_cons_of_mem _ hb, where_⟩
    · -- above the old cells there are the two of the frame, and then nulls
      have first : k ≠ A.cells.length := by
        rintro rfl
        exact live ⟨_, List.mem_cons_self, Or.inl rfl⟩
      have second : k ≠ A.cells.length + 1 := by
        rintro rfl
        exact live ⟨_, List.mem_cons_self, Or.inr (by omega)⟩
      dsimp only at cell
      rw [List.getElem?_append_right (by simp; omega), List.getElem?_replicate] at cell
      split at cell
      · cases cell
        exact null
      · cases cell

theorem discardFrame {link : Word} {bases : List Nat} {k : Nat} (outer : Framed A.cells link bases)
    (eq : A.bases = 4 * k :: bases) (above : ∀ b ∈ bases, b + 8 ≤ 4 * k) :
    Valid harmless { A with cells := A.cells.take k, bp := link, bases := bases } := by
  refine valid.take bases link outer ?_ ?_
  · rintro j ⟨b, hb, where_⟩
    have := above b hb
    omega
  · rintro j hj ⟨b, hb, where_⟩
    rw [eq] at hb
    rcases List.mem_cons.1 hb with rfl | hb
    · omega
    · exact ⟨b, hb, where_⟩

/-! ### Objects -/

theorem allocate {o : Entity} (cls : Entry A.classes o.cls)
    (fields : ∀ v ∈ o.content.values, A.Plain harmless v) : Valid harmless (A.allocate o) := by
  have plain : ∀ {v}, A.Plain harmless v → (A.allocate o).Plain harmless v := fun h =>
    h.mono (Nat.le_succ _) (fun _ _ mem => mem) (fun _ _ mem => mem)
  have old : ∀ id < A.next, (A.allocate o).store id = A.store id := fun id named =>
    A.store_allocate_of_lt named o
  have new := A.store_allocate_next o
  refine
    { valid with
      classes_lt := fun id mem => Nat.lt_succ_of_lt (valid.classes_lt id mem)
      dictionaries_lt := fun id mem => Nat.lt_succ_of_lt (valid.dictionaries_lt id mem)
      cls := ?cls
      class_layout := ?class_layout
      dictionary_layout := ?dictionary_layout
      fields := ?fields
      live := fun k v cell live => plain (valid.live k v cell live) }
  case cls =>
    intro id named
    rcases Nat.lt_succ_iff_lt_or_eq.1 named with named | rfl
    · rw [old id named]
      exact valid.cls id named
    · rw [new]
      exact cls
  case class_layout =>
    intro id mem
    rw [old id (valid.classes_lt id mem)]
    exact (valid.class_layout id mem).mono (fun _ h => h) (fun _ h => h)
  case dictionary_layout =>
    intro id mem
    rw [old id (valid.dictionaries_lt id mem)]
    exact valid.dictionary_layout id mem
  case fields =>
    intro id named not_class not_dictionary v mem
    rcases Nat.lt_succ_iff_lt_or_eq.1 named with named | rfl
    · rw [old id named] at mem
      exact plain (valid.fields id named not_class not_dictionary v mem)
    · rw [new] at mem
      exact plain (fields v mem)

/-- Changing an object that is in no table. -/
theorem setContent {id : Nat} {c : Content} (named : id < A.next) (not_class : id ∉ A.classes)
    (not_dictionary : id ∉ A.dictionaries) (fields : ∀ v ∈ c.values, A.Plain harmless v) :
    Valid harmless (A.setContent id c) := by
  have other : ∀ id' ≠ id, (A.setContent id c).store id' = A.store id' := fun id' ne =>
    Function.update_of_ne ne _ _
  have self : (A.setContent id c).store id = { A.store id with content := c } :=
    Function.update_self id _ A.store
  refine
    { valid with
      cls := ?cls
      class_layout := ?class_layout
      dictionary_layout := ?dictionary_layout
      fields := ?fields }
  case cls =>
    intro id' named'
    by_cases same : id' = id
    · subst same
      rw [self]
      exact valid.cls id' named
    · rw [other id' same]
      exact valid.cls id' named'
  case class_layout =>
    intro id' mem
    rw [other id' fun same => not_class (same ▸ mem)]
    exact valid.class_layout id' mem
  case dictionary_layout =>
    intro id' mem
    rw [other id' fun same => not_dictionary (same ▸ mem)]
    exact valid.dictionary_layout id' mem
  case fields =>
    intro id' named' not_class' not_dictionary' v' mem
    by_cases same : id' = id
    · subst same
      rw [self] at mem
      exact fields v' mem
    · rw [other id' same] at mem
      exact valid.fields id' named' not_class' not_dictionary' v' mem

/-! ### Tables -/

/-- A new class. -/
theorem allocateClass {o : Entity} (cls : Entry A.classes o.cls) (layout : A.ClassLayout o.content) :
    Valid harmless { A.allocate o with classes := A.classes ++ [A.next] } := by
  have old : ∀ id < A.next, (A.allocate o).store id = A.store id := fun id named =>
    A.store_allocate_of_lt named o
  have new := A.store_allocate_next o
  have sub : ∀ id ∈ A.classes, id ∈ A.classes ++ [A.next] := fun _ mem => List.mem_append_left _ mem
  have mem_iff : ∀ id, id ∈ A.classes ++ [A.next] ↔ id ∈ A.classes ∨ id = A.next := by simp
  have plain : ∀ {v}, A.Plain harmless v →
      IdealMemory.Plain harmless { A.allocate o with classes := A.classes ++ [A.next] } v := by
    intro v h
    refine h.mono (Nat.le_succ _) ?_ (fun _ _ mem => mem)
    intro id named mem
    exact ((mem_iff id).1 mem).resolve_right (Nat.ne_of_lt named)
  refine
    { valid with
      classes_lt := ?classes_lt
      dictionaries_lt := fun id mem => Nat.lt_succ_of_lt (valid.dictionaries_lt id mem)
      tables_apart := ?tables_apart
      cls := ?cls
      class_layout := ?class_layout
      dictionary_layout := ?dictionary_layout
      fields := ?fields
      live := fun k v cell live => plain (valid.live k v cell live) }
  case classes_lt =>
    intro id mem
    rcases (mem_iff id).1 mem with mem | rfl
    · exact Nat.lt_succ_of_lt (valid.classes_lt id mem)
    · exact Nat.lt_succ_self _
  case tables_apart =>
    intro id mem
    rcases (mem_iff id).1 mem with mem | rfl
    · exact valid.tables_apart id mem
    · exact fun mem => Nat.lt_irrefl _ (valid.dictionaries_lt _ mem)
  case cls =>
    intro id named
    rcases Nat.lt_succ_iff_lt_or_eq.1 named with named | rfl
    · dsimp only
      rw [old id named]
      exact (valid.cls id named).mono sub
    · dsimp only
      rw [new]
      exact cls.mono sub
  case class_layout =>
    intro id mem
    rcases (mem_iff id).1 mem with mem | rfl
    · dsimp only
      rw [old id (valid.classes_lt id mem)]
      exact (valid.class_layout id mem).mono sub (fun _ h => h)
    · dsimp only
      rw [new]
      exact layout.mono sub (fun _ h => h)
  case dictionary_layout =>
    intro id mem
    dsimp only
    rw [old id (valid.dictionaries_lt id mem)]
    exact valid.dictionary_layout id mem
  case fields =>
    intro id named not_class not_dictionary v mem
    rw [mem_iff, not_or] at not_class
    have named : id < A.next := by
      rcases Nat.lt_succ_iff_lt_or_eq.1 named with named | eq
      · exact named
      · exact absurd eq not_class.2
    dsimp only at mem
    rw [old id named] at mem
    exact plain (valid.fields id named not_class.1 not_dictionary v mem)

/-- A new method dictionary. -/
theorem allocateDictionary {o : Entity} (cls : Entry A.classes o.cls)
    (layout : A.DictionaryLayout o.content) :
    Valid harmless { A.allocate o with dictionaries := A.dictionaries ++ [A.next] } := by
  have old : ∀ id < A.next, (A.allocate o).store id = A.store id := fun id named =>
    A.store_allocate_of_lt named o
  have new := A.store_allocate_next o
  have mem_iff : ∀ id, id ∈ A.dictionaries ++ [A.next] ↔ id ∈ A.dictionaries ∨ id = A.next := by
    simp
  have plain : ∀ {v}, A.Plain harmless v → IdealMemory.Plain harmless
      { A.allocate o with dictionaries := A.dictionaries ++ [A.next] } v := by
    intro v h
    refine h.mono (Nat.le_succ _) (fun _ _ mem => mem) ?_
    intro id named mem
    exact ((mem_iff id).1 mem).resolve_right (Nat.ne_of_lt named)
  refine
    { valid with
      classes_lt := fun id mem => Nat.lt_succ_of_lt (valid.classes_lt id mem)
      dictionaries_lt := ?dictionaries_lt
      tables_apart := ?tables_apart
      cls := ?cls
      class_layout := ?class_layout
      dictionary_layout := ?dictionary_layout
      fields := ?fields
      live := fun k v cell live => plain (valid.live k v cell live) }
  case dictionaries_lt =>
    intro id mem
    rcases (mem_iff id).1 mem with mem | rfl
    · exact Nat.lt_succ_of_lt (valid.dictionaries_lt id mem)
    · exact Nat.lt_succ_self _
  case tables_apart =>
    intro id mem mem'
    rcases (mem_iff id).1 mem' with mem' | rfl
    · exact valid.tables_apart id mem mem'
    · exact Nat.lt_irrefl _ (valid.classes_lt _ mem)
  case cls =>
    intro id named
    rcases Nat.lt_succ_iff_lt_or_eq.1 named with named | rfl
    · dsimp only
      rw [old id named]
      exact valid.cls id named
    · dsimp only
      rw [new]
      exact cls
  case class_layout =>
    intro id mem
    dsimp only
    rw [old id (valid.classes_lt id mem)]
    exact (valid.class_layout id mem).mono (fun _ h => h) fun _ h => List.mem_append_left _ h
  case dictionary_layout =>
    intro id mem
    rcases (mem_iff id).1 mem with mem | rfl
    · dsimp only
      rw [old id (valid.dictionaries_lt id mem)]
      exact valid.dictionary_layout id mem
    · dsimp only
      rw [new]
      exact layout
  case fields =>
    intro id named not_class not_dictionary v mem
    rw [mem_iff, not_or] at not_dictionary
    have named : id < A.next := by
      rcases Nat.lt_succ_iff_lt_or_eq.1 named with named | eq
      · exact named
      · exact absurd eq not_dictionary.2
    dsimp only at mem
    rw [old id named] at mem
    exact plain (valid.fields id named not_class not_dictionary.1 v mem)

/-- Changing a class. -/
theorem setClass {id : Nat} {o : Entity} (mem : id ∈ A.classes) (cls : Entry A.classes o.cls)
    (layout : A.ClassLayout o.content) :
    Valid harmless { A with store := Function.update A.store id o } := by
  have other : ∀ id' ≠ id, Function.update A.store id o id' = A.store id' := fun id' ne =>
    Function.update_of_ne ne _ _
  have self : Function.update A.store id o id = o := Function.update_self id _ A.store
  refine
    { valid with
      cls := ?cls
      class_layout := ?class_layout
      dictionary_layout := ?dictionary_layout
      fields := ?fields }
  case cls =>
    intro id' named
    by_cases same : id' = id
    · subst same
      dsimp only
      rw [self]
      exact cls
    · dsimp only
      rw [other id' same]
      exact valid.cls id' named
  case class_layout =>
    intro id' mem'
    by_cases same : id' = id
    · subst same
      dsimp only
      rw [self]
      exact layout
    · dsimp only
      rw [other id' same]
      exact valid.class_layout id' mem'
  case dictionary_layout =>
    intro id' mem'
    dsimp only
    rw [other id' fun same => valid.tables_apart id mem (same ▸ mem')]
    exact valid.dictionary_layout id' mem'
  case fields =>
    intro id' named not_class not_dictionary v' mem'
    dsimp only at mem'
    rw [other id' fun same => not_class (same ▸ mem)] at mem'
    exact valid.fields id' named not_class not_dictionary v' mem'

theorem addMethod (method : Method) : Valid harmless { A with methods := A.methods.push method } := by
  refine { valid with dictionary_layout := ?_ }
  intro id mem
  obtain ⟨words, eq, small⟩ := valid.dictionary_layout id mem
  refine ⟨words, eq, ?_⟩
  intro w hw
  have := small w hw
  dsimp only
  rw [Array.size_push]
  omega

end Valid

end ObjectMachine.IdealMemory

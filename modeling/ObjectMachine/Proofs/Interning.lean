/-
  ObjectMachine/Proofs/Interning.lean
  ===================================
  **Interning is injective and stable** — a constant has one index, an index one constant, and
  neither ever changes.

  Everything follows from what the entries of a pool are: the constants that were added, each at
  its first occurrence, with nothing removed and nothing moved.  The index of a constant is its
  place among them.

  A pool searches its entries.  A pool with a table beside them, which says of every constant
  where it is, answers alike: its two parts stay inverse to each other, one addition after the
  other.
-/
import ObjectMachine.Proofs.ClassRecords

namespace ObjectMachine

/-- Adds constants one after another, each in the way of `add`, and gives their indices. -/
def addEach {σ : Type} (add : Constant → σ → Word × σ) : List Constant → σ → List Word × σ
  | [], p => ([], p)
  | c :: cs, p =>
    let (index, p) := add c p
    let (indices, p) := addEach add cs p
    (index :: indices, p)

section Concat

variable {σ : Type} (add : Constant → σ → Word × σ) (p : σ) (cs : List Constant) (c : Constant)

theorem addEach_concat : addEach add (cs ++ [c]) p =
    ((addEach add cs p).1 ++ [(add c (addEach add cs p).2).1], (add c (addEach add cs p).2).2) := by
  induction cs generalizing p with
  | nil => rfl
  | cons d cs ih =>
    rw [List.cons_append]
    unfold addEach
    dsimp only
    rw [ih]
    rfl

theorem indices_addEach_concat : (addEach add (cs ++ [c]) p).1 =
    (addEach add cs p).1 ++ [(add c (addEach add cs p).2).1] := by
  rw [addEach_concat]

theorem pool_addEach_concat : (addEach add (cs ++ [c]) p).2 = (add c (addEach add cs p).2).2 := by
  rw [addEach_concat]

end Concat

/-- The last element of a list is a first occurrence if it has not occurred before. -/
theorem eraseDups_concat {α : Type} [BEq α] [LawfulBEq α] (xs : List α) (x : α) :
    (xs ++ [x]).eraseDups = xs.eraseDups ++ if x ∈ xs then [] else [x] := by
  rw [List.eraseDups_append, List.removeAll, List.filter_singleton]
  by_cases mem : x ∈ xs
  · rw [if_pos mem, List.elem_eq_true_of_mem mem]
    rfl
  · rw [if_neg mem, Bool.eq_false_iff.2 (List.elem_iff.not.2 mem)]
    rfl

namespace ConstantPool

variable {pool : ConstantPool}

/-! ### One addition -/

/-- **What adding a constant does.**  One that is there already is found at its place, any other
    becomes the last entry. -/
theorem add_eq (c : Constant) (pool : ConstantPool) : pool.add c =
    if c ∈ pool.entries.toList then (UInt32.ofNat (pool.entries.toList.idxOf c), pool)
    else (UInt32.ofNat pool.entries.size, ⟨pool.entries.push c⟩) := by
  unfold add
  rw [← @Array.toArray_toList _ pool.entries, List.findIdx?_toArray]
  cases found : pool.entries.toList.findIdx? (· == c) with
  | none =>
    have absent : c ∉ pool.entries.toList := by
      intro mem
      have other := List.findIdx?_eq_none_iff.1 found c mem
      rw [beq_self_eq_true] at other
      cases other
    rw [if_neg absent]
  | some k =>
    obtain ⟨inside, place⟩ := List.findIdx?_eq_some_iff_findIdx_eq.1 found
    have mem : c ∈ pool.entries.toList := List.idxOf_lt_length_iff.1 (place.trans_lt inside)
    rw [if_pos mem, List.idxOf, place]

theorem toList_add (c : Constant) (pool : ConstantPool) : (pool.add c).2.entries.toList =
    pool.entries.toList ++ if c ∈ pool.entries.toList then [] else [c] := by
  rw [add_eq]
  by_cases mem : c ∈ pool.entries.toList
  · rw [if_pos mem, if_pos mem, List.append_nil]
  · rw [if_neg mem, if_neg mem, Array.toList_push]

/-- The index that is given is the place that the constant has from then on. -/
theorem index_add (c : Constant) (pool : ConstantPool) :
    (pool.add c).1 = UInt32.ofNat ((pool.add c).2.entries.toList.idxOf c) := by
  rw [add_eq]
  by_cases mem : c ∈ pool.entries.toList
  · rw [if_pos mem]
  · rw [if_neg mem, Array.toList_push, List.idxOf_append, if_neg mem, List.idxOf_cons_self,
      Nat.zero_add, Array.length_toList]

theorem get_eq_ok_iff (index : Word) (c : Constant) :
    pool.get index = .ok c ↔ pool.entries.toList[index.toNat]? = some c := by
  rw [Array.getElem?_toList, get]
  cases pool.entries[index.toNat]? with
  | none => exact ⟨nofun, nofun⟩
  | some d => exact ⟨fun h => congrArg some (Except.ok.inj h), fun h => congrArg _ (Option.some.inj h)⟩

/-- What an index leads to it leads to for ever. -/
theorem get_addEach {index : Word} {c : Constant} (cs : List Constant)
    (found : pool.get index = .ok c) : (addEach add cs pool).2.get index = .ok c := by
  induction cs generalizing pool with
  | nil => exact found
  | cons d cs ih =>
    have kept : (add d pool).2.get index = .ok c := by
      rw [get_eq_ok_iff] at found ⊢
      obtain ⟨more, grown⟩ := entries_add d pool
      rw [← grown, List.getElem?_append_left (List.getElem?_eq_some_iff.1 found).1]
      exact found
    exact ih kept

/-! ### Any number of additions to an empty pool -/

/-- The entries are the constants that were added, at their first occurrences. -/
theorem toList_addEach (cs : List Constant) :
    (addEach add cs {}).2.entries.toList = cs.eraseDups := by
  induction cs using List.reverseRecOn with
  | nil => rfl
  | append_singleton cs c ih =>
    rw [pool_addEach_concat, toList_add, ih, eraseDups_concat]
    simp only [List.mem_eraseDups]

theorem mem_addEach_iff {cs : List Constant} {c : Constant} :
    c ∈ (addEach add cs {}).2.entries.toList ↔ c ∈ cs := by
  rw [toList_addEach, List.mem_eraseDups]

theorem nodup_addEach (cs : List Constant) :
    (addEach add cs {}).2.entries.toList.Nodup := by
  induction cs using List.reverseRecOn with
  | nil => exact List.nodup_nil
  | append_singleton cs c ih =>
    rw [pool_addEach_concat, toList_add]
    split
    · rwa [List.append_nil]
    · rename_i absent
      rw [← List.concat_eq_append]
      exact ih.concat absent

theorem size_addEach_le (cs : List Constant) : (addEach add cs {}).2.entries.size ≤ cs.length := by
  induction cs using List.reverseRecOn with
  | nil => exact Nat.le_refl 0
  | append_singleton cs c ih =>
    rw [pool_addEach_concat, List.length_append]
    exact (size_add c _).trans (Nat.add_le_add_right ih 1)

/-- The indices that were given are the places of the constants. -/
theorem indices_addEach (cs : List Constant) : (addEach add cs {}).1 =
    cs.map fun c => UInt32.ofNat ((addEach add cs {}).2.entries.toList.idxOf c) := by
  induction cs using List.reverseRecOn with
  | nil => rfl
  | append_singleton cs c ih =>
    rw [indices_addEach_concat, pool_addEach_concat, List.map_append, List.map_singleton,
      ← index_add, ih]
    congr 1
    apply List.map_congr_left
    intro d mem
    obtain ⟨more, grown⟩ := entries_add c (addEach add cs {}).2
    rw [← grown, List.idxOf_append_of_mem (mem_addEach_iff.2 mem)]

/-- There is an index for every place, as long as there are not too many. -/
theorem toNat_place {c : Constant} (few : pool.entries.size ≤ wordLimit)
    (mem : c ∈ pool.entries.toList) :
    (UInt32.ofNat (pool.entries.toList.idxOf c)).toNat = pool.entries.toList.idxOf c := by
  have inside : pool.entries.toList.idxOf c < pool.entries.size := List.idxOf_lt_length_of_mem mem
  exact UInt32.toNat_ofNat_of_lt' (inside.trans_le few)

/-- The index that an addition has given is the place of its constant. -/
theorem place_of_given {cs : List Constant} (few : (addEach add cs {}).2.entries.size ≤ wordLimit)
    {a : Constant × Word} (given : a ∈ cs.zip (addEach add cs {}).1) :
    a.1 ∈ (addEach add cs {}).2.entries.toList ∧
      a.2.toNat = (addEach add cs {}).2.entries.toList.idxOf a.1 := by
  rw [indices_addEach, ← List.map_prod_left_eq_zip] at given
  obtain ⟨c, added, rfl⟩ := List.mem_map.1 given
  have listed := mem_addEach_iff.2 added
  exact ⟨listed, toNat_place few listed⟩

/-- The indices in use are those below the number of entries, in the order in which they came
    into use. -/
theorem eraseDups_indices (cs : List Constant)
    (few : (addEach add cs {}).2.entries.size ≤ wordLimit) : (addEach add cs {}).1.eraseDups =
      (List.range (addEach add cs {}).2.entries.size).map UInt32.ofNat := by
  induction cs using List.reverseRecOn with
  | nil => rfl
  | append_singleton cs c ih =>
    rw [pool_addEach_concat] at few ⊢
    rw [indices_addEach_concat, eraseDups_concat, indices_addEach]
    have listed : ∀ d, d ∈ (addEach add cs {}).2.entries.toList ↔ d ∈ cs :=
      fun _ => mem_addEach_iff
    rw [indices_addEach] at ih
    generalize (addEach add cs {}).2 = pool at few ih listed ⊢
    rw [add_eq] at few ⊢
    by_cases mem : c ∈ pool.entries.toList
    · rw [if_pos mem] at few ⊢
      rw [if_pos (List.mem_map_of_mem ((listed c).1 mem)), List.append_nil]
      exact ih few
    · rw [if_neg mem, Array.size_push] at few
      rw [if_neg mem, Array.size_push, List.range_succ, List.map_append, List.map_singleton]
      -- the new index is above all others
      have unused : UInt32.ofNat pool.entries.size ∉
          cs.map fun d => UInt32.ofNat (pool.entries.toList.idxOf d) := by
        intro used
        obtain ⟨d, added, same⟩ := List.mem_map.1 used
        have old := (listed d).2 added
        have inside : pool.entries.toList.idxOf d < pool.entries.size :=
          List.idxOf_lt_length_of_mem old
        have place := toNat_place (Nat.le_of_succ_le few) old
        rw [same, UInt32.toNat_ofNat_of_lt' (show _ < wordLimit from few)] at place
        omega
      rw [if_neg unused, ih (Nat.le_of_succ_le few)]

end ConstantPool

/-! ### A table beside the entries -/

/-- A pool that has a table of the places of its entries. -/
structure TabledPool where
  entries : Array Constant := #[]
  table : List (Constant × Word) := []

namespace TabledPool

/-- The index of a constant, which is added unless the table has it. -/
def add (c : Constant) (pool : TabledPool) : Word × TabledPool :=
  match pool.table.lookup c with
  | some index => (index, pool)
  | none =>
    let index := UInt32.ofNat pool.entries.size
    (index, ⟨pool.entries.push c, (c, index) :: pool.table⟩)

/-- The entries are those of another pool, and the table says where they are. -/
structure Shows (tabled : TabledPool) (pool : ConstantPool) : Prop where
  entries : tabled.entries = pool.entries
  table : ∀ c, tabled.table.lookup c = if c ∈ pool.entries.toList then
    some (UInt32.ofNat (pool.entries.toList.idxOf c)) else none

variable {tabled : TabledPool} {pool : ConstantPool}

/-- **One addition.**  Both pools give the same index, and the table is right again. -/
theorem Shows.add (shows_ : tabled.Shows pool) (c : Constant) :
    (tabled.add c).1 = (pool.add c).1 ∧ (tabled.add c).2.Shows (pool.add c).2 := by
  have found := shows_.table c
  rw [TabledPool.add, ConstantPool.add_eq]
  by_cases mem : c ∈ pool.entries.toList
  · rw [if_pos mem] at found
    rw [found, if_pos mem]
    exact ⟨rfl, shows_⟩
  · rw [if_neg mem] at found
    rw [found, if_neg mem]
    refine ⟨congrArg UInt32.ofNat (congrArg Array.size shows_.entries),
      congrArg (Array.push · c) shows_.entries, fun d => ?_⟩
    rw [Array.toList_push, List.lookup_cons, shows_.entries]
    by_cases same : d = c
    · subst same
      rw [beq_self_eq_true, if_pos (by simp), List.idxOf_append, if_neg mem, List.idxOf_cons_self,
        Nat.zero_add, Array.length_toList]
    · rw [beq_false_of_ne same, shows_.table]
      by_cases old : d ∈ pool.entries.toList
      · rw [if_pos old, if_pos (List.mem_append_left _ old), List.idxOf_append_of_mem old]
      · have new : d ∉ pool.entries.toList ++ [c] := fun listed =>
          (List.mem_append.1 listed).elim old fun last => same (List.mem_singleton.1 last)
        rw [if_neg old, if_neg new]

/-- Any number of additions. -/
theorem shows_addEach (cs : List Constant) (shows_ : tabled.Shows pool) :
    (addEach TabledPool.add cs tabled).1 = (addEach ConstantPool.add cs pool).1 ∧
      (addEach TabledPool.add cs tabled).2.Shows (addEach ConstantPool.add cs pool).2 := by
  induction cs generalizing tabled pool with
  | nil => exact ⟨rfl, shows_⟩
  | cons c cs ih =>
    obtain ⟨index, next⟩ := shows_.add c
    obtain ⟨indices, last⟩ := ih next
    exact ⟨congrArg₂ List.cons index indices, last⟩

/-- **Inverse to each other.**  The table leads from a constant to an index exactly if the entries
    lead from the index to the constant. -/
theorem Shows.lookup_eq_some_iff (shows_ : tabled.Shows pool) (nodup : pool.entries.toList.Nodup)
    (few : pool.entries.size ≤ wordLimit) (c : Constant) (index : Word) :
    tabled.table.lookup c = some index ↔ pool.get index = .ok c := by
  rw [shows_.table, ConstantPool.get_eq_ok_iff]
  constructor
  · intro found
    split at found
    · rename_i mem
      cases found
      rw [ConstantPool.toNat_place few mem]
      exact List.getElem?_idxOf mem
    · cases found
  · intro found
    obtain ⟨inside, here⟩ := List.getElem?_eq_some_iff.1 found
    rw [if_pos (List.mem_of_getElem? found), ← here, nodup.idxOf_getElem, UInt32.ofNat_toNat]

end TabledPool

/-! ### Interning -/

/-- **Interning is injective and stable.**  However constants are added to an empty pool, two
    additions give the same index exactly if their constants are equal, and an index leads to its
    constant then and for ever.  The entries are the constants at their first occurrences; the
    indices in use are those from 0 on, one for each entry and in their order, and no other leads
    anywhere.  A pool with a table gives the same indices, and its table is the inverse of its
    entries. -/
theorem interning_is_injective_and_stable (cs : List Constant) (few : cs.length < wordLimit) :
    let indices := (addEach ConstantPool.add cs {}).1
    let pool := (addEach ConstantPool.add cs {}).2
    let tabled := addEach TabledPool.add cs {}
    indices.length = cs.length ∧
    (∀ a ∈ cs.zip indices, ∀ b ∈ cs.zip indices, a.2 = b.2 ↔ a.1 = b.1) ∧
    (∀ a ∈ cs.zip indices, ∀ later,
      (addEach ConstantPool.add later pool).2.get a.2 = .ok a.1) ∧
    pool.entries.toList = cs.eraseDups ∧
    indices.eraseDups = (List.range pool.entries.size).map UInt32.ofNat ∧
    (∀ index, index ∉ indices → pool.get index = .error (.constantOutOfRange index)) ∧
    tabled.1 = indices ∧ tabled.2.entries = pool.entries ∧
    ∀ c index, tabled.2.table.lookup c = some index ↔ pool.get index = .ok c := by
  intro indices pool tabled
  have room : pool.entries.size ≤ wordLimit :=
    (ConstantPool.size_addEach_le cs).trans (Nat.le_of_lt few)
  have used : indices.eraseDups = (List.range pool.entries.size).map UInt32.ofNat :=
    ConstantPool.eraseDups_indices cs room
  have place : ∀ a ∈ cs.zip indices, a.1 ∈ pool.entries.toList ∧
      a.2.toNat = pool.entries.toList.idxOf a.1 := fun _ => ConstantPool.place_of_given room
  obtain ⟨same, shows_⟩ : tabled.1 = indices ∧ tabled.2.Shows pool :=
    TabledPool.shows_addEach cs ⟨rfl, fun c => rfl⟩
  refine ⟨?length, ?injective, ?stable, ConstantPool.toList_addEach cs, used, ?others, same,
    shows_.entries, shows_.lookup_eq_some_iff (ConstantPool.nodup_addEach cs) room⟩
  case length =>
    rw [show indices = _ from ConstantPool.indices_addEach cs, List.length_map]
  case injective =>
    intro a mem b mem'
    rw [← UInt32.toNat_inj, (place a mem).2, (place b mem').2]
    exact List.idxOf_inj (place a mem).1
  case stable =>
    intro a mem later
    apply ConstantPool.get_addEach
    rw [ConstantPool.get_eq_ok_iff, (place a mem).2]
    exact List.getElem?_idxOf (place a mem).1
  case others =>
    intro index unused
    have outside : pool.entries.size ≤ index.toNat := by
      by_contra inside
      apply unused
      rw [← List.mem_eraseDups, used]
      exact List.mem_map.2
        ⟨index.toNat, List.mem_range.2 (Nat.lt_of_not_le inside), UInt32.ofNat_toNat⟩
    rw [ConstantPool.get, Array.getElem?_eq_none outside]

/-- Two texts, one of them twice, and a number. -/
def literals : List Constant := [.text "inc", .number 3, .text "inc", .text "3"]

theorem literals_interned : literals.length < wordLimit ∧
    (addEach ConstantPool.add literals {}).1 = [0, 1, 0, 2] ∧
    (.text "inc", 0) ∈ literals.zip (addEach ConstantPool.add literals {}).1 ∧
    (∀ later, (addEach ConstantPool.add later (addEach ConstantPool.add literals {}).2).2.get 0 =
      .ok (.text "inc")) ∧
    (addEach ConstantPool.add literals {}).2.get 3 = .error (.constantOutOfRange 3) ∧
    (addEach TabledPool.add literals {}).2.table.lookup (.text "3") = some 2 := by
  have few : literals.length < wordLimit := by decide
  have indices : (addEach ConstantPool.add literals {}).1 = [0, 1, 0, 2] := by decide +kernel
  obtain ⟨-, -, stable, -, -, others, -, -, inverse⟩ := interning_is_injective_and_stable literals few
  have first : (.text "inc", 0) ∈ literals.zip (addEach ConstantPool.add literals {}).1 := by
    rw [indices]
    exact List.mem_cons_self
  have last : (.text "3", 2) ∈ literals.zip (addEach ConstantPool.add literals {}).1 := by
    rw [indices]
    decide
  refine ⟨few, indices, first, fun later => stable _ first later, others 3 ?_, ?_⟩
  · rw [indices]
    decide
  · exact (inverse _ _).2 (stable _ last [])

end ObjectMachine

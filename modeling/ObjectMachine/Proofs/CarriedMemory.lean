/-
  ObjectMachine/Proofs/CarriedMemory.lean
  =======================================
  **What a memory carries along** — the stack and the objects of a memory, while something is
  done above that stack.

  An operation that allocates may move everything below it, and it has its own words on the
  stack meanwhile.  `m.Carries m'` says that all of `m` is in `m'`, up to the places of the
  objects: the words of its stack, under whatever has been pushed since, its tables, and every
  object that it could reach.
-/
import ObjectMachine.Proofs.GraphUpdates
import ObjectMachine.Proofs.StackScan

namespace ObjectMachine

/-! ### Stacks -/

namespace FrameStack

variable {s s' : FrameStack} {bases inner : List Nat} {f g : Ref → Ref} {w : Word}

theorem Nested.chain_eq (nested : s.Nested bases) : s.chain = .ok ⟨bases, none⟩ :=
  nested.linked.chain_eq nested.below

theorem Nested.whole (nested : s.Nested bases) : s.Whole where
  sp_le := nested.bounded.sp_le
  sp_aligned := nested.aligned
  frames chain found := by
    cases nested.chain_eq.symm.trans found
    exact nested.linked.aligned

theorem Nested.liveWords_eq (nested : s.Nested bases) : s.liveWords =
    (s.liveOffsets ⟨bases, none⟩).filterMap fun offset => (s.bytes.word? offset).map Ref.mk := by
  unfold liveWords
  rw [nested.chain_eq]

/-- A stack whose only frame has nothing but its bookkeeping has no live words. -/
theorem Nested.liveOffsets_of_bare (nested : s.Nested [0]) (sp : s.sp = 8) :
    s.liveOffsets ⟨[0], none⟩ = [] := by
  apply List.eq_nil_iff_forall_not_mem.2
  intro offset live
  obtain ⟨aligned, below, free⟩ := (mem_liveOffsets_iff nested.aligned offset).1 live
  have := free 0 List.mem_cons_self
  omega

theorem Nested.liveWords_of_bare (nested : s.Nested [0]) (sp : s.sp = 8) : s.liveWords = [] := by
  rw [nested.liveWords_eq, nested.liveOffsets_of_bare sp]
  rfl

/-- The stack after pushing a word. -/
def pushed (s : FrameStack) (w : Word) : FrameStack := ⟨s.bytes.overwrite s.sp w.bytes, s.sp + 4, s.bp⟩

/-- The stack without its top word. -/
def dropped (s : FrameStack) : FrameStack := ⟨s.bytes, s.sp - 4, s.bp⟩

theorem Nested.pushed (nested : s.Nested bases) (room : s.sp + 4 ≤ s.bytes.size) (w : Word) :
    (s.pushed w).Nested bases := by
  have aligned := nested.aligned
  refine nested.keep rfl (.push room) nofun rfl ?_ ?_
  · change (s.sp + 4) % 4 = 0
    omega
  · intro base mem
    have := nested.below base mem
    change base + 8 ≤ s.sp + 4
    omega

theorem Nested.dropped (nested : s.Nested bases) (some_ : 4 ≤ s.sp)
    (words : ∀ base ∈ bases, base + 12 ≤ s.sp) : s.dropped.Nested bases := by
  have aligned := nested.aligned
  refine ⟨⟨nested.bounded.addressable, ?_, nested.bounded.bp_le⟩, ?_, nested.linked, ?_⟩
  · exact (Nat.sub_le _ _).trans nested.bounded.sp_le
  · change (s.sp - 4) % 4 = 0
    omega
  · intro base mem
    have := words base mem
    change base + 8 ≤ s.sp - 4
    omega

/-- A pushed word is live, and so is what was live below it. -/
theorem liveOffsets_push (nested : s.Nested bases) (w : Word) :
    (s.pushed w).liveOffsets ⟨bases, none⟩ = s.liveOffsets ⟨bases, none⟩ ++ [s.sp] := by
  have aligned := nested.aligned
  have count : (s.sp + 4 + 3) / 4 = (s.sp + 3) / 4 + 1 := by omega
  have place : (s.sp + 3) / 4 * 4 = s.sp := by omega
  have live : (!(Chain.mk bases none).controls s.sp) = true := by
    simp only [Chain.controls, Bool.not_eq_true', List.any_eq_false, Bool.or_eq_true, beq_iff_eq,
      not_or]
    intro base mem
    have := nested.below base mem
    omega
  unfold liveOffsets FrameStack.pushed
  dsimp only
  rw [count, List.range_succ, List.map_append, List.map_singleton, List.filter_append, place,
    List.filter_singleton, live]
  rfl

theorem Nested.liveWords_pushed (nested : s.Nested bases) (room : s.sp + 4 ≤ s.bytes.size)
    (w : Word) : (s.pushed w).liveWords = s.liveWords ++ [⟨w⟩] := by
  have top : (s.pushed w).bytes.word? s.sp = some w := Bytes.word?_overwrite_self _ _ _ room
  rw [(nested.pushed room w).liveWords_eq, nested.liveWords_eq, liveOffsets_push nested,
    List.filterMap_append, List.filterMap_cons, top]
  congr 1
  apply List.filterMap_congr
  intro offset live
  have below := ((mem_liveOffsets_iff nested.aligned offset).1 live).2.1
  have same : (s.pushed w).bytes.word? offset = s.bytes.word? offset :=
    Bytes.word?_overwrite_of_apart _ _ _ _ room (Or.inl below)
  rw [same]

/-- What is live stays so under whatever is added to the stack. -/
theorem liveOffsets_subset (nested : s.Nested bases) (nested' : s'.Nested (inner ++ bases))
    (le : s.sp ≤ s'.sp) (above : ∀ base ∈ inner, s.sp ≤ base) {offset : Nat}
    (live : offset ∈ s.liveOffsets ⟨bases, none⟩) : offset ∈ s'.liveOffsets ⟨inner ++ bases, none⟩ := by
  obtain ⟨aligned, below, free⟩ := (mem_liveOffsets_iff nested.aligned offset).1 live
  rw [mem_liveOffsets_iff nested'.aligned]
  refine ⟨aligned, below.trans le, ?_⟩
  intro base mem
  rcases List.mem_append.1 mem with added | old
  · have := above base added
    omega
  · exact free base old

/-- **Carried along.**  Under whatever has been added to a stack, its words are still there: the
    bookkeeping as it was, and what is live as `f` has it. -/
structure Carries (s s' : FrameStack) (bases : List Nat) (f : Ref → Ref) : Prop where
  size : s'.bytes.size = s.bytes.size
  live : ∀ offset ∈ s.liveOffsets ⟨bases, none⟩, ∀ w, s.bytes.word? offset = some w →
    s'.bytes.word? offset = some (f ⟨w⟩).word
  frames : ∀ base ∈ bases, ∀ p, p = base ∨ p = base + 4 → s'.bytes.word? p = s.bytes.word? p

namespace Carries

variable (carries : s.Carries s' bases f)

include carries

/-- With nothing added, the frames are the same. -/
theorem nested (nested : s.Nested bases) (sp : s'.sp = s.sp) (bp : s'.bp = s.bp) :
    s'.Nested bases := by
  refine ⟨⟨?_, ?_, ?_⟩, ?_, ?_, ?_⟩
  · rw [carries.size]
    exact nested.bounded.addressable
  · rw [carries.size, sp]
    exact nested.bounded.sp_le
  · rw [carries.size, bp]
    exact nested.bounded.bp_le
  · rw [sp]
    exact nested.aligned
  · rw [bp]
    exact nested.linked.congr fun base mem => carries.frames base mem base (Or.inl rfl)
  · rw [sp]
    exact nested.below

/-- What is written above a stack leaves it alone. -/
theorem above (nested : s.Nested bases) {s'' : FrameStack} (size : s''.bytes.size = s'.bytes.size)
    (same : ∀ p n, p + n ≤ s.sp → s''.bytes.Same p s'.bytes p n) : s.Carries s'' bases f where
  size := size.trans carries.size
  live offset live w word := by
    have below := ((mem_liveOffsets_iff nested.aligned offset).1 live).2.1
    exact ((same offset 4 below).word? 0 (by omega)).trans (carries.live offset live w word)
  frames base mem p control := by
    have below := nested.below base mem
    exact ((same p 4 (by omega)).word? 0 (by omega)).trans (carries.frames base mem p control)

/-- A collection moves what is live below as it moves what is live above. -/
theorem replaceWords (nested : s.Nested bases) (nested' : s'.Nested (inner ++ bases))
    (le : s.sp ≤ s'.sp) (above : ∀ base ∈ inner, s.sp ≤ base) (g : Ref → Ref) :
    s.Carries (s'.replaceWords g (s'.liveOffsets ⟨inner ++ bases, none⟩)) bases (g ∘ f) where
  size := (size_replaceWords _ _ _).trans carries.size
  live offset live w word := by
    have live' := liveOffsets_subset nested nested' le above live
    exact word?_replaceWords_of_mem g (nodup_liveOffsets _) (fun o mem => (mem_liveOffsets_lt mem).1)
      live' s' (carries.live offset live w word)
  frames base mem p control := by
    refine Eq.trans ?_ (carries.frames base mem p control)
    apply word?_replaceWords_of_not_mem
    intro offset live
    obtain ⟨aligned, -, free⟩ := (mem_liveOffsets_iff nested'.aligned offset).1 live
    have base_aligned := nested.linked.aligned base mem
    have := free base (List.mem_append_right _ mem)
    omega

end Carries

/-- A visit of the live words keeps the frames. -/
theorem Nested.replaceWords (nested : s.Nested bases) (f : Ref → Ref) :
    (s.replaceWords f (s.liveOffsets ⟨bases, none⟩)).Nested bases := by
  have carries : s.Carries s bases id := ⟨rfl, fun _ _ _ word => word, fun _ _ _ _ => rfl⟩
  have moved := carries.replaceWords nested (show s.Nested ([] ++ bases) from nested) (Nat.le_refl _)
    nofun f
  exact moved.nested nested (sp_replaceWords _ _ _) (bp_replaceWords _ _ _)

end FrameStack

/-! ### Memories -/

namespace Memory

open ObjectGraph

variable {m m₀ m' : Memory} {objects objects₀ : Set Ref} {bases inner : List Nat} {φ ψ : Ref → Ref}

/-- **Carried along.**  Whatever the roots of a memory lead to is in another memory as well, moved
    as `φ` says; apart from that, the other one may have more objects, and more on its stack. -/
structure Carries (m m' : Memory) (objects : Set Ref) (bases : List Nat) (φ : Ref → Ref) : Prop where
  sound : m'.space.Sound
  size : m'.space.bytes.size = m.space.bytes.size
  copy : (m.graph objects).CopyOf
    (m'.space.graph (m.rootSlots.map ((m.graph objects).follow φ))
      (φ '' {a | (m.graph objects).Reachable a})) φ
  classes : m'.classes = m.classes.map ((m.graph objects).follow φ)
  dictionaries : m'.dictionaries = m.dictionaries.map ((m.graph objects).follow φ)
  stack : m.stack.Carries m'.stack bases ((m.graph objects).follow φ)

theorem WellFormed.fits (wf : m.WellFormed objects) : m.space.top ≤ m.space.bytes.size :=
  wf.sound.top_le_end.trans wf.sound.end_le_size

theorem WellFormed.carries_self (wf : m.WellFormed objects) : m.Carries m objects bases id where
  sound := wf.sound
  size := rfl
  copy := wf.graph.copyOf_self
  classes := by
    apply Array.toList_inj.1
    rw [Array.toList_map, map_follow_id]
  dictionaries := by
    apply Array.toList_inj.1
    rw [Array.toList_map, map_follow_id]
  stack := by
    refine ⟨rfl, ?_, fun _ _ _ _ => rfl⟩
    intro offset live w word
    rw [follow_id]
    exact word

namespace Carries

variable (carries : m₀.Carries m objects₀ bases φ) (nested₀ : m₀.stack.Nested bases)
include carries

/-- What has been carried along, as a graph of its own. -/
theorem wellFormed_part (wf₀ : m₀.WellFormed objects₀) : (m.space.graph (m₀.rootSlots.map ((m₀.graph objects₀).follow φ))
    (φ '' {a | (m₀.graph objects₀).Reachable a})).WellFormed addressGuard m₀.space.bytes.size := by
  apply carries.copy.wellFormed wf₀.graph wf₀.fits carries.sound.guard_le
  rw [← carries.size]
  exact carries.sound.top_le_end.trans carries.sound.end_le_size

include nested₀

/-- A word that was live is live, under whatever has been added to the stack. -/
theorem mem_liveWords (nested : m.stack.Nested (inner ++ bases)) (le : m₀.stack.sp ≤ m.stack.sp)
    (above : ∀ base ∈ inner, m₀.stack.sp ≤ base) {a : Ref} (live : a ∈ m₀.stack.liveWords) :
    (m₀.graph objects₀).follow φ a ∈ m.stack.liveWords := by
  rw [nested₀.liveWords_eq, List.mem_filterMap] at live
  obtain ⟨offset, live, found⟩ := live
  obtain ⟨w, word, rfl⟩ := Option.map_eq_some_iff.1 found
  rw [nested.liveWords_eq, List.mem_filterMap]
  refine ⟨offset, ?_, ?_⟩
  · exact FrameStack.liveOffsets_subset nested₀ nested le above live
  · rw [carries.stack.live offset live w word]
    rfl

/-- What is carried along is part of the graph that it is in. -/
theorem partOf (held : ∀ a, (m₀.graph objects₀).Reachable a → φ a ∈ objects)
    (nested : m.stack.Nested (inner ++ bases)) (le : m₀.stack.sp ≤ m.stack.sp)
    (above : ∀ base ∈ inner, m₀.stack.sp ≤ base) :
    (m.space.graph (m₀.rootSlots.map ((m₀.graph objects₀).follow φ))
      (φ '' {a | (m₀.graph objects₀).Reachable a})).PartOf (m.graph objects) := by
  refine ⟨rfl, ?_, ?_, ?_, ?_⟩
  · change m₀.classes.toList.map _ = m.classes.toList
    rw [carries.classes, Array.toList_map]
  · change m₀.dictionaries.toList.map _ = m.dictionaries.toList
    rw [carries.dictionaries, Array.toList_map]
  · intro a mem
    obtain ⟨c, live, rfl⟩ := List.mem_map.1 mem
    exact carries.mem_liveWords nested₀ nested le above live
  · rintro _ ⟨a, reach, rfl⟩
    exact held a reach

/-- What was reachable is so in its new place. -/
theorem reachable (wf₀ : m₀.WellFormed objects₀)
    (held : ∀ a, (m₀.graph objects₀).Reachable a → φ a ∈ objects)
    (nested : m.stack.Nested (inner ++ bases)) (le : m₀.stack.sp ≤ m.stack.sp)
    (above : ∀ base ∈ inner, m₀.stack.sp ≤ base) {a : Ref}
    (reach : (m₀.graph objects₀).Reachable a) : (m.graph objects).Reachable (φ a) := by
  have wf₁ := carries.wellFormed_part wf₀
  apply (carries.partOf nested₀ held nested le above).reachable
  exact carries.copy.reachable wf₀.graph wf₁.lo_le wf₁.le_hi reach

/-- **What is carried along is carried through collections.** -/
theorem copied (wf₀ : m₀.WellFormed objects₀) (wf : m.WellFormed objects)
    (held : ∀ a, (m₀.graph objects₀).Reachable a → φ a ∈ objects)
    (nested : m.stack.Nested (inner ++ bases)) (le : m₀.stack.sp ≤ m.stack.sp)
    (above : ∀ base ∈ inner, m₀.stack.sp ≤ base) (copied : m.CopiedTo m' objects ψ) :
    m₀.Carries m' objects₀ bases (ψ ∘ φ) := by
  have wf₁ := carries.wellFormed_part wf₀
  have part := carries.partOf nested₀ held nested le above
  have follow : ∀ a ∈ m₀.rootSlots.all, (m.graph objects).follow ψ ((m₀.graph objects₀).follow φ a) =
      (m₀.graph objects₀).follow (ψ ∘ φ) a := by
    intro a root
    have whole := wf.graph
    rw [carries.size] at whole
    apply follow_follow wf₀.graph whole
    · exact fun object => held a (.root root object)
    · exact (wf₀.graph.root a root).imp_right Or.inr
  have table : ∀ {t : Array Ref}, (∀ a ∈ t.toList, a ∈ m₀.rootSlots.all) →
      (t.map ((m₀.graph objects₀).follow φ)).map ((m.graph objects).follow ψ) =
        t.map ((m₀.graph objects₀).follow (ψ ∘ φ)) := by
    intro t roots
    apply Array.toList_inj.1
    rw [Array.toList_map, Array.toList_map, Array.toList_map, List.map_map]
    exact List.map_congr_left fun a mem => follow a (roots a mem)
  refine
    { sound := copied.sound
      size := copied.size.trans carries.size
      copy := ?copy
      classes := ?classes
      dictionaries := ?dictionaries
      stack := ?stack }
  case copy =>
    have whole := wf.graph
    rw [carries.size] at whole
    have again := carries.copy.trans (copied.copy.restrict part wf₁ whole) wf₀.graph wf₀.fits
      wf₁.lo_le wf₁.le_hi
    exact again.of_same wf₀.graph rfl (Nat.le_refl _) again.roots.symm again.objects.symm
      fun a reach => Bytes.Same.refl _ _ _
  case classes =>
    rw [copied.classes, carries.classes]
    exact table fun a mem => List.mem_append_left _ (List.mem_append_left _ mem)
  case dictionaries =>
    rw [copied.dictionaries, carries.dictionaries]
    exact table fun a mem => List.mem_append_left _ (List.mem_append_right _ mem)
  case stack =>
    obtain ⟨chain, found, stack⟩ := copied.stack
    cases nested.chain_eq.symm.trans found
    have moved := carries.stack.replaceWords nested₀ nested le above ((m.graph objects).follow ψ)
    rw [← stack] at moved
    refine ⟨moved.size, ?_, moved.frames⟩
    intro offset live w word
    rw [← follow ⟨w⟩]
    · exact moved.live offset live w word
    · apply List.mem_append_right
      change _ ∈ m₀.stack.liveWords
      rw [nested₀.liveWords_eq, List.mem_filterMap]
      exact ⟨offset, live, by rw [word]; rfl⟩

end Carries

theorem Carries.classOrNull_eq (carries : m₀.Carries m objects₀ bases φ) (wf₀ : m₀.WellFormed objects₀)
    (classId : Option ClassId) :
    m.classOrNull classId = (m₀.classOrNull classId).map ((m₀.graph objects₀).follow φ) := by
  cases classId with
  | none => exact congrArg Except.ok wf₀.follow_null.symm
  | some id =>
    change m.classRef id = (m₀.classRef id).map _
    unfold classRef
    rw [carries.classes, Array.getElem?_map]
    cases m₀.classes[id.index.toNat]? with
    | none => rfl
    | some a => rfl

/-- A collection keeps the frames and what is open. -/
theorem CopiedTo.nested (copied : m.CopiedTo m' objects φ) (nested : m.stack.Nested bases) :
    m'.stack.Nested bases ∧ m'.stack.sp = m.stack.sp ∧ m'.stack.bp = m.stack.bp := by
  obtain ⟨chain, found, stack⟩ := copied.stack
  cases nested.chain_eq.symm.trans found
  rw [stack]
  exact ⟨nested.replaceWords _, FrameStack.sp_replaceWords _ _ _, FrameStack.bp_replaceWords _ _ _⟩

/-- The copies are in order, too. -/
theorem CopiedTo.wellFormed (copied : m.CopiedTo m' objects φ) (wf : m.WellFormed objects)
    (whole : m.stack.Whole) : m'.WellFormed (φ '' {a | (m.graph objects).Reachable a}) where
  sound := copied.sound
  graph := by
    rw [copied.size]
    refine (copied.copyOf_graph whole).wellFormed wf.graph wf.fits copied.sound.guard_le ?_
    rw [← copied.size]
    exact copied.sound.top_le_end.trans copied.sound.end_le_size

/-- What is not changed where the copies are, stays a copy. -/
theorem Carries.of_same {m'' : Memory} (carries : m₀.Carries m objects₀ bases φ)
    (wf₀ : m₀.WellFormed objects₀) (sound : m''.space.Sound)
    (start : m''.space.activeStart = m.space.activeStart) (top : m.space.top ≤ m''.space.top)
    (size : m''.space.bytes.size = m.space.bytes.size) (classes : m''.classes = m.classes)
    (dictionaries : m''.dictionaries = m.dictionaries)
    (stack : m₀.stack.Carries m''.stack bases ((m₀.graph objects₀).follow φ))
    (same : ∀ a, (m₀.graph objects₀).Reachable a → Bytes.Same m''.space.bytes ((φ a).offset 0)
      m.space.bytes ((φ a).offset 0) ((m₀.graph objects₀).extent a)) :
    m₀.Carries m'' objects₀ bases φ where
  sound := sound
  size := size.trans carries.size
  copy := carries.copy.of_same wf₀.graph start top rfl rfl same
  classes := classes.trans carries.classes
  dictionaries := dictionaries.trans carries.dictionaries
  stack := stack

end Memory

end ObjectMachine

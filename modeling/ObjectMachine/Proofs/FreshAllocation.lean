/-
  ObjectMachine/Proofs/FreshAllocation.lean
  =========================================
  **Allocation is fresh, exact and complete.**

  An allocation that finds no room collects once and tries again.  The collection leaves
  nothing but the reachable objects, so the second attempt fails only if these leave too
  little room; and they never take more than what is in use, so an allocation that finds room
  at once would find it after a collection as well.  Whether there is room is therefore a matter
  of the reachable objects alone, and not of when the last collection was.

  A stack that is not made of whole words is the exception: it cannot be visited to its end,
  so an allocation that has to collect stops the machine.
-/
import ObjectMachine.Proofs.CollectedMemory
import ObjectMachine.Proofs.StackSafety

namespace ObjectMachine

/-! ### Stacks of whole words -/

namespace FrameStack

/-- **Whole words.**  The stack ends at a word boundary of its buffer, and its frames start at
    word boundaries. -/
structure Whole (s : FrameStack) : Prop where
  sp_le : s.sp ≤ s.bytes.size
  sp_aligned : s.sp % 4 = 0
  frames : ∀ chain, s.chain = .ok chain → ∀ base ∈ chain.bases, base % 4 = 0

variable {s s' : FrameStack}

theorem Whole.readable (whole : s.Whole) : s.Readable := by
  obtain ⟨chain, found⟩ := chain_isOk whole.sp_le
  refine ⟨chain, found, ?_⟩
  intro offset live
  obtain ⟨aligned, below⟩ := mem_liveOffsets_lt live
  have := whole.sp_le
  have := whole.sp_aligned
  omega

/-- Frames are found by their links alone. -/
theorem chainFrom_congr (sp : s'.sp = s.sp) {budget : Nat} {bp : Word} {chain : Chain}
    (found : s.chainFrom budget bp = .ok chain)
    (links : ∀ base ∈ chain.bases, s'.bytes.word? base = s.bytes.word? base) :
    s'.chainFrom budget bp = .ok chain := by
  induction budget generalizing bp chain with
  | zero => exact found
  | succ budget ih =>
    rw [chainFrom] at found ⊢
    rw [sp]
    by_cases closed : bp = noFrame
    · rw [if_pos closed] at found ⊢
      exact found
    rw [if_neg closed] at found ⊢
    by_cases broken : s.sp < bp.toNat + 8
    · rw [if_pos broken] at found ⊢
      exact found
    rw [if_neg broken] at found ⊢
    cases word : s.bytes.word? bp.toNat with
    | none =>
      rw [word] at found
      cases found
    | some link =>
      rw [word] at found
      dsimp only at found
      cases rest : s.chainFrom budget link with
      | error cause =>
        rw [rest] at found
        cases found
      | ok outer =>
        rw [rest] at found
        cases found
        have here : s'.bytes.word? bp.toNat = some link := (links _ List.mem_cons_self).trans word
        have outer_found := ih rest fun base mem => links base (List.mem_cons_of_mem _ mem)
        rw [here]
        dsimp only
        rw [outer_found]
        rfl

theorem Whole.apart {chain : Chain} (whole : s.Whole) (found : s.chain = .ok chain) {base : Nat}
    (mem : base ∈ chain.bases) :
    ∀ offset ∈ s.liveOffsets chain, base + 4 ≤ offset ∨ offset + 4 ≤ base := by
  intro offset live
  have aligned := (mem_liveOffsets_lt live).1
  have base_aligned := whole.frames chain found base mem
  have other : offset ≠ base := by
    rintro rfl
    have control : chain.controls offset = true := by
      apply List.any_eq_true.2
      exact ⟨offset, mem, by simp⟩
    have free := (List.mem_filter.1 live).2
    rw [control] at free
    cases free
  omega

theorem Whole.chain_replaceWords {chain : Chain} (whole : s.Whole) (found : s.chain = .ok chain)
    (f : Ref → Ref) : (s.replaceWords f (s.liveOffsets chain)).chain = .ok chain := by
  unfold FrameStack.chain
  rw [sp_replaceWords, bp_replaceWords]
  apply chainFrom_congr (sp_replaceWords _ _ _) found
  intro base mem
  exact word?_replaceWords_of_not_mem f _ (whole.apart found mem) s

/-- **The live words after a visit** are the new values of the live words before. -/
theorem Whole.liveWords_replaceWords {chain : Chain} (whole : s.Whole) (found : s.chain = .ok chain)
    (f : Ref → Ref) :
    (s.replaceWords f (s.liveOffsets chain)).liveWords = s.liveWords.map f := by
  have offsets : (s.replaceWords f (s.liveOffsets chain)).liveOffsets chain = s.liveOffsets chain := by
    unfold liveOffsets
    rw [sp_replaceWords]
  have readable := whole.readable
  unfold liveWords
  rw [whole.chain_replaceWords found f, found]
  dsimp only
  rw [offsets, List.map_filterMap]
  apply List.filterMap_congr
  intro offset live
  obtain ⟨chain', found', fits⟩ := readable
  cases found.symm.trans found'
  obtain ⟨w, word⟩ := (Bytes.word?_eq_some_iff_le s.bytes offset).2 (fits offset live)
  rw [word, word?_replaceWords_of_mem f (nodup_liveOffsets chain)
    (fun o ho => (mem_liveOffsets_lt ho).1) live s word]
  rfl

theorem replaceWords_of_fixed {f : Ref → Ref} (fixed : ∀ a, f a = a) (offsets : List Nat) :
    s.replaceWords f offsets = s := by
  induction offsets with
  | nil => rfl
  | cons offset rest ih =>
    have first : s.replaceWord f offset = s := by
      unfold replaceWord
      split
      · rfl
      · rw [fixed]
        exact if_pos rfl
    change (s.replaceWord f offset).replaceWords f rest = s
    rw [first, ih]

end FrameStack

/-! ### Copies -/

namespace ObjectGraph

variable {g g' g'' : ObjectGraph} {φ : Ref → Ref} {lo hi : Nat}

@[simp] theorem follow_id (g : ObjectGraph) (a : Ref) : g.follow id a = a := by
  by_cases object : a ∈ g.objects
  · rw [follow_of_mem object]
    rfl
  · exact follow_of_not_mem object

theorem map_follow_id (g : ObjectGraph) (table : List Ref) : table.map (g.follow id) = table :=
  (List.map_congr_left fun a _ => g.follow_id a).trans (List.map_id table)

/-- Without a collection the reachable objects are their own copies. -/
theorem WellFormed.copyOf_self (wf : g.WellFormed lo hi) :
    g.CopyOf ⟨g.bytes, g.start, g.top, g.roots.map (g.follow id), id '' {a | g.Reachable a}⟩ id where
  objects := rfl
  injective := Set.injOn_id _
  inside a reach := ⟨wf.low a reach.object, wf.high a reach.object⟩
  apart a c reach reach' ne := wf.apart a reach.object c reach'.object ne
  header a reach kind size c found := by
    rw [follow_id]
    exact found
  roots := rfl
  slot a reach slot mem c word := by
    rw [follow_id]
    exact word
  raw a reach i inside outside := rfl

/-- What a copy is depends on its own bytes only. -/
theorem CopyOf.of_same (copy : g.CopyOf g' φ) (wf : g.WellFormed lo hi) (start : g''.start = g'.start)
    (top : g'.top ≤ g''.top) (roots : g''.roots = g'.roots) (objects : g''.objects = g'.objects)
    (same : ∀ a, g.Reachable a →
      Bytes.Same g''.bytes ((φ a).offset 0) g'.bytes ((φ a).offset 0) (g.extent a)) :
    g.CopyOf g'' φ := by
  refine
    { objects := objects.trans copy.objects
      injective := copy.injective
      inside := ?inside
      apart := copy.apart
      header := ?header
      roots := roots.trans copy.roots
      slot := ?slot
      raw := ?raw }
  case inside =>
    intro a reach
    obtain ⟨low, high⟩ := copy.inside a reach
    rw [start]
    exact ⟨low, high.trans top⟩
  case header =>
    intro a reach kind size c found
    have read := copy.header a reach kind size c found
    have nonnull := ne_null_of_header? read
    have long := wf.header_le_extent reach.object
    exact (Header.read?_congr (same a reach) long nonnull nonnull).trans read
  case slot =>
    intro a reach slot mem c word
    have four := (same a reach).word? slot.1 (wf.slot_inside reach.object mem)
    exact four.trans (copy.slot a reach slot mem c word)
  case raw =>
    intro a reach i lt outside
    exact (same a reach i lt).trans (copy.raw a reach i lt outside)

/-- **Room for more.**  What is written behind a copy does not change it. -/
theorem CopyOf.grow (copy : g.CopyOf g' φ) (wf : g.WellFormed lo hi) (start : g''.start = g'.start)
    (top : g'.top ≤ g''.top) (roots : g''.roots = g'.roots) (objects : g''.objects = g'.objects)
    (same : ∀ p n, p + n ≤ g'.top → Bytes.Same g''.bytes p g'.bytes p n) : g.CopyOf g'' φ := by
  apply copy.of_same wf start top roots objects
  intro a reach
  exact same _ _ (copy.inside a reach).2

end ObjectGraph

namespace Memory

open ObjectGraph

variable {m m' : Memory} {objects : Set Ref} {φ : Ref → Ref}

theorem WellFormed.copiedTo_self (wf : m.WellFormed objects) (readable : m.stack.Readable) :
    m.CopiedTo m objects id := by
  obtain ⟨chain, found, -⟩ := readable
  refine
    { sound := wf.sound
      size := rfl
      copy := wf.graph.copyOf_self
      classes := ?classes
      dictionaries := ?dictionaries
      stack := ⟨chain, found, ?stack⟩
      methods := rfl
      constants := rfl }
  case classes =>
    apply Array.toList_inj.1
    rw [Array.toList_map, map_follow_id]
  case dictionaries =>
    apply Array.toList_inj.1
    rw [Array.toList_map, map_follow_id]
  case stack => exact (FrameStack.replaceWords_of_fixed (follow_id _) _).symm

/-- The roots of a copied memory are the new values of the roots. -/
theorem CopiedTo.rootSlots_eq (copied : m.CopiedTo m' objects φ) (whole : m.stack.Whole) :
    m'.rootSlots = m.rootSlots.map ((m.graph objects).follow φ) := by
  obtain ⟨chain, found, stack⟩ := copied.stack
  unfold rootSlots RootSlots.map
  rw [copied.classes, copied.dictionaries, stack, whole.liveWords_replaceWords found,
    Array.toList_map, Array.toList_map]

theorem CopiedTo.copyOf_graph (copied : m.CopiedTo m' objects φ) (whole : m.stack.Whole) :
    (m.graph objects).CopyOf (m'.graph (φ '' {a | (m.graph objects).Reachable a})) φ := by
  unfold graph
  rw [copied.rootSlots_eq whole]
  exact copied.copy

theorem CopiedTo.classOrNull_eq (copied : m.CopiedTo m' objects φ) (wf : m.WellFormed objects)
    (classId : Option ClassId) :
    m'.classOrNull classId = (m.classOrNull classId).map ((m.graph objects).follow φ) := by
  cases classId with
  | none => exact congrArg Except.ok wf.follow_null.symm
  | some id => exact copied.classRef_eq id

/-! ### Room -/

/-- The halves stay as large as they are. -/
theorem CopiedTo.half_eq (copied : m.CopiedTo m' objects φ) (wf : m.WellFormed objects) :
    m'.space.half = m.space.half := by
  have before := wf.sound.size_eq
  have after := copied.sound.size_eq
  have size := copied.size
  omega

/-- **Room is what the reachable objects leave.**  An allocation fails if they leave too little,
    and otherwise ends with the new bytes behind a copy of them. -/
theorem WellFormed.allocate_eq (wf : m.WellFormed objects) (readable : m.stack.Readable) (n : Nat) :
    ∃ (m' : Memory) (φ : Ref → Ref) (live : List Ref), m.CopiedTo m' objects φ ∧ live.Nodup ∧
      (∀ a, a ∈ live ↔ (m.graph objects).Reachable a) ∧
      if m.space.half - (live.map (m.graph objects).extent).sum < n then
        allocate n m =
          .error (.outOfMemory n (m.space.half - (live.map (m.graph objects).extent).sum)) m'
      else n ≤ m'.space.free ∧ allocate n m =
        .ok (Ref.ofOffset m'.space.top) { m' with space := (m'.space.bump n).2 } := by
  obtain ⟨m₁, φ, live, run, copied, nodup, reach, top⟩ := wf.collect_eq readable
  have used : (live.map (m.graph objects).extent).sum ≤ m.space.top - m.space.activeStart :=
    wf.graph.sum_extent_le live nodup fun a mem => ((reach a).1 mem).object
  have room₁ : m₁.space.free = m.space.half - (live.map (m.graph objects).extent).sum := by
    rw [SemiSpaces.free, SemiSpaces.activeEnd, top, copied.half_eq wf]
    omega
  by_cases room : n ≤ m.space.free
  · have enough : n ≤ m.space.half - (live.map (m.graph objects).extent).sum := by
      have := wf.sound.start_le_top
      unfold SemiSpaces.free SemiSpaces.activeEnd at room
      omega
    refine ⟨m, id, live, wf.copiedTo_self readable, nodup, reach, ?_⟩
    rw [if_neg (Nat.not_lt.2 enough)]
    exact ⟨room, allocate_of_room room⟩
  · refine ⟨m₁, φ, live, copied, nodup, reach, ?_⟩
    rw [← room₁]
    by_cases enough : n ≤ m₁.space.free
    · rw [if_neg (Nat.not_lt.2 enough)]
      exact ⟨enough, allocate_of_collect room run enough⟩
    · rw [if_pos (Nat.lt_of_not_le enough)]
      exact allocate_of_exhausted room run enough

/-! ### New objects -/

/-- An object as its allocation leaves it: its references are null, or its bytes are zero. -/
structure Blank (m : Memory) (r : Ref) (kind : ObjectKind) (size : Word) (c : Ref) : Prop where
  header : m.header r = .ok ⟨kind, size, .normal c⟩
  allocated : m.space.isAllocated r (kind.objectBytes size) = true
  fields : kind = .pointers → ∀ i < size.toNat,
    m.space.bytes.word? (fieldOffset r i) = some Ref.null.word
  payload : kind = .bytes → ∀ i < size.toNat, m.space.bytes[payloadOffset r i]? = some 0

/-- The memory with one more object, behind all others. -/
def extended (m : Memory) (kind : ObjectKind) (size : Word) (c : Ref) : Memory :=
  { m with space := { m.space with
      bytes := layOut m.space.bytes m.space.top kind size c
      top := m.space.top + kind.objectBytes size } }

section Extended

variable {kind : ObjectKind} {size : Word}

theorem room_inside (sound : m.space.Sound) (room : kind.objectBytes size ≤ m.space.free) :
    m.space.top + kind.objectBytes size ≤ m.space.activeEnd := by
  have := sound.top_le_end
  unfold SemiSpaces.free at room
  omega

theorem blank_extended (sound : m.space.Sound) (room : kind.objectBytes size ≤ m.space.free) (c : Ref) :
    (m.extended kind size c).Blank (Ref.ofOffset m.space.top) kind size c := by
  have fits : m.space.top + kind.objectBytes size ≤ m.space.bytes.size :=
    (room_inside sound room).trans sound.end_le_size
  have addressable := sound.addressable
  have long : 11 ≤ kind.objectBytes size := Nat.le_add_right _ _
  have place : ∀ n, (Ref.ofOffset m.space.top).offset n = m.space.top + n :=
    Ref.offset_ofOffset (by omega)
  have nonnull : Ref.ofOffset m.space.top ≠ Ref.null := Ref.ofOffset_ne_null (by omega)
  have shown := @showsObject_layOut m.space.bytes m.space.top kind size c fits addressable
    (fun _ => none) (.raw c.word) rfl
  have read : Header.read? (m.extended kind size c).space.bytes (Ref.ofOffset m.space.top) =
      some ⟨kind, size, .normal c⟩ := by
    obtain ⟨size', c', read, length, cls⟩ := shown.header
    rw [Content.length_blank] at length
    rw [Content.kind_blank, UInt32.toNat_inj.1 length] at read
    cases c
    cases c'
    cases cls
    exact read
  refine ⟨?header, ?allocated, ?fields, ?payload⟩
  case header =>
    apply header_of_view (view_of_read read ?_ ?_ ?_)
    · rw [place]
      exact sound.start_le_top
    · rw [place]
      exact Nat.add_le_add_left long _
    · rw [place]
      exact fits.trans_eq size_layOut.symm
  case allocated =>
    unfold SemiSpaces.isAllocated
    rw [place, place, (Ref.isNull_eq_false_iff _).2 nonnull]
    simp only [Bool.not_false, Bool.true_and, Bool.and_eq_true, decide_eq_true_eq]
    exact ⟨sound.start_le_top, Nat.le_refl _⟩
  case fields =>
    rintro rfl i lt
    have value : (Content.blank .pointers size).values[i]? = some (.raw Ref.null.word) := by
      simp [Content.blank, Content.values, lt]
    obtain ⟨w, eq, word⟩ := shown.fields i _ value
    cases eq
    exact word
  case payload =>
    rintro rfl i lt
    have byte := shown.payload (List.replicate size.toNat 0) rfl i (by simpa using lt)
    rw [List.getElem?_replicate, if_pos lt] at byte
    exact byte

/-- A new object behind a copy leaves it a copy. -/
theorem CopiedTo.extended (copied : m.CopiedTo m' objects φ) (wf : m.WellFormed objects)
    (room : kind.objectBytes size ≤ m'.space.free) (c : Ref) :
    m.CopiedTo (m'.extended kind size c) objects φ := by
  have inside := room_inside copied.sound room
  have fits := inside.trans copied.sound.end_le_size
  refine
    { sound := ⟨?size_eq, ?start_le_top, inside, ?addressable⟩
      size := size_layOut.trans copied.size
      copy := ?copy
      classes := copied.classes
      dictionaries := copied.dictionaries
      stack := copied.stack
      methods := copied.methods
      constants := copied.constants }
  case size_eq => exact size_layOut.trans copied.sound.size_eq
  case start_le_top => exact copied.sound.start_le_top.trans (Nat.le_add_right _ _)
  case addressable => exact size_layOut.trans_lt copied.sound.addressable
  case copy =>
    exact copied.copy.grow wf.graph rfl (Nat.le_add_right _ _) rfl rfl (same_layOut fits)

end Extended

theorem classOrNull_missing {id : ClassId} (missing : m.classes.size ≤ id.index.toNat) :
    m.classOrNull (some id) = .error (.classOutOfRange id.index) := by
  unfold classOrNull classRef
  dsimp only
  rw [Array.getElem?_eq_none missing]

theorem classOrNull_known {classId : Option ClassId}
    (known : ∀ id, classId = some id → id.index.toNat < m.classes.size) :
    ∃ c, m.classOrNull classId = .ok c := by
  cases classId with
  | none => exact ⟨Ref.null, rfl⟩
  | some id =>
    unfold classOrNull classRef
    dsimp only
    rw [Array.getElem?_eq_getElem (known id rfl)]
    exact ⟨_, rfl⟩

/-- **Allocation is fresh, exact and complete.**  A class index without a class is refused and
    nothing changes.  Otherwise the reachable objects survive, and there are two outcomes: if they
    leave too little of a half, the allocation fails and says how much they leave; if not, it gives
    a blank object of the current class behind all of them. -/
theorem allocateObject_fresh (wf : m.WellFormed objects) (whole : m.stack.Whole) (kind : ObjectKind)
    (size : Word) (classId : Option ClassId) :
    (∀ id, classId = some id → m.classes.size ≤ id.index.toNat →
      allocateObject kind size classId m = .error (.classOutOfRange id.index) m) ∧
    ((∀ id, classId = some id → id.index.toNat < m.classes.size) →
      ∃ (m' : Memory) (φ : Ref → Ref) (live : List Ref),
        (m.graph objects).CopyOf (m'.graph (φ '' {a | (m.graph objects).Reachable a})) φ ∧
        live.Nodup ∧ (∀ a, a ∈ live ↔ (m.graph objects).Reachable a) ∧
        if m.space.half - (live.map (m.graph objects).extent).sum < kind.objectBytes size then
          allocateObject kind size classId m = .error (.outOfMemory (kind.objectBytes size)
            (m.space.half - (live.map (m.graph objects).extent).sum)) m'
        else ∃ r c, allocateObject kind size classId m = .ok r m' ∧ m'.classOrNull classId = .ok c ∧
          m'.Blank r kind size c ∧
          ∀ a, (m.graph objects).Reachable a → (φ a).offset ((m.graph objects).extent a) ≤ r.offset 0) := by
  constructor
  · rintro id rfl missing
    exact allocateObject_missing (classOrNull_missing missing)
  · intro known
    obtain ⟨c, known⟩ := classOrNull_known known
    obtain ⟨m₁, φ, live, copied, nodup, reach, outcome⟩ :=
      wf.allocate_eq whole.readable (kind.objectBytes size)
    have known₁ : m₁.classOrNull classId = .ok ((m.graph objects).follow φ c) := by
      rw [copied.classOrNull_eq wf, known]
      rfl
    by_cases full : m.space.half - (live.map (m.graph objects).extent).sum < kind.objectBytes size
    · rw [if_pos full] at outcome
      refine ⟨m₁, φ, live, copied.copyOf_graph whole, nodup, reach, ?_⟩
      rw [if_pos full]
      exact allocateObject_exhausted known outcome
    · rw [if_neg full] at outcome
      obtain ⟨room, run⟩ := outcome
      have more := copied.extended wf room ((m.graph objects).follow φ c)
      refine ⟨_, φ, live, more.copyOf_graph whole, nodup, reach, ?_⟩
      rw [if_neg full]
      refine ⟨_, _, allocateObject_laidOut known copied.sound known₁ room run, ?_,
        blank_extended copied.sound room _, ?_⟩
      · rw [← known₁]
        cases classId with
        | none => rfl
        | some id => rfl
      · intro a live
        have bound : m₁.space.top < wordLimit :=
          (copied.sound.top_le_end.trans copied.sound.end_le_size).trans_lt copied.sound.addressable
        rw [Ref.offset_ofOffset bound]
        exact (copied.copy.inside a live).2

theorem smallMemory_whole : smallMemory.stack.Whole where
  sp_le := by decide
  sp_aligned := by decide
  frames := by
    intro chain found base mem
    cases (show smallMemory.stack.chain = .ok ⟨[], none⟩ by decide).symm.trans found
    cases mem

/-- Both objects of the small memory are reachable. -/
theorem sum_smallMemory {live : List Ref} (nodup : live.Nodup)
    (reach : ∀ a, a ∈ live ↔ (smallMemory.graph {⟨4096⟩, ⟨4127⟩}).Reachable a) :
    (live.map (smallMemory.graph {⟨4096⟩, ⟨4127⟩}).extent).sum = 46 := by
  have root : ∀ a ∈ [(⟨4096⟩ : Ref), ⟨4127⟩], a ∈ smallMemory.rootSlots.all := by
    rw [rootSlots_smallMemory]
    decide
  have mem : ∀ a, a ∈ live ↔ a ∈ [(⟨4096⟩ : Ref), ⟨4127⟩] := by
    intro a
    rw [reach]
    constructor
    · intro reachable
      rcases reachable.object with rfl | rfl
      · decide
      · decide
    · intro listed
      apply Reachable.root (root a listed)
      rcases List.mem_cons.1 listed with rfl | listed
      · exact Or.inl rfl
      · exact Or.inr (List.mem_singleton.1 listed)
  have perm : live.Perm [⟨4096⟩, ⟨4127⟩] :=
    (List.perm_ext_iff_of_nodup nodup (by decide)).2 mem
  have class_extent : (smallMemory.graph {⟨4096⟩, ⟨4127⟩}).extent ⟨4096⟩ = 31 :=
    extent_eq (show (smallMemory.graph _).header? _ = _ from read?_smallClass)
  have instance_extent : (smallMemory.graph {⟨4096⟩, ⟨4127⟩}).extent ⟨4127⟩ = 15 :=
    extent_eq (show (smallMemory.graph _).header? _ = _ from read?_smallInstance)
  rw [(perm.map _).sum_eq, List.map_cons, List.map_singleton, class_extent, instance_extent]
  rfl

theorem smallMemory_allocates :
    (∃ r c m', allocateObject .pointers 1 (some ⟨0⟩) smallMemory = .ok r m' ∧
      m'.classRef ⟨0⟩ = .ok c ∧ m'.Blank r .pointers 1 c) ∧
    ∃ m', allocateObject .pointers 2 (some ⟨0⟩) smallMemory = .error (.outOfMemory 19 18) m' := by
  have known : ∀ id, some (⟨0⟩ : ClassId) = some id → id.index.toNat < smallMemory.classes.size := by
    rintro id ⟨⟩
    decide
  constructor
  · obtain ⟨m', φ, live, -, nodup, reach, outcome⟩ :=
      (allocateObject_fresh smallMemory_wellFormed smallMemory_whole .pointers 1 (some ⟨0⟩)).2 known
    rw [sum_smallMemory nodup reach, if_neg (by decide)] at outcome
    obtain ⟨r, c, run, current, blank, -⟩ := outcome
    exact ⟨r, c, m', run, current, blank⟩
  · obtain ⟨m', φ, live, -, nodup, reach, outcome⟩ :=
      (allocateObject_fresh smallMemory_wellFormed smallMemory_whole .pointers 2 (some ⟨0⟩)).2 known
    rw [sum_smallMemory nodup reach, if_pos (by decide)] at outcome
    exact ⟨m', outcome⟩

/-! ### A stack that cannot be read -/

/-- A collection that does not end leaves the memory as it is. -/
theorem allocateObject_unreadable (unreadable : ¬m.stack.Readable) {kind : ObjectKind} {size : Word}
    (full : ¬kind.objectBytes size ≤ m.space.free) :
    ∃ cause, allocateObject kind size none m = .error (.fault cause) m := by
  cases run : m.collected with
  | ok m' => exact absurd (readable_of_collect (collect_of_collected run)) unreadable
  | error cause =>
    refine ⟨cause, allocateObject_exhausted (show m.classOrNull none = .ok Ref.null from rfl) ?_⟩
    unfold allocate
    rw [run_bind_ok (bump_of_full full)]
    exact run_bind_error (collect_of_fault run)

/-- A full half that nothing is reachable in, and a stack that ends between two words. -/
def strayMemory : Memory :=
  { smallMemory with
    space := { SemiSpaces.new 22 with top := 4107 }
    stack := (FrameStack.new 25).runAll (FrameStack.strayLink ++ List.replicate 5 (.push 0))
    classes := #[] }

theorem strayMemory_wellFormed : strayMemory.WellFormed ∅ := by
  have size : strayMemory.space.bytes.size = 4118 := Array.size_replicate
  have words : ∀ a ∈ strayMemory.rootSlots.all, Stray addressGuard 4118 a := by
    unfold Stray
    decide +kernel
  refine
    { sound := ⟨size, by decide, by decide, size ▸ by decide⟩
      graph := ?_ }
  rw [size]
  refine
    { lo_le := show 4096 ≤ 4096 by decide
      le_hi := show 4107 ≤ 4118 by decide
      normal := nofun
      low := nofun
      high := nofun
      apart := nofun
      root := fun a mem => Or.inr (words a mem)
      slot := nofun
      class_layout := nofun
      tables_apart := nofun }

theorem strayMemory_unreadable : ¬strayMemory.stack.Readable := by
  rintro ⟨chain, found, fits⟩
  have frames : strayMemory.stack.chain = .ok ⟨[], none⟩ := by decide +kernel
  cases frames.symm.trans found
  have last : 24 ∈ strayMemory.stack.liveOffsets ⟨[], none⟩ := by decide +kernel
  have size : strayMemory.stack.bytes.size = 25 := by decide +kernel
  have := fits 24 last
  omega

/-- **A frame between two words stops an allocation.**  Nothing is reachable and the object fits
    into a half, and yet the machine stops. -/
theorem stray_link_stops_allocation : strayMemory.WellFormed ∅ ∧
    (∀ a, ¬(strayMemory.graph ∅).Reachable a) ∧
    ObjectKind.bytes.objectBytes 0 ≤ strayMemory.space.half ∧
    ∃ cause, allocateObject .bytes 0 none strayMemory = .error (.fault cause) strayMemory := by
  refine ⟨strayMemory_wellFormed, fun a reach => reach.object, by decide, ?_⟩
  exact allocateObject_unreadable strayMemory_unreadable (by decide)

end Memory

end ObjectMachine

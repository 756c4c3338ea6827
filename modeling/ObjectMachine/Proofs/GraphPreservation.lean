/-
  ObjectMachine/Proofs/GraphPreservation.lean
  ===========================================
  **Collections keep the reachable graph, and only that.**

  `collect_preserves_graph` says what survives: whatever a program could see through the
  roots before the collection it can see after it.  `collect_keeps_reachable` says that
  nothing else does: the new half is a row of copies, one for each reachable object.

  The second result needs more than the first.  Where no word in a slot is an address of
  the buffer unless it names an object, a copy is well formed again, so that the argument
  can be repeated for a second collection, which then finds everything reachable.
-/
import ObjectMachine.Proofs.Collection

namespace ObjectMachine

/-! ### Copies are well formed -/

namespace ObjectGraph

section

variable {g : ObjectGraph} {lo hi lo' hi' : Nat}

/-- A word that is no address between two bounds is none between narrower ones. -/
theorem WellFormed.narrow (wf : g.WellFormed lo hi) (low : lo ≤ lo') (high : hi' ≤ hi)
    (lo_le : lo' ≤ g.start) (le_hi : g.top ≤ hi') : g.WellFormed lo' hi' := by
  have stray : ∀ a, Stray lo hi a → Stray lo' hi' a := by
    intro a h
    unfold Stray at *
    omega
  refine { wf with lo_le := lo_le, le_hi := le_hi, root := ?root, slot := ?slot }
  case root =>
    intro a ha
    exact (wf.root a ha).imp_right (stray a)
  case slot =>
    intro a ha slot hs w hw
    have allowed := wf.slot a ha slot hs w hw
    cases shape : slot.2 with
    | classObject =>
      rw [shape] at allowed
      exact allowed
    | dictionary =>
      rw [shape] at allowed
      exact allowed
    | ordinary =>
      rw [shape] at allowed
      exact allowed.imp_right (stray _)

end

namespace CopyOf

variable {g g' : ObjectGraph} {φ : Ref → Ref} {lo hi : Nat}

section Slots

variable (copy : CopyOf g g' φ) (wf : g.WellFormed lo hi)
include copy wf

theorem extent_eq {a : Ref} (ha : g.Reachable a) : g'.extent (φ a) = g.extent a := by
  obtain ⟨kind, size, c, found⟩ := wf.header ha.object
  rw [ObjectGraph.extent_eq found, ObjectGraph.extent_eq (copy.header a ha kind size c found)]
  rfl

theorem not_stray {a : Ref} (ha : g.Reachable a) (low : lo ≤ g'.start) (high : g'.top ≤ hi) :
    ¬Stray lo hi (φ a) := by
  have inside := copy.inside a ha
  have long := wf.header_le_extent ha.object
  have stop : (φ a).offset (g.extent a) = (φ a).offset 0 + g.extent a := rfl
  unfold Stray
  omega

/-- An object is in a table exactly if its copy is in the new table. -/
theorem mem_map_follow_iff {a : Ref} (ha : g.Reachable a) (low : lo ≤ g'.start)
    (high : g'.top ≤ hi) {table : List Ref} (roots : ∀ c ∈ table, c ∈ g.roots.all) :
    φ a ∈ table.map (g.follow φ) ↔ a ∈ table := by
  constructor
  · intro mem
    obtain ⟨c, hc, eq⟩ := List.mem_map.1 mem
    by_cases object : c ∈ g.objects
    · rw [follow_of_mem object] at eq
      have : c = a := copy.injective (.root (roots c hc) object) ha eq
      exact this ▸ hc
    · rw [follow_of_not_mem object] at eq
      have stray := (wf.root c (roots c hc)).resolve_left object
      exact absurd (eq ▸ stray) (copy.not_stray wf ha low high)
  · intro mem
    exact List.mem_map.2 ⟨a, mem, follow_of_mem ha.object⟩

theorem mem_classes_iff {a : Ref} (ha : g.Reachable a) (low : lo ≤ g'.start)
    (high : g'.top ≤ hi) : φ a ∈ g'.roots.classes ↔ a ∈ g.roots.classes := by
  rw [copy.roots]
  refine copy.mem_map_follow_iff wf ha low high ?_
  intro c hc
  exact List.mem_append_left _ (List.mem_append_left _ hc)

theorem mem_dictionaries_iff {a : Ref} (ha : g.Reachable a) (low : lo ≤ g'.start)
    (high : g'.top ≤ hi) : φ a ∈ g'.roots.dictionaries ↔ a ∈ g.roots.dictionaries := by
  rw [copy.roots]
  refine copy.mem_map_follow_iff wf ha low high ?_
  intro c hc
  exact List.mem_append_left _ (List.mem_append_right _ hc)

theorem shapeOf_eq {a : Ref} (ha : g.Reachable a) (low : lo ≤ g'.start) (high : g'.top ≤ hi) :
    g'.roots.shapeOf (φ a) = g.roots.shapeOf a := by
  unfold RootSlots.shapeOf
  simp only [copy.mem_classes_iff wf ha low high, copy.mem_dictionaries_iff wf ha low high]

theorem slots_eq {a : Ref} (ha : g.Reachable a) (low : lo ≤ g'.start) (high : g'.top ≤ hi) :
    g'.slots (φ a) = g.slots a := by
  obtain ⟨kind, size, c, found⟩ := wf.header ha.object
  rw [ObjectGraph.slots_eq found, ObjectGraph.slots_eq (copy.header a ha kind size c found),
    copy.shapeOf_eq wf ha low high]
  rfl

theorem word_in_slot (fits : g.top ≤ g.bytes.size) {a : Ref} (ha : g.Reachable a)
    {slot : Nat × Shape} (hs : slot ∈ g.slots a) {w : Word} (word : g'.word? (φ a) slot.1 = some w) :
    ∃ c : Ref, g.word? a slot.1 = some c.word ∧ g.follow φ c = ⟨w⟩ := by
  have inside := wf.slot_inside ha.object hs
  have high := wf.high a ha.object
  have stop : a.offset (g.extent a) = a.offset 0 + g.extent a := rfl
  have at_slot : a.offset slot.1 = a.offset 0 + slot.1 := rfl
  obtain ⟨v, found⟩ := (Bytes.word?_eq_some_iff_le g.bytes (a.offset slot.1)).2 (by omega)
  have moved := copy.slot a ha slot hs ⟨v⟩ found
  rw [word] at moved
  cases moved
  exact ⟨⟨v⟩, found, rfl⟩

/-- A field that is no slot is copied as it is. -/
theorem word_raw {a : Ref} (ha : g.Reachable a) {i : Nat} (inside : 11 + i * 4 + 4 ≤ g.extent a)
    (outside : ∀ slot ∈ g.slots a, slot.1 ≠ 11 + i * 4) :
    g'.word? (φ a) (11 + i * 4) = g.word? a (11 + i * 4) := by
  have same : Bytes.Same g'.bytes ((φ a).offset (11 + i * 4)) g.bytes (a.offset (11 + i * 4)) 4 := by
    intro j hj
    have offset : ∀ r : Ref, r.offset (11 + i * 4) + j = r.offset (11 + i * 4 + j) :=
      fun _ => Nat.add_assoc _ _ _
    rw [offset, offset]
    refine copy.raw a ha (11 + i * 4 + j) (by omega) ?_
    intro slot hs
    have aligned := wf.slot_aligned ha.object hs
    have := outside slot hs
    omega
  exact same.word? 0 (by omega)

/-- **Copies are well formed**, if the bounds hold for the place of the copy as well. -/
theorem wellFormed (fits : g.top ≤ g.bytes.size) (low : lo ≤ g'.start) (high : g'.top ≤ hi) :
    g'.WellFormed lo hi := by
  have follow_null : g.follow φ Ref.null = Ref.null := follow_of_not_mem wf.null_not_object
  have objects : ∀ a' ∈ g'.objects, ∃ a, g.Reachable a ∧ φ a = a' := by
    intro a' mem
    rw [copy.objects] at mem
    exact mem
  refine
    { lo_le := low
      le_hi := high
      normal := ?normal
      low := ?low
      high := ?high
      apart := ?apart
      root := ?root
      slot := ?slot
      class_layout := ?class_layout
      tables_apart := ?tables_apart }
  case normal =>
    intro a' mem
    obtain ⟨a, ha, rfl⟩ := objects a' mem
    obtain ⟨kind, size, c, found⟩ := wf.header ha.object
    exact ⟨_, _, copy.header a ha kind size c found, rfl⟩
  case low =>
    intro a' mem
    obtain ⟨a, ha, rfl⟩ := objects a' mem
    exact (copy.inside a ha).1
  case high =>
    intro a' mem
    obtain ⟨a, ha, rfl⟩ := objects a' mem
    rw [copy.extent_eq wf ha]
    exact (copy.inside a ha).2
  case apart =>
    intro a' mem c' mem' ne
    obtain ⟨a, ha, rfl⟩ := objects a' mem
    obtain ⟨c, hc, rfl⟩ := objects c' mem'
    rw [copy.extent_eq wf ha, copy.extent_eq wf hc]
    refine copy.apart a c ha hc ?_
    rintro rfl
    exact ne rfl
  case root =>
    intro a' mem
    have mem : a' ∈ g.roots.all.map (g.follow φ) := by
      rw [copy.roots] at mem
      simpa only [RootSlots.all, RootSlots.map, List.map_append] using mem
    obtain ⟨a, ha, rfl⟩ := List.mem_map.1 mem
    by_cases object : a ∈ g.objects
    · rw [follow_of_mem object, copy.objects]
      exact Or.inl ⟨a, .root ha object, rfl⟩
    · rw [follow_of_not_mem object]
      exact Or.inr ((wf.root a ha).resolve_left object)
  case slot =>
    intro a' mem slot hs w word
    obtain ⟨a, ha, rfl⟩ := objects a' mem
    rw [copy.slots_eq wf ha low high] at hs
    obtain ⟨c, found, eq⟩ := copy.word_in_slot wf fits ha hs word
    have allowed := wf.slot a ha.object slot hs c.word found
    rw [← eq]
    cases shape : slot.2 with
    | classObject =>
      rw [shape] at allowed
      rcases allowed with null | table
      · rw [show c = Ref.null from null]
        exact Or.inl follow_null
      · refine Or.inr ?_
        rw [copy.roots]
        exact List.mem_map_of_mem table
    | dictionary =>
      rw [shape] at allowed
      rcases allowed with null | table
      · rw [show c = Ref.null from null]
        exact Or.inl follow_null
      · refine Or.inr ?_
        rw [copy.roots]
        exact List.mem_map_of_mem table
    | ordinary =>
      rw [shape] at allowed
      by_cases object : c ∈ g.objects
      · rw [follow_of_mem object]
        refine Or.inl ?_
        rw [copy.objects]
        exact ⟨c, .slot ha hs found object, rfl⟩
      · rw [follow_of_not_mem object]
        exact Or.inr (allowed.resolve_left object)
  case class_layout =>
    intro a' mem table
    obtain ⟨a, ha, rfl⟩ := objects a' mem
    rw [copy.mem_classes_iff wf ha low high] at table
    obtain ⟨header, found, pointers, enough⟩ := wf.class_layout a ha.object table
    obtain ⟨kind, size, c, found'⟩ := wf.header ha.object
    rw [found] at found'
    cases found'
    exact ⟨_, copy.header a ha kind size c found, pointers, enough⟩
  case tables_apart =>
    intro a' mem table
    obtain ⟨a, ha, rfl⟩ := objects a' mem
    rw [copy.mem_classes_iff wf ha low high] at table
    rw [copy.mem_dictionaries_iff wf ha low high]
    exact wf.tables_apart a ha.object table

/-- A path to an object is a path to its copy. -/
theorem reachable (low : lo ≤ g'.start) (high : g'.top ≤ hi) {a : Ref} (ha : g.Reachable a) :
    g'.Reachable (φ a) := by
  have object : ∀ {c}, g.Reachable c → φ c ∈ g'.objects := by
    intro c hc
    rw [copy.objects]
    exact ⟨c, hc, rfl⟩
  induction ha with
  | @root a mem obj =>
    refine .root ?_ (object (.root mem obj))
    have : φ a ∈ g.roots.all.map (g.follow φ) := List.mem_map.2 ⟨a, mem, follow_of_mem obj⟩
    rw [copy.roots]
    simpa only [RootSlots.all, RootSlots.map, List.map_append] using this
  | @slot a c slot ha hs word obj ih =>
    refine @Reachable.slot g' (φ a) (φ c) slot ih ?_ ?_ (object (.slot ha hs word obj))
    · rw [copy.slots_eq wf ha low high]
      exact hs
    · rw [copy.slot a ha slot hs c word, follow_of_mem obj]

end Slots

end CopyOf

end ObjectGraph

/-! ### A small heap -/

section SmallHeap

open ObjectGraph

/-- A class that is its own metaclass, and an instance of it that refers to itself. -/
def smallObjects : List UInt8 :=
  Header.encode ⟨.pointers, 5, .normal ⟨4096⟩⟩ ++ (0 : Word).bytes ++ Ref.null.word.bytes ++
    (4096 : Word).bytes ++ (1 : Word).bytes ++ Ref.null.word.bytes ++
    Header.encode ⟨.pointers, 1, .normal ⟨4096⟩⟩ ++ (4127 : Word).bytes

def smallHeap : SemiSpaces :=
  { SemiSpaces.new 128 with
    bytes := (SemiSpaces.new 128).bytes.overwrite 4096 smallObjects
    top := 4142 }

/-- The class is in the class table, the instance on the stack, below a number. -/
def smallRoots : RootSlots := ⟨[⟨4096⟩], [], [⟨4127⟩, ⟨7⟩]⟩

theorem size_smallHeap : smallHeap.bytes.size = 4224 :=
  (Bytes.size_overwrite _ _ _).trans Array.size_replicate

theorem smallHeap_sound : smallHeap.Sound where
  size_eq := size_smallHeap
  start_le_top := by decide
  top_le_end := by decide
  addressable := by
    rw [size_smallHeap]
    decide

theorem same_smallObjects : Bytes.Same smallHeap.bytes 4096 smallObjects.toArray 0 46 := by
  intro i hi
  have fits : 4096 + smallObjects.length ≤ (SemiSpaces.new 128).bytes.size := by
    rw [show (SemiSpaces.new 128).bytes.size = 4224 from Array.size_replicate]
    decide
  have written := Bytes.getElem?_overwrite_self _ _ _ i fits hi
  rw [Nat.zero_add]
  exact written.trans List.getElem?_toArray.symm

theorem read?_smallClass :
    Header.read? smallHeap.bytes ⟨4096⟩ = some ⟨.pointers, 5, .normal ⟨4096⟩⟩ := by
  rw [@Header.read?_congr _ _ ⟨4096⟩ ⟨0⟩ 46 same_smallObjects (by decide) (by decide) (by decide)]
  decide

theorem read?_smallInstance :
    Header.read? smallHeap.bytes ⟨4127⟩ = some ⟨.pointers, 1, .normal ⟨4096⟩⟩ := by
  rw [@Header.read?_congr _ _ ⟨4127⟩ ⟨31⟩ 15 (same_smallObjects.part 31 15 (by decide)) (by decide)
    (by decide) (by decide)]
  decide

theorem smallHeap_wellFormed : (smallHeap.graph smallRoots {⟨4096⟩, ⟨4127⟩}).WellFormed addressGuard
    smallHeap.bytes.size := by
  have class_header := read?_smallClass
  have object_header := read?_smallInstance
  have word := fun j h => same_smallObjects.word? j h
  -- only these facts about the buffer matter from here on
  have graph : smallHeap.graph smallRoots {⟨4096⟩, ⟨4127⟩} =
    ⟨smallHeap.bytes, 4096, 4142, smallRoots, {⟨4096⟩, ⟨4127⟩}⟩ := rfl
  rw [graph, size_smallHeap]
  clear graph
  generalize smallHeap.bytes = b at *
  apply wellFormed_of_listed [(⟨4096⟩, ⟨.pointers, 5, .normal ⟨4096⟩⟩),
    (⟨4127⟩, ⟨.pointers, 1, .normal ⟨4096⟩⟩)] (Nat.le_refl 4096) (show 4142 ≤ 4224 by decide)
  case complete =>
    rintro a (rfl | rfl)
    · exact ⟨_, List.mem_cons_self⟩
    · exact ⟨_, List.mem_cons_of_mem _ List.mem_cons_self⟩
  case header =>
    simp only [List.forall_mem_cons, List.not_mem_nil, false_imp_iff, implies_true, and_true]
    exact ⟨⟨class_header, _, rfl⟩, object_header, _, rfl⟩
  case inside => decide
  case apart => decide
  case root =>
    intro a mem
    have mem : a ∈ [(⟨4096⟩ : Ref), ⟨4127⟩, ⟨7⟩] := mem
    simp only [List.mem_cons, List.not_mem_nil, or_false] at mem
    rcases mem with rfl | rfl | rfl
    · exact Or.inl (Or.inl rfl)
    · exact Or.inl (Or.inr rfl)
    · refine Or.inr ?_
      unfold Stray
      decide
  case slot =>
    simp only [List.forall_mem_cons, List.not_mem_nil, false_imp_iff, implies_true, and_true]
    constructor
    · change ∀ slot ∈ [(7, Shape.classObject), (15, .classObject), (19, .classObject),
        (27, .dictionary)], _
      simp only [List.forall_mem_cons, List.not_mem_nil, false_imp_iff, implies_true, and_true]
      exact ⟨⟨4096, (word 7 (by decide)).trans (by decide), Or.inr List.mem_cons_self⟩,
        ⟨_, (word 15 (by decide)).trans (by decide), Or.inl rfl⟩,
        ⟨4096, (word 19 (by decide)).trans (by decide), Or.inr List.mem_cons_self⟩,
        _, (word 27 (by decide)).trans (by decide), Or.inl rfl⟩
    · change ∀ slot ∈ [(7, Shape.classObject), (11, .ordinary)], _
      simp only [List.forall_mem_cons, List.not_mem_nil, false_imp_iff, implies_true, and_true]
      exact ⟨⟨4096, (word 38 (by decide)).trans (by decide), Or.inr List.mem_cons_self⟩,
        4127, (word 42 (by decide)).trans (by decide), Or.inl (Or.inr rfl)⟩
  case table => decide

end SmallHeap

/-! ### Collections -/

section Collections

open ObjectGraph Evacuation

variable {s : SemiSpaces} {roots : RootSlots} {objects : Set Ref} {lo hi : Nat}

/-- Everything about a collection of root slots at once. -/
theorem collect_slots (sound : s.Sound) (stats : CollectionStats) (journal : Journal)
    (wf : (s.graph roots objects).WellFormed lo hi) :
    ∃ r φ moved, collect s stats journal roots.visit = .ok r ∧ r.space.Sound ∧
      (s.graph roots objects).CopyOf
        (r.space.graph r.roots (φ '' {a | (s.graph roots objects).Reachable a})) φ ∧
      Collects s (s.graph roots objects) journal φ moved r := by
  obtain ⟨r, φ, moved, run, roots_eq, sound', copy, collects⟩ :=
    collect_copy sound stats journal wf (visits_roots wf (sound.halves roots objects))
  rw [show roots.map ((s.graph roots objects).follow φ) = r.roots from roots_eq.symm] at copy
  exact ⟨r, φ, moved, run, sound', copy, collects⟩

/-- **The reachable graph survives a collection.**  The halves have exchanged their roles,
    and the new one holds a copy of what the roots led to. -/
theorem collect_preserves_graph (sound : s.Sound) (stats : CollectionStats) (journal : Journal)
    (wf : (s.graph roots objects).WellFormed s.activeStart s.top) :
    ∃ r φ, collect s stats journal roots.visit = .ok r ∧ r.space.active = s.active.other ∧
      (s.graph roots objects).CopyOf
        (r.space.graph r.roots (φ '' {a | (s.graph roots objects).Reachable a})) φ := by
  obtain ⟨r, φ, moved, run, -, copy, collects⟩ := collect_slots sound stats journal wf
  exact ⟨r, φ, run, collects.active, copy⟩

theorem collect_preserves_smallHeap :
    ∃ r φ, collect smallHeap {} { level := some .trace } smallRoots.visit = .ok r ∧
      r.space.active = .upper ∧ (smallHeap.graph smallRoots {⟨4096⟩, ⟨4127⟩}).CopyOf (r.space.graph r.roots
        (φ '' {a | (smallHeap.graph smallRoots {⟨4096⟩, ⟨4127⟩}).Reachable a})) φ :=
  collect_preserves_graph smallHeap_sound _ _ (smallHeap_wellFormed.narrow (by decide)
    (size_smallHeap ▸ by decide) (Nat.le_refl _) (Nat.le_refl _))

theorem tiles_of_places {g' : ObjectGraph} {φ : Ref → Ref} {stop : Nat} {extent : Ref → Nat}
    (moved : List Ref) :
    ∀ start, (∀ a ∈ moved, g'.extent (φ a) = extent a) →
      (∀ before a after, moved = before ++ a :: after →
        (φ a).offset 0 = start + (before.map extent).sum) →
      stop = start + (moved.map extent).sum → g'.Tiles stop start (moved.map φ) := by
  induction moved with
  | nil =>
    intro start _ _ top
    exact top.symm
  | cons a rest ih =>
    intro start extents places top
    refine ⟨places [] a rest rfl, ?_⟩
    rw [extents a List.mem_cons_self]
    refine ih _ (fun c hc => extents c (List.mem_cons_of_mem _ hc)) ?_ ?_
    · rintro before c after rfl
      rw [places (a :: before) c after rfl, List.map_cons, List.sum_cons, Nat.add_assoc]
    · rw [top, List.map_cons, List.sum_cons, Nat.add_assoc]

/-- A second collection of a heap that has just been collected. -/
theorem collect_again {g : ObjectGraph} {φ : Ref → Ref} {moved : List Ref}
    (sound : s.Sound) (stats : CollectionStats) (journal : Journal)
    (wf : g.WellFormed lo hi) (low : lo ≤ s.activeStart) (high : s.top ≤ hi)
    (fits : g.top ≤ g.bytes.size)
    (copy : g.CopyOf (s.graph roots (φ '' {a | g.Reachable a})) φ) (nodup : moved.Nodup)
    (reach : ∀ a, a ∈ moved ↔ g.Reachable a)
    (top : s.top = s.activeStart + (moved.map g.extent).sum) :
    ∃ r, collect s stats journal roots.visit = .ok r ∧
      r.stats.lastCopied = (moved.map g.extent).sum ∧ r.stats.lastReclaimed = 0 := by
  obtain ⟨r, ψ, moved', run, -, -, collects⟩ :=
    collect_slots sound stats journal (copy.wellFormed wf fits low high)
  -- the objects that are reachable now are the copies
  have mem : ∀ a, a ∈ moved' ↔ a ∈ moved.map φ := by
    intro a
    rw [collects.reach, List.mem_map]
    constructor
    · intro ha
      obtain ⟨c, hc, rfl⟩ := ha.object
      exact ⟨c, (reach c).2 hc, rfl⟩
    · rintro ⟨c, hc, rfl⟩
      exact copy.reachable wf low high ((reach c).1 hc)
  have distinct : (moved.map φ).Nodup := by
    refine nodup.map_on ?_
    intro a ha c hc eq
    exact copy.injective ((reach a).1 ha) ((reach c).1 hc) eq
  have perm : moved'.Perm (moved.map φ) := (List.perm_ext_iff_of_nodup collects.nodup distinct).2 mem
  have sum : (moved'.map (s.graph roots (φ '' {a | g.Reachable a})).extent).sum =
      (moved.map g.extent).sum := by
    rw [(perm.map _).sum_eq, List.map_map]
    refine congrArg List.sum (List.map_congr_left ?_)
    intro a ha
    exact copy.extent_eq wf ((reach a).1 ha)
  have copied := collects.copied.trans sum
  have reclaimed := collects.reclaimed
  unfold SemiSpaces.used at reclaimed
  exact ⟨r, run, copied, by omega⟩

/-- **A collection keeps exactly the reachable objects.**  The allocated part of the new
    half is tiled by one copy of each; the cursors, the statistics and the wiped half say
    the same, and a second collection finds nothing to reclaim. -/
theorem collect_keeps_reachable (sound : s.Sound) (stats : CollectionStats) (journal : Journal)
    (wf : (s.graph roots objects).WellFormed addressGuard s.bytes.size) :
    ∃ r φ, ∃ moved : List Ref, collect s stats journal roots.visit = .ok r ∧
      (s.graph roots objects).CopyOf
        (r.space.graph r.roots (φ '' {a | (s.graph roots objects).Reachable a})) φ ∧
      moved.Nodup ∧ (∀ a, a ∈ moved ↔ (s.graph roots objects).Reachable a) ∧
      (r.space.graph r.roots (φ '' {a | (s.graph roots objects).Reachable a})).Tiles
        r.space.top r.space.activeStart (moved.map φ) ∧
      r.stats.lastCopied = (moved.map (s.graph roots objects).extent).sum ∧
      r.stats.lastCopied + r.stats.lastReclaimed = s.used ∧ Quiet journal r.journal ∧
      (∀ i, s.activeStart ≤ i → i < s.activeEnd → r.space.bytes[i]? = some 0) ∧
      ∃ r', collect r.space r.stats r.journal r.roots.visit = .ok r' ∧
        r'.stats.lastCopied = r.stats.lastCopied ∧ r'.stats.lastReclaimed = 0 := by
  obtain ⟨r, φ, moved, run, sound', copy, collects⟩ := collect_slots sound stats journal wf
  refine ⟨r, φ, moved, run, copy, collects.nodup, collects.reach, ?tiles, collects.copied,
    collects.reclaimed, collects.quiet, collects.wiped, ?again⟩
  case tiles =>
    refine tiles_of_places moved _ ?_ collects.places collects.top
    intro a ha
    exact copy.extent_eq wf ((collects.reach a).1 ha)
  case again =>
    have high : r.space.top ≤ s.bytes.size := by
      rw [← collects.size]
      exact sound'.top_le_end.trans sound'.end_le_size
    have fits : s.top ≤ s.bytes.size := sound.top_le_end.trans sound.end_le_size
    rw [collects.copied]
    exact collect_again sound' r.stats r.journal wf sound'.guard_le high fits copy collects.nodup
      collects.reach collects.top

theorem collect_keeps_smallHeap : ∃ r, ∃ moved : List Ref,
    collect smallHeap {} { level := some .trace } smallRoots.visit = .ok r ∧
      (∀ a, a ∈ moved ↔ (smallHeap.graph smallRoots {⟨4096⟩, ⟨4127⟩}).Reachable a) ∧
      r.stats.lastCopied = (moved.map (smallHeap.graph smallRoots {⟨4096⟩, ⟨4127⟩}).extent).sum := by
  obtain ⟨r, φ, moved, run, -, -, reach, -, copied, -⟩ :=
    collect_keeps_reachable smallHeap_sound {} { level := some .trace } smallHeap_wellFormed
  exact ⟨r, moved, run, reach, copied⟩

end Collections

end ObjectMachine

/-
  ObjectMachine/Proofs/GraphUpdates.lean
  ======================================
  **Graphs that change** — what is left of a graph when a program goes on working.

  A program adds objects, writes to fields and pushes words, and between any two of these
  steps a collection may move everything.  So a graph is compared with one that has been
  copied several times and that has more in it: a part of a graph is copied with the whole,
  copies of copies are copies, and a graph stays well formed if what is written to its slots
  is allowed there.
-/
import ObjectMachine.Proofs.FreshAllocation

namespace ObjectMachine

namespace ObjectGraph

variable {g g₁ g₂ G G' : ObjectGraph} {φ ψ : Ref → Ref} {lo hi : Nat}

/-! ### Parts -/

/-- **A part of a graph**: the same heap and tables, some of the objects and of the stack. -/
structure PartOf (g G : ObjectGraph) : Prop where
  bytes : g.bytes = G.bytes
  classes : g.roots.classes = G.roots.classes
  dictionaries : g.roots.dictionaries = G.roots.dictionaries
  stack : ∀ a ∈ g.roots.stack, a ∈ G.roots.stack
  objects : g.objects ⊆ G.objects

namespace PartOf

variable (part : g.PartOf G)
include part

theorem header?_eq (a : Ref) : g.header? a = G.header? a := congrArg (Header.read? · a) part.bytes

theorem word?_eq (a : Ref) (offset : Nat) : g.word? a offset = G.word? a offset :=
  congrArg (Bytes.word? · (a.offset offset)) part.bytes

theorem extent_eq (a : Ref) : g.extent a = G.extent a := by
  unfold extent
  rw [part.header?_eq]

theorem slots_eq (a : Ref) : g.slots a = G.slots a := by
  unfold slots RootSlots.shapeOf
  rw [part.header?_eq, part.classes, part.dictionaries]

theorem root {a : Ref} (mem : a ∈ g.roots.all) : a ∈ G.roots.all := by
  unfold RootSlots.all at mem ⊢
  rw [part.classes, part.dictionaries] at mem
  rcases List.mem_append.1 mem with table | stack
  · exact List.mem_append_left _ table
  · exact List.mem_append_right _ (part.stack a stack)

theorem reachable {a : Ref} (reach : g.Reachable a) : G.Reachable a := by
  induction reach with
  | root mem object => exact .root (part.root mem) (part.objects object)
  | @slot a c slot from_ slot_mem word object ih =>
    rw [part.slots_eq] at slot_mem
    rw [part.word?_eq] at word
    exact .slot ih slot_mem word (part.objects object)

end PartOf

/-- What stands in a slot is an object or no address at all. -/
theorem WellFormed.object_or_stray (wf : g.WellFormed lo hi) {a : Ref} (object : a ∈ g.objects)
    {slot : Nat × Shape} (mem : slot ∈ g.slots a) {c : Ref} (word : g.word? a slot.1 = some c.word) :
    c ∈ g.objects ∨ c = Ref.null ∨ Stray lo hi c := by
  have allowed := wf.slot a object slot mem c.word word
  have table : ∀ {t : List Ref}, (∀ r ∈ t, r ∈ g.roots.all) → c = Ref.null ∨ c ∈ t →
      c ∈ g.objects ∨ c = Ref.null ∨ Stray lo hi c := by
    rintro t roots (null | entry)
    · exact Or.inr (Or.inl null)
    · exact (wf.root c (roots c entry)).imp_right Or.inr
  cases shape : slot.2 with
  | classObject =>
    rw [shape] at allowed
    exact table (fun r mem => List.mem_append_left _ (List.mem_append_left _ mem)) allowed
  | dictionary =>
    rw [shape] at allowed
    exact table (fun r mem => List.mem_append_left _ (List.mem_append_right _ mem)) allowed
  | ordinary =>
    rw [shape] at allowed
    exact allowed.imp_right Or.inr

theorem WellFormed.not_object_of_stray (wf : g.WellFormed lo hi) {a : Ref} (stray : Stray lo hi a) :
    a ∉ g.objects := by
  intro object
  have low := wf.low a object
  have high := wf.high a object
  have long := wf.header_le_extent object
  have := wf.lo_le
  have := wf.le_hi
  have stop : a.offset (g.extent a) = a.offset 0 + g.extent a := rfl
  unfold Stray at stray
  omega

/-- The class of an object stands in its class slot. -/
theorem word?_class {a : Ref} {kind : ObjectKind} {size : Word} {c : Ref}
    (found : g.header? a = some ⟨kind, size, .normal c⟩) :
    (Header.classOffset, Shape.classObject) ∈ g.slots a ∧
      g.word? a Header.classOffset = some c.word := by
  constructor
  · rw [slots_eq found]
    exact List.mem_cons_self
  · exact ((Header.read?_eq_some_iff _ _ _).1 found).2.2.2.2.2

/-! ### Copies of parts and of copies -/

/-- **A part of a graph is copied with it.** -/
theorem CopyOf.restrict (copy : G.CopyOf G' ψ) (part : g.PartOf G) (wf : g.WellFormed lo hi)
    (whole : G.WellFormed lo hi) : g.CopyOf
      ⟨G'.bytes, G'.start, G'.top, g.roots.map (g.follow ψ), ψ '' {a | g.Reachable a}⟩ ψ := by
  have follow : ∀ {c : Ref}, c ∈ g.objects ∨ c = Ref.null ∨ Stray lo hi c →
      G.follow ψ c = g.follow ψ c := by
    rintro c (object | rfl | stray)
    · rw [follow_of_mem object, follow_of_mem (part.objects object)]
    · rw [follow_of_not_mem wf.null_not_object, follow_of_not_mem whole.null_not_object]
    · rw [follow_of_not_mem (wf.not_object_of_stray stray),
        follow_of_not_mem (whole.not_object_of_stray stray)]
  refine
    { objects := rfl
      injective := fun a reach c reach' eq =>
        copy.injective (part.reachable reach) (part.reachable reach') eq
      inside := ?inside
      apart := ?apart
      header := ?header
      roots := rfl
      slot := ?slot
      raw := ?raw }
  case inside =>
    intro a reach
    rw [part.extent_eq]
    exact copy.inside a (part.reachable reach)
  case apart =>
    intro a c reach reach' ne
    rw [part.extent_eq, part.extent_eq]
    exact copy.apart a c (part.reachable reach) (part.reachable reach') ne
  case header =>
    intro a reach kind size c found
    obtain ⟨slot, word⟩ := word?_class found
    rw [← follow (wf.object_or_stray reach.object slot word)]
    rw [part.header?_eq] at found
    exact copy.header a (part.reachable reach) kind size c found
  case slot =>
    intro a reach slot mem c word
    rw [← follow (wf.object_or_stray reach.object mem word)]
    rw [part.slots_eq] at mem
    rw [part.word?_eq] at word
    exact copy.slot a (part.reachable reach) slot mem c word
  case raw =>
    intro a reach i lt outside
    rw [part.extent_eq] at lt
    rw [part.slots_eq] at outside
    rw [part.bytes]
    exact copy.raw a (part.reachable reach) i lt outside

/-- A word that is followed twice. -/
theorem follow_follow (wf : g.WellFormed lo hi) (wf₁ : g₁.WellFormed lo hi) {c : Ref}
    (moved : c ∈ g.objects → φ c ∈ g₁.objects) (known : c ∈ g.objects ∨ c = Ref.null ∨ Stray lo hi c) :
    g₁.follow ψ (g.follow φ c) = g.follow (ψ ∘ φ) c := by
  rcases known with object | rfl | stray
  · rw [follow_of_mem object, follow_of_mem object, follow_of_mem (moved object)]
    rfl
  · rw [follow_of_not_mem wf.null_not_object, follow_of_not_mem wf.null_not_object,
      follow_of_not_mem wf₁.null_not_object]
  · rw [follow_of_not_mem (wf.not_object_of_stray stray),
      follow_of_not_mem (wf.not_object_of_stray stray),
      follow_of_not_mem (wf₁.not_object_of_stray stray)]

/-- **A copy of a copy is a copy.** -/
theorem CopyOf.trans (copy : g.CopyOf g₁ φ) (copy' : g₁.CopyOf g₂ ψ) (wf : g.WellFormed lo hi)
    (fits : g.top ≤ g.bytes.size) (low : lo ≤ g₁.start) (high : g₁.top ≤ hi) :
    g.CopyOf g₂ (ψ ∘ φ) := by
  have wf₁ := copy.wellFormed wf fits low high
  have reach₁ : ∀ {a}, g.Reachable a → g₁.Reachable (φ a) := copy.reachable wf low high
  have follow : ∀ {c : Ref}, (c ∈ g.objects → g.Reachable c) →
      c ∈ g.objects ∨ c = Ref.null ∨ Stray lo hi c →
      g₁.follow ψ (g.follow φ c) = g.follow (ψ ∘ φ) c := fun reach known =>
    follow_follow wf wf₁ (fun object => (reach₁ (reach object)).object) known
  have reached : {a | g₁.Reachable a} = φ '' {a | g.Reachable a} := by
    apply Set.Subset.antisymm
    · intro a reach
      rw [← copy.objects]
      exact reach.object
    · rintro _ ⟨a, reach, rfl⟩
      exact reach₁ reach
  refine
    { objects := ?objects
      injective := ?injective
      inside := ?inside
      apart := ?apart
      header := ?header
      roots := ?roots
      slot := ?slot
      raw := ?raw }
  case objects => rw [copy'.objects, reached, Set.image_image]; rfl
  case injective =>
    intro a reach c reach' eq
    exact copy.injective reach reach' (copy'.injective (reach₁ reach) (reach₁ reach') eq)
  case inside =>
    intro a reach
    rw [← copy.extent_eq wf reach]
    exact copy'.inside (φ a) (reach₁ reach)
  case apart =>
    intro a c reach reach' ne
    rw [← copy.extent_eq wf reach, ← copy.extent_eq wf reach']
    refine copy'.apart (φ a) (φ c) (reach₁ reach) (reach₁ reach') ?_
    exact fun eq => ne (copy.injective reach reach' eq)
  case header =>
    intro a reach kind size c found
    obtain ⟨slot, word⟩ := word?_class found
    rw [← follow (Reachable.slot reach slot word) (wf.object_or_stray reach.object slot word)]
    exact copy'.header (φ a) (reach₁ reach) kind size _ (copy.header a reach kind size c found)
  case roots =>
    have moved : ∀ {table : List Ref}, (∀ a ∈ table, a ∈ g.roots.all) →
        (table.map (g.follow φ)).map (g₁.follow ψ) = table.map (g.follow (ψ ∘ φ)) := by
      intro table roots
      rw [List.map_map]
      apply List.map_congr_left
      intro a mem
      exact follow (Reachable.root (roots a mem)) ((wf.root a (roots a mem)).imp_right Or.inr)
    rw [copy'.roots, copy.roots]
    unfold RootSlots.map
    rw [moved fun a mem => List.mem_append_left _ (List.mem_append_left _ mem),
      moved fun a mem => List.mem_append_left _ (List.mem_append_right _ mem),
      moved fun a mem => List.mem_append_right _ mem]
  case slot =>
    intro a reach slot mem c word
    rw [← follow (Reachable.slot reach mem word) (wf.object_or_stray reach.object mem word)]
    refine copy'.slot (φ a) (reach₁ reach) slot ?_ _ (copy.slot a reach slot mem c word)
    rw [copy.slots_eq wf reach low high]
    exact mem
  case raw =>
    intro a reach i lt outside
    refine (copy'.raw (φ a) (reach₁ reach) i ?_ ?_).trans (copy.raw a reach i lt outside)
    · rw [copy.extent_eq wf reach]
      exact lt
    · rw [copy.slots_eq wf reach low high]
      exact outside

/-! ### More objects, other words -/

theorem Allowed.mono (roots : G.roots = g.roots) (more : g.objects ⊆ G.objects) {shape : Shape}
    {a : Ref} (allowed : g.Allowed lo hi shape a) : G.Allowed lo hi shape a := by
  cases shape with
  | classObject =>
    unfold Allowed
    rw [roots]
    exact allowed
  | dictionary =>
    unfold Allowed
    rw [roots]
    exact allowed
  | ordinary => exact allowed.imp_left (@more a)

/-- What a graph needs of an object behind all others. -/
structure Fresh (g : ObjectGraph) (lo hi above : Nat) (a : Ref) : Prop where
  normal : ∃ header c, g.header? a = some header ∧ header.state = .normal c
  low : above ≤ a.offset 0
  high : a.offset (g.extent a) ≤ g.top
  slot : ∀ slot ∈ g.slots a, ∀ w, g.word? a slot.1 = some w → g.Allowed lo hi slot.2 ⟨w⟩

/-- **Well-formedness depends on headers and slots.**  Other words may stand in the slots, and
    there may be another object behind all others. -/
theorem WellFormed.update (wf : g.WellFormed lo hi) (start : G.start = g.start)
    (roots : G.roots = g.roots) (ordered : g.start ≤ g.top) (top : g.top ≤ G.top) (le_hi : G.top ≤ hi)
    (header : ∀ a ∈ g.objects, G.header? a = g.header? a)
    (slot : ∀ a ∈ g.objects, ∀ slot ∈ g.slots a, ∀ w, G.word? a slot.1 = some w →
      G.Allowed lo hi slot.2 ⟨w⟩)
    (more : g.objects ⊆ G.objects)
    (fresh : ∀ a ∈ G.objects, a ∉ g.objects → G.Fresh lo hi g.top a)
    (single : ∀ a ∈ G.objects, a ∉ g.objects → ∀ c ∈ G.objects, c ∉ g.objects → a = c) :
    G.WellFormed lo hi := by
  have extent : ∀ a ∈ g.objects, G.extent a = g.extent a := by
    intro a object
    unfold extent
    rw [header a object]
  have slots : ∀ a ∈ g.objects, G.slots a = g.slots a := by
    intro a object
    unfold ObjectGraph.slots
    rw [header a object, roots]
  -- no word of the tables is the address of the new object
  have entry : ∀ a ∈ G.objects, a ∈ g.roots.all → a ∈ g.objects := by
    intro a object root
    by_contra new
    have stray := (wf.root a root).resolve_left new
    have low := (fresh a object new).low
    have high := (fresh a object new).high
    obtain ⟨header, c, found, -⟩ := (fresh a object new).normal
    rw [extent_eq found, Header.objectBytes, ObjectKind.objectBytes, offset_eq_add] at high
    have := wf.lo_le
    unfold Stray at stray
    omega
  have table : ∀ {a : Ref}, a ∈ g.roots.classes → a ∈ g.roots.all :=
    fun mem => List.mem_append_left _ (List.mem_append_left _ mem)
  refine
    { lo_le := start ▸ wf.lo_le
      le_hi := le_hi
      normal := ?normal
      low := ?low
      high := ?high
      apart := ?apart
      root := ?root
      slot := ?slot
      class_layout := ?class_layout
      tables_apart := ?tables_apart }
  case normal =>
    intro a object
    by_cases old : a ∈ g.objects
    · rw [header a old]
      exact wf.normal a old
    · exact (fresh a object old).normal
  case low =>
    intro a object
    rw [start]
    by_cases old : a ∈ g.objects
    · exact wf.low a old
    · exact ordered.trans (fresh a object old).low
  case high =>
    intro a object
    by_cases old : a ∈ g.objects
    · rw [extent a old]
      exact (wf.high a old).trans top
    · exact (fresh a object old).high
  case apart =>
    intro a object c object' ne
    by_cases old : a ∈ g.objects
    · rw [extent a old]
      by_cases old' : c ∈ g.objects
      · rw [extent c old']
        exact wf.apart a old c old' ne
      · exact Or.inl ((wf.high a old).trans (fresh c object' old').low)
    · by_cases old' : c ∈ g.objects
      · rw [extent c old']
        exact Or.inr ((wf.high c old').trans (fresh a object old).low)
      · exact absurd (single a object old c object' old') ne
  case root =>
    intro a mem
    rw [roots] at mem
    exact (wf.root a mem).imp_left (@more a)
  case slot =>
    intro a object s mem w word
    by_cases old : a ∈ g.objects
    · rw [slots a old] at mem
      exact slot a old s mem w word
    · exact (fresh a object old).slot s mem w word
  case class_layout =>
    intro a object mem
    rw [roots] at mem
    have old := entry a object (table mem)
    rw [header a old]
    exact wf.class_layout a old mem
  case tables_apart =>
    intro a object mem
    rw [roots] at mem ⊢
    exact wf.tables_apart a (entry a object (table mem)) mem

end ObjectGraph

end ObjectMachine

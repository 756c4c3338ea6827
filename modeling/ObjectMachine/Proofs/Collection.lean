/-
  ObjectMachine/Proofs/Collection.lean
  ====================================
  **A whole collection** — from the roots to the exchange of the halves.

  A collection starts with nothing moved, visits the roots, scans, and exchanges the
  halves; the invariant of the collection in progress says what the new half then holds.
  Read without the places of the objects, this is a copy of the reachable part of the
  graph: `CopyOf g g' φ`.  Read with them, the new half is a row of copies without a gap.

  The lemma that does the work, `collect_spec`, leaves open how the roots are kept, since
  the machine keeps them in two tables and in the words of a stack.
-/
import ObjectMachine.Proofs.CollectorScan

namespace ObjectMachine

/-! ### Sound heaps -/

namespace SemiSpaces

/-- The buffer is a guard and two halves, all of it addressable, and the cursor is in the
    active half. -/
structure Sound (s : SemiSpaces) : Prop where
  size_eq : s.bytes.size = addressGuard + 2 * s.half
  start_le_top : s.activeStart ≤ s.top
  top_le_end : s.top ≤ s.activeEnd
  addressable : s.bytes.size < wordLimit

theorem sound_new {settings : Settings} (valid : settings.validate = .ok ()) :
    (SemiSpaces.new settings.heapSize).Sound := by
  have small : addressGuard + settings.heapSize < wordLimit - 1 := by
    unfold Settings.validate at valid
    dsimp only at valid
    split at valid
    · cases valid
    split at valid
    · cases valid
    split at valid
    · cases valid
    split at valid
    · cases valid
    · omega
  have size : (SemiSpaces.new settings.heapSize).bytes.size =
      addressGuard + 2 * (settings.heapSize / 2) := Array.size_replicate
  refine ⟨size, Nat.le_refl _, Nat.le_add_right _ _, ?_⟩
  rw [size]
  omega

variable {s : SemiSpaces}

theorem Sound.mapBytes (sound : s.Sound) {f : Bytes → Bytes}
    (size : (f s.bytes).size = s.bytes.size) : (s.mapBytes f).Sound where
  size_eq := size.trans sound.size_eq
  start_le_top := sound.start_le_top
  top_le_end := sound.top_le_end
  addressable := size.symm ▸ sound.addressable

theorem Sound.bump (sound : s.Sound) (size : Nat) : (s.bump size).2.Sound := by
  unfold SemiSpaces.bump
  split
  · exact sound
  · rename_i room
    have room : s.top + size ≤ s.activeEnd := by
      have := sound.top_le_end
      unfold free at room
      omega
    refine ⟨?_, ?_, room, ?_⟩
    · exact (Bytes.size_wipe _ _ _).trans sound.size_eq
    · exact sound.start_le_top.trans (Nat.le_add_right _ _)
    · exact (Bytes.size_wipe _ _ _).symm ▸ sound.addressable

theorem activeStart_cases (s : SemiSpaces) :
    (s.activeStart = addressGuard ∧ s.inactiveStart = addressGuard + s.half) ∨
      (s.activeStart = addressGuard + s.half ∧ s.inactiveStart = addressGuard) := by
  unfold activeStart inactiveStart
  cases s.active with
  | lower => exact Or.inl ⟨rfl, rfl⟩
  | upper => exact Or.inr ⟨rfl, rfl⟩

theorem Sound.guard_le (_ : s.Sound) : addressGuard ≤ s.activeStart := by
  rcases s.activeStart_cases with h | h <;> omega

theorem Sound.end_le_size (sound : s.Sound) : s.activeEnd ≤ s.bytes.size := by
  have := sound.size_eq
  unfold activeEnd
  rcases s.activeStart_cases with h | h <;> omega

/-- The graph of a heap. -/
def graph (s : SemiSpaces) (roots : RootSlots) (objects : Set Ref) : ObjectGraph :=
  ⟨s.bytes, s.activeStart, s.top, roots, objects⟩

theorem Sound.halves (sound : s.Sound) (roots : RootSlots) (objects : Set Ref) :
    (s.graph roots objects).Halves s.inactiveStart (s.inactiveStart + s.half) := by
  have size := sound.size_eq
  have low := sound.start_le_top
  have high := sound.top_le_end
  have fits := sound.end_le_size
  unfold activeEnd at high fits
  rcases s.activeStart_cases with h | h
  all_goals
    refine ⟨?_, ?_, ?_, ?_, sound.addressable⟩
    all_goals
      dsimp only [graph]
      omega

/-- The heap after the halves have been exchanged. -/
def flipped (s : SemiSpaces) (top : Nat) : SemiSpaces :=
  { s with bytes := s.bytes.wipe s.activeStart s.half, active := s.active.other, top }

theorem flip_eq {top : Nat} (low : s.inactiveStart ≤ top) (high : top ≤ s.inactiveStart + s.half) :
    s.flip top = .ok (s.flipped top) := if_pos ⟨low, high⟩

theorem Sound.flipped (sound : s.Sound) {top : Nat} (low : s.inactiveStart ≤ top)
    (high : top ≤ s.inactiveStart + s.half) : (s.flipped top).Sound where
  size_eq := (Bytes.size_wipe _ _ _).trans sound.size_eq
  start_le_top := low
  top_le_end := high
  addressable := (Bytes.size_wipe _ _ _).symm ▸ sound.addressable

end SemiSpaces

/-! ### Copies of a graph -/

namespace ObjectGraph

open Classical in
/-- The new value of a word in a slot, given where objects go. -/
noncomputable def follow (g : ObjectGraph) (φ : Ref → Ref) (a : Ref) : Ref :=
  if a ∈ g.objects then φ a else a

theorem follow_of_mem {g : ObjectGraph} {φ : Ref → Ref} {a : Ref} (h : a ∈ g.objects) :
    g.follow φ a = φ a := if_pos h

theorem follow_of_not_mem {g : ObjectGraph} {φ : Ref → Ref} {a : Ref} (h : a ∉ g.objects) :
    g.follow φ a = a := if_neg h

/-- **Copies.**  The objects of `g'` are the reachable objects of `g`, each at a place of
    its own and of the same kind and size.  Roots and slots of the copy lead to the copies
    of what they led to, and every other byte is what it was. -/
structure CopyOf (g g' : ObjectGraph) (φ : Ref → Ref) : Prop where
  objects : g'.objects = φ '' {a | g.Reachable a}
  injective : Set.InjOn φ {a | g.Reachable a}
  inside : ∀ a, g.Reachable a → g'.start ≤ (φ a).offset 0 ∧ (φ a).offset (g.extent a) ≤ g'.top
  apart : ∀ a c, g.Reachable a → g.Reachable c → a ≠ c →
    (φ a).offset (g.extent a) ≤ (φ c).offset 0 ∨ (φ c).offset (g.extent c) ≤ (φ a).offset 0
  header : ∀ a, g.Reachable a → ∀ kind size c, g.header? a = some ⟨kind, size, .normal c⟩ →
    g'.header? (φ a) = some ⟨kind, size, .normal (g.follow φ c)⟩
  roots : g'.roots = g.roots.map (g.follow φ)
  slot : ∀ a, g.Reachable a → ∀ slot ∈ g.slots a, ∀ c : Ref, g.word? a slot.1 = some c.word →
    g'.word? (φ a) slot.1 = some (g.follow φ c).word
  raw : ∀ a, g.Reachable a → ∀ i < g.extent a,
    (∀ slot ∈ g.slots a, ¬(slot.1 ≤ i ∧ i < slot.1 + 4)) →
      g'.bytes[(φ a).offset i]? = g.bytes[a.offset i]?

/-- The objects of a list stand side by side, from one bound to the other. -/
def Tiles (g : ObjectGraph) (stop : Nat) : (start : Nat) → List Ref → Prop
  | start, [] => start = stop
  | start, a :: rest => a.offset 0 = start ∧ g.Tiles stop (start + g.extent a) rest

end ObjectGraph

/-! ### Running a collection -/

namespace Evacuation

open ObjectGraph

section Collect

variable {s : SemiSpaces} {roots : RootSlots} {objects : Set Ref} {journal : Journal} {ρ : Type}

/-- Visiting moves what the roots lead to and hands the new values of the roots to `result`. -/
def Visits (g : ObjectGraph) (base stop : Nat) (journal : Journal) (visit : Run ρ)
    (result : (Ref → Ref) → ρ) : Prop :=
  ∀ e, Invariant g base stop journal e [] ∅ → ∃ e' moved, Invariant g base stop journal e' moved ∅ ∧
    TablesMoved g moved ∧ (∀ a ∈ g.roots.all, a ∈ g.objects → a ∈ moved) ∧
    ∀ f, (∀ a ∈ g.roots.all, f a = g.relocate base moved a) → visit e = .ok (result f, e')

theorem visits_roots {g : ObjectGraph} {lo hi base stop : Nat} (wf : g.WellFormed lo hi)
    (halves : g.Halves base stop) : Visits g base stop journal (g.roots.visit forwardRoot) g.roots.map := by
  intro e inv
  obtain ⟨e', moved, -, inv', tables, targets, run⟩ := visit_spec wf halves inv
  refine ⟨e', moved, inv', tables, targets, ?_⟩
  intro f hf
  rw [run]
  have all : ∀ a, a ∈ g.roots.classes ∨ a ∈ g.roots.dictionaries ∨ a ∈ g.roots.stack →
      g.relocate base moved a = f a := by
    intro a mem
    refine (hf a ?_).symm
    rw [RootSlots.all, List.mem_append, List.mem_append, or_assoc]
    exact mem
  unfold RootSlots.map
  rw [List.map_congr_left fun a h => all a (Or.inl h),
    List.map_congr_left fun a h => all a (Or.inr (Or.inl h)),
    List.map_congr_left fun a h => all a (Or.inr (Or.inr h))]

theorem invariant_ofSpaces (s : SemiSpaces) (roots : RootSlots) (objects : Set Ref)
    (journal : Journal) : Invariant (s.graph roots objects) s.inactiveStart
      (s.inactiveStart + s.half) journal (ofSpaces s journal) [] ∅ where
  fromStart_eq := rfl
  fromTop_eq := rfl
  toEnd_eq := rfl
  size_eq := rfl
  free_eq := rfl
  quiet := ⟨[], (List.append_nil _).symm, fun _ mem => List.not_mem_nil mem⟩
  nodup := List.nodup_nil
  reachable := fun _ mem => absurd mem List.not_mem_nil
  done_moved := fun _ mem => absurd mem (Set.notMem_empty _)
  intact := fun _ _ _ => Bytes.Same.refl _ _ _
  stub := fun _ mem => absurd mem List.not_mem_nil
  raw := fun _ mem => absurd mem List.not_mem_nil
  slot := fun _ mem => absurd mem List.not_mem_nil
  shape := fun _ mem => absurd mem List.not_mem_nil
  below := fun _ mem => absurd mem List.not_mem_nil

/-- What a collection returns once everything has been moved. -/
def finish (s : SemiSpaces) (stats : CollectionStats) (e : Evacuation) (roots : ρ) : Collected ρ :=
  let copied := e.free - s.inactiveStart
  { space := { s with bytes := e.bytes }.flipped e.free
    stats := {
      cycles := stats.cycles + 1
      lastCopied := copied
      lastReclaimed := s.used - copied
      totalReclaimed := stats.totalReclaimed + (s.used - copied) }
    journal := e.journal.note (.collected (stats.cycles + 1) copied (s.used - copied))
    roots }

section Stages

variable {stats : CollectionStats} {visitRoots : (RootKind → Ref → Run Ref) → Run ρ} {values : ρ}
  {e₁ : Evacuation} (visited : visitRoots forwardRoot (ofSpaces s journal) = .ok (values, e₁))
include visited

/-- A collection visits the roots, scans and exchanges the halves. -/
theorem collect_eq_ok {e : Evacuation} (scanned : scan e₁.toEnd s.inactiveStart e₁ = .ok ((), e))
    (low : s.inactiveStart ≤ e.free) (high : e.free ≤ s.inactiveStart + s.half) :
    collect s stats journal visitRoots = .ok (finish s stats e values) := by
  have flip : SemiSpaces.flip { s with bytes := e.bytes } e.free =
      .ok ({ s with bytes := e.bytes }.flipped e.free) := SemiSpaces.flip_eq low high
  unfold collect StateT.run
  dsimp only
  rw [visited]
  change (scan e₁.toEnd s.inactiveStart e₁ >>= _) = _
  rw [scanned]
  change (SemiSpaces.flip { s with bytes := e.bytes } e.free >>= _) = _
  rw [flip]
  rfl

theorem collect_eq_error {cause : Fault} (scanned : scan e₁.toEnd s.inactiveStart e₁ = .error cause) :
    collect s stats journal visitRoots = .error cause := by
  unfold collect StateT.run
  dsimp only
  rw [visited]
  change (scan e₁.toEnd s.inactiveStart e₁ >>= _) = _
  rw [scanned]
  rfl

end Stages

/-- **A collection.**  It ends, and then every slot of every moved object is done and the
    moved objects are the reachable ones. -/
theorem collect_spec {lo hi : Nat} (sound : s.Sound) (stats : CollectionStats) (journal : Journal)
    (wf : (s.graph roots objects).WellFormed lo hi)
    {visitRoots : (RootKind → Ref → Run Ref) → Run ρ} {result : (Ref → Ref) → ρ}
    (visits : Visits (s.graph roots objects) s.inactiveStart (s.inactiveStart + s.half) journal
      (visitRoots forwardRoot) result) :
    ∃ e moved, Invariant (s.graph roots objects) s.inactiveStart (s.inactiveStart + s.half) journal
        e moved {p | p.1 ∈ moved} ∧
      (∀ a, a ∈ moved ↔ (s.graph roots objects).Reachable a) ∧
      collect s stats journal visitRoots =
        .ok (finish s stats e (result ((s.graph roots objects).relocate s.inactiveStart moved))) := by
  have halves := sound.halves roots objects
  obtain ⟨e₁, moved₁, inv₁, tables₁, targets₁, run₁⟩ :=
    visits _ (invariant_ofSpaces s roots objects journal)
  have nothing_scanned : Invariant (s.graph roots objects) s.inactiveStart
      (s.inactiveStart + s.half) journal e₁ ([] ++ moved₁) {p | p.1 ∈ ([] : List Ref)} := by
    refine inv₁.of_done ?_ ?_
    · intro a _ slot _
      rw [Set.mem_ofPred_eq]
      exact ⟨fun h => absurd h List.not_mem_nil, fun h => absurd h (Set.notMem_empty _)⟩
    · intro p hp
      exact absurd hp List.not_mem_nil
  obtain ⟨e, moved, more, inv, run⟩ := scan_spec wf halves nothing_scanned tables₁
  refine ⟨e, moved, inv, inv.mem_moved_iff fun a mem object => more.subset (targets₁ a mem object), ?_⟩
  -- the roots lead to objects that have been moved, so their new values are final
  have run₁ := run₁ ((s.graph roots objects).relocate s.inactiveStart moved) fun a mem =>
    relocate_of_extension more (targets₁ a mem)
  have bounds : s.inactiveStart ≤ e.free := by
    rw [inv.free_eq]
    exact Nat.le_add_right _ _
  rw [List.map_nil, List.sum_nil, Nat.add_zero, ← inv₁.toEnd_eq] at run
  exact collect_eq_ok run₁ run bounds (inv.free_le_stop wf halves)

/-! ### The copy -/

section Copy

variable {g : ObjectGraph} {lo hi base stop : Nat} {e : Evacuation} {moved : List Ref}
variable (wf : g.WellFormed lo hi) (halves : g.Halves base stop)
  (inv : Invariant g base stop journal e moved {p | p.1 ∈ moved})

include inv in
theorem word_of_done {a c : Ref} (ha : a ∈ moved) {slot : Nat × Shape} (hs : slot ∈ g.slots a)
    (word : g.word? a slot.1 = some c.word) :
    e.bytes.word? (g.place base moved a + slot.1) = some (g.relocate base moved c).word :=
  (inv.slot a ha slot hs ha c word).1

include wf halves inv in
theorem header_of_done {a : Ref} (ha : a ∈ moved) {kind : ObjectKind} {size : Word} {c : Ref}
    (found : g.header? a = some ⟨kind, size, .normal c⟩) :
    Header.read? e.bytes (Ref.ofOffset (g.place base moved a)) =
      some ⟨kind, size, .normal (g.relocate base moved c)⟩ := by
  have object := inv.moved_object ha
  have long := wf.header_le_extent object
  have bounds := inv.place_bounds wf halves ha
  have := halves.stop_le_size
  have := halves.addressable
  have class_slot : (Header.classOffset, Shape.classObject) ∈ g.slots a := by
    rw [slots_eq found]
    exact List.mem_cons_self
  -- the first seven bytes are in no slot
  have raw : ∀ i < 7, e.bytes[g.place base moved a + i]? = g.bytes[a.offset i]? := by
    intro i hi
    refine inv.raw a ha i (by omega) ?_
    intro slot hs _
    have aligned := wf.slot_aligned object hs
    omega
  have size_word : Bytes.Same e.bytes (g.place base moved a + 3) g.bytes (a.offset 3) 4 := by
    intro i hi
    have := raw (3 + i) (by omega)
    rwa [← Nat.add_assoc, show a.offset (3 + i) = a.offset 3 + i from (Nat.add_assoc _ _ _).symm]
      at this
  obtain ⟨-, marker, kind_byte, state, size_eq, word⟩ := (Header.read?_eq_some_iff _ _ _).1 found
  refine (Header.read?_eq_some_iff _ _ _).2 ⟨Ref.ofOffset_ne_null (by omega), ?_, ?_, ?_, ?_, ?_⟩
  · rw [inv.offset_place wf halves ha, raw 0 (by omega), marker]
  · rw [inv.offset_place wf halves ha, raw 1 (by omega), kind_byte]
  · rw [inv.offset_place wf halves ha, raw 2 (by omega), state]
    rfl
  · rw [inv.offset_place wf halves ha, ← size_eq]
    exact size_word.word? 0 (by omega)
  · rw [inv.offset_place wf halves ha]
    exact word_of_done inv ha class_slot word

include wf halves inv in
/-- **The new half holds a copy.**  `b` is the buffer after the old half has been wiped. -/
theorem copyOf_of_done (reach : ∀ a, a ∈ moved ↔ g.Reachable a) {b : Bytes}
    (same : ∀ p n, base ≤ p → p + n ≤ stop → Bytes.Same b p e.bytes p n) :
    CopyOf g ⟨b, base, e.free, g.roots.map (g.relocate base moved),
      (fun a => Ref.ofOffset (g.place base moved a)) '' {a | g.Reachable a}⟩
      (fun a => Ref.ofOffset (g.place base moved a)) := by
  have offset : ∀ {a : Ref}, g.Reachable a → ∀ n,
      (Ref.ofOffset (g.place base moved a)).offset n = g.place base moved a + n :=
    fun ha n => inv.offset_place wf halves ((reach _).2 ha) n
  have apart : ∀ a c, g.Reachable a → g.Reachable c → a ≠ c →
      g.place base moved a + g.extent a ≤ g.place base moved c ∨
        g.place base moved c + g.extent c ≤ g.place base moved a :=
    fun a c ha hc => place_apart ((reach a).2 ha) ((reach c).2 hc)
  refine
    { objects := rfl
      injective := ?injective
      inside := ?inside
      apart := ?apart
      header := ?header
      roots := rfl
      slot := ?slot
      raw := ?raw }
  case injective =>
    intro a ha c hc eq
    by_contra ne
    have places := congrArg (fun r => Ref.offset r 0) eq
    dsimp only at places
    rw [offset ha, offset hc] at places
    have := wf.header_le_extent ha.object
    have := wf.header_le_extent hc.object
    have := apart a c ha hc ne
    omega
  case inside =>
    intro a ha
    have bounds := inv.place_bounds wf halves ((reach a).2 ha)
    dsimp only
    rw [offset ha, offset ha]
    omega
  case apart =>
    intro a c ha hc ne
    rw [offset ha, offset hc, offset ha, offset hc]
    exact apart a c ha hc ne
  case header =>
    intro a ha kind size c found
    have bounds := inv.place_bounds wf halves ((reach a).2 ha)
    have long := wf.header_le_extent ha.object
    have read := header_of_done wf halves inv ((reach a).2 ha) found
    have nonnull := ((Header.read?_eq_some_iff _ _ _).1 read).1
    rw [follow, ← relocate, ← read]
    refine Header.read?_congr (n := 11) ?_ (Nat.le_refl _) nonnull nonnull
    rw [offset ha]
    exact same _ _ (by omega) (by omega)
  case slot =>
    intro a ha slot hs c word
    have bounds := inv.place_bounds wf halves ((reach a).2 ha)
    have inside := wf.slot_inside ha.object hs
    rw [word?]
    dsimp only
    rw [follow, ← relocate, offset ha, ← word_of_done inv ((reach a).2 ha) hs word]
    exact (same (g.place base moved a + slot.1) 4 (by omega) (by omega)).word? 0 (by omega)
  case raw =>
    intro a ha i hi outside
    have bounds := inv.place_bounds wf halves ((reach a).2 ha)
    dsimp only
    rw [offset ha]
    refine (same (g.place base moved a + i) 1 (by omega) (by omega) 0 (by omega)).trans ?_
    exact inv.raw a ((reach a).2 ha) i hi fun slot hs _ => outside slot hs

end Copy

/-! ### The whole of it -/

/-- The accounts of a collection: `moved` lists the reachable objects in the order of their
    copies, which stand side by side. -/
structure Collects (s : SemiSpaces) (g : ObjectGraph) (journal : Journal) (φ : Ref → Ref)
    (moved : List Ref) (r : Collected ρ) : Prop where
  nodup : moved.Nodup
  reach : ∀ a, a ∈ moved ↔ g.Reachable a
  places : ∀ before a after, moved = before ++ a :: after →
    (φ a).offset 0 = r.space.activeStart + (before.map g.extent).sum
  top : r.space.top = r.space.activeStart + (moved.map g.extent).sum
  active : r.space.active = s.active.other
  size : r.space.bytes.size = s.bytes.size
  copied : r.stats.lastCopied = (moved.map g.extent).sum
  reclaimed : r.stats.lastCopied + r.stats.lastReclaimed = s.used
  quiet : Quiet journal r.journal
  wiped : ∀ i, s.activeStart ≤ i → i < s.activeEnd → r.space.bytes[i]? = some 0

/-- **A collection, in terms of the graph.**  However the roots are kept, it ends with a copy
    of the reachable part, and its accounts are right. -/
theorem collect_copy {lo hi : Nat} (sound : s.Sound) (stats : CollectionStats) (journal : Journal)
    (wf : (s.graph roots objects).WellFormed lo hi)
    {visitRoots : (RootKind → Ref → Run Ref) → Run ρ} {result : (Ref → Ref) → ρ}
    (visits : Visits (s.graph roots objects) s.inactiveStart (s.inactiveStart + s.half) journal
      (visitRoots forwardRoot) result) :
    ∃ r φ moved, collect s stats journal visitRoots = .ok r ∧
      r.roots = result ((s.graph roots objects).follow φ) ∧ r.space.Sound ∧
      (s.graph roots objects).CopyOf
        (r.space.graph (roots.map ((s.graph roots objects).follow φ))
          (φ '' {a | (s.graph roots objects).Reachable a})) φ ∧
      Collects s (s.graph roots objects) journal φ moved r := by
  have halves := sound.halves roots objects
  obtain ⟨e, moved, inv, reach, run⟩ := collect_spec sound stats journal wf visits
  have size_e : e.bytes.size = s.bytes.size := inv.size_eq
  have fits : s.activeStart + s.half ≤ e.bytes.size := size_e.symm ▸ sound.end_le_size
  have free_eq := inv.free_eq
  have free_le := inv.free_le_stop wf halves
  have sum_le := wf.sum_extent_le moved inv.nodup fun a ha => inv.moved_object ha
  have low := sound.start_le_top
  refine ⟨_, fun a => Ref.ofOffset ((s.graph roots objects).place s.inactiveStart moved a), moved,
    run, rfl, ?sound, ?copy, inv.nodup, reach, ?places, free_eq, rfl, ?size, ?copied, ?reclaimed, ?quiet,
    ?wiped⟩
  case sound =>
    have sound_e : { s with bytes := e.bytes }.Sound :=
      ⟨size_e.trans sound.size_eq, sound.start_le_top, sound.top_le_end, size_e ▸ sound.addressable⟩
    exact sound_e.flipped (by rw [free_eq]; exact Nat.le_add_right _ _) free_le
  case copy =>
    refine copyOf_of_done wf halves inv reach ?_
    intro p n base_le le_stop
    refine Bytes.same_wipe _ _ _ _ _ fits ?_
    have := s.activeStart_cases
    have active : { s with bytes := e.bytes }.activeStart = s.activeStart := rfl
    dsimp only at active ⊢
    omega
  case places =>
    rintro before a after rfl
    have ha : a ∈ before ++ a :: after := List.mem_append_right _ List.mem_cons_self
    have new : a ∉ before := by
      intro mem
      exact (List.nodup_append.1 inv.nodup).2.2 a mem a List.mem_cons_self rfl
    rw [inv.offset_place wf halves ha, place_next new]
    rfl
  case size => exact (Bytes.size_wipe _ _ _).trans size_e
  case copied =>
    dsimp only [finish]
    omega
  case reclaimed =>
    have sum_le : _ ≤ s.used := sum_le
    dsimp only [finish]
    omega
  case quiet =>
    refine inv.quiet.note _ ?_
    intro a eq
    cases eq
  case wiped =>
    intro i low high
    exact Bytes.getElem?_wipe _ _ _ _ fits low high

end Collect

end Evacuation

end ObjectMachine

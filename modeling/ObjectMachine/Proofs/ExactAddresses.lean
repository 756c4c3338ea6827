/-
  ObjectMachine/Proofs/ExactAddresses.lean
  ========================================
  **Addresses are exact** — an address is an offset cut to a word, and under sizes that were
  accepted nothing is ever cut off, nor does an address come out as the word for "nothing".

  Offsets become addresses in four places: where bytes are allocated, where a collection copies
  an object, where a frame is opened and where code is stored.  In each of them the offset lies
  in an arena or at its end, and the arenas keep the sizes with which they were made.

  A collection also hands out words that stand in stubs.  It has left the stubs itself, unless a
  program has forged one: nothing tells a forged stub, so whatever word is in it is believed.
-/
import ObjectMachine.Proofs.CollectedMemory
import ObjectMachine.Proofs.ObjectAccess
import ObjectMachine.Proofs.StackScan

namespace ObjectMachine

/-! ### Sizes -/

/-- **Which sizes are accepted**, and for which the sum of guard and heap leaves the 64 bits
    before it is compared with the limit. -/
theorem Settings.validate_iff (s : Settings) :
    (s.validate = .ok () ↔
      (0 < s.heapSize ∧ 0 < s.stackSize ∧ 0 < s.codeSize) ∧ 11 ≤ s.heapSize / 2 ∧
        4096 + s.heapSize < 2 ^ 32 - 1 ∧ s.stackSize < 2 ^ 32 - 1 ∧ s.codeSize < 2 ^ 32 - 1) ∧
    (s.validate = .error (.fault .overflow) ↔
      (0 < s.heapSize ∧ 0 < s.stackSize ∧ 0 < s.codeSize) ∧ 11 ≤ s.heapSize / 2 ∧
        2 ^ 64 ≤ 4096 + s.heapSize) := by
  have size : sizeLimit = 2 ^ 64 := rfl
  have word : wordLimit = 2 ^ 32 := rfl
  have guard : addressGuard = 4096 := rfl
  unfold validate
  dsimp only
  split
  · simp only [reduceCtorEq, Except.error.injEq, false_iff]
    omega
  split
  · simp only [reduceCtorEq, Except.error.injEq, false_iff]
    omega
  split
  · simp only [reduceCtorEq, false_iff, true_iff]
    omega
  split
  · simp only [reduceCtorEq, Except.error.injEq, false_iff]
    omega
  split
  · simp only [reduceCtorEq, Except.error.injEq, false_iff]
    omega
  · simp only [reduceCtorEq, false_iff, true_iff]
    omega

/-! ### Collections -/

namespace Evacuation

/-- An address that stands for an offset and for nothing else. -/
def StandsFor (r : Ref) (offset : Nat) : Prop := r.offset 0 = offset ∧ r ≠ Ref.null

theorem standsFor_ofOffset {offset : Nat} (small : offset + 1 < wordLimit) :
    StandsFor (Ref.ofOffset offset) offset :=
  ⟨Ref.offset_ofOffset (by omega) 0, Ref.ofOffset_ne_null small⟩

/-- A new address that a collection has handed out for another one. -/
structure Handed where
  /-- The collection when it was asked. -/
  asked : Evacuation
  addr : Ref
  new : Ref

/-- **The course of a collection**, and what it has handed out.  It reports, it finds that an
    address leads to no object or that there is no room for one, and it hands out an address,
    for a root or for a slot of the buffer that is overwritten with it. -/
inductive Course (start : Evacuation) : List Handed → Evacuation → Prop where
  | begin : Course start [] start
  | note {handed : List Handed} {e e' : Evacuation} {event : Event}
      (before : Course start handed e) (run : note event e = .ok ((), e')) : Course start handed e'
  | nothing {handed : List Handed} {e e' : Evacuation} {a : Ref} {shape : Shape}
      (before : Course start handed e) (run : evacuate a shape e = .ok (none, e')) :
      Course start handed e'
  | root {handed : List Handed} {e e' : Evacuation} {a new : Ref} {shape : Shape}
      (before : Course start handed e) (run : evacuate a shape e = .ok (some new, e')) :
      Course start (handed ++ [⟨e, a, new⟩]) e'
  | slot {handed : List Handed} {e e₁ e' : Evacuation} {a new : Ref} {shape : Shape} {offset : Nat}
      (before : Course start handed e) (held : e.bytes.word? offset = some a.word)
      (run : evacuate a shape e = .ok (some new, e₁))
      (stored : store offset new.word.bytes e₁ = .ok ((), e')) :
      Course start (handed ++ [⟨e, a, new⟩]) e'

/-- What stands in a root after a collection: what stood there before, or what was handed out
    for that. -/
def Replaced (handed : List Handed) (old new : Ref) : Prop :=
  new = old ∨ ∃ h ∈ handed, h.addr = old ∧ h.new = new

theorem Replaced.append {handed : List Handed} {old new : Ref} (replaced : Replaced handed old new)
    (more : List Handed) : Replaced (handed ++ more) old new := by
  rcases replaced with same | ⟨h, mem, from_, there⟩
  · exact Or.inl same
  · exact Or.inr ⟨h, List.mem_append_left _ mem, from_, there⟩

/-! #### Copies and stubs -/

namespace Handed

variable {start e e' : Evacuation} {h : Handed} {handed : List Handed}

/-- **A copy**: the address stands for the copy cursor, to which the object was copied, and the
    copy lies in the part that was filled between two moments of the collection. -/
structure IsCopy (h : Handed) (start e : Evacuation) : Prop where
  standsFor : StandsFor h.new h.asked.free
  start_le : start.free ≤ h.asked.free
  le_free : ∃ header, h.asked.sourceHeader? h.addr = some header ∧ header.forwarding? = none ∧
    h.asked.free + header.objectBytes ≤ e.free

/-- **A stub**: the address is the last word of a header that is marked as forwarded. -/
def IsStub (h : Handed) : Prop :=
  ∃ header, h.asked.sourceHeader? h.addr = some header ∧ header.forwarding? = some h.new

/-- **A forged stub**: no copy of the collection has the address that is in it. -/
def IsForged (h : Handed) (handed : List Handed) (start e : Evacuation) : Prop :=
  h.IsStub ∧ ∀ c ∈ handed, c.IsCopy start e → c.new ≠ h.new

theorem IsCopy.mono (copy : h.IsCopy start e) (le : e.free ≤ e'.free) : h.IsCopy start e' := by
  obtain ⟨header, source, normal, fits⟩ := copy.le_free
  exact { copy with le_free := ⟨header, source, normal, fits.trans le⟩ }

/-- An address that is a copy's or stands in a stub is a copy's, or the stub is forged. -/
theorem copied_or_forged (from_ : h.IsCopy start e ∨ h.IsStub) (mem : h ∈ handed) :
    (∃ c ∈ handed, c.IsCopy start e ∧ c.new = h.new) ∨ h.IsForged handed start e := by
  rcases from_ with copy | stub
  · exact Or.inl ⟨h, mem, copy, rfl⟩
  · by_cases copied : ∃ c ∈ handed, c.IsCopy start e ∧ c.new = h.new
    · exact Or.inl copied
    · exact Or.inr ⟨stub, fun c mem copy same => copied ⟨c, mem, copy, same⟩⟩

end Handed

/-! #### Where a course leads -/

section Course

variable {start e e' : Evacuation} {handed : List Handed} {a : Ref} {shape : Shape}

theorem store_eq_ok {offset : Nat} {xs : List UInt8} {u : Unit}
    (run : store offset xs e = .ok (u, e')) : e' = { e with bytes := e'.bytes } := by
  unfold store at run
  split at run
  · cases run
    rfl
  · cases run

theorem load_eq_ok {offset : Nat} {w : Word} (run : load offset e = .ok (w, e')) :
    e.bytes.word? offset = some w ∧ e' = e := by
  unfold load at run
  split at run
  · cases run
    exact ⟨‹_›, rfl⟩
  · cases run

/-- The address that a copy gives is made from the copy cursor. -/
theorem copyOut_eq_ok {new : Ref} {n : Nat} (run : copyOut a n shape e = .ok (new, e')) :
    new = Ref.ofOffset e.free ∧ e'.free = e.free + n ∧ e'.toEnd = e.toEnd := by
  unfold copyOut at run
  rw [get_bind, get_bind] at run
  cases content : e.bytes.read? (a.offset 0) n with
  | none =>
    rw [content] at run
    cases run
  | some xs =>
    rw [content] at run
    obtain ⟨⟨⟩, e₁, first, run⟩ := bind_eq_ok run
    obtain ⟨⟨⟩, e₂, second, run⟩ := bind_eq_ok run
    obtain ⟨⟨⟩, e₃, third, run⟩ := bind_eq_ok run
    cases run
    have toEnd : e₃.toEnd = e.toEnd := by
      rw [store_eq_ok third, store_eq_ok second, store_eq_ok first]
    exact ⟨rfl, rfl, toEnd⟩

/-- **One answer.**  It copies only what fits, so that the cursor lies before the end. -/
theorem evacuate_eq_ok {found : Option Ref} (small : e.toEnd < wordLimit)
    (run : evacuate a shape e = .ok (found, e')) :
    e'.toEnd = e.toEnd ∧ e.free ≤ e'.free ∧
      ∀ new, found = some new → Handed.IsCopy ⟨e, a, new⟩ e e' ∨ Handed.IsStub ⟨e, a, new⟩ := by
  unfold evacuate at run
  rw [get_bind] at run
  cases source : e.sourceHeader? a with
  | none =>
    rw [source] at run
    cases run
    exact ⟨rfl, Nat.le_refl _, nofun⟩
  | some header =>
    rw [source] at run
    dsimp only at run
    cases stub : header.forwarding? with
    | some target =>
      rw [stub] at run
      cases run
      refine ⟨rfl, Nat.le_refl _, ?_⟩
      rintro new ⟨⟩
      exact Or.inr ⟨header, source, stub⟩
    | none =>
      rw [stub] at run
      dsimp only at run
      rw [get_bind, get_bind] at run
      by_cases full : e.toEnd < e.free + header.objectBytes
      · rw [if_pos full] at run
        cases run
        exact ⟨rfl, Nat.le_refl _, nofun⟩
      · rw [if_neg full] at run
        obtain ⟨new, e₁, copied, run⟩ := bind_eq_ok run
        cases run
        obtain ⟨rfl, free, toEnd⟩ := copyOut_eq_ok copied
        have pos := header.objectBytes_pos
        refine ⟨toEnd, by omega, ?_⟩
        rintro new ⟨⟩
        exact Or.inl ⟨standsFor_ofOffset (by omega), Nat.le_refl _, header, source, stub, free.ge⟩

/-- What has been handed out, where each of it comes from. -/
structure Accounted (start : Evacuation) (handed : List Handed) (e : Evacuation) : Prop where
  toEnd_eq : e.toEnd = start.toEnd
  start_le : start.free ≤ e.free
  from_ : ∀ h ∈ handed, h.IsCopy start e ∨ h.IsStub

theorem Accounted.later (accounted : Accounted start handed e) (toEnd : e'.toEnd = e.toEnd)
    (le : e.free ≤ e'.free) : Accounted start handed e' where
  toEnd_eq := toEnd.trans accounted.toEnd_eq
  start_le := accounted.start_le.trans le
  from_ := fun h mem => (accounted.from_ h mem).imp_left fun copy => copy.mono le

theorem Accounted.answer (small : start.toEnd < wordLimit) (accounted : Accounted start handed e)
    {new : Ref} (run : evacuate a shape e = .ok (some new, e')) :
    Accounted start (handed ++ [⟨e, a, new⟩]) e' := by
  obtain ⟨toEnd, le, from_⟩ := evacuate_eq_ok (accounted.toEnd_eq ▸ small) run
  refine { accounted.later toEnd le with from_ := ?_ }
  rw [List.forall_mem_append, List.forall_mem_singleton]
  refine ⟨(accounted.later toEnd le).from_, (from_ new rfl).imp_left fun copy => ?_⟩
  exact { copy with start_le := accounted.start_le }

/-- **What a course hands out** are addresses of copies and words of stubs. -/
theorem Course.accounted (small : start.toEnd < wordLimit) (course : Course start handed e) :
    Accounted start handed e := by
  induction course with
  | begin => exact ⟨rfl, Nat.le_refl _, nofun⟩
  | note _ run ih =>
    cases run
    exact ih.later rfl (Nat.le_refl _)
  | nothing _ run ih =>
    obtain ⟨toEnd, le, -⟩ := evacuate_eq_ok (ih.toEnd_eq ▸ small) run
    exact ih.later toEnd le
  | root _ run ih => exact ih.answer small run
  | slot _ _ run stored ih =>
    rw [store_eq_ok stored]
    exact (ih.answer small run).later rfl (Nat.le_refl _)

/-- The course goes on to a later moment. -/
def GoesOn (start : Evacuation) (handed : List Handed) (e : Evacuation) : Prop :=
  ∃ more, Course start (handed ++ more) e

theorem Course.goesOn (course : Course start handed e) : GoesOn start handed e :=
  ⟨[], by simpa using course⟩

/-- Going on in two parts. -/
theorem GoesOn.trans {more : List Handed} (rest : GoesOn start (handed ++ more) e) :
    GoesOn start handed e := by
  obtain ⟨last, course⟩ := rest
  exact ⟨more ++ last, by rwa [← List.append_assoc]⟩

/-- A slot of the buffer whose word is passed on. -/
theorem Course.forward (course : Course start handed e) {offset : Nat} {event : Event}
    (held : e.bytes.word? offset = some a.word) {found : Option Ref} {e₁ : Evacuation} {u : Unit}
    (run : evacuate a shape e = .ok (found, e₁))
    (rest : (match found with
      | some new => store offset new.word.bytes
      | none => Evacuation.note event) e₁ = .ok (u, e')) : GoesOn start handed e' := by
  cases found with
  | some new => exact ⟨_, course.slot held run rest⟩
  | none => exact ((course.nothing run).note rest).goesOn

theorem Course.forwardField (course : Course start handed e) {owner : Ref} {index : Nat} {u : Unit}
    (run : forwardField owner index shape e = .ok (u, e')) : GoesOn start handed e' := by
  unfold Evacuation.forwardField at run
  obtain ⟨w, e₁, loaded, rest⟩ := bind_eq_ok run
  obtain ⟨held, rfl⟩ := load_eq_ok loaded
  dsimp only at rest
  split at rest
  · cases rest
    exact course.goesOn
  · obtain ⟨found, e₂, asked, rest⟩ := bind_eq_ok rest
    exact @Course.forward start _ _ handed ⟨w⟩ _ course _ _ held _ _ _ asked rest

theorem Course.forwardClassSlot (course : Course start handed e) {addr : Ref} {header : Header}
    (found : Header.read? e.bytes addr = some header) {u : Unit}
    (run : forwardClassSlot addr header e = .ok (u, e')) : GoesOn start handed e' := by
  obtain ⟨kind, size, state⟩ := header
  have word := ((Header.read?_eq_some_iff _ _ _).1 found).2.2.2.2.2
  unfold Evacuation.forwardClassSlot at run
  cases state with
  | forwarded target =>
    cases run
    exact course.goesOn
  | normal c =>
    dsimp only [Header.classRef?, Option.bind_some, Ref.nonNull?] at run
    by_cases null : c.isNull = true
    · rw [if_pos null] at run
      cases run
      exact course.goesOn
    · rw [if_neg null] at run
      obtain ⟨found, e₁, asked, rest⟩ := bind_eq_ok run
      exact course.forward word asked rest

theorem Course.forM_forwardField {owner : Ref} {fields : List (Nat × Shape)} :
    ∀ {handed : List Handed} {e : Evacuation} {u : Unit}, Course start handed e →
      (fields.forM fun field => Evacuation.forwardField owner field.1 field.2) e = .ok (u, e') →
      GoesOn start handed e' := by
  induction fields with
  | nil =>
    intro handed e u course run
    cases run
    exact course.goesOn
  | cons field fields ih =>
    intro handed e u course run
    obtain ⟨⟨⟩, e₁, first, run⟩ := bind_eq_ok run
    obtain ⟨more, course⟩ := course.forwardField first
    exact (ih course run).trans

theorem Course.traceObject (course : Course start handed e) {cursor : Nat} {header : Header}
    (found : Header.read? e.bytes (Ref.ofOffset cursor) = some header) {u : Unit}
    (run : traceObject cursor header e = .ok (u, e')) : GoesOn start handed e' := by
  obtain ⟨⟨⟩, e₁, slot, run⟩ := bind_eq_ok run
  obtain ⟨more, course⟩ := course.forwardClassSlot found slot
  split at run
  · rw [forwardPayload_eq] at run
    exact (course.forM_forwardField run).trans
  · cases run
    exact course.goesOn.trans

/-- **The scan**, by what it traces. -/
theorem Course.scan {toEnd cursor : Nat} : ∀ {handed : List Handed} {u : Unit},
    Course start handed e → scan toEnd cursor e = .ok (u, e') → GoesOn start handed e' := by
  fun_induction traced toEnd cursor e with
  | case1 cursor e inside pending absent =>
    intro handed u course run
    rw [Evacuation.scan, dif_pos inside, get_bind, if_pos pending, get_bind, absent] at run
    exact (course.note run).goesOn
  | case2 cursor e inside pending header found ih =>
    intro handed u course run
    rw [scan_eq toEnd inside pending found] at run
    obtain ⟨⟨⟩, e₁, traced, rest⟩ := bind_eq_ok run
    obtain ⟨more, course⟩ := course.traceObject found traced
    exact (ih e₁ course rest).trans
  | case3 cursor e inside caught_up =>
    intro handed u course run
    rw [Evacuation.scan, dif_pos inside, get_bind, if_neg caught_up] at run
    cases run
    exact course.goesOn
  | case4 cursor e outside =>
    intro handed u course run
    rw [Evacuation.scan, dif_neg outside] at run
    cases run
    exact course.goesOn

/-! #### Roots -/

/-- **One root** keeps its value, or takes what is handed out for it. -/
theorem Course.forwardRoot (course : Course start handed e) {kind : RootKind} {slot slot' : Ref}
    (run : forwardRoot kind slot e = .ok (slot', e')) :
    ∃ more, Course start (handed ++ more) e' ∧ Replaced (handed ++ more) slot slot' := by
  have kept : ∀ {e' : Evacuation}, Course start handed e' →
      ∃ more, Course start (handed ++ more) e' ∧ Replaced (handed ++ more) slot slot := by
    intro e' course
    exact ⟨[], by simpa using course, Or.inl rfl⟩
  unfold Evacuation.forwardRoot at run
  split at run
  · cases run
    exact kept course
  · obtain ⟨found, e₁, asked, run⟩ := bind_eq_ok run
    cases found with
    | some target =>
      cases run
      exact ⟨_, course.root asked, Or.inr ⟨_, List.mem_append_right _ List.mem_cons_self, rfl, rfl⟩⟩
    | none =>
      have course := course.nothing asked
      dsimp only at run
      split at run
      · obtain ⟨⟨⟩, e₂, noted, run⟩ := bind_eq_ok run
        cases run
        exact kept (course.note noted)
      · cases run
        exact kept course

/-- Several roots. -/
theorem Course.mapM {α : Type} {f : α → Ref} {visit : α → Run α}
    (visits : ∀ {handed : List Handed} {e e' : Evacuation} {x y : α}, Course start handed e →
      visit x e = .ok (y, e') →
      ∃ more, Course start (handed ++ more) e' ∧ Replaced (handed ++ more) (f x) (f y))
    {xs : List α} : ∀ {handed : List Handed} {e : Evacuation} {ys : List α}, Course start handed e →
      xs.mapM visit e = .ok (ys, e') →
      ∃ more, Course start (handed ++ more) e' ∧
        List.Forall₂ (fun x y => Replaced (handed ++ more) (f x) (f y)) xs ys := by
  induction xs with
  | nil =>
    intro handed e ys course run
    rw [List.mapM_nil] at run
    cases run
    exact ⟨[], by simpa using course, .nil⟩
  | cons x xs ih =>
    intro handed e ys course run
    rw [List.mapM_cons] at run
    obtain ⟨y, e₁, first, run⟩ := bind_eq_ok run
    obtain ⟨zs, e₂, rest, run⟩ := bind_eq_ok run
    cases run
    obtain ⟨more, course, replaced⟩ := visits course first
    obtain ⟨last, course, others⟩ := ih course rest
    rw [List.append_assoc] at course others
    refine ⟨more ++ last, course, .cons ?_ others⟩
    rw [← List.append_assoc]
    exact replaced.append last

end Course

end Evacuation

/-! ### Stacks -/

namespace FrameStack

variable {visit : Word → Evacuation.Run Word} {s s' : FrameStack} {e e' : Evacuation}

/-- A visit of the words that ends has passed the live words to the visitor, and stored what he
    made of them. -/
theorem visitWords_eq_ok (run : s.visitWords visit e = .ok (s', e')) :
    ∃ chain, ∃ words words' : List Word, s.chain = .ok chain ∧
      (s.liveOffsets chain).map s.bytes.word? = words.map some ∧
      words.mapM visit e = .ok (words', e') ∧ s' = s.storeAll (s.liveOffsets chain) words' := by
  obtain ⟨chain, found, fits⟩ := readable_of_visitWords run
  obtain ⟨words, read⟩ := exists_words fits
  unfold visitWords at run
  rw [found] at run
  dsimp only at run
  rw [foldlM_visitAt_eq visit _ s words (spaced_liveOffsets chain) read, map_eq_pure_bind] at run
  obtain ⟨words', e₁, visited, last⟩ := Evacuation.bind_eq_ok run
  cases last
  exact ⟨chain, words, words', found, read, visited, rfl⟩

/-- A collection replaces words and moves no pointer. -/
theorem bounded_of_visitWords (bounded : s.Bounded)
    (run : s.visitWords visit e = .ok (s', e')) : s'.Bounded := by
  obtain ⟨chain, words, words', -, -, -, rfl⟩ := visitWords_eq_ok run
  obtain ⟨sp, bp, size⟩ := storeAll_sp_bp (s.liveOffsets chain) s words'
  constructor <;> simp only [sp, bp, size]
  · exact bounded.addressable
  · exact bounded.sp_le
  · exact bounded.bp_le

end FrameStack

/-! ### Memories -/

namespace Memory

open Evacuation

/-- **Sizes that leave room**: every offset of an arena, and its end, is less than the largest
    word. -/
structure Addressable (m : Memory) : Prop where
  heap : m.space.Sound
  heap_lt : addressGuard + 2 * m.space.half < wordLimit - 1
  stack : m.stack.Bounded
  code_le : m.code.bytes.size ≤ m.code.limit
  code_lt : m.code.limit < wordLimit - 1

variable {m m' : Memory}

theorem Addressable.collected (addressable : m.Addressable) (run : m.collected = .ok m') :
    m'.Addressable := by
  obtain ⟨e, e', visited⟩ := visitWords_of_collected run
  have stack := FrameStack.bounded_of_visitWords addressable.stack visited
  have heap := heapSound_collect m addressable.heap
  rw [collect_of_collected run] at heap
  obtain ⟨_, _, _, _, e, -, -, rfl⟩ := collected_eq_ok run
  exact ⟨heap, addressable.heap_lt, stack, addressable.code_le, addressable.code_lt⟩

theorem stable_addressable : Stable Addressable where
  beside addressable space stack code :=
    ⟨space ▸ addressable.heap, space ▸ addressable.heap_lt, stack ▸ addressable.stack,
      code ▸ addressable.code_le, code ▸ addressable.code_lt⟩
  heap size _ addressable := { addressable with heap := addressable.heap.mapBytes (size _) }
  bump size m addressable := by
    have heap := addressable.heap.bump size
    refine ⟨heap, ?_, addressable.stack, addressable.code_le, addressable.code_lt⟩
    change addressGuard + 2 * (m.space.bump size).2.half < _
    unfold SemiSpaces.bump
    split <;> exact addressable.heap_lt
  collect m addressable := by
    unfold Memory.collect
    cases run : m.collected with
    | error cause => exact addressable
    | ok m' => exact addressable.collected run
  stack keeps m addressable := by
    have stack := keeps m.stack addressable.stack
    unfold onStack
    dsimp only
    split <;> rename_i run <;> rw [run] at stack <;> exact { addressable with stack := stack }
  code code m addressable := by
    unfold storeCode CodeArena.store
    dsimp only
    split <;> rename_i run
    · split at run <;> cases run
      refine { addressable with code_le := ?_ }
      have room := addressable.code_le
      have size : (m.code.bytes.appendList code).size = m.code.bytes.size + code.length := by
        rw [Array.appendList_eq_append, ← Array.length_toList, Array.toList_appendList,
          List.length_append, Array.length_toList]
      change (m.code.bytes.appendList code).size ≤ m.code.limit
      omega
    · split at run <;> cases run
      exact addressable

theorem addressable_of_new {settings : Settings} {level : Option Level}
    (made : Memory.new settings level = .ok m) : m.Addressable := by
  obtain ⟨⟨⟩, valid, finished⟩ := exists_of_bind_eq_ok made
  cases finished
  obtain ⟨-, -, heap, stack, code⟩ := settings.validate_iff.1.1 valid
  refine ⟨SemiSpaces.sound_new valid, ?_, FrameStack.bounded_new stack, Nat.zero_le _, code⟩
  have guard : addressGuard = 4096 := rfl
  have word : wordLimit = 2 ^ 32 := rfl
  change addressGuard + 2 * (settings.heapSize / 2) < wordLimit - 1
  omega

/-! ### Where addresses come from -/

/-- An allocation that succeeds takes its bytes at the cursor, before or after a collection. -/
theorem allocate_eq_ok {n : Nat} {r : Ref} (run : allocate n m = .ok r m') :
    ∃ m₁, (m₁ = m ∨ m.collected = .ok m₁) ∧ n ≤ m₁.space.free ∧
      r = Ref.ofOffset m₁.space.top ∧ m' = { m₁ with space := (m₁.space.bump n).2 } := by
  by_cases room : n ≤ m.space.free
  · rw [allocate_of_room room] at run
    cases run
    exact ⟨m, Or.inl rfl, room, rfl, rfl⟩
  · cases collected : m.collected with
    | error cause =>
      have failed : collect m = .error (.fault cause) m := collect_of_fault collected
      unfold allocate at run
      rw [run_bind_ok (bump_of_full room)] at run
      dsimp only at run
      rw [run_bind_error failed] at run
      cases run
    | ok m₁ =>
      have ended : collect m = .ok () m₁ := collect_of_collected collected
      by_cases room' : n ≤ m₁.space.free
      · rw [allocate_of_collect room ended room'] at run
        cases run
        exact ⟨m₁, Or.inr rfl, room', rfl, rfl⟩
      · rw [allocate_of_exhausted room ended room'] at run
        cases run

/-- An address names the last `n` bytes that are allocated. -/
structure Names (r : Ref) (n : Nat) (m : Memory) : Prop where
  nonnull : r ≠ Ref.null
  start_le : m.space.activeStart ≤ r.offset 0
  offset_add : r.offset 0 + n = m.space.top

theorem Addressable.allocate (addressable : m.Addressable) {n : Nat} {r : Ref}
    (run : Memory.allocate n m = .ok r m') : Names r n m' := by
  obtain ⟨m₁, start, room, rfl, rfl⟩ := allocate_eq_ok run
  have addressable₁ : m₁.Addressable := by
    rcases start with rfl | collected
    · exact addressable
    · exact addressable.collected collected
  have heap := addressable₁.heap
  have small := addressable₁.heap_lt
  have size := heap.size_eq
  have top := heap.top_le_end
  have stop := heap.end_le_size
  obtain ⟨offset, nonnull⟩ := standsFor_ofOffset (show m₁.space.top + 1 < wordLimit by omega)
  unfold SemiSpaces.bump
  rw [if_neg (by omega)]
  refine ⟨nonnull, ?_, ?_⟩
  · rw [offset]
    exact heap.start_le_top
  · rw [offset]

theorem names_modifyHeap {r : Ref} {n : Nat} (f : Bytes → Bytes) :
    Preserves (Names r n) (modifyHeap f) :=
  fun _ names => ⟨names.nonnull, names.start_le, names.offset_add⟩

theorem names_layOutObject {r : Ref} {n : Nat} (kind : ObjectKind) (size : Word) (c : Ref) :
    Preserves (Names r n) (layOutObject r kind size c) := by
  have header : Preserves (Names r n) (writeHeader r ⟨kind, size, .normal c⟩) := by
    refine Preserves.get_bind fun m => ?_
    split
    · exact (Preserves.throw _).bind fun _ => names_modifyHeap _
    · exact names_modifyHeap _
  refine header.bind fun _ => ?_
  split
  · refine Preserves.bind (Stable.query _) fun _ => ?_
    exact (names_modifyHeap _).bind fun _ => Preserves.pure r
  · exact Preserves.pure r

theorem gives_layOutObject (r : Ref) (kind : ObjectKind) (size : Word) (c : Ref) :
    Gives (· = r) (layOutObject r kind size c) := by
  refine gives_bind fun _ => ?_
  split
  · exact gives_bind fun _ => gives_bind fun _ => gives_pure rfl
  · exact gives_pure rfl

theorem query_eq_ok {α : Type} {f : Memory → Except MemoryError α} {a : α}
    (run : query f m = .ok a m') : m' = m := by
  unfold query at run
  split at run <;> cases run
  rfl

theorem Addressable.allocateObject (addressable : m.Addressable) {kind : ObjectKind} {size : Word}
    {classId : Option ClassId} {r : Ref}
    (run : Memory.allocateObject kind size classId m = .ok r m') :
    Names r (kind.objectBytes size) m' := by
  rw [allocateObject_eq] at run
  obtain ⟨c, m₁, known, run₁⟩ := exists_of_run_ok run
  rw [query_eq_ok known] at run₁
  obtain ⟨r₁, m₂, allocated, run₂⟩ := exists_of_run_ok run₁
  have names := addressable.allocate allocated
  obtain ⟨c', m₃, known', run₃⟩ := exists_of_run_ok run₂
  rw [query_eq_ok known'] at run₃
  rw [gives_layOutObject r₁ kind size c' _ _ _ run₃]
  have after := names_layOutObject kind size c' _ names
  rw [run₃] at after
  exact after

/-- **An account of a collection**, from one memory to another: the course that it has taken, and
    what has become of the heap and of the roots.  Every root keeps its value or takes what was
    handed out for it. -/
structure Account (m m' : Memory) (handed : List Handed) (e : Evacuation) : Prop where
  course : Course (Evacuation.ofSpaces m.space m.journal) handed e
  heap : m'.space = { m.space with bytes := e.bytes }.flipped e.free
  classes : List.Forall₂ (Replaced handed) m.classes.toList m'.classes.toList
  dictionaries : List.Forall₂ (Replaced handed) m.dictionaries.toList m'.dictionaries.toList
  stack : ∃ chain, ∃ words words' : List Word, m.stack.chain = .ok chain ∧
    (m.stack.liveOffsets chain).map m.stack.bytes.word? = words.map some ∧
    List.Forall₂ (fun w w' => Replaced handed ⟨w⟩ ⟨w'⟩) words words' ∧
    m'.stack = m.stack.storeAll (m.stack.liveOffsets chain) words'

theorem forall₂_replaced {α : Type} {f : α → Ref} {handed more : List Handed} {xs ys : List α}
    (all : List.Forall₂ (fun x y => Replaced handed (f x) (f y)) xs ys) :
    List.Forall₂ (fun x y => Replaced (handed ++ more) (f x) (f y)) xs ys :=
  all.imp fun _ _ replaced => replaced.append more

/-- The roots of one table. -/
theorem course_table {start e e' : Evacuation} {handed : List Handed} {kind : RootKind}
    {slots slots' : Array Ref} (course : Course start handed e)
    (run : slots.mapM (Evacuation.forwardRoot kind) e = .ok (slots', e')) :
    ∃ more, Course start (handed ++ more) e' ∧
      List.Forall₂ (Replaced (handed ++ more)) slots.toList slots'.toList := by
  rw [Array.mapM_eq_mapM_toList, map_eq_pure_bind] at run
  obtain ⟨values, e₁, visited, last⟩ := bind_eq_ok run
  cases last
  exact course.mapM (f := id) (fun course run => course.forwardRoot run) visited

/-- **A collection that ends can be accounted for.** -/
theorem exists_account (run : collect m = .ok () m') : ∃ handed e, m.Account m' handed e := by
  obtain ⟨classes, dictionaries, stack, e₁, e₂, visited, scanned, rfl⟩ :=
    collected_eq_ok (collected_of_collect run)
  obtain ⟨e₃, e₄, e₅, first, second, noted, words⟩ := visitRoots_eq_ok visited
  obtain ⟨more₁, course, classes⟩ := course_table .begin first
  obtain ⟨more₂, course, dictionaries⟩ := course_table course second
  have course : Course (Evacuation.ofSpaces m.space m.journal) ([] ++ more₁ ++ more₂) e₅ := by
    rcases noted with rfl | ⟨event, noted⟩
    · exact course
    · exact course.note noted
  obtain ⟨chain, words, words', found, read, passed, stored⟩ := FrameStack.visitWords_eq_ok words
  have word : ∀ {handed : List Handed} {e e' : Evacuation} {w w' : Word},
      Course (Evacuation.ofSpaces m.space m.journal) handed e → forwardWord w e = .ok (w', e') →
      ∃ more, Course (Evacuation.ofSpaces m.space m.journal) (handed ++ more) e' ∧
        Replaced (handed ++ more) ⟨w⟩ ⟨w'⟩ := by
    intro handed e e' w w' course run
    obtain ⟨slot, e₆, forwarded, last⟩ := bind_eq_ok run
    cases last
    exact course.forwardRoot forwarded
  obtain ⟨more₃, course, stack⟩ := course.mapM (f := Ref.mk) word passed
  obtain ⟨more₄, course⟩ := course.scan scanned
  exact ⟨_, e₂,
    { course := course
      heap := rfl
      classes := forall₂_replaced (f := id) (forall₂_replaced (f := id)
        (forall₂_replaced (f := id) classes))
      dictionaries := forall₂_replaced (f := id) (forall₂_replaced (f := id) dictionaries)
      stack := ⟨chain, words, words', found, read, forall₂_replaced stack, stored⟩ }⟩

/-- What a collection in progress hands out is a copy's address or a stub's word, and the word is
    a copy's address too, unless the stub is forged. -/
theorem Addressable.copied_or_forged (addressable : m.Addressable) {handed : List Handed}
    {e : Evacuation} (course : Course (Evacuation.ofSpaces m.space m.journal) handed e)
    {h : Handed} (mem : h ∈ handed) :
    (h.IsCopy (Evacuation.ofSpaces m.space m.journal) e ∨ h.IsStub) ∧
      ((∃ c ∈ handed, c.IsCopy (Evacuation.ofSpaces m.space m.journal) e ∧ c.new = h.new) ∨
        h.IsForged handed (Evacuation.ofSpaces m.space m.journal) e) := by
  have size := addressable.heap.size_eq
  have small : (Evacuation.ofSpaces m.space m.journal).toEnd < wordLimit := by
    have lt := addressable.heap_lt
    change m.space.inactiveStart + m.space.half < wordLimit
    rcases m.space.activeStart_cases with halves | halves <;> omega
  have from_ := (course.accounted small).from_ h mem
  exact ⟨from_, Handed.copied_or_forged from_ mem⟩

/-- In a well-formed memory, what a collection puts in the place of a reference is the start of
    an object in the half that it has filled. -/
theorem WellFormed.copies {objects : Set Ref} (wf : m.WellFormed objects)
    (run : collect m = .ok () m') :
    ∃ φ, m.CopiedTo m' objects φ ∧ ∀ a, (m.graph objects).Reachable a →
      φ a ≠ Ref.null ∧ m'.space.activeStart ≤ (φ a).offset 0 ∧
        (φ a).offset ((m.graph objects).extent a) ≤ m'.space.top := by
  obtain ⟨φ, copied⟩ := wf.copiedTo run
  refine ⟨φ, copied, fun a reachable => ?_⟩
  obtain ⟨low, high⟩ := copied.copy.inside a reachable
  change m'.space.activeStart ≤ _ at low
  change _ ≤ m'.space.top at high
  refine ⟨fun null => ?_, low, high⟩
  have long := wf.graph.header_le_extent reachable.object
  have extent : Ref.null.offset ((m.graph objects).extent a) + 1 =
      wordLimit + (m.graph objects).extent a := Nat.add_right_comm _ _ 1
  have top : m'.space.top ≤ m'.space.bytes.size :=
    copied.sound.top_le_end.trans copied.sound.end_le_size
  have small := copied.sound.addressable
  rw [null] at high
  omega

/-- The base of a new frame is the top of the stack. -/
theorem Addressable.newFrame (addressable : m.Addressable) {locals : Word}
    (run : Memory.newFrame locals m = .ok () m') :
    m'.stack.bp.toNat = m.stack.sp ∧ m'.stack.bp ≠ noFrame := by
  have bounded := addressable.stack
  by_cases room : m.stack.sp + (8 + 4 * locals.toNat) ≤ m.stack.bytes.size
  · have opened := FrameStack.newFrame_eq (s := m.stack) locals m.pc room
    unfold Memory.newFrame at run
    rw [run_get_bind] at run
    unfold onStack at run
    dsimp only at run
    rw [opened] at run
    cases run
    refine ⟨bounded.toNat_sp, fun none => ?_⟩
    have top := bounded.toNat_sp
    dsimp only at none
    rw [none] at top
    have := bounded.sp_le
    have := bounded.addressable
    have largest : noFrame.toNat + 1 = wordLimit := rfl
    omega
  · unfold Memory.newFrame at run
    rw [run_get_bind] at run
    unfold onStack FrameStack.newFrame at run
    dsimp only at run
    rw [run_get_bind, run_get_bind, if_pos (by omega)] at run
    cases run

/-- Code is stored where the code before it ends. -/
theorem Addressable.storeCode (addressable : m.Addressable) {code : List UInt8} {a : CodeAddress}
    (run : Memory.storeCode code m = .ok a m') :
    a.word.toNat = m.code.bytes.size ∧ a.word ≠ 0xFFFFFFFF := by
  have fits := addressable.code_le
  have small := addressable.code_lt
  have word : wordLimit = 2 ^ 32 := rfl
  unfold Memory.storeCode CodeArena.store at run
  dsimp only at run
  split at run
  · rename_i entry arena stored
    split at stored <;> cases stored
    cases run
    have exact_ : (UInt32.ofNat m.code.bytes.size).toNat = m.code.bytes.size :=
      UInt32.toNat_ofNat_of_lt' (show m.code.bytes.size < 2 ^ 32 by omega)
    refine ⟨exact_, fun none => ?_⟩
    change UInt32.ofNat m.code.bytes.size = _ at none
    rw [none] at exact_
    have largest : (0xFFFFFFFF : Word).toNat + 1 = wordLimit := rfl
    omega
  · cases run

theorem Reached.addressable (reached : m.Reached) : m.Addressable :=
  stable_addressable.reached addressable_of_new reached

/-- **No address is ambiguous**, but for those in forged stubs.  Sizes are accepted if they are
    positive, each half of the heap takes a header, and every arena ends before the largest word;
    only the sum of the guard and a heap size of nearly 64 bits overflows.  In every memory that
    operations lead to under accepted sizes, an address is the offset that it was made from and not
    the word for "nothing": where bytes or an object are allocated, where a frame is opened and
    where code is stored.  A collection puts into roots and slots what it hands out for them, which
    is the address of a copy that it makes or the word in a stub; and that is the address of a copy
    that it has made, unless the stub is forged.  If the references of a memory are in order, all
    that a collection leaves are to such copies. -/
theorem addresses_are_exact (s : Settings) :
    ((s.validate = .ok () ↔
        (0 < s.heapSize ∧ 0 < s.stackSize ∧ 0 < s.codeSize) ∧ 11 ≤ s.heapSize / 2 ∧
          4096 + s.heapSize < 2 ^ 32 - 1 ∧ s.stackSize < 2 ^ 32 - 1 ∧ s.codeSize < 2 ^ 32 - 1) ∧
      (s.validate = .error (.fault .overflow) ↔
        (0 < s.heapSize ∧ 0 < s.stackSize ∧ 0 < s.codeSize) ∧ 11 ≤ s.heapSize / 2 ∧
          2 ^ 64 ≤ 4096 + s.heapSize)) ∧
    ∀ m : Memory, m.Reached →
      (∀ n r m', allocate n m = .ok r m' → Names r n m') ∧
      (∀ kind size classId r m', allocateObject kind size classId m = .ok r m' →
        Names r (kind.objectBytes size) m') ∧
      (∀ m', collect m = .ok () m' → ∃ handed e, m.Account m' handed e) ∧
      (∀ handed e, Course (Evacuation.ofSpaces m.space m.journal) handed e → ∀ h ∈ handed,
        (h.IsCopy (Evacuation.ofSpaces m.space m.journal) e ∨ h.IsStub) ∧
          ((∃ c ∈ handed, c.IsCopy (Evacuation.ofSpaces m.space m.journal) e ∧ c.new = h.new) ∨
            h.IsForged handed (Evacuation.ofSpaces m.space m.journal) e)) ∧
      (∀ m' objects, m.WellFormed objects → collect m = .ok () m' →
        ∃ φ, m.CopiedTo m' objects φ ∧ ∀ a, (m.graph objects).Reachable a →
          φ a ≠ Ref.null ∧ m'.space.activeStart ≤ (φ a).offset 0 ∧
            (φ a).offset ((m.graph objects).extent a) ≤ m'.space.top) ∧
      (∀ locals m', newFrame locals m = .ok () m' →
        m'.stack.bp.toNat = m.stack.sp ∧ m'.stack.bp ≠ noFrame) ∧
      (∀ code a m', storeCode code m = .ok a m' →
        a.word.toNat = m.code.bytes.size ∧ a.word ≠ 0xFFFFFFFF) := by
  refine ⟨Settings.validate_iff s, fun m reached => ?_⟩
  have addressable := reached.addressable
  exact ⟨fun n r m' => addressable.allocate,
    fun kind size classId r m' => addressable.allocateObject, fun m' => exists_account,
    fun handed e course h => addressable.copied_or_forged course,
    fun m' objects wf => wf.copies, fun locals m' => addressable.newFrame,
    fun code a m' => addressable.storeCode⟩

/-! ### Ambiguous addresses -/

theorem huge_heap_overflows :
    Settings.validate { heapSize := 2 ^ 64 - 1 } = .error (.fault .overflow) := by
  decide

/-- A header that says that its object has been copied, to the word for "nothing". -/
def forgedStub : Header := ⟨.bytes, 0, .forwarded Ref.null⟩

/-- A memory with an object in which the forged stub is stored, and with the address of the stub
    on the stack. -/
def stubMemory : Memory := (memoryHolding forgedStub).after (.pushWord 4107)

theorem stubMemory_reached : stubMemory.Reached := (memoryHolding_reached forgedStub).after _

theorem stubMemory_eq : stubMemory = { freshMemory with
    space := ⟨laidOutBytes.overwrite 4107 forgedStub.encode, 50, .lower, 4118⟩
    stack := ⟨freshMemory.stack.bytes.overwrite 0 (4107 : Word).bytes, 4, noFrame⟩ } := by
  unfold stubMemory
  rw [memoryHolding_eq]
  rfl

/-- The word on top of a stack of one word. -/
theorem peek_of_word {bytes : Bytes} {w : Word} (word : bytes.word? 0 = some w) :
    FrameStack.peek ⟨bytes, 4, noFrame⟩ 0 = .ok w := by
  unfold FrameStack.peek
  dsimp only
  rw [if_neg (by decide), if_neg (by decide), word]

theorem peekRef_stubMemory : stubMemory.peekRef 0 = .ok ⟨4107⟩ := by
  rw [stubMemory_eq]
  exact congrArg (Except.map Ref.mk) (peek_of_word (Bytes.word?_overwrite_self _ _ _ (by decide)))

theorem sourceHeader?_stubMemory : stubMemory.sourceHeader? ⟨4107⟩ = some forgedStub := by
  rw [sourceHeader?_eq_some_iff, stubMemory_eq]
  exact ⟨read?_stored forgedStub, by decide, by decide⟩

/-- The collector finds the stub and hands out the word that stands in it. -/
theorem forwardWord_stub {e : Evacuation} (source : e.sourceHeader? ⟨4107⟩ = some forgedStub) :
    forwardWord 4107 e = .ok (Ref.null.word, e) := by
  have asked : evacuate ⟨4107⟩ RootKind.stack.shape e = .ok (some Ref.null, e) :=
    evacuate_stub _ source rfl
  have root : forwardRoot .stack ⟨4107⟩ e = .ok (Ref.null, e) := by
    unfold forwardRoot
    rw [if_neg (by decide), bind_of_ok asked]
    rfl
  exact bind_of_ok root

theorem visitWords_stubMemory {e : Evacuation} (source : e.sourceHeader? ⟨4107⟩ = some forgedStub) :
    ∃ stack, stubMemory.stack.visitWords forwardWord e = .ok (stack, e) ∧
      stack.peek 0 = .ok Ref.null.word := by
  have room : 0 + 4 ≤ freshMemory.stack.bytes.size := by decide
  let bytes := freshMemory.stack.bytes.overwrite 0 (4107 : Word).bytes
  have fits : 0 + 4 ≤ bytes.size := room.trans_eq (Bytes.size_overwrite _ _ _).symm
  have chain : FrameStack.chain ⟨bytes, 4, noFrame⟩ = .ok ⟨[], none⟩ := rfl
  have read : [0].map bytes.word? = [4107].map some :=
    congrArg (fun w => [w]) (Bytes.word?_overwrite_self _ _ _ room)
  have passed : [(4107 : Word)].mapM forwardWord e = .ok ([Ref.null.word], e) := by
    rw [List.mapM_cons, bind_of_ok (forwardWord_stub source)]
    rfl
  refine ⟨⟨bytes.overwrite 0 Ref.null.word.bytes, 4, noFrame⟩, ?_,
    peek_of_word (Bytes.word?_overwrite_self _ _ _ fits)⟩
  rw [stubMemory_eq]
  unfold FrameStack.visitWords
  dsimp only
  rw [chain]
  change ([0].foldlM (FrameStack.visitAt forwardWord) (FrameStack.mk bytes 4 noFrame) :
    Evacuation.Run FrameStack) e = _
  rw [FrameStack.foldlM_visitAt_eq forwardWord [0] ⟨bytes, 4, noFrame⟩ [4107]
    (List.pairwise_singleton _ _) read, map_eq_pure_bind, bind_of_ok passed]
  rfl

/-- Where there are no tables, and no word of the stack leads to an object that is still to be
    moved, a collection does no more than replace words. -/
theorem collect_of_nothing_moved {chain : List Nat} {stack : FrameStack} (classes : m.classes = #[])
    (dictionaries : m.dictionaries = #[]) (unbroken : m.stack.chain = .ok ⟨chain, none⟩)
    (words : m.stack.visitWords forwardWord (ofSpaces m.space m.journal) =
      .ok (stack, ofSpaces m.space m.journal)) : ∃ m', collect m = .ok () m' ∧ m'.stack = stack := by
  let e := ofSpaces m.space m.journal
  have empty : ∀ kind, (#[] : Array Ref).mapM (forwardRoot kind) e = .ok (#[], e) := by
    intro kind
    rw [Array.mapM_empty]
    rfl
  have visited : visitRoots m.classes m.dictionaries m.stack forwardRoot e =
      .ok ((#[], #[], stack), e) := by
    unfold visitRoots
    rw [classes, dictionaries, unbroken]
    exact (bind_of_ok (empty _)).trans ((bind_of_ok (empty _)).trans (bind_of_ok words))
  -- nothing has been copied, so there is nothing to scan
  have scanned : scan e.toEnd m.space.inactiveStart e = .ok ((), e) := by
    unfold scan
    split
    · exact congrFun (if_neg (Nat.lt_irrefl _)) _
    · rfl
  have collected : m.collected = .ok _ :=
    congrArg (Except.map _) (collect_eq_ok visited scanned (Nat.le_refl _) (Nat.le_add_right _ _))
  exact ⟨_, collect_of_collected collected, rfl⟩

/-- A collection believes the stub. -/
theorem collect_stubMemory :
    ∃ m', collect stubMemory = .ok () m' ∧ m'.peekRef 0 = .ok Ref.null := by
  obtain ⟨stack, words, top⟩ := visitWords_stubMemory sourceHeader?_stubMemory
  have unbroken : stubMemory.stack.chain = .ok ⟨[], none⟩ := by
    rw [stubMemory_eq]
    rfl
  have tables : stubMemory.classes = #[] ∧ stubMemory.dictionaries = #[] := by
    rw [stubMemory_eq]
    exact ⟨rfl, rfl⟩
  obtain ⟨m', run, rfl⟩ := collect_of_nothing_moved tables.1 tables.2 unbroken words
  exact ⟨m', run, congrArg (Except.map Ref.mk) top⟩

/-- **Addresses can be ambiguous.**  A heap of nearly 64 bits is not refused: its size is added to
    the guard before the sum is compared.  Under accepted sizes, a program can write a header that
    says that its object has been copied to the word for "nothing"; a collection then puts that
    word on the stack in the place of the header's address. -/
theorem ambiguous_addresses_arise :
    Settings.validate { heapSize := 2 ^ 64 - 1 } = .error (.fault .overflow) ∧
    stubMemory.Reached ∧ stubMemory.peekRef 0 = .ok ⟨4107⟩ ∧
      ∃ m', collect stubMemory = .ok () m' ∧ m'.peekRef 0 = .ok Ref.null :=
  ⟨huge_heap_overflows, stubMemory_reached, peekRef_stubMemory, collect_stubMemory⟩

end Memory

end ObjectMachine

/-
  ObjectMachine/Proofs/StackFrames.lean
  =====================================
  **The live words of a stack** — what a collection sees of it and does to it.

  The links of the frames are raw words, so every memory that shows an ideal one finds the
  same chain of frames and therefore the same live words.  Visiting them replaces each by
  its new value and leaves links, return addresses and the rest of the buffer alone.
-/
import ObjectMachine.Proofs.IdealMemory
import ObjectMachine.Proofs.StackRuns

namespace ObjectMachine

namespace IdealMemory.Framed

variable {cells : List Value} {bp : Word} {bases : List Nat}

theorem le_length (h : Framed cells bp bases) : ∀ b ∈ bases, b + 8 ≤ 4 * cells.length := by
  induction h with
  | none => simp
  | @frame bp link returnTo bases k _ base _ return_cell _ _ ih =>
    have inside : k + 1 < cells.length := by
      rw [List.getElem?_eq_some_iff] at return_cell
      exact return_cell.1
    intro b hb
    rcases List.mem_cons.1 hb with rfl | hb
    · omega
    · exact ih b hb

/-- A change of the cells that keeps those of the frames keeps the frames. -/
theorem congr {cells' : List Value} (h : Framed cells bp bases)
    (same : ∀ k, Control bases k → cells'[k]? = cells[k]?) : Framed cells' bp bases := by
  induction h with
  | none => exact .none
  | @frame bp link returnTo bases k open_ base link_cell return_cell _ above ih =>
    have here : Control (bp.toNat :: bases) k := ⟨_, List.mem_cons_self, Or.inl (by omega)⟩
    have next : Control (bp.toNat :: bases) (k + 1) := ⟨_, List.mem_cons_self, Or.inr (by omega)⟩
    refine .frame open_ base (same k here ▸ link_cell) (same (k + 1) next ▸ return_cell) (ih ?_) above
    rintro j ⟨b, hb, control⟩
    exact same j ⟨b, List.mem_cons_of_mem _ hb, control⟩

theorem control_lt {k : Nat} (h : Framed cells bp bases) (control : Control bases k) :
    k < cells.length := by
  obtain ⟨b, hb, where_⟩ := control
  have := h.le_length b hb
  omega

/-- A frame's own cells, and those of the frames that it was opened from, lie below its locals. -/
theorem control_lt_floor {k : Nat} (h : Framed cells bp bases) (control : Control bases k) :
    bp ≠ noFrame ∧ 4 * k < bp.toNat + 8 := by
  obtain ⟨b, hb, where_⟩ := control
  cases h with
  | none => cases hb
  | frame open_ base link_cell return_cell outer above =>
    refine ⟨open_, ?_⟩
    rcases List.mem_cons.1 hb with rfl | hb
    · omega
    · have := above b hb
      omega

theorem bp_aligned (h : Framed cells bp bases) (open_ : bp ≠ noFrame) : bp.toNat % 4 = 0 := by
  cases h with
  | none => exact absurd rfl open_
  | frame open_ base link_cell return_cell outer above => omega

theorem floor_le_length (h : Framed cells bp bases) (open_ : bp ≠ noFrame) :
    bp.toNat + 8 ≤ 4 * cells.length := by
  cases h with
  | none => exact absurd rfl open_
  | frame open_ base link_cell return_cell outer above =>
    have := (List.getElem?_eq_some_iff.1 return_cell).1
    omega

/-- The cells of frames hold raw words. -/
theorem raw_of_control {k : Nat} (h : Framed cells bp bases) (control : Control bases k) :
    ∃ w, cells[k]? = some (.raw w) := by
  induction h with
  | none =>
    obtain ⟨b, hb, -⟩ := control
    cases hb
  | @frame bp link returnTo bases j _ base link_cell return_cell _ _ ih =>
    obtain ⟨b, hb, where_⟩ := control
    rcases List.mem_cons.1 hb with rfl | hb
    · rcases where_ with here | here
      · rw [show k = j by omega]
        exact ⟨_, link_cell⟩
      · rw [show k = j + 1 by omega]
        exact ⟨_, return_cell⟩
    · exact ih ⟨b, hb, where_⟩

end IdealMemory.Framed

namespace FrameStack

open IdealMemory

/-- The words below the stack pointer that are not frame bookkeeping. -/
def liveWords (s : FrameStack) : List Ref :=
  match s.chain with
  | .ok chain => (s.liveOffsets chain).filterMap fun offset => (s.bytes.word? offset).map Ref.mk
  | .error _ => []

/-! ### The chain -/

section Chain

variable {s : FrameStack} {η : Placement} {cells : List Value} {bp : Word} {size : Nat}
  {bases : List Nat}
variable (shows_ : s.Shows η cells bp size)

include shows_ in
theorem linked {bp : Word} (framed : Framed cells bp bases) : Linked s.bytes bp bases := by
  induction framed with
  | none => exact .none
  | @frame bp link returnTo bases k open_ base link_cell return_cell outer above ih =>
    obtain ⟨w, eq, word⟩ := shows_.cell k _ link_cell
    cases eq
    rw [← base] at word
    exact .frame open_ (by omega) word ih above

include shows_ in
theorem chain_eq (framed : Framed cells bp bases) : s.chain = .ok ⟨bases, none⟩ := by
  have frames := linked shows_ framed
  rw [← shows_.bp_eq] at frames
  refine frames.chain_eq ?_
  rw [shows_.sp_eq]
  exact framed.le_length

theorem controls_iff (bases : List Nat) (k : Nat) (broken : Option Nat) :
    (Chain.mk bases broken).controls (k * 4) = true ↔ Control bases k := by
  unfold Chain.controls Control
  simp only [List.any_eq_true, Bool.or_eq_true, beq_iff_eq, Nat.mul_comm k 4]

include shows_ in
theorem mem_liveOffsets (offset : Nat) (broken : Option Nat) :
    offset ∈ s.liveOffsets ⟨bases, broken⟩ ↔
      ∃ k, k < cells.length ∧ ¬Control bases k ∧ offset = 4 * k := by
  have count : (s.sp + 3) / 4 = cells.length := by
    rw [shows_.sp_eq]
    omega
  unfold liveOffsets
  rw [count, List.mem_filter, List.mem_map]
  constructor
  · rintro ⟨⟨k, hk, rfl⟩, live⟩
    refine ⟨k, List.mem_range.1 hk, ?_, by omega⟩
    rw [← controls_iff bases k broken]
    simpa using live
  · rintro ⟨k, hk, live, rfl⟩
    refine ⟨⟨k, List.mem_range.2 hk, by omega⟩, ?_⟩
    rw [← controls_iff bases k broken] at live
    rw [Nat.mul_comm 4 k]
    simpa using live

theorem nodup_liveOffsets (chain : Chain) : (s.liveOffsets chain).Nodup := by
  refine List.Nodup.filter _ (List.Nodup.map ?_ List.nodup_range)
  intro a b eq
  dsimp only at eq
  omega

include shows_ in
/-- The live words are the cells that are not bookkeeping. -/
theorem mem_liveWords (framed : Framed cells bp bases) (a : Ref) :
    a ∈ s.liveWords ↔ ∃ (k : Nat) (v : Value), cells[k]? = some v ∧ ¬Control bases k ∧
      η.word? v = some a.word := by
  unfold liveWords
  rw [chain_eq shows_ framed]
  dsimp only
  rw [List.mem_filterMap]
  constructor
  · rintro ⟨offset, mem, found⟩
    obtain ⟨k, hk, live, rfl⟩ := (mem_liveOffsets shows_ _ _).1 mem
    have cell : cells[k]? = some cells[k] := List.getElem?_eq_getElem hk
    obtain ⟨w, eq, word⟩ := shows_.cell k _ cell
    rw [word] at found
    cases found
    exact ⟨k, _, cell, live, eq⟩
  · rintro ⟨k, v, cell, live, eq⟩
    obtain ⟨w, eq', word⟩ := shows_.cell k _ cell
    rw [eq] at eq'
    cases eq'
    refine ⟨4 * k, (mem_liveOffsets shows_ _ _).2 ⟨k, ?_, live, rfl⟩, by rw [word]; rfl⟩
    exact (List.getElem?_eq_some_iff.1 cell).1

end Chain

/-! ### Replacing words -/

/-- Replaces the word at an offset. -/
def replaceWord (f : Ref → Ref) (s : FrameStack) (offset : Nat) : FrameStack :=
  match s.bytes.word? offset with
  | none => s
  | some w =>
    if (f ⟨w⟩).word = w then s
    else { s with bytes := s.bytes.overwrite offset (f ⟨w⟩).word.bytes }

section Replace

variable {f : Ref → Ref} {s : FrameStack} {offset : Nat}

@[simp] theorem sp_replaceWord : (s.replaceWord f offset).sp = s.sp := by
  unfold replaceWord
  split
  · rfl
  · split <;> rfl

@[simp] theorem bp_replaceWord : (s.replaceWord f offset).bp = s.bp := by
  unfold replaceWord
  split
  · rfl
  · split <;> rfl

@[simp] theorem size_replaceWord : (s.replaceWord f offset).bytes.size = s.bytes.size := by
  unfold replaceWord
  split
  · rfl
  · split
    · rfl
    · exact Bytes.size_overwrite _ _ _

theorem word?_replaceWord_self {w : Word} (word : s.bytes.word? offset = some w) :
    (s.replaceWord f offset).bytes.word? offset = some (f ⟨w⟩).word := by
  unfold replaceWord
  rw [word]
  dsimp only
  split
  · rename_i same
    rw [word, same]
  · exact Bytes.word?_overwrite_self _ _ _ ((Bytes.word?_eq_some_iff_le _ _).1 ⟨w, word⟩)

theorem word?_replaceWord_of_apart {p : Nat} (apart : p + 4 ≤ offset ∨ offset + 4 ≤ p) :
    (s.replaceWord f offset).bytes.word? p = s.bytes.word? p := by
  unfold replaceWord
  split
  · rfl
  · rename_i w word
    split
    · rfl
    · refine Bytes.word?_overwrite_of_apart _ _ _ _ ?_ ?_
      · rw [Word.length_bytes]
        exact (Bytes.word?_eq_some_iff_le _ _).1 ⟨w, word⟩
      · rw [Word.length_bytes]
        exact apart

/-- Replaces the words at some offsets. -/
def replaceWords (f : Ref → Ref) (s : FrameStack) (offsets : List Nat) : FrameStack :=
  offsets.foldl (replaceWord f) s

theorem sp_replaceWords (f : Ref → Ref) (offsets : List Nat) :
    ∀ s : FrameStack, (s.replaceWords f offsets).sp = s.sp := by
  induction offsets with
  | nil => exact fun _ => rfl
  | cons offset rest ih =>
    intro s
    exact (ih _).trans sp_replaceWord

theorem bp_replaceWords (f : Ref → Ref) (offsets : List Nat) :
    ∀ s : FrameStack, (s.replaceWords f offsets).bp = s.bp := by
  induction offsets with
  | nil => exact fun _ => rfl
  | cons offset rest ih =>
    intro s
    exact (ih _).trans bp_replaceWord

theorem size_replaceWords (f : Ref → Ref) (offsets : List Nat) :
    ∀ s : FrameStack, (s.replaceWords f offsets).bytes.size = s.bytes.size := by
  induction offsets with
  | nil => exact fun _ => rfl
  | cons offset rest ih =>
    intro s
    exact (ih _).trans size_replaceWord

theorem word?_replaceWords_of_not_mem (f : Ref → Ref) (offsets : List Nat) {p : Nat}
    (apart : ∀ offset ∈ offsets, p + 4 ≤ offset ∨ offset + 4 ≤ p) :
    ∀ s : FrameStack, (s.replaceWords f offsets).bytes.word? p = s.bytes.word? p := by
  induction offsets with
  | nil => exact fun _ => rfl
  | cons offset rest ih =>
    intro s
    exact (ih (fun o ho => apart o (List.mem_cons_of_mem _ ho)) _).trans
      (word?_replaceWord_of_apart (apart offset List.mem_cons_self))

/-- Words at distinct offsets are replaced independently of each other. -/
theorem word?_replaceWords_of_mem (f : Ref → Ref) {offsets : List Nat} (nodup : offsets.Nodup)
    (aligned : ∀ offset ∈ offsets, offset % 4 = 0) {offset : Nat} (mem : offset ∈ offsets) :
    ∀ (s : FrameStack) {w : Word}, s.bytes.word? offset = some w →
      (s.replaceWords f offsets).bytes.word? offset = some (f ⟨w⟩).word := by
  induction offsets with
  | nil => cases mem
  | cons first rest ih =>
    intro s w word
    have nodup' := List.nodup_cons.1 nodup
    have aligned' : ∀ o ∈ rest, o % 4 = 0 := fun o ho => aligned o (List.mem_cons_of_mem _ ho)
    have first_aligned := aligned first List.mem_cons_self
    by_cases eq : offset = first
    · subst eq
      refine (word?_replaceWords_of_not_mem f rest ?_ _).trans (word?_replaceWord_self word)
      intro o ho
      have : o ≠ offset := fun h => nodup'.1 (h ▸ ho)
      have := aligned' o ho
      omega
    · have mem : offset ∈ rest := (List.mem_cons.1 mem).resolve_left eq
      refine ih nodup'.2 aligned' mem _ ?_
      have := aligned' offset mem
      rw [word?_replaceWord_of_apart (by omega)]
      exact word

end Replace

end FrameStack

end ObjectMachine

/-
  ObjectMachine/Proofs/StackOperations.lean
  =========================================
  **The operations of a stack, ideally** — pushing, popping, frames and slots as operations
  on cells.

  Each operation has one outcome for all stacks that show the same cells.  An access that
  could leave the buffer never does: as long as the frames are where their links say, the
  checks that come before it are enough.
-/
import ObjectMachine.Proofs.MemoryOperations
import ObjectMachine.Proofs.StackRuns

namespace ObjectMachine.FrameStack

open IdealMemory

variable {s : FrameStack} {η : Placement} {cells : List Value} {bp : Word} {size : Nat}
  {bases : List Nat}

namespace Shows

variable (shows_ : s.Shows η cells bp size)
include shows_

theorem length_le : 4 * cells.length ≤ size := by
  by_cases empty : cells.length = 0
  · omega
  · have last : cells[cells.length - 1]? = some cells[cells.length - 1] :=
      List.getElem?_eq_getElem (by omega)
    obtain ⟨w, -, word⟩ := shows_.cell _ _ last
    have := (Bytes.word?_eq_some_iff_le _ _).1 ⟨w, word⟩
    have := shows_.size_eq
    omega

/-! ### Operands -/

theorem push_ok {v : Value} {w : Word} (value : η.word? v = some w)
    (room : 4 * cells.length + 4 ≤ size) :
    ∃ s', push w s = .ok () s' ∧ s'.Shows η (cells ++ [v]) bp size := by
  have sp := shows_.sp_eq
  have size_eq := shows_.size_eq
  have fits : s.sp + 4 ≤ s.bytes.size := by omega
  refine ⟨{ s with bytes := s.bytes.overwrite s.sp w.bytes, sp := s.sp + 4 }, ?_, ?_, ?_,
    shows_.bp_eq, ?_⟩
  · unfold push
    rw [run_get_bind, run_get_bind, if_neg (by omega)]
    dsimp only
    rw [run_bind_ok (store_eq w fits)]
    rfl
  · exact (Bytes.size_overwrite _ _ _).trans size_eq
  · dsimp only
    rw [List.length_append, List.length_singleton]
    omega
  · intro k v' cell
    by_cases old : k < cells.length
    · rw [List.getElem?_append_left old] at cell
      obtain ⟨w', value', word⟩ := shows_.cell k v' cell
      refine ⟨w', value', ?_⟩
      rw [← word]
      refine Bytes.word?_overwrite_of_apart _ _ _ _ ?_ (Or.inl ?_)
      · rw [Word.length_bytes]
        exact fits
      · omega
    · have new : k = cells.length := by
        have := (List.getElem?_eq_some_iff.1 cell).1
        rw [List.length_append, List.length_singleton] at this
        omega
      subst new
      rw [List.getElem?_concat_length] at cell
      cases cell
      refine ⟨w, value, ?_⟩
      rw [← sp]
      exact Bytes.word?_overwrite_self _ _ _ fits

theorem push_full (w : Word) (full : ¬4 * cells.length + 4 ≤ size) :
    push w s = .error .stackOverflow s := by
  have sp := shows_.sp_eq
  have size_eq := shows_.size_eq
  exact push_overflow w (by omega)

theorem take (n : Nat) (hn : n ≤ cells.length) :
    ({ s with sp := 4 * n } : FrameStack).Shows η (cells.take n) bp size := by
  refine ⟨shows_.size_eq, ?_, shows_.bp_eq, ?_⟩
  · rw [List.length_take]
    dsimp only
    omega
  · intro k v cell
    rw [List.getElem?_take] at cell
    split at cell
    · exact shows_.cell k v cell
    · cases cell

theorem pop_ok {cs : List Value} {v : Value} (eq : cells = cs ++ [v]) :
    ∃ w s', pop s = .ok w s' ∧ η.word? v = some w ∧ s'.Shows η cs bp size := by
  subst eq
  have sp := shows_.sp_eq
  rw [List.length_append, List.length_singleton] at sp
  obtain ⟨w, value, word⟩ := shows_.cell cs.length v List.getElem?_concat_length
  have rest := shows_.take cs.length (by simp)
  rw [List.take_left] at rest
  have offset : s.sp - 4 = 4 * cs.length := by omega
  refine ⟨w, { s with sp := 4 * cs.length }, ?_, value, rest⟩
  unfold pop
  rw [run_get_bind, if_neg (by omega), offset]
  exact load_eq word

theorem pop_empty (eq : cells = []) : pop s = .error .stackUnderflow s := by
  subst eq
  have sp : s.sp = 0 := shows_.sp_eq
  unfold pop
  rw [run_get_bind, if_pos (by omega)]
  rfl

theorem peek_ok {cs rest : List Value} {v : Value} (eq : cells = cs ++ v :: rest)
    (small : (rest.length + 1) * 4 < sizeLimit) :
    ∃ w, s.peek rest.length = .ok w ∧ η.word? v = some w := by
  have sp := shows_.sp_eq
  have length : cells.length = cs.length + (rest.length + 1) := by
    rw [eq, List.length_append, List.length_cons]
  have cell : cells[cs.length]? = some v := by
    rw [eq, List.getElem?_append_right (Nat.le_refl _), Nat.sub_self]
    rfl
  obtain ⟨w, value, word⟩ := shows_.cell cs.length v cell
  refine ⟨w, ?_, value⟩
  unfold peek
  dsimp only
  rw [if_neg (by omega), if_neg (by omega),
    show s.sp - (rest.length + 1) * 4 = 4 * cs.length by omega, word]

theorem peek_empty (eq : cells = []) : s.peek 0 = .error .stackUnderflow := by
  have sp : s.sp = 0 := by rw [shows_.sp_eq, eq, List.length_nil]
  unfold peek
  dsimp only
  rw [if_neg (by decide), if_pos (by omega)]

/-! ### Frames -/

theorem pushMany_ok {v : Value} {w : Word} (value : η.word? v = some w) (n : Nat) :
    4 * cells.length + 4 * n ≤ size →
    ∃ s', pushMany w n s = .ok () s' ∧ s'.Shows η (cells ++ List.replicate n v) bp size := by
  induction n generalizing s cells with
  | zero =>
    intro _
    rw [List.replicate_zero, List.append_nil]
    exact ⟨s, rfl, shows_⟩
  | succ n ih =>
    intro room
    obtain ⟨s₁, run₁, shows₁⟩ := shows_.push_ok value (by omega)
    obtain ⟨s₂, run₂, shows₂⟩ := ih shows₁ (by
      rw [List.length_append, List.length_singleton]
      omega)
    rw [List.append_assoc, List.singleton_append, ← List.replicate_succ] at shows₂
    refine ⟨s₂, ?_, shows₂⟩
    rw [pushMany, run_bind_ok run₁]
    exact run₂

theorem newFrame_full {locals : Word} {returnTo : CodeAddress}
    (full : ¬4 * cells.length + (8 + locals.toNat * 4) ≤ size) :
    newFrame locals returnTo s = .error .stackOverflow s := by
  have sp := shows_.sp_eq
  have size_eq := shows_.size_eq
  exact newFrame_overflow locals returnTo (by omega)

theorem newFrame_ok {locals : Word} {returnTo : CodeAddress}
    (room : 4 * cells.length + (8 + locals.toNat * 4) ≤ size) :
    ∃ s', newFrame locals returnTo s = .ok () s' ∧
      s'.Shows η (cells ++ [.raw bp, .raw returnTo.word] ++
        List.replicate locals.toNat (.raw Ref.null.word)) (UInt32.ofNat (4 * cells.length)) size := by
  have sp := shows_.sp_eq
  have size_eq := shows_.size_eq
  obtain ⟨s₁, run₁, shows₁⟩ := shows_.push_ok (v := .raw bp) rfl (by omega)
  obtain ⟨s₂, run₂, shows₂⟩ := shows₁.push_ok (v := .raw returnTo.word) rfl (by
    rw [List.length_append, List.length_singleton]
    omega)
  obtain ⟨s₃, run₃, shows₃⟩ := shows₂.pushMany_ok (v := .raw Ref.null.word) rfl locals.toNat (by
    simp only [List.length_append, List.length_singleton]
    omega)
  rw [List.append_assoc cells] at shows₃
  refine ⟨{ s₃ with bp := UInt32.ofNat (4 * cells.length) }, ?_, shows₃.size_eq, shows₃.sp_eq, rfl,
    shows₃.cell⟩
  unfold newFrame
  rw [run_get_bind, run_get_bind, if_neg (by omega)]
  dsimp only
  rw [run_get_bind, shows_.bp_eq, run_bind_ok run₁, run_bind_ok run₂, run_bind_ok run₃, sp]
  rfl

theorem discardFrame_none (eq : bp = noFrame) : discardFrame s = .error .stackUnderflow s := by
  unfold discardFrame
  rw [run_get_bind, shows_.bp_eq, if_pos eq]
  rfl

/-- Leaving the innermost frame drops its cells. -/
theorem discardFrame_ok {k : Nat} {link returnTo : Word} (open_ : bp ≠ noFrame)
    (base : bp.toNat = 4 * k) (link_cell : cells[k]? = some (.raw link))
    (return_cell : cells[k + 1]? = some (.raw returnTo))
    (outer : link ≠ noFrame → link.toNat + 8 ≤ bp.toNat) :
    ∃ s', discardFrame s = .ok (if link = noFrame then none else some ⟨returnTo⟩) s' ∧
      s'.Shows η (cells.take k) link size := by
  have sp := shows_.sp_eq
  have inside : k + 1 < cells.length := (List.getElem?_eq_some_iff.1 return_cell).1
  have fits := shows_.length_le
  have size_eq := shows_.size_eq
  obtain ⟨w, eq, link_word⟩ := shows_.cell k _ link_cell
  cases eq
  obtain ⟨w, eq, return_word⟩ := shows_.cell (k + 1) _ return_cell
  cases eq
  rw [show 4 * (k + 1) = 4 * k + 4 by omega] at return_word
  have wiped : wipeFrom (4 * k) s =
      .ok () { s with bytes := s.bytes.wipe (4 * k) (s.sp - 4 * k) } := if_pos (by omega)
  refine ⟨⟨s.bytes.wipe (4 * k) (s.sp - 4 * k), 4 * k, link⟩, ?_, ?_, ?_, rfl, ?_⟩
  · unfold discardFrame
    rw [run_get_bind, shows_.bp_eq, if_neg open_]
    dsimp only
    rw [run_get_bind, base, if_neg (by omega), run_bind_ok (load_eq link_word), if_neg (by
      rintro ⟨linked, corrupt⟩
      have := outer linked
      omega), run_bind_ok (load_eq return_word), run_bind_ok wiped]
    rfl
  · exact (Bytes.size_wipe _ _ _).trans size_eq
  · rw [List.length_take]
    dsimp only
    omega
  · intro j v cell
    rw [List.getElem?_take] at cell
    split at cell
    · obtain ⟨w, value, word⟩ := shows_.cell j v cell
      refine ⟨w, value, ?_⟩
      rw [← word]
      exact (Bytes.same_wipe _ _ _ (4 * j) 4 (by omega) (Or.inl (by omega))).word? 0 (by omega)
    · cases cell

/-! ### Slots -/

theorem set {k : Nat} (hk : k < cells.length) {v : Value} {w : Word} (value : η.word? v = some w) :
    ({ s with bytes := s.bytes.overwrite (4 * k) w.bytes } : FrameStack).Shows η (cells.set k v) bp
      size := by
  have fits := shows_.length_le
  have size_eq := shows_.size_eq
  have room : 4 * k + w.bytes.length ≤ s.bytes.size := by
    rw [Word.length_bytes]
    omega
  refine ⟨(Bytes.size_overwrite _ _ _).trans size_eq, ?_, shows_.bp_eq, ?_⟩
  · rw [List.length_set]
    exact shows_.sp_eq
  · intro j v' cell
    rw [List.getElem?_set] at cell
    by_cases same : k = j
    · subst same
      rw [if_pos rfl, if_pos hk] at cell
      cases cell
      exact ⟨w, value, Bytes.word?_overwrite_self _ _ _ room⟩
    · rw [if_neg same] at cell
      obtain ⟨w', value', word⟩ := shows_.cell j v' cell
      refine ⟨w', value', ?_⟩
      rw [← word]
      refine Bytes.word?_overwrite_of_apart _ _ _ _ room ?_
      rw [Word.length_bytes]
      omega

theorem argOffset_eq {k : Nat} {index : Word} (open_ : bp ≠ noFrame)
    (slot : 4 * k + 4 * (1 + index.toNat) = bp.toNat) (hk : k < cells.length) :
    s.argOffset index = .ok (4 * k) := by
  have fits := shows_.length_le
  have size_eq := shows_.size_eq
  unfold argOffset
  dsimp only
  rw [shows_.bp_eq, if_neg open_, if_neg (by omega), if_neg (by omega)]
  congr 1
  omega

theorem argOffset_none {index : Word} (h : bp = noFrame ∨ bp.toNat < 4 * (1 + index.toNat)) :
    s.argOffset index = .error .stackUnderflow := by
  unfold argOffset
  dsimp only
  rw [shows_.bp_eq]
  rcases h with none | low
  · rw [if_pos none]
  · rw [if_pos low, ite_self]

theorem localOffset_eq {k : Nat} {index : Word} (open_ : bp ≠ noFrame)
    (slot : 4 * k = bp.toNat + 8 + 4 * index.toNat) (hk : k < cells.length) :
    s.localOffset index = .ok (4 * k) := by
  have fits := shows_.length_le
  have size_eq := shows_.size_eq
  unfold localOffset
  dsimp only
  rw [shows_.bp_eq, if_neg open_, if_neg (by omega)]
  congr 1
  omega

theorem localOffset_none {index : Word} (h : bp = noFrame) :
    s.localOffset index = .error .stackUnderflow := by
  unfold localOffset
  dsimp only
  rw [shows_.bp_eq, if_pos h]

/-- Reading the cell that an offset leads to. -/
theorem load_slot {f : FrameStack → Except MemoryError Nat} {k : Nat} {v : Value}
    (offset : f s = .ok (4 * k)) (cell : cells[k]? = some v) :
    ∃ w, (do return ⟨← load (← offsetBy f)⟩ : Run Ref) s = .ok ⟨w⟩ s ∧ η.word? v = some w := by
  obtain ⟨w, value, word⟩ := shows_.cell k v cell
  refine ⟨w, ?_, value⟩
  have found : offsetBy f s = .ok (4 * k) s := by
    unfold offsetBy
    rw [offset]
  rw [run_bind_ok found, run_bind_ok (load_eq word)]
  rfl

/-- Writing the cell that an offset leads to. -/
theorem store_slot {f : FrameStack → Except MemoryError Nat} {k : Nat} {v : Value} {w : Word}
    (offset : f s = .ok (4 * k)) (hk : k < cells.length) (value : η.word? v = some w) :
    ∃ s', (do store (← offsetBy f) w : Run Unit) s = .ok () s' ∧
      s'.Shows η (cells.set k v) bp size := by
  have fits := shows_.length_le
  have size_eq := shows_.size_eq
  refine ⟨_, ?_, shows_.set hk value⟩
  have found : offsetBy f s = .ok (4 * k) s := by
    unfold offsetBy
    rw [offset]
  rw [run_bind_ok found]
  exact store_eq w (by omega)

omit shows_ in
theorem slot_error {α : Type} {f : FrameStack → Except MemoryError Nat} {g : Nat → Run α}
    {e : MemoryError} (offset : f s = .error e) : (offsetBy f >>= g) s = .error e s := by
  have found : offsetBy f s = .error e s := by
    unfold offsetBy
    rw [offset]
  exact run_bind_error found

end Shows

end ObjectMachine.FrameStack

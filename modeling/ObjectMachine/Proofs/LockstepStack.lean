/-
  ObjectMachine/Proofs/LockstepStack.lean
  =======================================
  **Stacks in lockstep** — pushing, popping, frames and slots on machines whose objects lie
  in different places.

  Frame bookkeeping is raw, so it is the same on all machines, and so is every error.  A pop
  must not reach the bookkeeping of its frame, a local slot must lie below the top, and an
  argument slot must not be the link or the return address of an open frame; everything else
  is checked by the stack itself.
-/
import ObjectMachine.Proofs.LockstepQueries

namespace ObjectMachine

open IdealMemory

theorem Memory.onStack_ok {α : Type} {act : FrameStack.Run α} {m : Memory} {a : α} {s : FrameStack}
    (h : act m.stack = .ok a s) : Memory.onStack act m = .ok a { m with stack := s } := by
  cases m with
  | mk space stack code pc methods constants classes dictionaries stats journal =>
    unfold Memory.onStack
    dsimp only at h ⊢
    rw [h]

theorem Memory.onStack_error {α : Type} {act : FrameStack.Run α} {m : Memory} {e : MemoryError}
    (h : act m.stack = .error e m.stack) : Memory.onStack act m = .error e m := by
  cases m with
  | mk space stack code pc methods constants classes dictionaries stats journal =>
    unfold Memory.onStack
    dsimp only at h ⊢
    rw [h]

/-! ### What a program has to respect -/

namespace IdealMemory

/-- If a frame is open, there are this many words above its bookkeeping. -/
def HasWords (A : IdealMemory) (n : Nat) : Prop :=
  A.bp ≠ noFrame → A.bp.toNat + 8 + 4 * n ≤ 4 * A.cells.length

/-- An argument slot is no frame's link or return address. -/
def FreeArgument (A : IdealMemory) (index : Word) : Prop :=
  ∀ k, 4 * k + 4 * (1 + index.toNat) = A.bp.toNat → ¬Control A.bases k

theorem HasWords.mono {A : IdealMemory} {n k : Nat} (h : A.HasWords n) (less : k ≤ n) :
    A.HasWords k := by
  intro open_
  have := h open_
  omega

theorem HasWords.pop {A : IdealMemory} {n : Nat} {cs : List Value} {v : Value}
    (h : A.HasWords (n + 1)) (eq : A.cells = cs ++ [v]) :
    HasWords { A with cells := cs } n := by
  intro open_
  have := h open_
  rw [eq, List.length_append, List.length_singleton] at this
  dsimp only
  omega

end IdealMemory

namespace Lockstep

variable {ι α : Type} {limit : ι → Nat} {w : World ι} {post : World ι → (ι → α) → Prop}
  {fail : MachineError → IdealMemory → Prop} {v : Value} {x : ι → Word}

/-- What the machines have in common may be used. -/
theorem of_valid {y : ι → Machine.Run α}
    (h : w.memory.Valid (Harmless limit) → Lockstep limit w y post fail) :
    Lockstep limit w y post fail := fun m holds => h holds.valid m holds

/-- An operation on the stack that succeeds on all machines. -/
theorem stack {act : ι → FrameStack.Run α} {cells : List Value} {bp : Word} {bases : List Nat}
    {P : ι → α → Prop}
    (valid : IdealMemory.Valid (Harmless limit)
      { w.memory with cells := cells, bp := bp, bases := bases })
    (h : ∀ i s, s.Shows (w.place i) w.memory.cells w.memory.bp w.memory.stackSize →
      ∃ a s', act i s = .ok a s' ∧ s'.Shows (w.place i) cells bp w.memory.stackSize ∧ P i a)
    (posted : ∀ a, (∀ i, P i (a i)) →
      post { w with memory := { w.memory with cells := cells, bp := bp, bases := bases } } a) :
    Lockstep limit w (fun i => (Memory.onStack (act i) : Machine.Run α)) post fail := by
  refine memory valid ?_ posted
  intro m holds i
  have shows_ := holds.shows_ i
  obtain ⟨a, s', run, shows', result⟩ := h i _ shows_.stack
  exact ⟨a, _, Memory.onStack_ok run, { shows_ with stack := shows' }, rfl, result⟩

/-- An operation on the stack that fails on all machines. -/
theorem stack_error {act : ι → FrameStack.Run α} {e : MemoryError}
    (h : ∀ i s, s.Shows (w.place i) w.memory.cells w.memory.bp w.memory.stackSize →
      act i s = .error e s)
    (failed : fail (.memory e) w.memory) :
    Lockstep limit w (fun i => (Memory.onStack (act i) : Machine.Run α)) post fail := by
  refine memory_error ?_ (fun _ _ => rfl) fun _ => failed
  intro m holds i
  exact Memory.onStack_error (h i _ (holds.shows_ i).stack)

/-! ### Operands -/

theorem pushWord (value : ∀ i, (w.place i).word? v = some (x i))
    (plain : w.memory.Plain (Harmless limit) v) (failed : ∀ e, fail e w.memory) :
    Lockstep limit w (fun i => (Memory.pushWord (x i) : Machine.Run Unit))
      (fun w' _ => w' = { w with memory := { w.memory with cells := w.memory.cells ++ [v] } })
      fail := by
  refine of_valid fun valid => ?_
  by_cases room : 4 * w.memory.cells.length + 4 ≤ w.memory.stackSize
  · refine stack (P := fun _ _ => True) (valid.push plain) ?_ (fun _ _ => rfl)
    intro i s shows_
    obtain ⟨s', run, shows'⟩ := shows_.push_ok (value i) room
    exact ⟨(), s', run, shows', trivial⟩
  · exact stack_error (fun i s shows_ => shows_.push_full _ room) (failed _)

theorem pushRef {r : ι → Ref} (value : ∀ i, (w.place i).word? v = some (r i).word)
    (plain : w.memory.Plain (Harmless limit) v) (failed : ∀ e, fail e w.memory) :
    Lockstep limit w (fun i => (Memory.pushRef (r i) : Machine.Run Unit))
      (fun w' _ => w' = { w with memory := { w.memory with cells := w.memory.cells ++ [v] } })
      fail :=
  pushWord value plain failed

/-- A popped value is one that a program can have in its hands. -/
theorem popWord (operands : w.memory.HasWords 1) (failed : ∀ e, fail e w.memory) :
    Lockstep limit w (fun _ => (Memory.popWord : Machine.Run Word))
      (fun w' a => ∃ cs v, w.memory.cells = cs ++ [v] ∧
        w' = { w with memory := { w.memory with cells := cs } } ∧
        w'.memory.Plain (Harmless limit) v ∧ ∀ i, (w'.place i).word? v = some (a i)) fail := by
  refine of_valid fun valid => ?_
  rcases List.eq_nil_or_concat w.memory.cells with empty | ⟨cs, v, eq⟩
  · exact stack_error (fun i s shows_ => shows_.pop_empty empty) (failed _)
  · rw [List.concat_eq_append] at eq
    have length : w.memory.cells.length = cs.length + 1 := by
      rw [eq, List.length_append, List.length_singleton]
    have operand : ¬Control w.memory.bases cs.length := by
      intro control
      obtain ⟨open_, below⟩ := valid.framed.control_lt_floor control
      have := operands open_
      omega
    refine stack (P := fun i a => (w.place i).word? v = some a) (valid.pop eq operand) ?_ ?_
    · intro i s shows_
      obtain ⟨y, s', run, value, shows'⟩ := shows_.pop_ok eq
      exact ⟨y, s', run, shows', value⟩
    · intro a value
      exact ⟨cs, v, eq, rfl, valid.plain_top eq operand, value⟩

theorem popRef (operands : w.memory.HasWords 1) (failed : ∀ e, fail e w.memory) :
    Lockstep limit w (fun _ => (Memory.popRef : Machine.Run Ref))
      (fun w' a => ∃ cs v, w.memory.cells = cs ++ [v] ∧
        w' = { w with memory := { w.memory with cells := cs } } ∧
        w'.memory.Plain (Harmless limit) v ∧ ∀ i, (w'.place i).word? v = some (a i).word) fail := by
  have lifted : (Memory.popRef : Machine.Run Ref) =
      ((Memory.popWord : Machine.Run Word) >>= fun y => Pure.pure (Ref.mk y)) :=
    onMemory_bind Memory.popWord fun y => Pure.pure (Ref.mk y)
  rw [lifted]
  refine bind (popWord operands failed) ?_
  rintro w' a popped
  exact of_pure popped

/-! ### Frames -/

theorem newFrame (locals : Word)
    (full : w.memory.stackSize < 4 * w.memory.cells.length + (8 + locals.toNat * 4) →
      ∀ e, fail e w.memory) :
    Lockstep limit w (fun _ => (Memory.newFrame locals : Machine.Run Unit))
      (fun w' _ => ∃ cells bp bases,
        w' = { w with memory := { w.memory with cells := cells, bp := bp, bases := bases } })
      fail := by
  intro m holds
  have valid := holds.valid
  have run : ∀ i, (Memory.newFrame locals : Machine.Run Unit) (m i) =
      (Memory.onStack (FrameStack.newFrame locals w.memory.pc) : Machine.Run Unit) (m i) := by
    intro i
    have same : Memory.newFrame locals (m i).memory =
        Memory.onStack (FrameStack.newFrame locals w.memory.pc) (m i).memory := by
      rw [← (holds.shows_ i).pc]
      exact run_get_bind _
    exact onMemory_congr same
  have opened : Lockstep limit w
      (fun _ => (Memory.onStack (FrameStack.newFrame locals w.memory.pc) : Machine.Run Unit))
      (fun w' _ => ∃ cells bp bases,
        w' = { w with memory := { w.memory with cells := cells, bp := bp, bases := bases } })
      fail := by
    by_cases room : 4 * w.memory.cells.length + (8 + locals.toNat * 4) ≤ w.memory.stackSize
    · refine stack (P := fun _ _ => True)
        (@Valid.newFrame _ _ valid w.memory.pc.word _ holds.harmless_null room) ?_
        (fun _ _ => ⟨_, _, _, rfl⟩)
      intro i s shows_
      obtain ⟨s', run, shows'⟩ := shows_.newFrame_ok room
      exact ⟨(), s', run, shows', trivial⟩
    · exact stack_error (fun i s shows_ => shows_.newFrame_full room)
        (full (Nat.not_le.1 room) _)
  exact congr_run run (opened m holds)

theorem discardFrame (failed : ∀ e, fail e w.memory) :
    Lockstep limit w (fun _ => (Memory.discardFrame : Machine.Run (Option CodeAddress)))
      (fun w' a => ∃ r cells bp bases, a = (fun _ => r) ∧
        w' = { w with memory := { w.memory with cells := cells, bp := bp, bases := bases } })
      fail := by
  refine of_valid fun valid => ?_
  cases eq : w.memory.bases with
  | nil =>
    have framed := valid.framed
    rw [eq] at framed
    have none : w.memory.bp = noFrame := by
      generalize w.memory.bp = bp at framed
      cases framed
      rfl
    exact stack_error (fun i s shows_ => shows_.discardFrame_none none) (failed _)
  | cons base bases =>
    have framed := valid.framed
    obtain ⟨link, returnTo, k, open_, at_base, link_cell, return_cell, outer, above, same⟩ :
        ∃ link returnTo k, w.memory.bp ≠ noFrame ∧ w.memory.bp.toNat = 4 * k ∧
          w.memory.cells[k]? = some (.raw link) ∧ w.memory.cells[k + 1]? = some (.raw returnTo) ∧
          Framed w.memory.cells link bases ∧ (∀ b ∈ bases, b + 8 ≤ w.memory.bp.toNat) ∧
          base = w.memory.bp.toNat := by
      rw [eq] at framed
      generalize w.memory.bp = bp at framed
      cases framed with
      | frame open_ at_base link_cell return_cell outer above =>
        exact ⟨_, _, _, open_, at_base, link_cell, return_cell, outer, above, rfl⟩
    have linked : link ≠ noFrame → link.toNat + 8 ≤ w.memory.bp.toNat := by
      intro linked
      cases outer with
      | none => exact absurd rfl linked
      | frame => exact above _ List.mem_cons_self
    refine stack (P := fun _ r => r = if link = noFrame then none else some ⟨returnTo⟩)
      (valid.discardFrame outer (by rw [eq, same, at_base]) (by rw [← at_base]; exact above)) ?_ ?_
    · intro i s shows_
      obtain ⟨s', run, shows'⟩ :=
        shows_.discardFrame_ok open_ at_base link_cell return_cell linked
      exact ⟨_, s', run, shows', rfl⟩
    · intro a same
      exact ⟨_, _, _, _, funext same, rfl⟩

/-! ### Slots -/

theorem argument_slot (valid : w.memory.Valid (Harmless limit)) (index : Word) :
    (w.memory.bp = noFrame ∨ w.memory.bp.toNat < 4 * (1 + index.toNat)) ∨
      w.memory.bp ≠ noFrame ∧
      ∃ k v, 4 * k + 4 * (1 + index.toNat) = w.memory.bp.toNat ∧ w.memory.cells[k]? = some v := by
  by_cases none : w.memory.bp = noFrame
  · exact Or.inl (Or.inl none)
  by_cases low : w.memory.bp.toNat < 4 * (1 + index.toNat)
  · exact Or.inl (Or.inr low)
  have inside := valid.framed.floor_le_length none
  have aligned := valid.framed.bp_aligned none
  have hk : w.memory.bp.toNat / 4 - (1 + index.toNat) < w.memory.cells.length := by omega
  exact Or.inr ⟨none, _, _, by omega, List.getElem?_eq_getElem hk⟩

theorem arg {index : Word} (free : w.memory.FreeArgument index) (failed : ∀ e, fail e w.memory) :
    Lockstep limit w (fun _ => (Memory.arg index : Machine.Run Ref))
      (fun w' a => w' = w ∧ ∃ v, w.memory.Plain (Harmless limit) v ∧
        ∀ i, (w.place i).word? v = some (a i).word) fail := by
  refine of_valid fun valid => ?_
  rcases argument_slot valid index with outside | ⟨open_, k, v, slot, cell⟩
  · exact stack_error (fun i s shows_ => FrameStack.Shows.slot_error (shows_.argOffset_none outside))
      (failed _)
  · refine stack (P := fun i r => (w.place i).word? v = some r.word) valid ?_ ?_
    · intro i s shows_
      obtain ⟨y, run, value⟩ := shows_.load_slot (f := (·.argOffset index))
        (shows_.argOffset_eq open_ slot (List.getElem?_eq_some_iff.1 cell).1) cell
      exact ⟨⟨y⟩, s, run, shows_, value⟩
    · intro a value
      exact ⟨rfl, v, valid.live k v cell (free k slot), value⟩

theorem setArg {index : Word} {r : ι → Ref} (free : w.memory.FreeArgument index)
    (value : ∀ i, (w.place i).word? v = some (r i).word)
    (plain : w.memory.Plain (Harmless limit) v) (failed : ∀ e, fail e w.memory) :
    Lockstep limit w (fun i => (Memory.setArg index (r i) : Machine.Run Unit))
      (fun w' _ => ∃ cells, w' = { w with memory := { w.memory with cells := cells } }) fail := by
  refine of_valid fun valid => ?_
  rcases argument_slot valid index with outside | ⟨open_, k, v', slot, cell⟩
  · exact stack_error (fun i s shows_ => FrameStack.Shows.slot_error (shows_.argOffset_none outside))
      (failed _)
  · have hk := (List.getElem?_eq_some_iff.1 cell).1
    refine stack (P := fun _ _ => True) (valid.setCell (free k slot) plain) ?_
      (fun _ _ => ⟨_, rfl⟩)
    intro i s shows_
    obtain ⟨s', run, shows'⟩ := shows_.store_slot (f := (·.argOffset index))
      (shows_.argOffset_eq open_ slot hk) hk (value i)
    exact ⟨(), s', run, shows', trivial⟩

theorem local_slot (valid : w.memory.Valid (Harmless limit)) {index : Word}
    (live : w.memory.HasWords (index.toNat + 1)) :
    w.memory.bp = noFrame ∨ w.memory.bp ≠ noFrame ∧
      ∃ k v, 4 * k = w.memory.bp.toNat + 8 + 4 * index.toNat ∧ w.memory.cells[k]? = some v ∧
        ¬Control w.memory.bases k := by
  by_cases none : w.memory.bp = noFrame
  · exact Or.inl none
  have inside := live none
  have aligned := valid.framed.bp_aligned none
  have hk : w.memory.bp.toNat / 4 + 2 + index.toNat < w.memory.cells.length := by omega
  refine Or.inr ⟨none, _, _, by omega, List.getElem?_eq_getElem hk, ?_⟩
  intro control
  have := (valid.framed.control_lt_floor control).2
  omega

theorem getLocal {index : Word} (live : w.memory.HasWords (index.toNat + 1))
    (failed : ∀ e, fail e w.memory) :
    Lockstep limit w (fun _ => (Memory.getLocal index : Machine.Run Ref))
      (fun w' a => w' = w ∧ ∃ v, w.memory.Plain (Harmless limit) v ∧
        ∀ i, (w.place i).word? v = some (a i).word) fail := by
  refine of_valid fun valid => ?_
  rcases local_slot valid live with outside | ⟨open_, k, v, slot, cell, operand⟩
  · exact stack_error
      (fun i s shows_ => FrameStack.Shows.slot_error (shows_.localOffset_none outside)) (failed _)
  · refine stack (P := fun i r => (w.place i).word? v = some r.word) valid ?_ ?_
    · intro i s shows_
      obtain ⟨y, run, value⟩ := shows_.load_slot (f := (·.localOffset index))
        (shows_.localOffset_eq open_ slot (List.getElem?_eq_some_iff.1 cell).1) cell
      exact ⟨⟨y⟩, s, run, shows_, value⟩
    · intro a value
      exact ⟨rfl, v, valid.live k v cell operand, value⟩

theorem setLocal {index : Word} {r : ι → Ref} (live : w.memory.HasWords (index.toNat + 1))
    (value : ∀ i, (w.place i).word? v = some (r i).word)
    (plain : w.memory.Plain (Harmless limit) v) (failed : ∀ e, fail e w.memory) :
    Lockstep limit w (fun i => (Memory.setLocal index (r i) : Machine.Run Unit))
      (fun w' _ => ∃ cells, w' = { w with memory := { w.memory with cells := cells } }) fail := by
  refine of_valid fun valid => ?_
  rcases local_slot valid live with outside | ⟨open_, k, v', slot, cell, operand⟩
  · exact stack_error
      (fun i s shows_ => FrameStack.Shows.slot_error (shows_.localOffset_none outside)) (failed _)
  · have hk := (List.getElem?_eq_some_iff.1 cell).1
    refine stack (P := fun _ _ => True) (valid.setCell operand plain) ?_ (fun _ _ => ⟨_, rfl⟩)
    intro i s shows_
    obtain ⟨s', run, shows'⟩ := shows_.store_slot (f := (·.localOffset index))
      (shows_.localOffset_eq open_ slot hk) hk (value i)
    exact ⟨(), s', run, shows', trivial⟩

end Lockstep

end ObjectMachine

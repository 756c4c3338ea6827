/-
  ObjectMachine/Proofs/StackScan.lean
  ===================================
  **What a scan of the stack sees** — the words of the program, and none of the bookkeeping.

  The bases of the frames that are open follow from what has been done with the stack: opening
  a frame adds one, dropping a frame takes the last one away.  After disciplined operations the
  links lead through these frames and end, so the scan knows every word of bookkeeping.  What
  is left it passes to the visitor in the order of the offsets, one word after the other: in
  any monad, a scan is `mapM` over those words, after which each is replaced by its result.
-/
import ObjectMachine.Proofs.CallNesting

namespace ObjectMachine

/-- Writing what is there already changes nothing. -/
theorem Bytes.overwrite_word_self {b : Bytes} {p : Nat} {w : Word} (word : b.word? p = some w) :
    b.overwrite p w.bytes = b := by
  have fits : p + w.bytes.length ≤ b.size := (Bytes.word?_eq_some_iff_le b p).1 ⟨w, word⟩
  unfold Bytes.word? at word
  split at word
  · rename_i inside
    cases word
    apply Array.ext_getElem?
    intro i
    rw [Bytes.getElem?_overwrite _ _ _ _ fits, Word.bytes_ofBytes]
    split
    · rename_i range
      obtain ⟨low, high⟩ := range
      obtain ⟨k, rfl⟩ : ∃ k, i = p + k := ⟨i - p, by omega⟩
      have four : k < 4 := by simpa using high
      have : k = 0 ∨ k = 1 ∨ k = 2 ∨ k = 3 := by omega
      rcases this with rfl | rfl | rfl | rfl <;> simp
    · rfl
  · cases word

namespace FrameStack

variable {s : FrameStack} {bases : List Nat}

/-! ### Open frames -/

/-- The bases of the frames that are open after a sequence of operations, innermost first, if
    these were open before. -/
def framesAfter : FrameStack → List Nat → List Operation → List Nat
  | _, bases, [] => bases
  | s, bases, op :: ops => framesAfter (op.after s) (op.framesAfter s bases) ops

theorem Nested.runAll_framesAfter {ops : List Operation} (nested : s.Nested bases)
    (careful : s.disciplined ops = true) : (s.runAll ops).Nested (s.framesAfter bases ops) := by
  induction ops generalizing s bases with
  | nil => exact nested
  | cons op ops ih =>
    simp only [FrameStack.disciplined, Bool.and_eq_true] at careful
    exact ih (nested.step careful.1) careful.2

/-! ### Storing words -/

/-- Stores words at offsets, one after the other. -/
def storeAll (s : FrameStack) : List Nat → List Word → FrameStack
  | offset :: offsets, w :: words =>
    { s with bytes := s.bytes.overwrite offset w.bytes }.storeAll offsets words
  | _, _ => s

/-- Offsets of words that do not overlap, in increasing order. -/
abbrev Spaced (offsets : List Nat) : Prop := offsets.Pairwise fun p q => p + 4 ≤ q

section StoreAll

theorem storeAll_sp_bp (offsets : List Nat) : ∀ (s : FrameStack) (words : List Word),
    (s.storeAll offsets words).sp = s.sp ∧ (s.storeAll offsets words).bp = s.bp ∧
      (s.storeAll offsets words).bytes.size = s.bytes.size := by
  induction offsets with
  | nil =>
    intro s words
    cases words <;> exact ⟨rfl, rfl, rfl⟩
  | cons offset offsets ih =>
    intro s words
    cases words with
    | nil => exact ⟨rfl, rfl, rfl⟩
    | cons w words =>
      obtain ⟨sp, bp, size⟩ := ih { s with bytes := s.bytes.overwrite offset w.bytes } words
      exact ⟨sp, bp, size.trans (Bytes.size_overwrite _ _ _)⟩

/-- Storing words is local. -/
theorem same_storeAll {p n : Nat} (offsets : List Nat) : ∀ (s : FrameStack) (words : List Word),
    (∀ offset ∈ offsets, offset + 4 ≤ s.bytes.size) →
    (∀ offset ∈ offsets, p + n ≤ offset ∨ offset + 4 ≤ p) →
    (s.storeAll offsets words).bytes.Same p s.bytes p n := by
  induction offsets with
  | nil =>
    intro s words _ _
    cases words <;> exact Bytes.Same.refl _ p n
  | cons offset offsets ih =>
    intro s words fits apart
    cases words with
    | nil => exact Bytes.Same.refl _ p n
    | cons w words =>
      have rest := ih { s with bytes := s.bytes.overwrite offset w.bytes } words
        (fun o mem => by
          rw [Bytes.size_overwrite]
          exact fits o (List.mem_cons_of_mem _ mem))
        (fun o mem => apart o (List.mem_cons_of_mem _ mem))
      refine rest.trans (Bytes.same_overwrite _ _ _ p n ?_ ?_)
      · exact fits offset List.mem_cons_self
      · exact apart offset List.mem_cons_self

/-- Each word can be read back. -/
theorem word?_storeAll (offsets : List Nat) : ∀ (s : FrameStack) (words : List Word),
    Spaced offsets → (∀ offset ∈ offsets, offset + 4 ≤ s.bytes.size) →
    words.length = offsets.length →
    offsets.map (s.storeAll offsets words).bytes.word? = words.map some := by
  induction offsets with
  | nil =>
    intro s words _ _ length
    rw [List.length_eq_zero_iff.1 length]
    rfl
  | cons offset offsets ih =>
    intro s words spaced fits length
    obtain ⟨above, spaced⟩ := List.pairwise_cons.1 spaced
    cases words with
    | nil => cases length
    | cons w words =>
      have fits' : ∀ o ∈ offsets, o + 4 ≤ (s.bytes.overwrite offset w.bytes).size := by
        intro o mem
        rw [Bytes.size_overwrite]
        exact fits o (List.mem_cons_of_mem _ mem)
      have rest := ih { s with bytes := s.bytes.overwrite offset w.bytes } words spaced fits'
        (Nat.succ.inj length)
      -- the words stored later lie above this one
      have first := same_storeAll (p := offset) (n := 4) offsets
        { s with bytes := s.bytes.overwrite offset w.bytes } words fits'
        (fun o mem => Or.inl (above o mem))
      have here : (s.bytes.overwrite offset w.bytes).word? offset = some w :=
        Bytes.word?_overwrite_self _ _ _ (fits offset List.mem_cons_self)
      rw [List.map_cons, List.map_cons]
      exact congr (congrArg List.cons ((first.word? 0 (by omega)).trans here)) rest

end StoreAll

/-! ### Scanning -/

section Scan

variable {m : Type → Type} [Monad m] [LawfulMonad m] [MonadExceptOf Fault m]

theorem visitAt_eq (visit : Word → m Word) {offset : Nat} {w : Word}
    (word : s.bytes.word? offset = some w) :
    visitAt visit s offset =
      (fun w' : Word => { s with bytes := s.bytes.overwrite offset w'.bytes }) <$> visit w := by
  unfold visitAt
  rw [word, map_eq_pure_bind]
  refine bind_congr fun w' => ?_
  split
  · rename_i same
    rw [same, Bytes.overwrite_word_self word]
  · rfl

/-- **Scanning some words** is passing them to the visitor, and storing what he makes of them. -/
theorem foldlM_visitAt_eq (visit : Word → m Word) (offsets : List Nat) :
    ∀ (s : FrameStack) (words : List Word), Spaced offsets →
      offsets.map s.bytes.word? = words.map some →
      offsets.foldlM (visitAt visit) s = s.storeAll offsets <$> words.mapM visit := by
  induction offsets with
  | nil =>
    intro s words _ read
    rw [List.map_eq_nil_iff.1 (read.symm.trans List.map_nil), List.mapM_nil, List.foldlM_nil,
      map_pure]
    rfl
  | cons offset offsets ih =>
    intro s words spaced read
    obtain ⟨above, spaced⟩ := List.pairwise_cons.1 spaced
    cases words with
    | nil => cases read
    | cons w words =>
      rw [List.map_cons, List.map_cons] at read
      obtain ⟨here, rest⟩ := List.cons.inj read
      have fits := (Bytes.word?_eq_some_iff_le s.bytes offset).1 ⟨w, here⟩
      have next : ∀ w' : Word, offsets.foldlM (visitAt visit)
          { s with bytes := s.bytes.overwrite offset w'.bytes } =
          { s with bytes := s.bytes.overwrite offset w'.bytes }.storeAll offsets <$>
            words.mapM visit := by
        intro w'
        refine ih _ words spaced ?_
        rw [← rest]
        refine List.map_congr_left fun o mem => ?_
        exact Bytes.word?_overwrite_of_apart _ _ _ _ fits (Or.inr (above o mem))
      rw [List.foldlM_cons, visitAt_eq visit here, bind_map_left, List.mapM_cons]
      simp only [next, map_eq_pure_bind, bind_assoc, pure_bind]
      rfl

end Scan

/-- Offsets of the words below the top that are not the bookkeeping of a frame. -/
theorem mem_liveOffsets_iff (aligned : s.sp % 4 = 0) (offset : Nat) :
    offset ∈ s.liveOffsets ⟨bases, none⟩ ↔ offset % 4 = 0 ∧ offset + 4 ≤ s.sp ∧
      ∀ base ∈ bases, offset ≠ base ∧ offset ≠ base + 4 := by
  unfold liveOffsets
  simp only [List.mem_filter, List.mem_map, List.mem_range, Chain.controls, Bool.not_eq_true',
    List.any_eq_false, Bool.or_eq_true, beq_iff_eq, not_or]
  constructor
  · rintro ⟨⟨k, inside, rfl⟩, free⟩
    exact ⟨by omega, by omega, free⟩
  · rintro ⟨whole, below, free⟩
    exact ⟨⟨offset / 4, by omega, by omega⟩, free⟩

theorem spaced_liveOffsets (chain : Chain) : Spaced (s.liveOffsets chain) := by
  refine List.Pairwise.filter _ (List.pairwise_map.2 ?_)
  refine List.Pairwise.imp ?_ List.pairwise_lt_range
  intro j k less
  omega

/-- The words at offsets that lie in the buffer. -/
theorem exists_words {b : Bytes} {offsets : List Nat} (fits : ∀ offset ∈ offsets, offset + 4 ≤ b.size) :
    ∃ words : List Word, offsets.map b.word? = words.map some := by
  induction offsets with
  | nil => exact ⟨[], rfl⟩
  | cons offset offsets ih =>
    obtain ⟨w, word⟩ := (Bytes.word?_eq_some_iff_le b offset).2 (fits offset List.mem_cons_self)
    obtain ⟨words, rest⟩ := ih fun o mem => fits o (List.mem_cons_of_mem _ mem)
    exact ⟨w :: words, by rw [List.map_cons, List.map_cons, word, rest]⟩

/-- The words that a scan of nested frames visits, and what becomes of them. -/
theorem Nested.visitWords_eq (nested : s.Nested bases) :
    (∀ offset ∈ s.liveOffsets ⟨bases, none⟩, offset + 4 ≤ s.bytes.size) ∧
    ∃ words : List Word, (s.liveOffsets ⟨bases, none⟩).map s.bytes.word? = words.map some ∧
      ∀ {m : Type → Type} [Monad m] [LawfulMonad m] [MonadExceptOf Fault m] (visit : Word → m Word),
        s.visitWords visit = s.storeAll (s.liveOffsets ⟨bases, none⟩) <$> words.mapM visit := by
  have fits : ∀ offset ∈ s.liveOffsets ⟨bases, none⟩, offset + 4 ≤ s.bytes.size := by
    intro offset live
    have below := ((mem_liveOffsets_iff nested.aligned offset).1 live).2.1
    have := nested.bounded.sp_le
    omega
  obtain ⟨words, read⟩ := exists_words fits
  refine ⟨fits, words, read, ?_⟩
  intro m _ _ _ visit
  unfold visitWords
  rw [nested.linked.chain_eq nested.below]
  exact foldlM_visitAt_eq visit _ s words (spaced_liveOffsets _) read

/-- **A scan sees the words of the program.**  After any disciplined operations, with any budget
    that is not less than its own, the walk along the links finds the open frames.  The words
    that are passed to the visitor are those below the top that are not the link or the return
    address of one of them; each is passed once, in the order of the offsets, and replaced by
    what the visitor makes of it.  The pointers and the bookkeeping stay as they are. -/
theorem scan_offers_live_words {size : Nat} (small : size < wordLimit - 1) {ops : List Operation}
    (careful : (new size).disciplined ops = true) :
    let s := (new size).runAll ops
    let frames := (new size).framesAfter [] ops
    (∀ budget, s.sp / 8 + 1 ≤ budget → s.chainFrom budget s.bp = .ok ⟨frames, none⟩) ∧
      s.sp % 4 = 0 ∧
      ∃ (offsets : List Nat) (words : List Word), offsets.Pairwise (· < ·) ∧
        (∀ offset, offset ∈ offsets ↔ offset % 4 = 0 ∧ offset + 4 ≤ s.sp ∧
          ∀ base ∈ frames, offset ≠ base ∧ offset ≠ base + 4) ∧
        offsets.map s.bytes.word? = words.map some ∧
        (∀ {m : Type → Type} [Monad m] [LawfulMonad m] [MonadExceptOf Fault m]
          (visit : Word → m Word), s.visitWords visit = s.storeAll offsets <$> words.mapM visit) ∧
        ∀ results : List Word, results.length = words.length →
          let s' := s.storeAll offsets results
          offsets.map s'.bytes.word? = results.map some ∧ s'.sp = s.sp ∧ s'.bp = s.bp ∧
            ∀ base ∈ frames, s'.bytes.word? base = s.bytes.word? base ∧
              s'.bytes.word? (base + 4) = s.bytes.word? (base + 4) := by
  intro s frames
  have nested : s.Nested frames := (nested_new small).runAll_framesAfter careful
  obtain ⟨fits, words, read, scan⟩ := nested.visitWords_eq
  have spaced := spaced_liveOffsets (s := s) ⟨frames, none⟩
  have mem : ∀ offset, offset ∈ s.liveOffsets ⟨frames, none⟩ ↔ offset % 4 = 0 ∧ offset + 4 ≤ s.sp ∧
      ∀ base ∈ frames, offset ≠ base ∧ offset ≠ base + 4 := mem_liveOffsets_iff nested.aligned
  refine ⟨?budget, nested.aligned, s.liveOffsets ⟨frames, none⟩, words, ?_, mem, read, scan, ?_⟩
  case budget =>
    intro budget enough
    have := nested.linked.length_le _ nested.below
    exact nested.linked.chainFrom_eq nested.below budget (by omega)
  · exact spaced.imp fun apart => by omega
  · intro results length s'
    obtain ⟨sp, bp, -⟩ := storeAll_sp_bp (s.liveOffsets ⟨frames, none⟩) s results
    have count : words.length = (s.liveOffsets ⟨frames, none⟩).length := by
      have := congrArg List.length read
      rw [List.length_map, List.length_map] at this
      exact this.symm
    refine ⟨word?_storeAll _ s results spaced fits (length.trans count), sp, bp, ?_⟩
    intro base frame
    have kept : s'.bytes.Same base s.bytes base 8 := by
      refine same_storeAll _ s results fits fun offset live => ?_
      obtain ⟨whole, -, free⟩ := (mem offset).1 live
      have := free base frame
      have := nested.linked.aligned base frame
      omega
    exact ⟨kept.word? 0 (by omega), kept.word? 4 (by omega)⟩

/-- A call within a call, from whose frames the scan passes an argument, a local and an operand;
    the return address 4096 of the inner one would be an address in a heap. -/
def scannedCalls : List Operation :=
  [.push 7, .newFrame 1 ⟨9⟩, .setLocal 0 ⟨3⟩, .newFrame 0 ⟨4096⟩, .push 5]

theorem scannedCalls_offered :
    let s := (new 40).runAll scannedCalls
    s.chain = .ok ⟨[16, 4], none⟩ ∧ s.bytes.word? 20 = some 4096 ∧
      ∃ s', (s.visitWords fun w => (pure (w + 1) : Except Fault Word)) = .ok s' ∧
        [0, 12, 24].map s'.bytes.word? = [some 8, some 4, some 6] ∧
        s'.bytes.word? 20 = some 4096 := by
  intro s
  obtain ⟨budget, -, offsets, words, increasing, mem, read, scan, stored⟩ :=
    scan_offers_live_words (show 40 < wordLimit - 1 by decide)
      (show (new 40).disciplined scannedCalls = true by decide +kernel)
  have frames : (new 40).framesAfter [] scannedCalls = [16, 4] := by decide +kernel
  have top : s.sp = 28 := by decide +kernel
  have there : s.bytes.word? 20 = some 4096 := by decide +kernel
  have found : offsets = [0, 12, 24] := by
    refine List.Perm.eq_of_pairwise (fun p q _ _ low high => by omega) increasing (by decide) ?_
    refine (List.perm_ext_iff_of_nodup (increasing.imp Nat.ne_of_lt) (by decide)).2 fun offset => ?_
    rw [mem, frames, show ((new 40).runAll scannedCalls).sp = 28 from top]
    simp
    omega
  subst found
  have visited : words = [7, 3, 5] := by
    have values : [0, 12, 24].map s.bytes.word? = [7, 3, 5].map some := by decide +kernel
    exact (List.map_inj_right fun _ _ => Option.some.inj).1 (read.symm.trans values)
  subst visited
  obtain ⟨results, -, -, kept⟩ := stored [8, 4, 6] rfl
  refine ⟨?_, there, _, scan _, results, ?_⟩
  · rw [← frames]
    exact budget _ (Nat.le_refl _)
  · have inner : 16 ∈ (new 40).framesAfter [] scannedCalls := by rw [frames]; decide
    exact (kept 16 inner).2.trans there

end FrameStack

end ObjectMachine

/-
  ObjectMachine/Proofs/FileContents.lean
  ======================================
  **Readers and writers, and the files they work on.**

  What a reader will give depends on what remains: the bytes that it has taken from its file and
  not given yet, and those of the file that it has not taken.  In which blocks it takes them is of
  no matter.  In the same way what a writer has been given is what its file holds and what it still
  holds back, and after a line it holds nothing back.
-/
import ObjectMachine.Host.FileTable
import ObjectMachine.Proofs.Runs
import Mathlib.Data.List.TakeWhile
import Mathlib.Tactic.SplitIfs

namespace ObjectMachine

/-! ### Lines -/

namespace Reader

variable {xs ys front rest : List UInt8}

theorem splitLine_of_notMem (none_ : lineFeed ∉ xs) : splitLine xs = (xs, none) := by
  have dropped : xs.dropWhile (· != lineFeed) = [] := by
    rw [List.dropWhile_eq_nil_iff]
    intro x mem
    simpa using ne_of_mem_of_not_mem mem none_
  simp [splitLine, dropped]

theorem splitLine_of_append (none_ : lineFeed ∉ front) (rest : List UInt8) :
    splitLine (front ++ lineFeed :: rest) = (front ++ [lineFeed], some rest) := by
  have others : ∀ x ∈ front, (x != lineFeed) = true := by
    intro x mem
    simpa using ne_of_mem_of_not_mem mem none_
  have dropped : (front ++ lineFeed :: rest).dropWhile (· != lineFeed) = lineFeed :: rest := by
    rw [List.dropWhile_append_of_pos others]
    simp
  have taken : (front ++ lineFeed :: rest).takeWhile (· != lineFeed) = front := by
    rw [List.takeWhile_append_of_pos others]
    simp
  simp [splitLine, dropped, taken]

/-- Bytes after a line are of no matter to it, and go with the rest. -/
theorem splitLine_append (xs ys : List UInt8) :
    splitLine (xs ++ ys) = match splitLine xs with
      | (line, some rest) => (line, some (rest ++ ys))
      | (part, none) => (part ++ (splitLine ys).1, (splitLine ys).2) := by
  by_cases found : lineFeed ∈ xs
  · obtain ⟨front, rest, rfl, none_⟩ := List.eq_append_cons_of_mem found
    rw [splitLine_of_append none_, List.append_assoc, List.cons_append, splitLine_of_append none_]
  · rw [splitLine_of_notMem found]
    dsimp only
    by_cases later : lineFeed ∈ ys
    · obtain ⟨front, rest, rfl, none_⟩ := List.eq_append_cons_of_mem later
      rw [splitLine_of_append none_, ← List.append_assoc, splitLine_of_append (by simp [found, none_]),
        List.append_assoc]
    · rw [splitLine_of_notMem later, splitLine_of_notMem (by simp [found, later])]

/-- A block and what comes after it. -/
theorem slice_append_drop (contents : Bytes) (offset count : Nat) :
    contents.slice offset count ++ contents.toList.drop (min (offset + count) contents.size) =
      contents.toList.drop offset := by
  have block : contents.slice offset count = (contents.toList.drop offset).take count := by
    simp [Bytes.slice]
  have after : contents.toList.drop (min (offset + count) contents.size) =
      (contents.toList.drop offset).drop count := by
    rw [List.drop_drop]
    by_cases inside : offset + count ≤ contents.size
    · rw [Nat.min_eq_left inside]
    · rw [Nat.min_eq_right (by omega), List.drop_eq_nil_of_le (by simp),
        List.drop_eq_nil_of_le (by simp; omega)]
  rw [block, after, List.take_append_drop]

/-- **Blocks do not matter.**  A reader that the host lets read takes the first line of the bytes
    that remain, and the others remain. -/
theorem takeLine_eq (contents : Bytes) {ask : Nat → Except HostError Unit}
    (asks : ∀ offset, ask offset = .ok ()) (offset : Nat) (buffer : List UInt8) :
    ∃ offset' buffer', takeLine contents ask offset buffer =
        (.ok (splitLine (buffer ++ contents.toList.drop offset)).1, offset', buffer') ∧
      buffer' ++ contents.toList.drop offset' =
        (splitLine (buffer ++ contents.toList.drop offset)).2.getD [] := by
  fun_induction takeLine contents ask offset buffer with
  | case1 offset buffer line rest split =>
    rw [splitLine_append, split]
    exact ⟨offset, rest, rfl, rfl⟩
  | case2 offset buffer part split e refused =>
    rw [asks] at refused
    cases refused
  | case3 offset buffer part split _ more next line offset' buffer' taken ih =>
    obtain ⟨offset₁, buffer₁, found, remains⟩ := ih
    rw [slice_append_drop] at found remains
    cases taken.symm.trans found
    rw [splitLine_append, split]
    exact ⟨offset', buffer', rfl, remains⟩
  | case4 offset buffer part split _ done =>
    have end_ : contents.toList.drop offset = [] := List.drop_eq_nil_of_le (Nat.not_lt.1 done)
    rw [end_, List.append_nil, split]
    exact ⟨offset, [], rfl, end_⟩

/-- What a reader has not given yet. -/
def remaining (contents : Bytes) (r : Reader) : List UInt8 :=
  r.buffer ++ contents.toList.drop r.offset

/-- A line as text: without a line feed in it, without a carriage return at its end, and in UTF-8. -/
structure IsLine (text : List UInt8) : Prop where
  utf8 : (Utf8.decode? text).isSome
  one : lineFeed ∉ text
  bare : text.getLast? ≠ some carriageReturn

theorem isSome_decode?_append {xs ys : List UInt8} (hx : (Utf8.decode? xs).isSome)
    (hy : (Utf8.decode? ys).isSome) : (Utf8.decode? (xs ++ ys)).isSome := by
  have valid : ∀ {zs : List UInt8}, (Utf8.decode? zs).isSome ↔ ByteArray.IsValidUTF8 ⟨zs.toArray⟩ := by
    intro zs
    unfold Utf8.decode? String.fromUTF8?
    split <;> simp_all
  rw [valid] at hx hy ⊢
  have both := hx.append hy
  have joined : (⟨xs.toArray⟩ ++ ⟨ys.toArray⟩ : ByteArray) = ⟨(xs ++ ys).toArray⟩ := by
    apply ByteArray.ext
    simp
  rwa [joined] at both

/-- The line feed goes, and nothing else. -/
theorem IsLine.trimEnd_eq {text : List UInt8} (line : IsLine text) :
    trimEnd (text ++ [lineFeed]) = text := by
  have kept : (text.reverse.dropWhile fun x => x == lineFeed || x == carriageReturn) =
      text.reverse := by
    rcases List.eq_nil_or_concat text with rfl | ⟨front, last, rfl⟩
    · rfl
    · have one : last ≠ lineFeed := by
        rintro rfl
        exact line.one (by simp)
      have bare : last ≠ carriageReturn := by
        rintro rfl
        exact line.bare (by simp)
      simp [one, bare]
  unfold trimEnd
  rw [List.reverse_append, List.reverse_singleton, List.singleton_append,
    List.dropWhile_cons_of_pos (by decide), kept, List.reverse_reverse]

section ReadLine

variable {d : Directory} {r : Reader} {place : Location} {contents : Bytes}
  (source : r.source = .file place) (get : d.get? place = some contents)
  (willing : ∀ offset, d.refusal (.read place offset) = none)
include source get willing

/-- What a reader takes is judged by itself: the first line of the bytes that remain. -/
theorem readLine_eq : ∃ r', r.readLine d =
      (if (Utf8.decode? (splitLine (r.remaining contents)).1).isNone then .error .invalidText
        else if (splitLine (r.remaining contents)).1.isEmpty then .ok none
        else .ok (some (trimEnd (splitLine (r.remaining contents)).1)), r') ∧
      r'.source = .file place ∧
      r'.remaining contents = (splitLine (r.remaining contents)).2.getD [] := by
  have asks : ∀ offset, d.ask (.read place offset) = .ok () := by
    intro offset
    unfold Directory.ask
    rw [willing]
  obtain ⟨offset', buffer', taken, remains⟩ := takeLine_eq contents asks r.offset r.buffer
  refine ⟨{ r with offset := offset', buffer := buffer' }, ?_, source, remains⟩
  change _ = (Except.ok (splitLine (r.remaining contents)).1, _, _) at taken
  unfold readLine
  rw [source]
  dsimp only
  rw [get, Option.getD_some, taken]
  dsimp only
  split_ifs <;> rfl

/-- **The next line is read**, and the lines after it remain. -/
theorem readLine_line {text rest : List UInt8} (line : IsLine text)
    (remains : r.remaining contents = text ++ lineFeed :: rest) :
    ∃ r', r.readLine d = (.ok (some text), r') ∧ r'.source = .file place ∧
      r'.remaining contents = rest := by
  obtain ⟨r', read, source', remains'⟩ := readLine_eq source get willing
  rw [remains, splitLine_of_append line.one] at read remains'
  have valid : (Utf8.decode? (text ++ [lineFeed])).isSome :=
    isSome_decode?_append line.utf8 (by decide +kernel)
  rw [if_neg (by simpa using Option.isSome_iff_ne_none.1 valid), if_neg (by simp), line.trimEnd_eq] at read
  exact ⟨r', read, source', remains'⟩

/-- **At the end** there is no line, now and later. -/
theorem readLine_end (remains : r.remaining contents = []) :
    ∃ r', r.readLine d = (.ok none, r') ∧ r'.source = .file place ∧
      r'.remaining contents = [] := by
  obtain ⟨r', read, source', remains'⟩ := readLine_eq source get willing
  rw [remains, splitLine_of_notMem List.not_mem_nil] at read remains'
  rw [if_neg (by decide +kernel)] at read
  exact ⟨r', read, source', remains'⟩

end ReadLine

end Reader

/-! ### Files and paths -/

namespace Directory

variable {d d' : Directory} {l place : Location} {contents : Bytes} {text : String}

theorem get?_put (d : Directory) (l other : Location) (contents : Bytes) :
    (d.put l contents).get? other = if other = l then some contents else d.get? other := by
  obtain ⟨files, refusal⟩ := d
  unfold get? put
  dsimp only
  induction files with
  | nil =>
    unfold putIn
    by_cases same : other = l
    · rw [same, List.lookup_cons_self, if_pos rfl]
    · rw [List.lookup_cons, beq_false_of_ne same, if_neg same]
  | cons entry rest ih =>
    obtain ⟨name, old⟩ := entry
    unfold putIn
    split
    · rename_i here
      subst here
      by_cases same : other = name
      · rw [same, List.lookup_cons_self, if_pos rfl]
      · rw [List.lookup_cons, List.lookup_cons, beq_false_of_ne same, if_neg same]
    · rename_i apart
      by_cases same : other = name
      · rw [same, List.lookup_cons_self, List.lookup_cons_self, if_neg apart]
      · rw [List.lookup_cons, List.lookup_cons, beq_false_of_ne same]
        exact ih

/-- Where steps lead to is no matter of the files, except where they fail. -/
theorem climb_eq_ok {level stop : Option Nat} {steps : List String}
    (led : d.climb level steps = .ok stop) (d' : Directory) : d'.climb level steps = .ok stop := by
  fun_induction climb d level steps with
  | case1 level => exact led
  | case2 level rest ih => exact ih led
  | case3 level rest ih => exact ih led
  | case4 level step rest =>
    obtain ⟨there, -, thrown⟩ := exists_of_bind_eq_ok led
    cases there <;> cases thrown

theorem follow_eq_ok {target : Target × Bool} (led : d.follow text = .ok target) (d' : Directory) :
    d'.follow text = .ok target := by
  unfold follow at led ⊢
  dsimp only at led ⊢
  split at led
  · cases led
  · rename_i clean
    rw [if_neg clean]
    split at led
    · cases led
    · rename_i short
      rw [if_neg short]
      split at led
      · rename_i path taken
        obtain ⟨level, climbed, led⟩ := exists_of_bind_eq_ok led
        rw [climb_eq_ok climbed d']
        exact led
      · cases led

/-- A file that was opened for writing is there. -/
theorem openForWriting_eq_ok (opened : d.openForWriting text = .ok (place, d')) :
    d.follow text = .ok (.file place, false) ∧ place.name.utf8ByteSize ≤ nameLimit ∧
      d' = d.put place #[] := by
  obtain ⟨⟨⟩, -, opened⟩ := exists_of_bind_eq_ok opened
  obtain ⟨target, led, opened⟩ := exists_of_bind_eq_ok opened
  split at opened
  · cases opened
  · cases opened
  · rename_i found
    obtain ⟨there, looked, opened⟩ := exists_of_bind_eq_ok opened
    cases opened
    refine ⟨led, ?_, rfl⟩
    unfold find at looked
    split at looked
    · cases looked
    · rename_i short
      exact Nat.not_lt.1 short

/-- **A path that could be written can be read** while the file is there. -/
theorem openForReading_of_openForWriting {now : Directory}
    (opened : d.openForWriting text = .ok (place, d')) (there : now.get? place = some contents)
    (willing : now.refusal (.openForReading text) = none) :
    now.openForReading text = .ok (.file place) := by
  obtain ⟨led, short, -⟩ := openForWriting_eq_ok opened
  have found : now.find place = .ok true := by
    unfold find
    rw [if_neg (Nat.not_lt.2 short), contains, there]
    rfl
  unfold openForReading ask
  rw [willing, follow_eq_ok led now, ok_bind, ok_bind]
  dsimp only
  rw [found, ok_bind]
  rfl

end Directory

/-! ### Writers -/

namespace Writer

/-- **Where a writer is**: its file holds some bytes, it is at their end, and it holds back some
    more. -/
structure At (refusal : Access → Option HostError) (place : Location) (flushed held : List UInt8)
    (s : Directory × Writer) : Prop where
  refusal_eq : s.1.refusal = refusal
  place_eq : s.2.place = place
  contents : s.1.get? place = some flushed.toArray
  offset_eq : s.2.offset = flushed.length
  held_eq : s.2.held = held

section At

variable {refusal : Access → Option HostError} {place : Location} {flushed held : List UInt8}
  {s : Directory × Writer}

/-- Bytes that are laid over the end of a file are appended to it. -/
theorem writeAt_end {d : Directory} (contents : d.get? place = some flushed.toArray)
    (xs : List UInt8) :
    d.writeAt place flushed.length xs = d.put place (flushed ++ xs).toArray := by
  unfold Directory.writeAt
  rw [contents]
  simp [List.drop_eq_nil_of_le]

variable (willing : ∀ offset, refusal (.write place offset) = none)
include willing

theorem At.hand (at_ : At refusal place flushed held s) (xs : List UInt8) :
    ∃ s', Writer.hand xs s = .ok () s' ∧ At refusal place (flushed ++ xs) held s' := by
  obtain ⟨d, w⟩ := s
  unfold Writer.hand
  dsimp only
  split
  · rename_i empty
    obtain rfl := List.isEmpty_iff.1 empty
    exact ⟨_, rfl, by rwa [List.append_nil]⟩
  · have asked : d.ask (.write w.place w.offset) = .ok () := by
      unfold Directory.ask
      rw [show d.refusal = refusal from at_.refusal_eq, show w.place = place from at_.place_eq, willing]
    have laid : d.writeAt w.place w.offset xs = d.put place (flushed ++ xs).toArray := by
      rw [show w.place = place from at_.place_eq, show w.offset = flushed.length from at_.offset_eq,
        writeAt_end at_.contents]
    rw [asked]
    dsimp only
    refine ⟨_, rfl, ⟨?_, at_.place_eq, ?_, ?_, at_.held_eq⟩⟩
    · rw [laid]
      exact at_.refusal_eq
    · rw [laid, Directory.get?_put, if_pos rfl]
    · simp [show w.offset = flushed.length from at_.offset_eq]

theorem At.flush (at_ : At refusal place flushed held s) :
    ∃ s', Writer.flush s = .ok () s' ∧ At refusal place (flushed ++ held) [] s' := by
  obtain ⟨s₁, handed, at₁⟩ := at_.hand willing held
  refine ⟨(s₁.1, { s₁.2 with held := [] }), ?_, { at₁ with held_eq := rfl }⟩
  unfold Writer.flush
  rw [run_get_bind, at_.held_eq, run_bind_ok handed]
  rfl

/-- Bytes that a writer takes are handed over or held back. -/
theorem At.take (at_ : At refusal place flushed held s) (xs : List UInt8) :
    ∃ s' flushed' held', Writer.take xs s = .ok () s' ∧ At refusal place flushed' held' s' ∧
      flushed' ++ held' = flushed ++ held ++ xs := by
  -- room is made first, so that nothing is held back when a block or more is handed over
  obtain ⟨s₁, flushed₁, held₁, made, at₁, all₁, none₁⟩ : ∃ s₁ flushed₁ held₁,
      (∀ rest : Unit → Writer.Run Unit, (if blockSize < s.2.held.length + xs.length
        then Writer.flush >>= rest else rest ()) s = rest () s₁) ∧
      At refusal place flushed₁ held₁ s₁ ∧ flushed₁ ++ held₁ = flushed ++ held ∧
      (blockSize ≤ xs.length → held₁ = []) := by
    rw [at_.held_eq]
    split
    · obtain ⟨s₁, flushes, at₁⟩ := at_.flush willing
      exact ⟨s₁, _, _, fun rest => run_bind_ok flushes, at₁, List.append_nil _, fun _ => rfl⟩
    · refine ⟨s, _, _, fun rest => rfl, at_, rfl, fun block => ?_⟩
      exact List.length_eq_zero_iff.1 (by omega)
  have runs : Writer.take xs s = (if blockSize ≤ xs.length then Writer.hand xs
      else modify fun s => (s.1, { s.2 with held := s.2.held ++ xs })) s₁ := by
    unfold Writer.take
    rw [run_get_bind]
    exact made _
  rw [runs]
  split
  · rename_i block
    obtain rfl := none₁ block
    obtain ⟨s', handed, at'⟩ := at₁.hand willing xs
    exact ⟨s', _, _, handed, at', by rw [← all₁]; simp⟩
  · refine ⟨_, flushed₁, held₁ ++ xs, rfl, { at₁ with held_eq := ?_ }, ?_⟩
    · exact congrArg (· ++ xs) at₁.held_eq
    · rw [← List.append_assoc, all₁]

/-- **A line is in the file** once it has been written, and nothing is held back. -/
theorem At.writeLine (at_ : At refusal place flushed held s) (text : List UInt8) :
    ∃ s', Writer.writeLine text s = .ok () s' ∧
      At refusal place (flushed ++ held ++ text ++ [Reader.lineFeed]) [] s' := by
  obtain ⟨s₁, flushed₁, held₁, taken₁, at₁, all₁⟩ := at_.take willing text
  obtain ⟨s₂, flushed₂, held₂, taken₂, at₂, all₂⟩ := at₁.take willing [Reader.lineFeed]
  obtain ⟨s₃, flushes, at₃⟩ := at₂.flush willing
  refine ⟨s₃, ?_, ?_⟩
  · unfold Writer.writeLine
    rw [run_bind_ok taken₁, run_bind_ok taken₂, flushes]
  · rwa [all₂, all₁] at at₃

end At

end Writer

end ObjectMachine

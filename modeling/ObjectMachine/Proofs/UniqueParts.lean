/-
  ObjectMachine/Proofs/UniqueParts.lean
  =====================================
  **The parts of a text are determined by the text.**

  Cutting a text at its spaces and joining pieces with spaces undo each other as long as there is
  a piece and no piece has a space in it.  Spaces at the end of a text are empty pieces at the end
  of its cut, and these are what splitting drops.  So a text with a space has exactly one
  decomposition that does not end in an empty part.
-/
import ObjectMachine.Text.Words
import Mathlib.Data.List.DropRight

namespace ObjectMachine.Words

variable {text part : List UInt8} {parts : List (List UInt8)} {n : Nat}

/-! ### Cutting and joining -/

theorem pieces_of_spaceless (free : space ∉ text) : pieces text = [text] := by
  induction text with
  | nil => rfl
  | cons x rest ih =>
    rw [List.mem_cons, not_or] at free
    rw [pieces, if_neg (Ne.symm free.1), ih free.2]

theorem spaceless_of_mem_pieces (mem : part ∈ pieces text) : space ∉ part := by
  induction text generalizing part with
  | nil => simp_all [pieces]
  | cons x rest ih =>
    unfold pieces at mem
    split at mem
    · rcases List.mem_cons.1 mem with rfl | mem
      · exact List.not_mem_nil
      · exact ih mem
    · rename_i plain
      split at mem
      · simp [List.mem_singleton.1 mem, Ne.symm plain]
      · rename_i first more cut
        rw [cut] at ih
        rcases List.mem_cons.1 mem with rfl | mem
        · simp [Ne.symm plain, ih List.mem_cons_self]
        · exact ih (List.mem_cons_of_mem _ mem)

/-- A space ends a piece. -/
theorem pieces_append_space (front back : List UInt8) :
    pieces (front ++ space :: back) = pieces front ++ pieces back := by
  induction front with
  | nil => simp [pieces]
  | cons x front ih =>
    rw [List.cons_append, pieces, pieces, ih]
    split
    · rfl
    · cases cut : pieces front with
      | nil => exact absurd cut (pieces_ne_nil front)
      | cons first more => rfl

theorem pieces_append_spaces (text : List UInt8) (n : Nat) :
    pieces (text ++ List.replicate n space) = pieces text ++ List.replicate n [] := by
  induction n with
  | zero => simp
  | succ n ih =>
    rw [List.replicate_succ', ← List.append_assoc, pieces_append_space, ih, List.replicate_succ',
      List.append_assoc]
    rfl

/-- Cutting finds the pieces that were joined. -/
theorem pieces_intercalate (some_ : parts ≠ []) (free : ∀ part ∈ parts, space ∉ part) :
    pieces ([space].intercalate parts) = parts := by
  induction parts with
  | nil => exact absurd rfl some_
  | cons first rest ih =>
    rw [List.forall_mem_cons] at free
    cases rest with
    | nil => simpa using pieces_of_spaceless free.1
    | cons second rest =>
      rw [List.intercalate_cons_cons, List.append_assoc, List.singleton_append, pieces_append_space,
        pieces_of_spaceless free.1, ih (List.cons_ne_nil _ _) free.2]
      rfl

/-! ### Dropping empty parts -/

/-- What splitting keeps of the pieces. -/
theorem split_eq_rdropWhile (spaced : space ∈ text) :
    split text = (pieces text).rdropWhile List.isEmpty := by
  unfold split
  rw [if_pos (List.contains_iff_mem.2 spaced)]
  rfl

/-- The pieces are those that are kept, and empty ones. -/
theorem exists_pieces_eq (text : List UInt8) :
    ∃ n, pieces text = (pieces text).rdropWhile List.isEmpty ++ List.replicate n [] := by
  refine ⟨((pieces text).rtakeWhile List.isEmpty).length, ?_⟩
  have empty : (pieces text).rtakeWhile List.isEmpty =
      List.replicate ((pieces text).rtakeWhile List.isEmpty).length [] := by
    rw [List.eq_replicate_iff]
    exact ⟨rfl, fun piece mem => List.isEmpty_iff.1 (List.mem_rtakeWhile_imp mem)⟩
  rw [← empty, List.rdropWhile_append_rtakeWhile]

/-- A row of parts that does not end in an empty one. -/
def Trimmed (parts : List (List UInt8)) : Prop :=
  parts = [] ∨ ∃ part, parts.getLast? = some part ∧ part ≠ []

theorem trimmed_rdropWhile (parts : List (List UInt8)) : Trimmed (parts.rdropWhile List.isEmpty) := by
  by_cases none : parts.rdropWhile List.isEmpty = []
  · exact Or.inl none
  · refine Or.inr ⟨_, List.getLast?_eq_some_getLast none, ?_⟩
    simpa using List.rdropWhile_last_not List.isEmpty parts none

/-- Only empty parts at the end are dropped. -/
theorem Trimmed.rdropWhile_eq (trimmed : Trimmed parts) (n : Nat) :
    (parts ++ List.replicate n []).rdropWhile List.isEmpty = parts := by
  induction n with
  | zero =>
    rw [List.replicate_zero, List.append_nil, List.rdropWhile_eq_self_iff]
    rcases trimmed with rfl | ⟨part, last, full⟩
    · exact fun none => absurd rfl none
    · intro some_
      rw [List.getLast?_eq_some_getLast some_] at last
      simpa [Option.some.inj last] using full
  | succ n ih =>
    rw [List.replicate_succ', ← List.append_assoc, List.rdropWhile_concat_pos _ _ _ rfl, ih]

/-! ### Decompositions -/

/-- **A decomposition of a text at its spaces.**  The text is its parts with one space between
    any two, and spaces after them; a text without a space is its only part. -/
structure Decomposes (text : List UInt8) (parts : List (List UInt8)) : Prop where
  spaceless : ∀ part ∈ parts, space ∉ part
  joined : ∃ n, text = [space].intercalate parts ++ List.replicate n space
  whole : space ∉ text → parts = [text]
  trimmed : space ∈ text → Trimmed parts

/-- A text is determined by its pieces. -/
theorem pieces_injective {s t : List UInt8} (same : pieces s = pieces t) : s = t := by
  rw [← intercalate_pieces s, ← intercalate_pieces t, same]

/-- Spaces after the parts are empty pieces after them. -/
theorem joined_iff (free : ∀ part ∈ parts, space ∉ part) :
    (∃ n, text = [space].intercalate parts ++ List.replicate n space) ↔
      ∃ n, pieces text = parts ++ List.replicate n [] := by
  by_cases none : parts = []
  · subst none
    have spaces : ∀ n, pieces (List.replicate n space) = List.replicate (n + 1) [] := fun n =>
      pieces_append_spaces [] n
    constructor
    · rintro ⟨n, rfl⟩
      exact ⟨n + 1, by simpa using spaces n⟩
    · rintro ⟨n, cut⟩
      cases n with
      | zero => exact absurd cut (pieces_ne_nil text)
      | succ n => exact ⟨n, pieces_injective (by simpa [spaces] using cut)⟩
  · have cut : ∀ n, pieces ([space].intercalate parts ++ List.replicate n space) =
        parts ++ List.replicate n [] := by
      intro n
      rw [pieces_append_spaces, pieces_intercalate none free]
    constructor
    · rintro ⟨n, rfl⟩
      exact ⟨n, cut n⟩
    · rintro ⟨n, same⟩
      exact ⟨n, pieces_injective (same.trans (cut n).symm)⟩

theorem decomposes_split (text : List UInt8) : Decomposes text (split text) := by
  by_cases spaced : space ∈ text
  · rw [split_eq_rdropWhile spaced]
    have free : ∀ part ∈ (pieces text).rdropWhile List.isEmpty, space ∉ part := fun part mem =>
      spaceless_of_mem_pieces ((List.rdropWhile_prefix List.isEmpty _).subset mem)
    exact ⟨free, (joined_iff free).2 (exists_pieces_eq text), fun free => absurd spaced free,
      fun _ => trimmed_rdropWhile _⟩
  · have one : split text = [text] := by
      unfold split
      rw [if_neg (fun found => spaced (List.contains_iff_mem.1 found))]
    rw [one]
    exact ⟨by simpa using spaced, ⟨0, by simp⟩, fun _ => rfl, fun mem => absurd mem spaced⟩

/-- **Splitting gives the one decomposition** of a text at its spaces: whatever decomposes the
    text is what splitting it gives, and that does decompose it. -/
theorem decomposes_iff (text : List UInt8) (parts : List (List UInt8)) :
    Decomposes text parts ↔ parts = split text := by
  constructor
  · intro decomposes
    by_cases spaced : space ∈ text
    · obtain ⟨n, cut⟩ := (joined_iff decomposes.spaceless).1 decomposes.joined
      rw [split_eq_rdropWhile spaced, cut, (decomposes.trimmed spaced).rdropWhile_eq]
    · rw [decomposes.whole spaced, (decomposes_split text).whole spaced]
  · rintro rfl
    exact decomposes_split text

/-- A space before, two between and two after. -/
example : split [32, 97, 32, 32, 98, 32, 32] = [[], [97], [], [98]] := by decide

end ObjectMachine.Words

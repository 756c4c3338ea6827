/-
  ObjectMachine/Proofs/Listings.lean
  ==================================
  **Listings of code** — a listing has one numbered line for each instruction of the code, and
  no two codes have the same one.

  A line can be read back: the name of the opcode ends at the first blank or at the end of the
  line, and how an operand is spelled depends on the opcode alone.  So equal lines are lines of
  equal instructions, and equal listings are peeled off line by line.
-/
import ObjectMachine.Proofs.CodeRoundTrip

namespace ObjectMachine

/-! ### Numbers as text -/

/-- What ends a word of a line. -/
def EndsWord (c : Char) : Prop := c = ' ' ∨ c = '\n'

instance : DecidablePred EndsWord := fun c => inferInstanceAs (Decidable (c = ' ' ∨ c = '\n'))

/-- The characters of a text are asked one by one. -/
theorem not_endsWord_of_all {cs : List Char} (h : cs.all (fun c => !decide (EndsWord c)) = true) :
    ∀ c ∈ cs, ¬EndsWord c := by
  intro c mem ends
  simpa [ends] using List.all_eq_true.1 h c mem

namespace Digits

theorem not_endsWord_of_isDigit {c : Char} (digit : c.isDigit = true) : ¬EndsWord c := by
  rintro (rfl | rfl) <;> revert digit <;> decide

theorem isDigit_of_mem_repr {n : Nat} {c : Char} (h : c ∈ (Nat.repr n).toList) :
    c.isDigit = true := by
  rw [Nat.repr_eq_ofList_toDigits, String.toList_ofList] at h
  exact Nat.isDigit_of_mem_toDigits (by decide) (by decide) h

/-- A number is known from its digits. -/
theorem repr_injective {m n : Nat} (h : Nat.repr m = Nat.repr n) : m = n := by
  rw [Nat.repr_eq_ofList_toDigits, Nat.repr_eq_ofList_toDigits, ← String.toList_inj,
    String.toList_ofList, String.toList_ofList] at h
  rw [← Nat.ofDigitChars_ten_toDigits (n := m), h, Nat.ofDigitChars_ten_toDigits]

/-- A number in its digits is not a number after a sign. -/
theorem repr_ne_minus (m n : Nat) : (Nat.repr m).toList ≠ '-' :: (Nat.repr n).toList := by
  intro h
  have minus : '-' ∈ (Nat.repr m).toList := h ▸ List.mem_cons_self ..
  have digit := isDigit_of_mem_repr minus
  revert digit
  decide

theorem signed_injective {m n : Int} (h : signed m = signed n) : m = n := by
  match m, n with
  | .ofNat m, .ofNat n => rw [repr_injective h]
  | .negSucc m, .negSucc n =>
    rw [← String.toList_inj, signed, signed, String.toList_append, String.toList_append,
      List.append_cancel_left_eq, String.toList_inj] at h
    rw [Nat.succ.inj (repr_injective h)]
  | .ofNat m, .negSucc n =>
    rw [← String.toList_inj, signed, signed, String.toList_append] at h
    exact (repr_ne_minus _ _ h).elim
  | .negSucc m, .ofNat n =>
    rw [← String.toList_inj, signed, signed, String.toList_append] at h
    exact (repr_ne_minus _ _ h.symm).elim

/-- With an explicit sign, a number that is not negative has a plus before its digits. -/
theorem withSign_injective {m n : Int} (h : withSign m = withSign n) : m = n := by
  rw [← String.toList_inj] at h
  match m, n with
  | .ofNat m, .ofNat n =>
    rw [withSign, withSign, String.toList_append, String.toList_append,
      List.append_cancel_left_eq, String.toList_inj] at h
    rw [repr_injective h]
  | .negSucc m, .negSucc n =>
    rw [withSign, withSign, String.toList_append, String.toList_append,
      List.append_cancel_left_eq, String.toList_inj] at h
    rw [Nat.succ.inj (repr_injective h)]
  | .ofNat m, .negSucc n | .negSucc m, .ofNat n =>
    rw [withSign, withSign, String.toList_append, String.toList_append] at h
    cases (List.cons.inj h).1

theorem not_endsWord_repr (n : Nat) : ∀ c ∈ (Nat.repr n).toList, ¬EndsWord c :=
  fun _ mem => not_endsWord_of_isDigit (isDigit_of_mem_repr mem)

/-- Digits after a mark are part of the same word. -/
theorem not_endsWord_append_repr (mark : List Char) (clear : ∀ c ∈ mark, ¬EndsWord c) (n : Nat) :
    ∀ c ∈ mark ++ (Nat.repr n).toList, ¬EndsWord c := by
  intro c mem
  rcases List.mem_append.1 mem with front | digit
  · exact clear c front
  · exact not_endsWord_repr n c digit

theorem not_endsWord_signed (n : Int) : ∀ c ∈ (signed n).toList, ¬EndsWord c := by
  cases n with
  | ofNat n => exact not_endsWord_repr n
  | negSucc n =>
    rw [signed, String.toList_append]
    exact not_endsWord_append_repr _ (not_endsWord_of_all (by decide)) _

theorem not_endsWord_withSign (n : Int) : ∀ c ∈ (withSign n).toList, ¬EndsWord c := by
  cases n with
  | ofNat n =>
    rw [withSign, String.toList_append]
    exact not_endsWord_append_repr _ (not_endsWord_of_all (by decide)) _
  | negSucc n =>
    rw [withSign, String.toList_append]
    exact not_endsWord_append_repr _ (not_endsWord_of_all (by decide)) _

/-- The digits with zeros in front are still digits of the same number. -/
theorem ofDigitChars_padded (width n : Nat) :
    Nat.ofDigitChars 10 (padded width n).toList 0 = n := by
  rw [padded, String.toList_ofList, List.leftpad, Nat.ofDigitChars_append,
    Nat.ofDigitChars_replicate_zero, Nat.mul_zero, Nat.ofDigitChars_ten_toDigits]

theorem isDigit_of_mem_padded {width n : Nat} {c : Char} (h : c ∈ (padded width n).toList) :
    c.isDigit = true := by
  rw [padded, String.toList_ofList, List.leftpad, List.mem_append] at h
  rcases h with zero | digit
  · rw [List.eq_of_mem_replicate zero]
    decide
  · exact Nat.isDigit_of_mem_toDigits (by decide) (by decide) digit

end Digits

/-! ### The line of an instruction -/

/-- A text that ends where some kind of character first occurs is known from any text that goes
    on after it, and so is the rest. -/
theorem eq_of_append_stop_eq {stops : Char → Prop} {a b s t : List Char} {x y : Char}
    (ha : ∀ c ∈ a, ¬stops c) (hb : ∀ c ∈ b, ¬stops c) (hx : stops x) (hy : stops y)
    (h : a ++ x :: s = b ++ y :: t) : a = b ∧ x :: s = y :: t := by
  induction a generalizing b with
  | nil =>
    cases b with
    | nil => exact ⟨rfl, h⟩
    | cons d b =>
      obtain ⟨rfl, -⟩ := List.cons.inj h
      exact (hb x (List.mem_cons_self ..) hx).elim
  | cons c a ih =>
    cases b with
    | nil =>
      obtain ⟨rfl, -⟩ := List.cons.inj h
      exact (ha c (List.mem_cons_self ..) hy).elim
    | cons d b =>
      obtain ⟨rfl, rest⟩ := List.cons.inj h
      obtain ⟨rfl, same⟩ := ih (fun c hc => ha c (List.mem_cons_of_mem _ hc))
        (fun c hc => hb c (List.mem_cons_of_mem _ hc)) rest
      exact ⟨rfl, same⟩

namespace Opcode

theorem mnemonic_injective {p q : Opcode} (h : p.mnemonic = q.mnemonic) : p = q :=
  Option.some.inj ((ofMnemonic?_mnemonic p).symm.trans (h ▸ ofMnemonic?_mnemonic q))

theorem not_endsWord_mnemonic (op : Opcode) : ∀ c ∈ op.mnemonic.toList, ¬EndsWord c := by
  cases op <;> exact not_endsWord_of_all (by decide)

/-- How an opcode spells its first operand. -/
def spelled (op : Opcode) (w : Word) : List Char :=
  match op with
  | .call | .newStr | .newArr => '#' :: (Nat.repr w.toNat).toList
  | .new => "class#".toList ++ (Nat.repr w.toNat).toList
  | .pushRef => '@' :: (Nat.repr w.toNat).toList
  | .storeArg => (Nat.repr w.toNat).toList
  | .jump | .jumpEq | .jumpNe | .jumpGt | .jumpGe | .jumpLt | .jumpLe =>
    (Digits.withSign w.signed).toList
  | _ => (Digits.signed w.signed).toList

end Opcode

/-- A word is known from its value as a signed number. -/
theorem Word.signed_injective {v w : Word} (h : v.signed = w.signed) : v = w :=
  congrArg Int32.toUInt32 (Int32.toInt_inj.1 h)

/-- A word is known from its digits. -/
theorem Word.repr_injective {v w : Word}
    (h : (Nat.repr v.toNat).toList = (Nat.repr w.toNat).toList) : v = w :=
  UInt32.toNat_inj.1 (Digits.repr_injective (String.toList_inj.1 h))

namespace Opcode

theorem spelled_injective {op : Opcode} {v w : Word} (h : op.spelled v = op.spelled w) :
    v = w := by
  unfold spelled at h
  split at h
  iterate 3 exact Word.repr_injective (List.cons.inj h).2
  · exact Word.repr_injective (List.append_cancel_left h)
  · exact Word.repr_injective (List.cons.inj h).2
  · exact Word.repr_injective h
  iterate 7 exact Word.signed_injective (Digits.withSign_injective (String.toList_inj.1 h))
  · exact Word.signed_injective (Digits.signed_injective (String.toList_inj.1 h))

theorem not_endsWord_spelled (op : Opcode) (w : Word) : ∀ c ∈ op.spelled w, ¬EndsWord c := by
  unfold spelled
  split
  iterate 3 exact Digits.not_endsWord_append_repr ['#'] (not_endsWord_of_all (by decide)) _
  · exact Digits.not_endsWord_append_repr _ (not_endsWord_of_all (by decide)) _
  · exact Digits.not_endsWord_append_repr ['@'] (not_endsWord_of_all (by decide)) _
  · exact Digits.not_endsWord_repr _
  iterate 7 exact Digits.not_endsWord_withSign _
  · exact Digits.not_endsWord_signed _

/-- What a line says after the name of the opcode. -/
def details (op : Opcode) : List Word → List Char
  | [] => []
  | [w] => ' ' :: op.spelled w
  | v :: w :: _ => ' ' :: (op.spelled v ++ ' ' :: '@' :: (Nat.repr w.toNat).toList)

/-- The details end the name of the opcode: they are none, or begin with a blank. -/
theorem exists_details_append (op : Opcode) (words : List Word) (s : List Char) :
    ∃ x t, EndsWord x ∧ op.details words ++ '\n' :: s = x :: t := by
  match words with
  | [] => exact ⟨_, _, Or.inr rfl, rfl⟩
  | [_] | _ :: _ :: _ => exact ⟨_, _, Or.inl rfl, rfl⟩

theorem newline_not_mem_details (op : Opcode) (words : List Word) :
    ∀ c ∈ op.details words, c ≠ '\n' := by
  have spelled : ∀ w, ∀ c ∈ op.spelled w, c ≠ '\n' := fun w c mem eq =>
    op.not_endsWord_spelled w c mem (Or.inr eq)
  match words with
  | [] => exact fun _ none => nomatch none
  | [w] =>
    intro c mem
    rcases List.mem_cons.1 mem with rfl | mem
    · decide
    · exact spelled w c mem
  | v :: w :: _ =>
    intro c mem
    rcases List.mem_cons.1 mem with rfl | mem
    · decide
    · rcases List.mem_append.1 mem with mem | mem
      · exact spelled v c mem
      · rcases List.mem_cons.1 mem with rfl | mem
        · decide
        · have address := Digits.not_endsWord_append_repr ['@'] (not_endsWord_of_all (by decide)) w.toNat
          exact fun eq => address c mem (Or.inr eq)

/-- As many operands as the opcode takes are known from the details. -/
theorem details_injective {op : Opcode} {vs ws : List Word} (hv : vs.length = op.arity)
    (hw : ws.length = op.arity) (h : op.details vs = op.details ws) : vs = ws := by
  have arity : op.arity ≤ 2 := by cases op <;> decide
  cases vs with
  | nil => exact (List.length_eq_zero_iff.1 (hw.trans hv.symm)).symm
  | cons v vs =>
    cases ws with
    | nil => exact List.length_eq_zero_iff.1 (hv.trans hw.symm)
    | cons w ws =>
      simp only [List.length_cons] at hv hw
      cases vs with
      | nil =>
        obtain rfl : ws = [] := List.length_eq_zero_iff.1 (Nat.succ.inj (hw.trans hv.symm))
        rw [spelled_injective (List.cons.inj h).2]
      | cons v' vs =>
        rw [List.length_cons] at hv
        cases ws with
        | nil =>
          rw [List.length_nil] at hw
          omega
        | cons w' ws =>
          rw [List.length_cons] at hw
          obtain rfl : vs = [] := List.length_eq_zero_iff.1 (by omega)
          obtain rfl : ws = [] := List.length_eq_zero_iff.1 (by omega)
          obtain ⟨first, second⟩ := eq_of_append_stop_eq (op.not_endsWord_spelled v)
            (op.not_endsWord_spelled w) (Or.inl rfl) (Or.inl rfl) (List.cons.inj h).2
          rw [spelled_injective first, Word.repr_injective (List.cons.inj (List.cons.inj second).2).2]

end Opcode

namespace Instruction

/-- An instruction as text: the name of the opcode, then the details. -/
theorem toList_text (i : Instruction) :
    i.text.toList = i.opcode.mnemonic.toList ++ i.opcode.details i.operands := by
  cases i with
  | branch condition offset =>
    unfold text
    dsimp only
    rw [String.toList_append, String.toList_append, List.append_assoc]
    cases condition <;> rfl
  | storeArg index address =>
    unfold text
    dsimp only
    simp only [String.toList_append, List.append_assoc]
    rfl
  | syscall | call | new | pushRef | pushInt | storeLocal | loadLocal | loadArg | setBytes | newInt
  | newStr | newArr | jump =>
    unfold text
    dsimp only [operands, List.foldl]
    rw [String.toList_append, String.toList_append, List.append_assoc]
    rfl
  | _ => exact (List.append_nil _).symm

/-- **A line determines its instruction**, and where the next line begins. -/
theorem eq_of_text_line_eq {i j : Instruction} {s t : List Char}
    (h : i.text.toList ++ '\n' :: s = j.text.toList ++ '\n' :: t) : i = j ∧ s = t := by
  rw [toList_text, toList_text, List.append_assoc, List.append_assoc] at h
  obtain ⟨x, s', endsX, hx⟩ := i.opcode.exists_details_append i.operands s
  obtain ⟨y, t', endsY, hy⟩ := j.opcode.exists_details_append j.operands t
  rw [hx, hy] at h
  obtain ⟨name, rest⟩ := eq_of_append_stop_eq i.opcode.not_endsWord_mnemonic
    j.opcode.not_endsWord_mnemonic endsX endsY h
  have op : i.opcode = j.opcode := Opcode.mnemonic_injective (String.toList_inj.1 name)
  rw [← hx, ← hy] at rest
  have line : '\n' = '\n' := rfl
  obtain ⟨details, below⟩ := eq_of_append_stop_eq (i.opcode.newline_not_mem_details _)
    (j.opcode.newline_not_mem_details _) line line rest
  rw [← op] at details
  have operands : i.operands = j.operands :=
    Opcode.details_injective i.length_operands (op ▸ j.length_operands) details
  have same : some i = some j := by
    rw [← i.ofWords?_operands, op, operands, j.ofWords?_operands]
  exact ⟨Option.some.inj same, (List.cons.inj below).2⟩

theorem newline_not_mem_text (i : Instruction) : ∀ c ∈ i.text.toList, c ≠ '\n' := by
  rw [toList_text]
  intro c mem
  rcases List.mem_append.1 mem with name | details
  · exact fun eq => i.opcode.not_endsWord_mnemonic c name (Or.inr eq)
  · exact i.opcode.newline_not_mem_details _ c details

end Instruction

/-! ### The lines of a listing -/

/-- The line of an instruction under its number. -/
def listingLine (number : Nat) (i : Instruction) : String :=
  Digits.padded 6 number ++ ": " ++ i.text ++ "\n"

theorem toList_listingLine (number : Nat) (i : Instruction) :
    (listingLine number i).toList =
      (Digits.padded 6 number).toList ++ (": ".toList ++ (i.text.toList ++ ['\n'])) := by
  simp only [listingLine, String.toList_append, List.append_assoc]
  rfl

/-- The line of each instruction, numbered from where the first one stands. -/
def listingLines (start : Nat) : List Instruction → List String
  | [] => []
  | i :: is => listingLine start i :: listingLines (start + i.encode.length) is

theorem length_listingLines (start : Nat) (is : List Instruction) :
    (listingLines start is).length = is.length := by
  induction is generalizing start with
  | nil => rfl
  | cons i is ih => rw [listingLines, List.length_cons, ih, List.length_cons]

/-- The number of a line says how long the code before it is. -/
theorem getElem?_listingLines (start k : Nat) (is : List Instruction) :
    (listingLines start is)[k]? =
      is[k]?.map (listingLine (start + (Instruction.encodeAll (is.take k)).length)) := by
  induction is generalizing start k with
  | nil => rfl
  | cons i is ih =>
    cases k with
    | zero => rfl
    | succ k =>
      have front : Instruction.encodeAll ((i :: is).take (k + 1)) =
          i.encode ++ Instruction.encodeAll (is.take k) := rfl
      rw [listingLines, List.getElem?_cons_succ, List.getElem?_cons_succ, ih, front,
        List.length_append, Nat.add_assoc]

/-- **Lines determine instructions.** -/
theorem listingLines_injective {start : Nat} {is js : List Instruction}
    (h : String.join (listingLines start is) = String.join (listingLines start js)) :
    is = js := by
  rw [← String.toList_inj, String.toList_join, String.toList_join] at h
  induction is generalizing start js with
  | nil =>
    cases js with
    | nil => rfl
    | cons j js =>
      rw [listingLines, List.flatMap_nil, listingLines, List.flatMap_cons, toList_listingLine] at h
      simp at h
  | cons i is ih =>
    rw [listingLines, List.flatMap_cons, toList_listingLine] at h
    cases js with
    | nil =>
      rw [listingLines, List.flatMap_nil] at h
      simp at h
    | cons j js =>
      -- both first lines carry the same number, and so do the second ones then
      rw [listingLines, List.flatMap_cons, toList_listingLine] at h
      simp only [List.append_assoc, List.append_cancel_left_eq, List.singleton_append] at h
      obtain ⟨rfl, rest⟩ := Instruction.eq_of_text_line_eq h
      rw [ih rest]

namespace Decoder

section Located

variable {d d' : Decoder} {i : Instruction} {e : DecodeError}

theorem located_of_none (h : d.next? = none) : d.located = .ok [] := by
  rw [located]
  split <;> rename_i found <;> cases h.symm.trans found
  rfl

theorem located_of_error (h : d.next? = some (.error e, d')) : d.located = .error e := by
  rw [located]
  split <;> rename_i found <;> cases h.symm.trans found
  rfl

theorem located_of_ok (h : d.next? = some (.ok i, d')) :
    d.located = d'.located.map ((d.offset, i) :: ·) := by
  rw [located]
  split <;> rename_i found <;> cases h.symm.trans found
  rfl

end Located

end Decoder

/-- Instructions with the offsets at which their code stands. -/
def Instruction.placed (offset : Nat) : List Instruction → List (Nat × Instruction)
  | [] => []
  | i :: is => (offset, i) :: placed (offset + i.encode.length) is

/-- The instructions at the front are found where their code stands. -/
theorem Decoder.located_encodeAll (is : List Instruction) (rest : List UInt8) (offset : Nat) :
    located ⟨Instruction.encodeAll is ++ rest, offset⟩ =
      (located ⟨rest, offset + (Instruction.encodeAll is).length⟩).map
        (Instruction.placed offset is ++ ·) := by
  induction is generalizing offset with
  | nil =>
    change _ = Except.map id _
    rw [Except.map_id]
    rfl
  | cons i is ih =>
    have front : Instruction.encodeAll (i :: is) = i.encode ++ Instruction.encodeAll is := rfl
    rw [front, List.append_assoc, located_of_ok (next?_encode i _ offset), ih, List.length_append,
      ← Nat.add_assoc]
    generalize located _ = found
    cases found <;> rfl

theorem map_listingLine_placed (base offset : Nat) (is : List Instruction) :
    (Instruction.placed offset is).map (fun item => listingLine (base + item.1) item.2) =
      listingLines (base + offset) is := by
  induction is generalizing offset with
  | nil => rfl
  | cons i is ih => rw [Instruction.placed, List.map_cons, ih, listingLines, Nat.add_assoc]

/-! ### The listing of a code -/

/-- Code of instructions is listed whole. -/
theorem listing_encodeAll (base : Nat) (is : List Instruction) :
    listing base (Instruction.encodeAll is) = .ok (String.join (listingLines base is)) := by
  have found := Decoder.located_encodeAll is [] 0
  rw [List.append_nil, Decoder.located_of_none (d := ⟨[], _⟩) rfl] at found
  have lines := map_listingLine_placed base 0 is
  rw [Nat.add_zero] at lines
  rw [listing, Decoder.ofBytes, found, ← lines]
  simp only [Except.map, List.append_nil]
  rfl

/-- Malformed bytes after the code of instructions are reported. -/
theorem listing_malformed (base : Nat) {is : List Instruction} {rest : List UInt8}
    {e : DecodeError} (malformed : Malformed (Instruction.encodeAll is).length rest e) :
    listing base (Instruction.encodeAll is ++ rest) = .error e := by
  rw [← Nat.zero_add (Instruction.encodeAll is).length] at malformed
  obtain ⟨d, failed⟩ := Decoder.next?_malformed malformed
  rw [listing, Decoder.ofBytes, Decoder.located_encodeAll, Decoder.located_of_error failed]
  rfl

/-- **Listing and decoding agree** on every code: both read the instructions whose code it is,
    or both stop at the same error. -/
theorem listing_cases (base : Nat) (code : List UInt8) :
    (∃ is, code = Instruction.encodeAll is ∧ (Decoder.ofBytes code).items = is.map .ok ∧
        listing base code = .ok (String.join (listingLines base is))) ∨
      ∃ (is : List Instruction) (e : DecodeError),
        (Decoder.ofBytes code).items = is.map .ok ++ [.error e] ∧
        listing base code = .error e := by
  obtain ⟨is, rest, rfl, ended⟩ := Instruction.exists_encodeAll code 0
  have items := Decoder.items_encodeAll is rest 0
  rw [Nat.zero_add] at ended items
  rcases ended with rfl | ⟨e, malformed⟩
  · rw [Decoder.items_of_none (d := ⟨[], _⟩) rfl, List.append_nil (is.map _)] at items
    rw [List.append_nil] at items ⊢
    exact Or.inl ⟨is, rfl, items, listing_encodeAll base is⟩
  · obtain ⟨d, failed⟩ := Decoder.next?_malformed malformed
    rw [Decoder.items_of_error failed] at items
    exact Or.inr ⟨is, e, items, listing_malformed base malformed⟩

/-- **A listing determines the code.**  No two codes have the same listing.  A code has one if
    decoding it gives no error: then each instruction decoded has a line, under the number at
    which its code begins.  Otherwise the listing fails with the error that the decoding gives. -/
theorem listing_determines_code (base : Nat) :
    (∀ (a b : List UInt8) (text : String),
        listing base a = .ok text → listing base b = .ok text → a = b) ∧
      ∀ code : List UInt8,
        (∀ e, listing base code = .error e ↔ .error e ∈ (Decoder.ofBytes code).items) ∧
        ((∃ text, listing base code = .ok text) ↔ ∀ e, .error e ∉ (Decoder.ofBytes code).items) ∧
        ∀ text, listing base code = .ok text →
          ∃ (is : List Instruction) (lines : List String),
            (Decoder.ofBytes code).items = is.map .ok ∧ code = Instruction.encodeAll is ∧
            text = String.join lines ∧ lines.length = is.length ∧
            ∀ k i, is[k]? = some i → ∃ number : String,
              lines[k]? = some (number ++ ": " ++ i.text ++ "\n") ∧
              (∀ c ∈ number.toList ++ i.text.toList, c ≠ '\n') ∧
              6 ≤ number.length ∧ (∀ c ∈ number.toList, c.isDigit = true) ∧
              Nat.ofDigitChars 10 number.toList 0 =
                base + (Instruction.encodeAll (is.take k)).length := by
  constructor
  · intro a b text ha hb
    rcases listing_cases base a with ⟨is, rfl, -, lists⟩ | ⟨_, _, -, fails⟩
    · rcases listing_cases base b with ⟨js, rfl, -, lists'⟩ | ⟨_, _, -, fails⟩
      · rw [lists, Except.ok.injEq] at ha
        rw [lists', Except.ok.injEq] at hb
        rw [listingLines_injective (ha.trans hb.symm)]
      · cases fails.symm.trans hb
    · cases fails.symm.trans ha
  · intro code
    rcases listing_cases base code with ⟨is, whole, items, lists⟩ | ⟨is, e, items, fails⟩
    · have clean : ∀ e : DecodeError, .error e ∉ (Decoder.ofBytes code).items := by
        intro e
        rw [items]
        simp
      refine ⟨?_, ?_, ?_⟩
      · intro e
        constructor
        · intro fails
          cases lists.symm.trans fails
        · intro mem
          exact (clean e mem).elim
      · exact ⟨fun _ => clean, fun _ => ⟨_, lists⟩⟩
      · intro text lists'
        rw [lists, Except.ok.injEq] at lists'
        refine ⟨is, listingLines base is, items, whole, lists'.symm, length_listingLines .., ?_⟩
        intro k i here
        refine ⟨Digits.padded 6 (base + (Instruction.encodeAll (is.take k)).length), ?_, ?_, ?_,
          fun c => Digits.isDigit_of_mem_padded, Digits.ofDigitChars_padded ..⟩
        · rw [getElem?_listingLines, here]
          rfl
        · intro c mem
          rcases List.mem_append.1 mem with digit | mem
          · exact fun eq => Digits.not_endsWord_of_isDigit
              (Digits.isDigit_of_mem_padded digit) (Or.inr eq)
          · exact i.newline_not_mem_text c mem
        · rw [Digits.padded, String.length_ofList, List.length_leftpad]
          exact Nat.le_max_left ..
    · refine ⟨?_, ?_, ?_⟩
      · intro e'
        rw [fails, items]
        simp [eq_comm]
      · constructor
        · rintro ⟨text, lists⟩
          cases fails.symm.trans lists
        · intro clean
          exact (clean e (by rw [items]; simp)).elim
      · intro text lists
        cases fails.symm.trans lists

end ObjectMachine

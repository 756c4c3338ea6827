/-
  ObjectMachine/Proofs/NumericOperands.lean
  =========================================
  **Which words are integers** — the numerals among the operands, and what becomes of every
  other word.

  The grammar in `SourceGrammar` says what a reader that has accepted a word has read.  Here is
  the other direction: every word of the grammar is accepted, so that reader and grammar agree
  on all words.  A regular numeral has at most one sign, in front.  Hexadecimal digits are
  also read with a sign of their own; where both signs are minus, the value before the last
  negation may be the one number that has no negative in 64 bits.
-/
import ObjectMachine.Proofs.SourceGrammar

namespace ObjectMachine

/-! ### Digits -/

namespace Numeral

section Digits

variable {base : Nat} {digit? : Char → Option Nat} {cs : List Char} {n : Nat}

theorem foldlM_of_digits {k : Nat} {digits : List Nat} (each : cs.map digit? = digits.map some) :
    cs.foldlM (fun n c => (digit? c).map (n * base + ·)) k =
      some (k * base ^ digits.length + Nat.ofDigits base digits.reverse) := by
  induction cs generalizing k digits with
  | nil =>
    obtain rfl : digits = [] := by simpa using each.symm
    simp
  | cons c cs ih =>
    obtain ⟨d, others, rfl, first, rest⟩ := List.map_eq_cons_iff.1 each.symm
    rw [List.foldlM_cons, ← first, Option.map_some]
    change cs.foldlM _ (k * base + d) = _
    rw [ih rest.symm]
    simp only [List.reverse_cons, List.length_cons, Nat.ofDigits_append, Nat.ofDigits_singleton,
      List.length_reverse]
    congr 1
    ring

theorem digits?_eq_some_iff : digits? base digit? cs = some n ↔ Positional base digit? cs n := by
  constructor
  · exact positional_of_digits?
  · rintro ⟨nonempty, digits, each, rfl⟩
    unfold digits?
    rw [if_neg (by simpa using nonempty), foldlM_of_digits each]
    simp

theorem Positional.digit_of_mem (h : Positional base digit? cs n) {c : Char} (mem : c ∈ cs) :
    ∃ d, digit? c = some d := by
  obtain ⟨-, digits, each, -⟩ := h
  have mem' : digit? c ∈ digits.map some := each ▸ List.mem_map_of_mem mem
  obtain ⟨d, -, found⟩ := List.mem_map.1 mem'
  exact ⟨d, found.symm⟩

end Digits

/-! ### Numerals -/

/-- **A regular numeral** and its value: an optional minus sign, and then one or more decimal
    digits, or `0x` and one or more hexadecimal digits. -/
inductive Regular : List Char → Int → Prop where
  | decimal {cs : List Char} {n : Nat} (digits : Positional 10 decimalDigit? cs n) :
      Regular cs n
  | hex {cs : List Char} {n : Nat} (digits : Positional 16 hexDigit? cs n) :
      Regular ('0' :: 'x' :: cs) n
  | minusDecimal {cs : List Char} {n : Nat} (digits : Positional 10 decimalDigit? cs n) :
      Regular ('-' :: cs) (-n)
  | minusHex {cs : List Char} {n : Nat} (digits : Positional 16 hexDigit? cs n) :
      Regular ('-' :: '0' :: 'x' :: cs) (-n)

/-- A numeral whose hexadecimal digits have a sign of their own. -/
inductive InnerSigned : List Char → Int → Prop where
  | plus {cs : List Char} {n : Nat} (digits : Positional 16 hexDigit? cs n) :
      InnerSigned ('0' :: 'x' :: '+' :: cs) n
  | minus {cs : List Char} {n : Nat} (digits : Positional 16 hexDigit? cs n) :
      InnerSigned ('0' :: 'x' :: '-' :: cs) (-n)
  | minusPlus {cs : List Char} {n : Nat} (digits : Positional 16 hexDigit? cs n) :
      InnerSigned ('-' :: '0' :: 'x' :: '+' :: cs) (-n)
  | minusMinus {cs : List Char} {n : Nat} (digits : Positional 16 hexDigit? cs n) :
      InnerSigned ('-' :: '0' :: 'x' :: '-' :: cs) n

/-- **What is read as an integer**, and its word: a numeral whose value lies between `-2 ^ 31` and
    `2 ^ 32 - 1` stands for the value modulo `2 ^ 32`, read as a signed word. -/
def Stands (cs : List Char) (w : Word) : Prop :=
  ∃ value : Int, (Regular cs value ∨ InnerSigned cs value) ∧
    -2 ^ 31 ≤ value ∧ value ≤ 2 ^ 32 - 1 ∧ w.signed = value.bmod (2 ^ 32)

theorem magnitude?_eq_some_iff {cs : List Char} {value : Int} :
    magnitude? cs = some value ↔ Magnitude cs value := by
  constructor
  · exact magnitude_of_magnitude?
  · intro h
    cases h with
    | @decimal cs n digits =>
      unfold magnitude?
      split
      · -- `x` is no decimal digit
        obtain ⟨d, found⟩ := digits.digit_of_mem (c := 'x') (by simp)
        cases found
      · rename_i c cs _
        obtain ⟨d, found⟩ := digits.digit_of_mem (c := c) (by simp)
        have isDigit : c.isDigit = true := by
          by_contra other
          simp [decimalDigit?, other] at found
        rw [if_pos isDigit, digits?_eq_some_iff.2 digits]
        rfl
      · exact absurd rfl digits.1
    | @hex cs n digits =>
      change signedHex? cs = _
      unfold signedHex?
      split
      · obtain ⟨d, found⟩ := digits.digit_of_mem (c := '-') (by simp)
        cases found
      · obtain ⟨d, found⟩ := digits.digit_of_mem (c := '+') (by simp)
        cases found
      · rw [digits?_eq_some_iff.2 digits]
        rfl
    | plusHex digits => simp [magnitude?, signedHex?, digits?_eq_some_iff.2 digits]
    | minusHex digits => simp [magnitude?, signedHex?, digits?_eq_some_iff.2 digits]

theorem Magnitude.sign_free {cs : List Char} {value : Int} (h : Magnitude ('-' :: cs) value) :
    False := by
  cases h with
  | decimal digits =>
    obtain ⟨d, found⟩ := digits.digit_of_mem List.mem_cons_self
    cases found

theorem read_plain {cs : List Char} (plain : ∀ rest, cs ≠ '-' :: rest) :
    read cs = .ok ((magnitude? cs).bind toWord?) := by
  unfold read
  split
  · exact absurd rfl (plain _)
  · rfl

theorem read_minus {cs : List Char} {value : Int} (found : magnitude? cs = some value) :
    read ('-' :: cs) =
      if value = -0x8000000000000000 then .error .overflow else .ok (toWord? (-value)) := by
  simp only [read, found]

theorem toWord?_eq_some_iff {value : Int} {w : Word} :
    toWord? value = some w ↔ -2 ^ 31 ≤ value ∧ value < 2 ^ 32 ∧ w = Word.ofInt value := by
  constructor
  · exact toWord?_eq_some
  · rintro ⟨low, high, rfl⟩
    exact if_pos ⟨low, high⟩

theorem read_eq_some_iff {cs : List Char} {w : Word} : read cs = .ok (some w) ↔ Denotes cs w := by
  constructor
  · exact denotes_of_read
  · intro h
    cases h with
    | @plain cs value magnitude low high =>
      have plain : ∀ rest, cs ≠ '-' :: rest := by
        rintro rest rfl
        exact magnitude.sign_free
      rw [read_plain plain, magnitude?_eq_some_iff.2 magnitude]
      exact congrArg Except.ok (toWord?_eq_some_iff.2 ⟨low, high, rfl⟩)
    | @minus cs value magnitude low high =>
      rw [read_minus (magnitude?_eq_some_iff.2 magnitude), if_neg (by omega),
        toWord?_eq_some_iff.2 ⟨low, high, rfl⟩]

/-- Reading faults on one value: digits after two minus signs that are `2 ^ 63`. -/
theorem read_eq_error_iff {cs : List Char} {cause : Fault} :
    read cs = .error cause ↔ cause = .overflow ∧
      ∃ hex, cs = '-' :: '0' :: 'x' :: '-' :: hex ∧ Positional 16 hexDigit? hex (2 ^ 63) := by
  constructor
  · intro h
    unfold read at h
    split at h
    · rename_i cs
      split at h
      · cases h
      · rename_i value found
        split at h
        · rename_i least
          cases h
          refine ⟨rfl, ?_⟩
          -- only a minus sign after `0x` makes a value negative
          cases magnitude_of_magnitude? found with
          | decimal digits => omega
          | hex digits => omega
          | plusHex digits => omega
          | @minusHex hex n digits =>
            have value : n = 2 ^ 63 := by omega
            exact ⟨hex, rfl, value ▸ digits⟩
        · cases h
    · cases h
  · rintro ⟨rfl, hex, rfl, digits⟩
    rw [read_minus (magnitude?_eq_some_iff.2 (.minusHex digits))]
    rfl

/-- A word is known by its signed value. -/
theorem eq_ofInt_iff {w : Word} {value : Int} :
    w = Word.ofInt value ↔ w.signed = value.bmod (2 ^ 32) := by
  have signed : (Word.ofInt value).signed = value.bmod (2 ^ 32) := by
    have bits : (Word.ofInt value).toBitVec = BitVec.ofInt 32 value := by
      apply BitVec.eq_of_toNat_eq
      simp [Word.ofInt, UInt32.ofInt, Int.emod_lt_of_pos value (show 0 < 4294967296 by decide)]
    change (Word.ofInt value).toBitVec.toInt = _
    rw [bits, BitVec.toInt_ofInt]
  constructor
  · rintro rfl
    exact signed
  · intro same
    rw [← signed] at same
    exact UInt32.toBitVec_inj.1 (BitVec.toInt_inj.1 same)

/-- The grammar of `Denotes`, with the sign in front and the sign after `0x` told apart. -/
theorem denotes_iff_stands {cs : List Char} {w : Word} : Denotes cs w ↔ Stands cs w := by
  constructor
  · intro h
    cases h with
    | @plain cs value magnitude low high =>
      refine ⟨value, ?_, low, by omega, eq_ofInt_iff.1 rfl⟩
      cases magnitude with
      | decimal digits => exact Or.inl (.decimal digits)
      | hex digits => exact Or.inl (.hex digits)
      | plusHex digits => exact Or.inr (.plus digits)
      | minusHex digits => exact Or.inr (.minus digits)
    | @minus cs value magnitude low high =>
      refine ⟨-value, ?_, low, by omega, eq_ofInt_iff.1 rfl⟩
      cases magnitude with
      | decimal digits => exact Or.inl (.minusDecimal digits)
      | hex digits => exact Or.inl (.minusHex digits)
      | plusHex digits => exact Or.inr (.minusPlus digits)
      | minusHex digits =>
        rw [Int.neg_neg]
        exact Or.inr (.minusMinus digits)
  · rintro ⟨value, spelled, low, high, word⟩
    obtain rfl := eq_ofInt_iff.2 word
    have high : value < 2 ^ 32 := by omega
    rcases spelled with regular | inner
    · cases regular with
      | decimal digits => exact .plain (.decimal digits) low high
      | hex digits => exact .plain (.hex digits) low high
      | minusDecimal digits => exact .minus (.decimal digits) low high
      | minusHex digits => exact .minus (.hex digits) low high
    · cases inner with
      | plus digits => exact .plain (.plusHex digits) low high
      | minus digits => exact .plain (.minusHex digits) low high
      | minusPlus digits => exact .minus (.plusHex digits) low high
      | @minusMinus cs n digits =>
        have twice : (n : Int) = - -n := (Int.neg_neg _).symm
        rw [twice] at low high ⊢
        exact .minus (.minusHex digits) low high

end Numeral

/-! ### Words -/

namespace Operand

/-- A word that begins like an identifier is no numeral. -/
theorem read_of_isIdentifier {cs : List Char} (h : isIdentifier cs = true) :
    Numeral.read cs = .ok none := by
  cases cs with
  | nil => cases h
  | cons c cs =>
    obtain ⟨start, -⟩ := Bool.and_eq_true_iff.1 h
    have noDigit : c.isDigit = false := by
      by_contra digit
      have high : c.toNat ≤ 57 := (Char.isDigit_iff_toNat.1 (by simpa using digit)).2
      -- letters and the underscore come after the digits
      rcases Bool.or_eq_true_iff.1 start with letter | underscore
      · rcases Bool.or_eq_true_iff.1 letter with upper | lower
        · have low : 65 ≤ c.toNat := (of_decide_eq_true upper).1
          omega
        · have low : 97 ≤ c.toNat := of_decide_eq_true (Bool.and_eq_true_iff.1 lower).1
          omega
      · rw [beq_iff_eq.1 underscore] at high
        exact absurd high (by decide)
    have plain : ∀ rest, c :: cs ≠ '-' :: rest := by
      rintro rest eq
      cases eq
      cases start
    rw [Numeral.read_plain plain]
    unfold Numeral.magnitude?
    split
    · rename_i eq
      cases eq
      cases noDigit
    · rename_i eq
      cases eq
      rw [if_neg (by simp [noDigit])]
      rfl
    · rename_i eq
      cases eq

theorem ofWord?_number (digits : String) :
    ofWord? ("#" ++ digits) = (Numeral.read digits.toList).map (Option.map .number) := by
  have chars : ("#" ++ digits).toList = '#' :: digits.toList := by simp
  simp only [ofWord?, chars]
  cases Numeral.read digits.toList <;> rfl

theorem ofWord?_label (name : String) :
    ofWord? ("@" ++ name) =
      .ok (if isIdentifier name.toList then some (.label name) else none) := by
  simp [ofWord?]

/-- Reading a word that has neither mark in front: a numeral, or else a name. -/
theorem ofWord?_bare {word : String} (number : ∀ digits, word ≠ "#" ++ digits)
    (label : ∀ name, word ≠ "@" ++ name) :
    ofWord? word = (Numeral.read word.toList).map fun
      | some w => some (.word w)
      | none => if isIdentifier word.toList then some (.name word) else none := by
  have unmarked : ∀ {c : Char} {cs : List Char}, word.toList = c :: cs →
      word = String.singleton c ++ String.ofList cs := by
    intro c cs chars
    apply String.toList_inj.1
    simp [chars]
  unfold ofWord?
  split
  · rename_i cs chars
    exact absurd (unmarked chars) (number _)
  · rename_i cs chars
    exact absurd (unmarked chars) (label _)
  · cases Numeral.read word.toList with
    | error cause => rfl
    | ok value => cases value <;> rfl

/-- The words on which reading faults: two minus signs around `0x`, and digits that are `2 ^ 63`. -/
def Overflows (word : String) : Prop :=
  ∃ digits : String, Numeral.Positional 16 Numeral.hexDigit? digits.toList (2 ^ 63) ∧
    (word = "-0x-" ++ digits ∨ word = "#-0x-" ++ digits)

/-- Neither a numeral nor an identifier begins with a mark. -/
theorem unmarked {word : String}
    (written : (∃ w, Numeral.Denotes word.toList w) ∨ isIdentifier word.toList = true) :
    (∀ digits, word ≠ "#" ++ digits) ∧ ∀ name, word ≠ "@" ++ name := by
  have first : ∀ (c : Char) (cs : List Char), c = '#' ∨ c = '@' → word.toList ≠ c :: cs := by
    intro c cs mark chars
    rw [chars] at written
    rcases written with ⟨w, denotes⟩ | identifier
    · have none : Numeral.read (c :: cs) = .ok none := by rcases mark with rfl | rfl <;> rfl
      rw [← Numeral.read_eq_some_iff, none] at denotes
      cases denotes
    · rcases mark with rfl | rfl <;> cases identifier
  constructor
  · rintro digits rfl
    exact first '#' digits.toList (Or.inl rfl) (by simp)
  · rintro name rfl
    exact first '@' name.toList (Or.inr rfl) (by simp)

theorem ofWord?_eq_some_iff {word : String} {operand : Operand} :
    ofWord? word = .ok (some operand) ↔ Spelled (.word word) operand := by
  constructor
  · exact spelled_of_ofWord?
  · intro h
    cases h with
    | number numeral =>
      rw [ofWord?_number, Numeral.read_eq_some_iff.2 numeral]
      rfl
    | label identifier => rw [ofWord?_label, if_pos identifier]
    | word numeral =>
      obtain ⟨number, label⟩ := unmarked (Or.inl ⟨_, numeral⟩)
      rw [ofWord?_bare number label, Numeral.read_eq_some_iff.2 numeral]
      rfl
    | name identifier =>
      obtain ⟨number, label⟩ := unmarked (Or.inr identifier)
      rw [ofWord?_bare number label, read_of_isIdentifier identifier]
      exact congrArg Except.ok (if_pos identifier)

theorem ofWord?_eq_error_iff {word : String} {cause : Fault} :
    ofWord? word = .error cause ↔ cause = .overflow ∧ Overflows word := by
  have faults : ∀ {text : String}, Numeral.read text.toList = .error cause ↔ cause = .overflow ∧
      ∃ digits : String, Numeral.Positional 16 Numeral.hexDigit? digits.toList (2 ^ 63) ∧
        text = "-0x-" ++ digits := by
    intro text
    rw [Numeral.read_eq_error_iff]
    refine and_congr_right fun _ => ⟨?_, ?_⟩
    · rintro ⟨hex, chars, value⟩
      refine ⟨String.ofList hex, by simpa using value, String.toList_inj.1 ?_⟩
      simp [chars]
    · rintro ⟨digits, value, rfl⟩
      exact ⟨digits.toList, by simp, value⟩
  have map : ∀ {α : Type} {f : Option Word → α} {x : Except Fault (Option Word)},
      x.map f = .error cause ↔ x = .error cause := by
    intro α f x
    cases x <;> simp [Except.map]
  by_cases number : ∃ text, word = "#" ++ text
  · obtain ⟨text, rfl⟩ := number
    rw [ofWord?_number, map, faults]
    refine and_congr_right fun _ => exists_congr fun digits => and_congr_right fun _ => ?_
    simp [← String.toList_inj]
  by_cases label : ∃ name, word = "@" ++ name
  · obtain ⟨name, rfl⟩ := label
    rw [ofWord?_label]
    simp [Overflows, ← String.toList_inj]
  · push Not at number label
    rw [ofWord?_bare number label, map, faults]
    refine and_congr_right fun _ => exists_congr fun digits => and_congr_right fun _ => ?_
    refine ⟨Or.inl, fun either => either.resolve_right ?_⟩
    rintro rfl
    exact number ("-0x-" ++ digits) (by simp [← String.toList_inj])

end Operand

/-! ### Operands -/

namespace Layout

theorem operand_eq_ok_iff {number : Nat} {token : Token} {operand : Operand} :
    Layout.operand number token = .ok operand ↔ Operand.Spelled token operand := by
  constructor
  · exact spelled_of_operand
  · intro spelled
    cases token with
    | quoted text =>
      cases spelled
      rfl
    | word word => rw [Layout.operand, Operand.ofWord?_eq_some_iff.2 spelled]

/-- A word that is no operand is reported, unless reading it faults. -/
theorem operand_eq_error_iff {number : Nat} {word : String} {e : AssemblyError} :
    Layout.operand number (.word word) = .error e ↔
      (Operand.Overflows word ∧ e = .fault .overflow) ∨
        (¬Operand.Overflows word ∧ (∀ operand, ¬Operand.Spelled (.word word) operand) ∧
          e = .badOperand number word) := by
  rw [Layout.operand]
  cases read : Operand.ofWord? word with
  | error cause =>
    obtain ⟨rfl, faulty⟩ := Operand.ofWord?_eq_error_iff.1 read
    simp [faulty, eq_comm]
  | ok found =>
    have sane : ¬Operand.Overflows word := by
      intro faulty
      cases read.symm.trans (Operand.ofWord?_eq_error_iff.2 ⟨rfl, faulty⟩)
    have spelled : ∀ operand, Operand.Spelled (.word word) operand ↔ found = some operand := by
      intro operand
      rw [← Operand.ofWord?_eq_some_iff, read, Except.ok.injEq]
    cases found with
    | some operand => simp [sane, spelled]
    | none => simp [sane, spelled, eq_comm]

/-- **Which words are integers.**  A word is an integer operand exactly if it is a numeral that
    fits a word, bare or after `#`; it is a label after `@` or a name exactly if it is an
    identifier; it is never taken for a text; and every other word is reported, but for the
    words that end in a fault. -/
theorem integer_operands_are_numerals (number : Nat) (word : String) :
    (∀ w, Layout.operand number (.word word) = .ok (.word w) ↔ Numeral.Stands word.toList w) ∧
      (∀ w, Layout.operand number (.word word) = .ok (.number w) ↔
        ∃ digits, word = "#" ++ digits ∧ Numeral.Stands digits.toList w) ∧
      (∀ name, Layout.operand number (.word word) = .ok (.label name) ↔
        word = "@" ++ name ∧ Operand.isIdentifier name.toList = true) ∧
      (∀ name, Layout.operand number (.word word) = .ok (.name name) ↔
        word = name ∧ Operand.isIdentifier name.toList = true) ∧
      (∀ text, Layout.operand number (.word word) ≠ .ok (.text text)) ∧
      (∀ e, Layout.operand number (.word word) = .error e →
        e = .badOperand number word ∨ e = .fault .overflow) ∧
      (Layout.operand number (.word word) = .error (.fault .overflow) ↔
        Operand.Overflows word) := by
  simp only [operand_eq_ok_iff, ← Numeral.denotes_iff_stands, Ne]
  refine ⟨fun w => ⟨?_, .word⟩, fun w => ⟨?_, ?_⟩, fun name => ⟨?_, ?_⟩, fun name => ⟨?_, ?_⟩,
    nofun, fun e => ?_, ?_⟩
  · rintro ⟨⟩
    assumption
  · rintro ⟨⟩
    exact ⟨_, rfl, by assumption⟩
  · rintro ⟨digits, rfl, numeral⟩
    exact .number numeral
  · rintro ⟨⟩
    exact ⟨rfl, by assumption⟩
  · rintro ⟨rfl, identifier⟩
    exact .label identifier
  · rintro ⟨⟩
    exact ⟨rfl, by assumption⟩
  · rintro ⟨rfl, identifier⟩
    exact .name identifier
  · rw [operand_eq_error_iff]
    rintro (⟨-, rfl⟩ | ⟨-, -, rfl⟩)
    · exact Or.inr rfl
    · exact Or.inl rfl
  · rw [operand_eq_error_iff]
    simp

/-- A sign after `0x` makes no regular numeral, but it is read; and two minus signs around `0x`
    can leave the host's integers. -/
theorem inner_sign_is_read :
    (∀ value, ¬Numeral.Regular "0x+10".toList value) ∧
      Layout.operand 1 (.word "0x+10") = .ok (.word 16) ∧
      (∀ value, ¬Numeral.Regular "-0x-8000000000000000".toList value) ∧
      Layout.operand 1 (.word "-0x-8000000000000000") = .error (.fault .overflow) := by
  refine ⟨?_, by decide +kernel, ?_, by decide +kernel⟩
  · intro value regular
    change Numeral.Regular ['0', 'x', '+', '1', '0'] value at regular
    cases regular with
    | decimal digits =>
      obtain ⟨d, found⟩ := digits.digit_of_mem (c := 'x') (by simp)
      cases found
    | hex digits =>
      obtain ⟨d, found⟩ := digits.digit_of_mem (c := '+') (by simp)
      cases found
  · intro value regular
    change Numeral.Regular ('-' :: '0' :: 'x' :: '-' :: _) value at regular
    cases regular with
    | decimal digits =>
      obtain ⟨d, found⟩ := digits.digit_of_mem (c := '-') (by simp)
      cases found
    | minusDecimal digits =>
      obtain ⟨d, found⟩ := digits.digit_of_mem (c := 'x') (by simp)
      cases found
    | minusHex digits =>
      obtain ⟨d, found⟩ := digits.digit_of_mem (c := '-') (by simp)
      cases found

end Layout

end ObjectMachine

import Mathlib.Data.List.Basic
import Mathlib.Data.List.TakeWhile
import Mathlib.Data.Nat.Digits.Defs

/-!
# Lines and numerals of plain text

Text is a list of characters.  The lines of a text are those of Python's
`str.splitlines`, which breaks at more characters than the newline, and a text
file is read with universal newlines.  Numerals are read with the digits of any
script and printed in ASCII, up to a length that the runtime sets.
-/

namespace PlainText

abbrev Text := List Char

/-! ## Lines -/

/-- The separators of `str.splitlines`. -/
def isBreak (c : Char) : Bool :=
  [0x0a, 0x0b, 0x0c, 0x0d, 0x1c, 0x1d, 0x1e, 0x85, 0x2028, 0x2029].contains
    c.toNat

/-- One more character at the start of the first line. -/
def consFirst (c : Char) : List Text → List Text
  | [] => [[c]]
  | line :: lines => (c :: line) :: lines

/-- `str.splitlines()`; a carriage return and the newline after it are one
separator. -/
def splitlines : Text → List Text
  | [] => []
  | c :: cs =>
      if c = '\r' ∧ cs.head? = some '\n' then splitlines cs
      else if isBreak c then [] :: splitlines cs
      else consFirst c (splitlines cs)

/-- Universal newlines: what a text file reads as. -/
def readText : Text → Text
  | [] => []
  | c :: cs =>
      if c = '\r' then
        if cs.head? = some '\n' then readText cs else '\n' :: readText cs
      else c :: readText cs

/-- Lines, each with its newline. -/
def unlines (lines : List Text) : Text :=
  lines.flatMap (fun line => line ++ ['\n'])

/-- A line without a separator. -/
def Unbroken (line : Text) : Prop := ∀ c ∈ line, isBreak c = false

theorem isBreak_newline : isBreak '\n' = true := by decide

theorem unlines_cons (line : Text) (lines : List Text) :
    unlines (line :: lines) = line ++ '\n' :: unlines lines := by
  simp [unlines]

theorem unbroken_nil : Unbroken [] := by
  intro c member
  exact absurd member (by simp)

theorem unbroken_cons {c : Char} {line : Text} :
    Unbroken (c :: line) ↔ isBreak c = false ∧ Unbroken line := by
  simp [Unbroken]

theorem unbroken_append {first second : Text} :
    Unbroken (first ++ second) ↔ Unbroken first ∧ Unbroken second := by
  simp [Unbroken, or_imp, forall_and]

theorem Unbroken.newline_notMem {line : Text} (unbroken : Unbroken line) :
    '\n' ∉ line := by
  intro member
  exact absurd (unbroken _ member) (by decide)

theorem Unbroken.return_notMem {line : Text} (unbroken : Unbroken line) :
    '\r' ∉ line := by
  intro member
  exact absurd (unbroken _ member) (by decide)

theorem intercalate_newline {lines : List Text} (nonempty : lines ≠ []) :
    List.intercalate ['\n'] lines ++ ['\n'] = unlines lines := by
  induction lines with
  | nil => exact absurd rfl nonempty
  | cons line lines induction =>
      cases lines with
      | nil => simp [List.intercalate, unlines]
      | cons next lines =>
          rw [unlines_cons, ← induction (by simp)]
          simp [List.intercalate]

theorem append_newline_inj {line line' rest rest' : Text}
    (noNewline : '\n' ∉ line) (noNewline' : '\n' ∉ line')
    (same : line ++ '\n' :: rest = line' ++ '\n' :: rest') :
    line = line' ∧ rest = rest' := by
  induction line generalizing line' with
  | nil =>
      cases line' with
      | nil => exact ⟨rfl, (List.cons.inj same).2⟩
      | cons c cs =>
          have newline : '\n' = c := (List.cons.inj same).1
          exact absurd (newline ▸ List.mem_cons_self) noNewline'
  | cons c cs induction =>
      cases line' with
      | nil =>
          have newline : c = '\n' := (List.cons.inj same).1
          exact absurd (newline ▸ List.mem_cons_self) noNewline
      | cons c' cs' =>
          obtain ⟨head, tail⟩ := List.cons.inj same
          obtain ⟨lines, rests⟩ := induction
            (fun member => noNewline (List.mem_cons_of_mem _ member))
            (fun member => noNewline' (List.mem_cons_of_mem _ member)) tail
          exact ⟨by rw [head, lines], rests⟩

/-- Lines without newlines are determined by the text. -/
theorem unlines_injective {lines lines' : List Text}
    (noNewline : ∀ line ∈ lines, '\n' ∉ line)
    (noNewline' : ∀ line ∈ lines', '\n' ∉ line)
    (same : unlines lines = unlines lines') : lines = lines' := by
  induction lines generalizing lines' with
  | nil =>
      cases lines' with
      | nil => rfl
      | cons line lines => simp [unlines] at same
  | cons line lines induction =>
      cases lines' with
      | nil => simp [unlines] at same
      | cons line' lines' =>
          rw [unlines_cons, unlines_cons] at same
          obtain ⟨head, tail⟩ := List.forall_mem_cons.mp noNewline
          obtain ⟨head', tail'⟩ := List.forall_mem_cons.mp noNewline'
          obtain ⟨first, rest⟩ := append_newline_inj head head' same
          rw [first, induction tail tail' rest]

theorem consFirst_ne_nil (c : Char) (lines : List Text) :
    consFirst c lines ≠ [] := by
  cases lines <;> simp [consFirst]

theorem consFirst_append {lines : List Text} (nonempty : lines ≠ []) (c : Char)
    (more : List Text) :
    consFirst c (lines ++ more) = consFirst c lines ++ more := by
  cases lines with
  | nil => exact absurd rfl nonempty
  | cons line lines => rfl

theorem splitlines_ne_nil {text : Text} (nonempty : text ≠ []) :
    splitlines text ≠ [] := by
  induction text with
  | nil => exact absurd rfl nonempty
  | cons c cs induction =>
      rw [splitlines]
      split
      · rename_i pair
        apply induction
        rintro rfl
        exact absurd pair.2 (by simp)
      · split
        · simp
        · exact consFirst_ne_nil c _

theorem head?_append_newline (text rest : Text) :
    (text ++ '\n' :: rest).head? = (text ++ ['\n']).head? := by
  cases text <;> rfl

/-- After a newline the splitting starts anew. -/
theorem splitlines_append (text rest : Text) :
    splitlines (text ++ '\n' :: rest) =
      splitlines (text ++ ['\n']) ++ splitlines rest := by
  induction text with
  | nil => simp [splitlines, isBreak_newline]
  | cons c cs induction =>
      rw [List.cons_append, List.cons_append, splitlines, splitlines,
        head?_append_newline, induction]
      split
      · rfl
      · split
        · rfl
        · exact consFirst_append (splitlines_ne_nil (by simp)) c _

theorem splitlines_unbroken_append {line text : Text} (unbroken : Unbroken line)
    (nonempty : text ≠ []) :
    ∃ first others, splitlines (line ++ text) = (line ++ first) :: others := by
  induction line with
  | nil => exact List.exists_cons_of_ne_nil (splitlines_ne_nil nonempty)
  | cons c cs induction =>
      obtain ⟨head, tail⟩ := unbroken_cons.mp unbroken
      obtain ⟨first, others, rest⟩ := induction tail
      have other : c ≠ '\r' := by
        rintro rfl
        exact absurd head (by decide)
      refine ⟨first, others, ?_⟩
      rw [List.cons_append, splitlines, if_neg (fun pair => other pair.1),
        if_neg (by simp [head]), rest]
      rfl

theorem splitlines_unbroken {line : Text} (unbroken : Unbroken line) :
    splitlines (line ++ ['\n']) = [line] := by
  induction line with
  | nil => simp [splitlines, isBreak_newline]
  | cons c cs induction =>
      obtain ⟨head, tail⟩ := unbroken_cons.mp unbroken
      have other : c ≠ '\r' := by
        rintro rfl
        exact absurd head (by decide)
      rw [List.cons_append, splitlines, if_neg (fun pair => other pair.1),
        if_neg (by simp [head]), induction tail]
      rfl

theorem splitlines_unlines {lines : List Text}
    (unbroken : ∀ line ∈ lines, Unbroken line) :
    splitlines (unlines lines) = lines := by
  induction lines with
  | nil => rfl
  | cons line lines induction =>
      obtain ⟨head, tail⟩ := List.forall_mem_cons.mp unbroken
      rw [unlines_cons, splitlines_append, splitlines_unbroken head,
        induction tail]
      rfl

theorem unbroken_of_mem_consFirst {c : Char} (inside : isBreak c = false)
    {lines : List Text} (unbroken : ∀ line ∈ lines, Unbroken line) :
    ∀ line ∈ consFirst c lines, Unbroken line := by
  cases lines with
  | nil =>
      intro line member
      obtain rfl := List.mem_singleton.mp member
      exact unbroken_cons.mpr ⟨inside, unbroken_nil⟩
  | cons first lines =>
      obtain ⟨head, tail⟩ := List.forall_mem_cons.mp unbroken
      exact List.forall_mem_cons.mpr ⟨unbroken_cons.mpr ⟨inside, head⟩, tail⟩

theorem unbroken_of_mem_splitlines (text : Text) :
    ∀ line ∈ splitlines text, Unbroken line := by
  induction text with
  | nil =>
      intro line member
      exact absurd member (by simp [splitlines])
  | cons c cs induction =>
      rw [splitlines]
      split
      · exact induction
      · split
        · exact List.forall_mem_cons.mpr ⟨unbroken_nil, induction⟩
        · rename_i inside
          exact unbroken_of_mem_consFirst (by simpa using inside) induction

/-! ## Universal newlines -/

theorem readText_append_of_notMem {line : Text} (noReturn : '\r' ∉ line)
    (text : Text) : readText (line ++ text) = line ++ readText text := by
  induction line with
  | nil => rfl
  | cons c cs induction =>
      have head : c ≠ '\r' := fun same => noReturn (same ▸ List.mem_cons_self)
      have tail : '\r' ∉ cs :=
        fun member => noReturn (List.mem_cons_of_mem _ member)
      rw [List.cons_append, readText, if_neg head, induction tail,
        List.cons_append]

theorem readText_eq_self {text : Text} (noReturn : '\r' ∉ text) :
    readText text = text := by
  have whole := readText_append_of_notMem noReturn []
  rw [readText, List.append_nil] at whole
  exact whole

theorem readText_append (text rest : Text) :
    readText (text ++ '\n' :: rest) =
      readText (text ++ ['\n']) ++ readText rest := by
  induction text with
  | nil =>
      rw [List.nil_append, List.nil_append, readText, readText,
        if_neg (by decide), if_neg (by decide)]
      rfl
  | cons c cs induction =>
      rw [List.cons_append, List.cons_append, readText, readText,
        head?_append_newline, induction]
      split
      · split <;> rfl
      · rfl

theorem readText_newline (text : Text) :
    ∃ start, readText (text ++ ['\n']) = start ++ ['\n'] := by
  induction text with
  | nil => exact ⟨[], rfl⟩
  | cons c cs induction =>
      obtain ⟨start, ending⟩ := induction
      rw [List.cons_append, readText, ending]
      split
      · split
        · exact ⟨start, rfl⟩
        · exact ⟨'\n' :: start, rfl⟩
      · exact ⟨c :: start, rfl⟩

/-! ## Numerals -/

theorem toNat_of_isDigit {c : Char} (digit : c.isDigit = true) :
    48 ≤ c.toNat ∧ c.toNat ≤ 57 := by
  simp only [Char.isDigit, Bool.and_eq_true, decide_eq_true_eq] at digit
  exact digit

theorem isBreak_of_isDigit {c : Char} (digit : c.isDigit = true) :
    isBreak c = false := by
  have small := toNat_of_isDigit digit
  simp only [isBreak, List.contains_eq_mem, List.mem_cons, List.not_mem_nil,
    or_false, decide_eq_false_iff_not]
  omega

/-- The decimal digits of a runtime: those of ASCII, and perhaps of other
scripts.  No separator is a digit. -/
structure Digits where
  value : Char → Option Nat
  ascii : ∀ c : Char, c.toNat < 128 →
    value c = if c.isDigit then some (c.toNat - '0'.toNat) else none
  decimal : ∀ c n, value c = some n → n < 10
  separator : ∀ c : Char, isBreak c = true → value c = none
  /-- The most digits that a number may have for `int` and `str`, if there is a
  limit. -/
  limit : Option Nat

/-- A runtime with the ASCII digits alone, and the limit of CPython. -/
def asciiDigits : Digits :=
  { value := fun c => if c.isDigit then some (c.toNat - '0'.toNat) else none
    ascii := fun _ _ => rfl
    decimal := by
      intro c n value
      split at value
      · rename_i digit
        have small := toNat_of_isDigit digit
        have zero : '0'.toNat = 48 := rfl
        cases value
        omega
      · cases value
    separator := by
      intro c separates
      apply if_neg
      intro digit
      rw [isBreak_of_isDigit digit] at separates
      exact absurd separates (by simp)
    limit := some 4300 }

/-- The printed form of a number. -/
def numeral (n : Nat) : Text := Nat.toDigits 10 n

theorem numeral_ne_nil (n : Nat) : numeral n ≠ [] := Nat.toDigits_ne_nil

namespace Digits

variable (digits : Digits)

def isDigit (c : Char) : Bool := (digits.value c).isSome

/-- The number that digits spell. -/
def int (text : Text) : Nat :=
  text.foldl (fun n c => 10 * n + (digits.value c).getD 0) 0

/-- Whether a number of so many digits is converted. -/
def fits (length : Nat) : Bool :=
  match digits.limit with
  | none => true
  | some most => decide (length ≤ most)

/-- The digits at the start of a text, and what follows them. -/
def readDigits (text : Text) : Option (Text × Text) :=
  if text.takeWhile digits.isDigit = [] then none
  else
    some (text.takeWhile digits.isDigit, text.dropWhile digits.isDigit)

theorem fits_mono {length length' : Nat} (le : length ≤ length')
    (fits : digits.fits length' = true) : digits.fits length = true := by
  unfold Digits.fits at fits ⊢
  cases limited : digits.limit with
  | none => rfl
  | some most =>
      rw [limited] at fits
      exact decide_eq_true (Nat.le_trans le (of_decide_eq_true fits))

theorem fits_max (length length' : Nat) :
    digits.fits (max length length') =
      (digits.fits length && digits.fits length') := by
  unfold Digits.fits
  cases digits.limit with
  | none => rfl
  | some most => simp

theorem value_of_isDigit {c : Char} (digit : c.isDigit = true) :
    digits.value c = some (c.toNat - '0'.toNat) := by
  have small := toNat_of_isDigit digit
  rw [digits.ascii c (by omega), if_pos digit]

theorem isDigit_of_mem_numeral {c : Char} {n : Nat} (member : c ∈ numeral n) :
    c.isDigit = true :=
  Nat.isDigit_of_mem_toDigits (by decide) (by decide) member

theorem foldl_eq_ofDigitChars {text : Text} :
    ∀ (n : Nat), (∀ c ∈ text, c.isDigit = true) →
      text.foldl (fun n c => 10 * n + (digits.value c).getD 0) n =
        Nat.ofDigitChars 10 text n := by
  induction text with
  | nil => simp [Nat.ofDigitChars_nil]
  | cons c cs induction =>
      intro n ascii
      obtain ⟨head, tail⟩ := List.forall_mem_cons.mp ascii
      rw [List.foldl_cons, Nat.ofDigitChars_cons, induction _ tail,
        digits.value_of_isDigit head]
      rfl

theorem int_numeral (n : Nat) : digits.int (numeral n) = n := by
  rw [int, digits.foldl_eq_ofDigitChars 0
    (fun _ member => isDigit_of_mem_numeral member)]
  exact Nat.ofDigitChars_ten_toDigits

theorem foldl_lt (text : Text) :
    ∀ n, text.foldl (fun n c => 10 * n + (digits.value c).getD 0) n <
      (n + 1) * 10 ^ text.length := by
  induction text with
  | nil =>
      intro n
      simp
  | cons c cs induction =>
      intro n
      have small : (digits.value c).getD 0 ≤ 9 := by
        cases value : digits.value c with
        | none => exact Nat.zero_le 9
        | some d => exact Nat.le_of_lt_succ (digits.decimal c d value)
      calc
        (c :: cs).foldl (fun n c => 10 * n + (digits.value c).getD 0) n <
            (10 * n + (digits.value c).getD 0 + 1) * 10 ^ cs.length :=
          induction _
        _ ≤ (10 * (n + 1)) * 10 ^ cs.length :=
          Nat.mul_le_mul_right _ (by omega)
        _ = (n + 1) * 10 ^ (c :: cs).length := by
          rw [List.length_cons, Nat.pow_succ, Nat.mul_comm 10, Nat.mul_assoc,
            Nat.mul_comm 10]

theorem int_lt (text : Text) : digits.int text < 10 ^ text.length := by
  have bound := digits.foldl_lt text 0
  rwa [Nat.zero_add, Nat.one_mul] at bound

/-- A number is printed with no more digits than it was read from. -/
theorem length_numeral_int {text : Text} (nonempty : text ≠ []) :
    (numeral (digits.int text)).length ≤ text.length :=
  Nat.toDigits_length 10 _ _ (List.length_pos_of_ne_nil nonempty)
    (digits.int_lt text)

theorem readDigits_append {spelled rest : Text} (nonempty : spelled ≠ [])
    (inside : ∀ c ∈ spelled, digits.isDigit c = true)
    (outside : ∀ c ∈ rest.head?, digits.isDigit c = false) :
    digits.readDigits (spelled ++ rest) = some (spelled, rest) := by
  have stop : rest.takeWhile digits.isDigit = [] ∧
      rest.dropWhile digits.isDigit = rest := by
    cases rest with
    | nil => exact ⟨rfl, rfl⟩
    | cons c cs =>
        have other : ¬ digits.isDigit c = true := by simp [outside c rfl]
        exact ⟨List.takeWhile_cons_of_neg other,
          List.dropWhile_cons_of_neg other⟩
  rw [readDigits, List.takeWhile_append_of_pos inside, stop.1,
    List.dropWhile_append_of_pos inside, stop.2, List.append_nil,
    if_neg nonempty]

theorem isDigit_of_mem_printed {c : Char} {n : Nat} (member : c ∈ numeral n) :
    digits.isDigit c = true := by
  rw [isDigit, digits.value_of_isDigit (isDigit_of_mem_numeral member)]
  rfl

/-- A printed number is read back up to the first other character. -/
theorem readDigits_numeral (n : Nat) {c : Char} (cs : Text)
    (stop : digits.value c = none) :
    digits.readDigits (numeral n ++ c :: cs) = some (numeral n, c :: cs) := by
  apply digits.readDigits_append (numeral_ne_nil n)
  · exact fun _ member => digits.isDigit_of_mem_printed member
  · rintro _ ⟨⟩
    rw [isDigit, stop]
    rfl

theorem readDigits_split {text spelled rest : Text}
    (found : digits.readDigits text = some (spelled, rest)) :
    text = spelled ++ rest ∧ spelled ≠ [] ∧
      ∀ c ∈ spelled, digits.isDigit c = true := by
  rw [readDigits] at found
  split at found
  · cases found
  · rename_i nonempty
    cases found
    exact ⟨List.takeWhile_append_dropWhile.symm, nonempty,
      fun _ member => List.mem_takeWhile_imp member⟩

theorem unbroken_of_digits {spelled : Text}
    (inside : ∀ c ∈ spelled, digits.isDigit c = true) : Unbroken spelled := by
  intro c member
  have digit := inside c member
  cases separates : isBreak c with
  | false => rfl
  | true =>
      rw [isDigit, digits.separator c separates] at digit
      cases digit

end Digits

theorem lt_pow_length_numeral (n : Nat) : n < 10 ^ (numeral n).length := by
  have bound := asciiDigits.int_lt (numeral n)
  rwa [asciiDigits.int_numeral] at bound

theorem unbroken_numeral (n : Nat) : Unbroken (numeral n) := fun _ member =>
  isBreak_of_isDigit (Digits.isDigit_of_mem_numeral member)

end PlainText

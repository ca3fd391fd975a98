import StoplessGC.PatchCounts

/-!
# Fixing a patch twice

A rewritten header is matched again, with the counts just written.  The loop
that counts asks of a header only that it is one, so it counts the same lines as
before, and lines without separators survive joining and splitting.  A text that
makes the script raise makes it raise again.
-/

namespace StoplessGC

namespace FixPatch

open PlainText

variable {digits : Digits}

/-! ## Headers -/

theorem value_comma (digits : Digits) : digits.value ',' = none :=
  digits.ascii ',' (by decide)

theorem value_space (digits : Digits) : digits.value ' ' = none :=
  digits.ascii ' ' (by decide)

theorem isDigit_space (digits : Digits) : digits.isDigit ' ' = false := by
  rw [Digits.isDigit, value_space]
  rfl

theorem isDigit_comma (digits : Digits) : digits.isDigit ',' = false := by
  rw [Digits.isDigit, value_comma]
  rfl

theorem readRange_numerals (start count : Nat) (rest : Text) :
    readRange digits
        (numeral start ++ ',' :: (numeral count ++ ' ' :: rest)) =
      some (start, some count, max (numeral start).length (numeral count).length,
        ' ' :: rest) := by
  simp [readRange, digits.readDigits_numeral _ _ (value_comma digits),
    digits.readDigits_numeral _ _ (value_space digits), digits.int_numeral]

/-- What the pattern finds in a header with these counts. -/
def HunkMatch.ofHeader (oldStart old newStart new : Nat) (suffix : Text) :
    HunkMatch :=
  { oldStart := oldStart
    oldCount := some old
    newStart := newStart
    newCount := some new
    longest :=
      max (max (numeral oldStart).length (numeral old).length)
        (max (numeral newStart).length (numeral new).length)
    suffix := suffix }

theorem hunkMatch_header (oldStart old newStart new : Nat) (suffix : Text) :
    hunkMatch digits (header oldStart old newStart new suffix) =
      some (.ofHeader oldStart old newStart new suffix) := by
  have text : header oldStart old newStart new suffix =
      '@' :: '@' :: ' ' :: '-' ::
        (numeral oldStart ++ ',' :: (numeral old ++ ' ' ::
          ('+' :: (numeral newStart ++ ',' :: (numeral new ++ ' ' ::
            ('@' :: '@' :: suffix)))))) := by
    simp [header]
  rw [text]
  simp [hunkMatch, List.isPrefixOf?, readRange_numerals, HunkMatch.ofHeader]

/-- A range can be followed by any other text, and its numbers are printed with
no more digits than it has. -/
structure Spells (digits : Digits) (spelled : Text) (start : Nat)
    (count : Option Nat) (longest : Nat) : Prop where
  unbroken : Unbroken spelled
  again : ∀ rest, readRange digits (spelled ++ ' ' :: rest) =
    some (start, count, longest, ' ' :: rest)
  start_le : (numeral start).length ≤ longest
  count_le : (numeral (count.getD 1)).length ≤ longest

theorem length_numeral_one {text : Text} (nonempty : text ≠ []) :
    (numeral 1).length ≤ text.length :=
  List.length_pos_of_ne_nil nonempty

theorem readRange_split {text rest : Text} {start longest : Nat}
    {count : Option Nat}
    (found : readRange digits text = some (start, count, longest, ' ' :: rest)) :
    ∃ spelled, Spells digits spelled start count longest ∧
      text = spelled ++ ' ' :: rest := by
  have space : ∀ (rest : Text), ∀ c ∈ (' ' :: rest).head?,
      digits.isDigit c = false := by
    rintro _ _ ⟨⟩
    exact isDigit_space digits
  have comma : ∀ (rest : Text), ∀ c ∈ (',' :: rest).head?,
      digits.isDigit c = false := by
    rintro _ _ ⟨⟩
    exact isDigit_comma digits
  unfold readRange at found
  split at found
  · cases found
  · rename_i first after number
    obtain ⟨rfl, nonempty, inside⟩ := digits.readDigits_split number
    split at found
    · cases found
    · rename_i second after' number'
      obtain ⟨rfl, nonempty', inside'⟩ := digits.readDigits_split number'
      cases found
      refine ⟨first ++ ',' :: second, ⟨?_, ?_, ?_, ?_⟩, by simp⟩
      · exact unbroken_append.mpr ⟨digits.unbroken_of_digits inside,
          unbroken_cons.mpr ⟨by decide, digits.unbroken_of_digits inside'⟩⟩
      · intro rest
        rw [List.append_assoc, List.cons_append]
        simp [readRange, digits.readDigits_append nonempty inside (comma _),
          digits.readDigits_append nonempty' inside' (space rest)]
      · exact (digits.length_numeral_int nonempty).trans (Nat.le_max_left _ _)
      · exact (digits.length_numeral_int nonempty').trans (Nat.le_max_right _ _)
  · rename_i first after other number
    obtain ⟨rfl, nonempty, inside⟩ := digits.readDigits_split number
    cases found
    refine ⟨first, ⟨digits.unbroken_of_digits inside, ?_,
      digits.length_numeral_int nonempty, length_numeral_one nonempty⟩, rfl⟩
    intro rest
    simp [readRange, digits.readDigits_append nonempty inside (space rest)]

theorem eq_append_of_isPrefixOf? {start text rest : Text}
    (found : List.isPrefixOf? start text = some rest) :
    text = start ++ rest := by
  induction start generalizing text with
  | nil => simpa [List.isPrefixOf?] using found
  | cons c cs induction =>
      cases text with
      | nil => simp [List.isPrefixOf?] at found
      | cons c' cs' =>
          simp only [List.isPrefixOf?, Option.ite_none_right_eq_some,
            beq_iff_eq] at found
          rw [induction found.2, found.1]
          rfl

/-- The part of a header in front of the suffix. -/
structure Ranges (digits : Digits) (ranges : Text) (m : HunkMatch) : Prop where
  unbroken : Unbroken ranges
  again : ∀ suffix, hunkMatch digits (ranges ++ suffix) =
    some { m with suffix := suffix }
  printed : ∀ n ∈ [m.oldStart, m.oldStated, m.newStart, m.newStated],
    (numeral n).length ≤ m.longest

/-- Only the suffix of a header can have separators. -/
theorem hunkMatch_split {line : Text} {m : HunkMatch}
    (found : hunkMatch digits line = some m) :
    ∃ ranges, Ranges digits ranges m ∧ line = ranges ++ m.suffix := by
  simp only [hunkMatch, Option.bind_eq_bind, Option.bind_eq_some_iff,
    Prod.exists, Option.some.injEq] at found
  obtain ⟨rest₁, start, oldStart, oldCount, oldLength, rest₂, oldRange, rest₃,
    middle, newStart, newCount, newLength, rest₄, newRange, suffix, finish,
    rfl⟩ := found
  obtain rfl := eq_append_of_isPrefixOf? start
  obtain rfl := eq_append_of_isPrefixOf? middle
  obtain rfl := eq_append_of_isPrefixOf? finish
  obtain ⟨old, oldSpells, rfl⟩ := readRange_split oldRange
  obtain ⟨new, newSpells, rfl⟩ := readRange_split newRange
  refine ⟨['@', '@', ' ', '-'] ++ old ++ [' ', '+'] ++ new ++ [' ', '@', '@'],
    ⟨?_, ?_, ?_⟩, by simp⟩
  · simp only [unbroken_append, unbroken_cons, unbroken_nil, oldSpells.unbroken,
      newSpells.unbroken, and_true]
    decide
  · intro suffix
    simp [hunkMatch, List.isPrefixOf?, oldSpells.again, newSpells.again]
  · have left := Nat.le_max_left oldLength newLength
    have right := Nat.le_max_right oldLength newLength
    simp only [List.forall_mem_cons, List.not_mem_nil, false_implies,
      implies_true, and_true]
    exact ⟨oldSpells.start_le.trans left, oldSpells.count_le.trans left,
      newSpells.start_le.trans right, newSpells.count_le.trans right⟩

theorem unbroken_iff_suffix {line : Text} {m : HunkMatch}
    (found : hunkMatch digits line = some m) :
    Unbroken line ↔ Unbroken m.suffix := by
  obtain ⟨ranges, spelled, split⟩ := hunkMatch_split found
  rw [split, unbroken_append]
  exact and_iff_right spelled.unbroken

theorem unbroken_header (oldStart old newStart new : Nat) {suffix : Text}
    (unbroken : Unbroken suffix) :
    Unbroken (header oldStart old newStart new suffix) := by
  simp [header, unbroken_append, unbroken_cons, unbroken_numeral, unbroken,
    isBreak]

theorem newline_notMem_header (oldStart old newStart new : Nat) {suffix : Text}
    (oneLine : '\n' ∉ suffix) :
    '\n' ∉ header oldStart old newStart new suffix := by
  have numerals (n : Nat) : '\n' ∉ numeral n :=
    (unbroken_numeral n).newline_notMem
  simp [header, numerals, oneLine]

theorem fits_of_converts {line : Text} {m : HunkMatch}
    (found : hunkMatch digits line = some m) (short : m.converts digits = true) :
    ∀ n ∈ [m.oldStart, m.oldStated, m.newStart, m.newStated],
      digits.fits (numeral n).length = true := by
  obtain ⟨ranges, spelled, _⟩ := hunkMatch_split found
  intro n member
  exact digits.fits_mono (spelled.printed n member) short

theorem converts_ofHeader (oldStart old newStart new : Nat) (suffix : Text) :
    (HunkMatch.ofHeader oldStart old newStart new suffix).converts digits =
      (digits.fits (numeral oldStart).length &&
        digits.fits (numeral old).length &&
        (digits.fits (numeral newStart).length &&
          digits.fits (numeral new).length)) := by
  rw [HunkMatch.converts, HunkMatch.ofHeader, digits.fits_max, digits.fits_max,
    digits.fits_max]

theorem unbroken_fixedLines (digits : Digits) {lines : List Text}
    (unbroken : ∀ line ∈ lines, Unbroken line) :
    ∀ line ∈ fixedLines digits lines, Unbroken line := by
  induction lines with
  | nil => exact unbroken
  | cons line lines induction =>
      obtain ⟨head, tail⟩ := List.forall_mem_cons.mp unbroken
      refine List.forall_mem_cons.mpr ⟨?_, induction tail⟩
      unfold fixedLine
      split
      · exact head
      · rename_i m found
        dsimp only
        split
        · apply unbroken_header
          exact (unbroken_iff_suffix found).mp head
        · exact head

/-! ## Counting after rewriting -/

/-- The line is the same, or both are headers. -/
def Rewritten (digits : Digits) (line line' : Text) : Prop :=
  line' = line ∨
    (hunkMatch digits line).isSome = true ∧
      (hunkMatch digits line').isSome = true

theorem rewritten_fixedLine (digits : Digits) (line : Text)
    (lines : List Text) :
    Rewritten digits line (fixedLine digits line lines) := by
  unfold fixedLine
  split
  · exact Or.inl rfl
  · rename_i m found
    dsimp only
    split
    · refine Or.inr ⟨by rw [found]; rfl, ?_⟩
      rw [hunkMatch_header]
      rfl
    · exact Or.inl rfl

theorem rewritten_fixedLines (digits : Digits) (lines : List Text) :
    List.Forall₂ (Rewritten digits) lines (fixedLines digits lines) := by
  induction lines with
  | nil => exact List.Forall₂.nil
  | cons line lines induction =>
      exact List.Forall₂.cons (rewritten_fixedLine digits line lines) induction

/-- Rewriting headers does not change what is counted. -/
theorem bodyCount_rewritten {lines lines' : List Text}
    (rewritten : List.Forall₂ (Rewritten digits) lines lines') :
    bodyCount digits lines = bodyCount digits lines' := by
  induction rewritten with
  | nil => rfl
  | @cons line line' lines lines' same tail induction =>
      rcases same with rfl | ⟨hunk, hunk'⟩
      · cases goes : endsBody digits line' with
        | true => rw [bodyCount_cons_of_ends goes, bodyCount_cons_of_ends goes]
        | false =>
            cases counted : countLine line' with
            | none =>
                rw [bodyCount_cons_of_unknown counted,
                  bodyCount_cons_of_unknown counted]
            | some pair =>
                obtain ⟨old, new⟩ := pair
                rw [bodyCount_cons_of_counted goes counted,
                  bodyCount_cons_of_counted goes counted, induction]
      · have ends : endsBody digits line = true := by simp [endsBody, hunk]
        have ends' : endsBody digits line' = true := by simp [endsBody, hunk']
        rw [bodyCount_cons_of_ends ends, bodyCount_cons_of_ends ends']

theorem bodyCount_fixedLines (digits : Digits) (lines : List Text) :
    bodyCount digits (fixedLines digits lines) = bodyCount digits lines :=
  (bodyCount_rewritten (rewritten_fixedLines digits lines)).symm

/-- Neither an exception nor another header. -/
def Silent (digits : Digits) (lines : List Text) : Prop :=
  anyRaises digits lines = false ∧ anyWrong digits lines = false

theorem silent_cons {line : Text} {lines : List Text} :
    Silent digits (line :: lines) ↔
      (∀ m, hunkMatch digits line = some m → m.converts digits = true ∧
        ¬ m.Differs (bodyCount digits lines)) ∧ Silent digits lines := by
  rw [Silent, Silent, anyRaises_cons, anyWrong_cons, Bool.or_eq_false_iff,
    Bool.or_eq_false_iff, and_and_and_comm]
  refine and_congr_left (fun _ => ?_)
  cases found : hunkMatch digits line with
  | none => simp [raisesLine_of_none found, wrongLine_of_none found]
  | some m =>
      by_cases differs : m.Differs (bodyCount digits lines)
      · simp [wrongLine_of_differs found differs, differs]
      · cases short : m.converts digits with
        | true =>
            simp [raisesLine_of_agrees found short differs,
              wrongLine_of_agrees found differs, short, differs]
        | false => simp [raisesLine_of_long found short, short]

theorem anyWrong_fixedLines (digits : Digits) (lines : List Text) :
    anyWrong digits (fixedLines digits lines) = false := by
  induction lines with
  | nil => rfl
  | cons line lines induction =>
      have counts := bodyCount_fixedLines digits lines
      rw [fixedLines, anyWrong_cons, induction, Bool.or_false]
      cases found : hunkMatch digits line with
      | none =>
          rw [fixedLine_of_none found]
          exact wrongLine_of_none found _
      | some m =>
          by_cases differs : m.Differs (bodyCount digits lines)
          · rw [fixedLine_of_differs found differs]
            apply wrongLine_of_agrees (hunkMatch_header _ _ _ _ _)
            rw [counts]
            exact not_not.mpr rfl
          · rw [fixedLine_of_agrees found differs]
            apply wrongLine_of_agrees found
            rw [counts]
            exact differs

theorem anyRaises_fixedLines {lines : List Text}
    (returns : anyRaises digits lines = false) :
    anyRaises digits (fixedLines digits lines) = false := by
  induction lines with
  | nil => rfl
  | cons line lines induction =>
      rw [anyRaises_cons, Bool.or_eq_false_iff] at returns
      obtain ⟨quiet, rest⟩ := returns
      have counts := bodyCount_fixedLines digits lines
      rw [fixedLines, anyRaises_cons, induction rest, Bool.or_false]
      cases found : hunkMatch digits line with
      | none =>
          rw [fixedLine_of_none found]
          exact raisesLine_of_none found _
      | some m =>
          have short : m.converts digits = true := by
            by_contra long
            rw [raisesLine_of_long found (eq_false_of_ne_true long)] at quiet
            cases quiet
          by_cases differs : m.Differs (bodyCount digits lines)
          · rw [raisesLine_of_differs found short differs,
              Bool.not_eq_false', Count.prints, Bool.and_eq_true] at quiet
            rw [fixedLine_of_differs found differs]
            have printed := fits_of_converts found short
            apply raisesLine_of_agrees (hunkMatch_header _ _ _ _ _)
            · rw [converts_ofHeader, quiet.1, quiet.2, printed m.oldStart
                (by simp), printed m.newStart (by simp)]
              rfl
            · rw [counts]
              exact not_not.mpr rfl
          · rw [fixedLine_of_agrees found differs]
            apply raisesLine_of_agrees found short
            rw [counts]
            exact differs

theorem fixedLines_of_right {lines : List Text}
    (right : anyWrong digits lines = false) :
    fixedLines digits lines = lines := by
  induction lines with
  | nil => rfl
  | cons line lines induction =>
      rw [anyWrong_cons, Bool.or_eq_false_iff] at right
      rw [fixedLines, induction right.2]
      cases found : hunkMatch digits line with
      | none => rw [fixedLine_of_none found]
      | some m =>
          have agrees : ¬ m.Differs (bodyCount digits lines) := by
            intro differs
            rw [wrongLine_of_differs found differs] at right
            exact absurd right.1 (by simp)
          rw [fixedLine_of_agrees found agrees]

/-! ## The file -/

/-- The lines that the script works on. -/
def linesOf (contents : Text) : List Text := splitlines (readText contents)

theorem unbroken_linesOf (contents : Text) :
    ∀ line ∈ linesOf contents, Unbroken line :=
  unbroken_of_mem_splitlines _

theorem fixPatch_of_raises {contents : Text}
    (raises : anyRaises digits (linesOf contents) = true) (path : Path)
    (checkOnly : Bool) :
    (fixPatch digits path checkOnly contents).written = none ∧
      (fixPatch digits path checkOnly contents).result = none := by
  have raised := raised_fixLines digits path checkOnly (linesOf contents)
  rw [raises] at raised
  change (fixLines digits path checkOnly
    (splitlines (readText contents))).raised = true at raised
  simp [fixPatch, raised]

/-- Where no header states other counts. -/
structure Reported (outcome : Outcome) (path : Path) : Prop where
  unwritten : outcome.written = none
  stdout : outcome.stdout = "ok:      ".toList ++ path.display
  result : outcome.result = some true

theorem fixPatch_of_silent {contents : Text}
    (silent : Silent digits (linesOf contents)) (path : Path)
    (checkOnly : Bool) :
    Reported (fixPatch digits path checkOnly contents) path := by
  have raised := raised_fixLines digits path checkOnly (linesOf contents)
  have changed := (fixLines_eq digits path checkOnly (linesOf contents)
    silent.1).2
  rw [silent.1] at raised
  rw [silent.2] at changed
  change (fixLines digits path checkOnly
    (splitlines (readText contents))).raised = false at raised
  change (fixLines digits path checkOnly
    (splitlines (readText contents))).changed = false at changed
  constructor <;> simp [fixPatch, raised, changed]

theorem fixPatch_of_wrong {contents : Text}
    (returns : anyRaises digits (linesOf contents) = false)
    (wrong : anyWrong digits (linesOf contents) = true) (path : Path) :
    (fixPatch digits path false contents).written =
        some (unlines (fixedLines digits (linesOf contents))) ∧
      (fixPatch digits path false contents).result = some true := by
  have raised := raised_fixLines digits path false (linesOf contents)
  obtain ⟨out, changed⟩ := fixLines_eq digits path false (linesOf contents)
    returns
  rw [returns] at raised
  rw [wrong] at changed
  have some_line : fixedLines digits (linesOf contents) ≠ [] := by
    intro none
    cases lines : linesOf contents with
    | nil =>
        rw [lines] at wrong
        exact absurd wrong (by simp [anyWrong, anyLine])
    | cons line rest =>
        rw [lines] at none
        exact absurd none (by simp [fixedLines])
  rw [← intercalate_newline some_line, ← out]
  change (fixLines digits path false
    (splitlines (readText contents))).raised = false at raised
  change (fixLines digits path false
    (splitlines (readText contents))).changed = true at changed
  simp [fixPatch, raised, changed, linesOf]

theorem contents_fixPatch (path : Path) (contents : Text) :
    (fixPatch digits path false contents).contents contents =
      if anyRaises digits (linesOf contents) = false ∧
          anyWrong digits (linesOf contents) = true then
        unlines (fixedLines digits (linesOf contents))
      else contents := by
  cases raises : anyRaises digits (linesOf contents) with
  | true => rw [Outcome.contents, (fixPatch_of_raises raises path false).1]; rfl
  | false =>
      cases wrong : anyWrong digits (linesOf contents) with
      | true =>
          rw [Outcome.contents, (fixPatch_of_wrong raises wrong path).1]
          rfl
      | false =>
          rw [Outcome.contents,
            (fixPatch_of_silent ⟨raises, wrong⟩ path false).unwritten]
          rfl

theorem linesOf_unlines {lines : List Text}
    (unbroken : ∀ line ∈ lines, Unbroken line) :
    linesOf (unlines lines) = lines := by
  have noReturn : '\r' ∉ unlines lines := by
    intro member
    simp only [unlines, List.mem_flatMap, List.mem_append,
      List.mem_singleton] at member
    obtain ⟨line, inside, same | newline⟩ := member
    · exact (unbroken line inside).return_notMem same
    · exact absurd newline (by decide)
  rw [linesOf, readText_eq_self noReturn, splitlines_unlines unbroken]

/-- Joining and splitting the fixed lines gives them back. -/
theorem linesOf_contents {contents : Text}
    (returns : anyRaises digits (linesOf contents) = false) (path : Path) :
    linesOf ((fixPatch digits path false contents).contents contents) =
      fixedLines digits (linesOf contents) := by
  rw [contents_fixPatch]
  cases wrong : anyWrong digits (linesOf contents) with
  | true =>
      rw [if_pos ⟨returns, rfl⟩]
      exact linesOf_unlines
        (unbroken_fixedLines digits (unbroken_linesOf contents))
  | false =>
      rw [if_neg (by simp)]
      exact (fixedLines_of_right wrong).symm

/-- The lines before and after a call, and what a second call does. -/
structure Settled (digits : Digits) (path : Path) (before after : Text) :
    Prop where
  stable :
    linesOf after = (fixLines digits path false (linesOf before)).out
  /-- The same lines are headers. -/
  visits : ∀ i : Nat,
    ((linesOf after)[i]?.bind (hunkMatch digits)).isSome =
      ((linesOf before)[i]?.bind (hunkMatch digits)).isSome
  bodies : ∀ i : Nat,
    bodyCount digits ((linesOf after).drop i) =
      bodyCount digits ((linesOf before).drop i)
  headers : ∀ (i : Nat) (m : HunkMatch),
    (linesOf after)[i]?.bind (hunkMatch digits) = some m →
      (m.oldStated, m.newStated) =
        ((bodyCount digits ((linesOf after).drop (i + 1))).old,
          (bodyCount digits ((linesOf after).drop (i + 1))).new)
  again : ∀ checkOnly : Bool,
    Reported (fixPatch digits path checkOnly after) path

/-- A call leaves the file as it is and raises for a number that is too long,
and so does the next one. -/
structure Raises (digits : Digits) (path : Path) (before after : Text) :
    Prop where
  long : ∃ (i : Nat) (m : HunkMatch),
    (linesOf before)[i]?.bind (hunkMatch digits) = some m ∧
      (m.converts digits = false ∨
        (bodyCount digits ((linesOf before).drop (i + 1))).prints digits =
          false)
  unchanged : after = before
  again : ∀ checkOnly : Bool,
    (fixPatch digits path checkOnly after).written = none ∧
      (fixPatch digits path checkOnly after).result = none

theorem long_of_anyRaises {lines : List Text}
    (raises : anyRaises digits lines = true) :
    ∃ (i : Nat) (m : HunkMatch), lines[i]?.bind (hunkMatch digits) = some m ∧
      (m.converts digits = false ∨
        (bodyCount digits (lines.drop (i + 1))).prints digits = false) := by
  induction lines with
  | nil => cases raises
  | cons line lines induction =>
      rw [anyRaises_cons, Bool.or_eq_true] at raises
      rcases raises with first | later
      · cases found : hunkMatch digits line with
        | none =>
            rw [raisesLine_of_none found] at first
            cases first
        | some m =>
            refine ⟨0, m, found, ?_⟩
            by_contra short
            simp only [not_or, Bool.not_eq_false, List.drop_succ_cons,
              List.drop_zero] at short
            simp [raisesLine, found, short] at first
      · obtain ⟨i, m, found, long⟩ := induction later
        exact ⟨i + 1, m, found, long⟩

theorem Rewritten.isSome_eq {line line' : Text}
    (rewritten : Rewritten digits line line') :
    (hunkMatch digits line').isSome = (hunkMatch digits line).isSome := by
  rcases rewritten with rfl | ⟨hunk, hunk'⟩
  · rfl
  · rw [hunk, hunk']

theorem isSome_fixedLines (lines : List Text) :
    ∀ i : Nat, ((fixedLines digits lines)[i]?.bind (hunkMatch digits)).isSome =
      (lines[i]?.bind (hunkMatch digits)).isSome := by
  induction lines with
  | nil => exact fun _ => rfl
  | cons line lines induction =>
      intro i
      cases i with
      | zero =>
          simpa [fixedLines] using
            (rewritten_fixedLine digits line lines).isSome_eq
      | succ i => simpa [fixedLines] using induction i

theorem drop_fixedLines (lines : List Text) :
    ∀ i : Nat, (fixedLines digits lines).drop i =
      fixedLines digits (lines.drop i) := by
  induction lines with
  | nil => simp [fixedLines]
  | cons line lines induction =>
      intro i
      cases i with
      | zero => rfl
      | succ i => simpa [fixedLines] using induction i

theorem stated_of_right {lines : List Text}
    (right : anyWrong digits lines = false) :
    ∀ (i : Nat) (m : HunkMatch),
      lines[i]?.bind (hunkMatch digits) = some m →
        ¬ m.Differs (bodyCount digits (lines.drop (i + 1))) := by
  induction lines with
  | nil =>
      intro i m found
      exact absurd found (by simp)
  | cons line lines induction =>
      intro i m found differs
      rw [anyWrong_cons, Bool.or_eq_false_iff] at right
      cases i with
      | zero =>
          have found : hunkMatch digits line = some m := found
          have differs : m.Differs (bodyCount digits lines) := differs
          rw [wrongLine_of_differs found differs] at right
          exact absurd right.1 (by simp)
      | succ i => exact induction right.2 i m found differs

/-- A second call changes nothing, whatever the text. -/
theorem fixPatch_settled (digits : Digits) (path : Path) (text : Text) :
    (fixPatch digits path false text).result = none ∧
        Raises digits path text
          ((fixPatch digits path false text).contents text) ∨
      (fixPatch digits path false text).result = some true ∧
        Settled digits path text
          ((fixPatch digits path false text).contents text) := by
  cases returns : anyRaises digits (linesOf text) with
  | true =>
      have raises := fixPatch_of_raises returns path
      have unchanged : (fixPatch digits path false text).contents text = text := by
        rw [Outcome.contents, (raises false).1]
        rfl
      refine .inl ⟨(raises false).2, long_of_anyRaises returns, unchanged, ?_⟩
      rw [unchanged]
      exact raises
  | false =>
      have lines := linesOf_contents returns path
      have silent : Silent digits (fixedLines digits (linesOf text)) :=
        ⟨anyRaises_fixedLines returns, anyWrong_fixedLines digits _⟩
      rw [← lines] at silent
      have result : (fixPatch digits path false text).result = some true := by
        cases wrong : anyWrong digits (linesOf text) with
        | true => exact (fixPatch_of_wrong returns wrong path).2
        | false => exact (fixPatch_of_silent ⟨returns, wrong⟩ path false).result
      refine .inr ⟨result, ?_, ?_, ?_, ?_, fixPatch_of_silent silent path⟩
      · rw [lines, (fixLines_eq digits path false _ returns).1]
      · rw [lines]
        exact isSome_fixedLines _
      · intro i
        rw [lines, drop_fixedLines, bodyCount_fixedLines]
      · intro i m found
        exact (not_not.mp (stated_of_right silent.2 i m found)).symm

end FixPatch

end StoplessGC

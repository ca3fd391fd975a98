import Mathlib.Algebra.Ring.Nat
import StoplessGC.Foundation.PlainText

/-!
# Recomputing the counts of a patch

`scripts/fix_patch_counts.py`: for each line that the hunk pattern matches, the
lines behind it are counted by their first characters, and the header is
written anew when it states other counts.  A text in which some header was
wrong is written back with newlines for separators.  A number with too many
digits for `int` or for printing is an exception, and nothing is written.
-/

namespace StoplessGC

namespace FixPatch

open PlainText

/-- The groups of `HUNK_RE`, the numbers as `int` reads them, with the length
of the longest of them. -/
structure HunkMatch where
  oldStart : Nat
  oldCount : Option Nat
  newStart : Nat
  newCount : Option Nat
  longest : Nat
  suffix : Text
deriving DecidableEq

namespace HunkMatch

/-- `old_count_stated` -/
def oldStated (m : HunkMatch) : Nat := m.oldCount.getD 1

/-- `new_count_stated` -/
def newStated (m : HunkMatch) : Nat := m.newCount.getD 1

/-- Whether `int` takes all the numbers. -/
def converts (digits : Digits) (m : HunkMatch) : Bool := digits.fits m.longest

end HunkMatch

/-- `(\d+)(?:,(\d+))?`, with the length of the longer number. -/
def readRange (digits : Digits) (text : Text) :
    Option (Nat × Option Nat × Nat × Text) :=
  match digits.readDigits text with
  | none => none
  | some (start, ',' :: rest) =>
      match digits.readDigits rest with
      | none => some (digits.int start, none, start.length, ',' :: rest)
      | some (count, rest) =>
          some (digits.int start, some (digits.int count),
            max start.length count.length, rest)
  | some (start, rest) => some (digits.int start, none, start.length, rest)

/-- `HUNK_RE.match` on a line without newlines. -/
def hunkMatch (digits : Digits) (line : Text) : Option HunkMatch := do
  let rest ← List.isPrefixOf? ['@', '@', ' ', '-'] line
  let (oldStart, oldCount, oldLength, rest) ← readRange digits rest
  let rest ← List.isPrefixOf? [' ', '+'] rest
  let (newStart, newCount, newLength, rest) ← readRange digits rest
  let suffix ← List.isPrefixOf? [' ', '@', '@'] rest
  some
    { oldStart, oldCount, newStart, newCount
      longest := max oldLength newLength
      suffix }

/-- `DIFF_RE.match` -/
def diffMatch (line : Text) : Bool :=
  ['d', 'i', 'f', 'f', ' ', '-', '-', 'g', 'i', 't', ' '].isPrefixOf line

/-- What a line adds to `old_count` and `new_count`; `none` for an unknown
prefix. -/
def countLine (line : Text) : Option (Nat × Nat) :=
  if ['+'].isPrefixOf line && !(['+', '+', '+'].isPrefixOf line) then
    some (0, 1)
  else if ['-'].isPrefixOf line && !(['-', '-', '-'].isPrefixOf line) then
    some (1, 0)
  else if [' '].isPrefixOf line then some (1, 1)
  else if ['\\'].isPrefixOf line then some (0, 0)
  else if line = [] then some (1, 1)
  else none

/-- `HUNK_RE.match(ln) or DIFF_RE.match(ln)` -/
def endsBody (digits : Digits) (line : Text) : Bool :=
  (hunkMatch digits line).isSome || diffMatch line

/-- `old_count`, `new_count`, and the lines that were counted. -/
structure Count where
  old : Nat
  new : Nat
  length : Nat
deriving DecidableEq

/-- The inner loop. -/
def countBody (digits : Digits) : List Text → Count → Count
  | [], count => count
  | line :: lines, count =>
      if endsBody digits line then count
      else
        match countLine line with
        | none => count
        | some (old, new) =>
            countBody digits lines
              { old := count.old + old
                new := count.new + new
                length := count.length + 1 }

/-- The counts with which the inner loop begins. -/
def Count.zero : Count := { old := 0, new := 0, length := 0 }

/-- Whether both counts can be printed. -/
def Count.prints (digits : Digits) (count : Count) : Bool :=
  digits.fits (numeral count.old).length &&
    digits.fits (numeral count.new).length

/-- A header: `@@ -{old_start},{old} +{new_start},{new} @@{suffix}`. -/
def header (oldStart old newStart new : Nat) (suffix : Text) : Text :=
  ['@', '@', ' ', '-'] ++ numeral oldStart ++ ',' :: numeral old ++
    [' ', '+'] ++ numeral newStart ++ ',' :: numeral new ++
    [' ', '@', '@'] ++ suffix

/-- The message of `--check`. -/
def message (name : Text) (m : HunkMatch) (count : Count) : Text :=
  name ++ ": hunk @@ -".toList ++ numeral m.oldStart ++ ',' ::
    numeral m.oldStated ++ " +".toList ++ numeral m.newStart ++ ',' ::
    numeral m.newStated ++ " -> should be -".toList ++ numeral m.oldStart ++
    ',' :: numeral count.old ++ " +".toList ++ numeral m.newStart ++ ',' ::
    numeral count.new

/-- Whether a header states other counts. -/
def HunkMatch.Differs (m : HunkMatch) (count : Count) : Prop :=
  (count.old, count.new) ≠ (m.oldStated, m.newStated)

instance (m : HunkMatch) (count : Count) : Decidable (m.Differs count) :=
  inferInstanceAs (Decidable (_ ≠ _))

/-- `path`: its name and its printed form. -/
structure Path where
  name : Text
  display : Text

/-- `out`, `changed`, what went to `stderr`, and whether a `ValueError` was
raised. -/
structure Progress where
  out : List Text
  changed : Bool
  stderr : List Text
  raised : Bool

/-- Nothing is reported from here on. -/
def Progress.stop (raised : Bool) : Progress :=
  { out := [], changed := false, stderr := [], raised }

/-- The outer loop. -/
def fixLines (digits : Digits) (path : Path) (checkOnly : Bool) :
    List Text → Progress
  | [] => .stop false
  | line :: lines =>
      match hunkMatch digits line with
      | none =>
          let later := fixLines digits path checkOnly lines
          { later with out := line :: later.out }
      | some m =>
          if m.converts digits = false then .stop true
          else
            let count := countBody digits lines Count.zero
            let body := lines.take count.length
            let later :=
              fixLines digits path checkOnly (lines.drop count.length)
            if m.Differs count then
              if count.prints digits = false then .stop true
              else
                { out :=
                    header m.oldStart count.old m.newStart count.new m.suffix ::
                      (body ++ later.out)
                  changed := true
                  stderr :=
                    if checkOnly then
                      message path.name m count :: later.stderr
                    else later.stderr
                  raised := later.raised }
            else { later with out := line :: (body ++ later.out) }
termination_by lines => lines.length
decreasing_by
  all_goals
    simp only [List.length_cons, List.length_drop]
    omega

/-- What a call does; `written` is the new contents of the file, and the
result is `none` after an exception. -/
structure Outcome where
  written : Option Text
  stdout : Text
  stderr : List Text
  result : Option Bool

/-- `fix_patch` on a file with these contents. -/
def fixPatch (digits : Digits) (path : Path) (checkOnly : Bool)
    (contents : Text) : Outcome :=
  let progress :=
    fixLines digits path checkOnly (splitlines (readText contents))
  if progress.raised = true then
    { written := none
      stdout := []
      stderr := progress.stderr
      result := none }
  else if progress.changed = true ∧ checkOnly = false then
    { written := some (List.intercalate ['\n'] progress.out ++ ['\n'])
      stdout := "fixed: ".toList ++ path.display
      stderr := progress.stderr
      result := some true }
  else if progress.changed = true ∧ checkOnly = true then
    { written := none
      stdout := "would-fix: ".toList ++ path.display
      stderr := progress.stderr
      result := some true }
  else
    { written := none
      stdout := "ok:      ".toList ++ path.display
      stderr := progress.stderr
      result := some true }

/-- The file after a call. -/
def Outcome.contents (outcome : Outcome) (before : Text) : Text :=
  outcome.written.getD before

/-! ## Counting -/

def Count.add (first second : Count) : Count :=
  { old := first.old + second.old
    new := first.new + second.new
    length := first.length + second.length }

theorem Count.add_zero (count : Count) : count.add Count.zero = count := rfl

theorem Count.zero_add (count : Count) : Count.zero.add count = count := by
  simp [Count.add, Count.zero]

theorem Count.add_assoc (first second third : Count) :
    (first.add second).add third = first.add (second.add third) := by
  simp [Count.add, Nat.add_assoc]

variable {digits : Digits}

/-- The counts that the loop computes for the lines behind a header. -/
def bodyCount (digits : Digits) (lines : List Text) : Count :=
  countBody digits lines Count.zero

theorem countBody_eq (lines : List Text) :
    ∀ count, countBody digits lines count =
      count.add (bodyCount digits lines) := by
  induction lines with
  | nil => exact fun count => count.add_zero.symm
  | cons line lines induction =>
      intro count
      rw [bodyCount, countBody, countBody]
      split
      · exact count.add_zero.symm
      · cases countLine line with
        | none => exact count.add_zero.symm
        | some counted =>
            obtain ⟨old, new⟩ := counted
            dsimp only
            rw [induction, induction, ← Count.add_assoc]
            simp [Count.add, Count.zero]

theorem bodyCount_cons_of_ends {line : Text}
    (ends : endsBody digits line = true) (lines : List Text) :
    bodyCount digits (line :: lines) = Count.zero := by
  rw [bodyCount, countBody, if_pos ends]

theorem bodyCount_cons_of_unknown {line : Text}
    (unknown : countLine line = none) (lines : List Text) :
    bodyCount digits (line :: lines) = Count.zero := by
  rw [bodyCount, countBody, unknown]
  split <;> rfl

theorem bodyCount_cons_of_counted {line : Text} {old new : Nat}
    (goes : endsBody digits line = false)
    (counted : countLine line = some (old, new)) (lines : List Text) :
    bodyCount digits (line :: lines) =
      Count.add { old, new, length := 1 } (bodyCount digits lines) := by
  rw [bodyCount, countBody, if_neg (by simp [goes]), counted]
  dsimp only
  rw [countBody_eq]
  simp [Count.zero]

theorem hunkMatch_eq_none_of_counted (digits : Digits) (lines : List Text) :
    ∀ line ∈ lines.take (bodyCount digits lines).length,
      hunkMatch digits line = none := by
  induction lines with
  | nil => simp
  | cons line lines induction =>
      cases goes : endsBody digits line with
      | true => simp [bodyCount_cons_of_ends goes, Count.zero]
      | false =>
          cases counted : countLine line with
          | none => simp [bodyCount_cons_of_unknown counted, Count.zero]
          | some pair =>
              obtain ⟨old, new⟩ := pair
              rw [bodyCount_cons_of_counted goes counted]
              have head : hunkMatch digits line = none := by
                simp only [endsBody, Bool.or_eq_false_iff] at goes
                simpa using goes.1
              simp only [Count.add, Nat.add_comm 1, List.take_succ_cons]
              exact List.forall_mem_cons.mpr ⟨head, induction⟩

/-! ## One line at a time -/

/-- What becomes of a line, given the lines behind it. -/
def fixedLine (digits : Digits) (line : Text) (lines : List Text) : Text :=
  match hunkMatch digits line with
  | none => line
  | some m =>
      let count := bodyCount digits lines
      if m.Differs count then
        header m.oldStart count.old m.newStart count.new m.suffix
      else line

/-- Whether a line is a header with other counts. -/
def wrongLine (digits : Digits) (line : Text) (lines : List Text) : Bool :=
  match hunkMatch digits line with
  | none => false
  | some m => decide (m.Differs (bodyCount digits lines))

/-- Whether a line is a header with a number that is too long to read, or with
other counts that are too long to print. -/
def raisesLine (digits : Digits) (line : Text) (lines : List Text) : Bool :=
  match hunkMatch digits line with
  | none => false
  | some m => !m.converts digits ||
      (decide (m.Differs (bodyCount digits lines)) &&
        !(bodyCount digits lines).prints digits)

def fixedLines (digits : Digits) : List Text → List Text
  | [] => []
  | line :: lines => fixedLine digits line lines :: fixedLines digits lines

/-- Whether some line passes a test that may look at the lines behind it. -/
def anyLine (test : Text → List Text → Bool) : List Text → Bool
  | [] => false
  | line :: lines => test line lines || anyLine test lines

def anyWrong (digits : Digits) (lines : List Text) : Bool :=
  anyLine (wrongLine digits) lines

def anyRaises (digits : Digits) (lines : List Text) : Bool :=
  anyLine (raisesLine digits) lines

theorem anyWrong_cons (line : Text) (lines : List Text) :
    anyWrong digits (line :: lines) =
      (wrongLine digits line lines || anyWrong digits lines) := rfl

theorem anyRaises_cons (line : Text) (lines : List Text) :
    anyRaises digits (line :: lines) =
      (raisesLine digits line lines || anyRaises digits lines) := rfl

theorem fixedLine_of_none {line : Text} (noHunk : hunkMatch digits line = none)
    (lines : List Text) : fixedLine digits line lines = line := by
  rw [fixedLine, noHunk]

theorem wrongLine_of_none {line : Text} (noHunk : hunkMatch digits line = none)
    (lines : List Text) : wrongLine digits line lines = false := by
  rw [wrongLine, noHunk]

theorem raisesLine_of_none {line : Text} (noHunk : hunkMatch digits line = none)
    (lines : List Text) : raisesLine digits line lines = false := by
  rw [raisesLine, noHunk]

theorem raisesLine_of_long {line : Text} {m : HunkMatch}
    (found : hunkMatch digits line = some m)
    (long : m.converts digits = false) (lines : List Text) :
    raisesLine digits line lines = true := by
  simp [raisesLine, found, long]

theorem raisesLine_of_differs {line : Text} {m : HunkMatch}
    (found : hunkMatch digits line = some m)
    (short : m.converts digits = true) {lines : List Text}
    (differs : m.Differs (bodyCount digits lines)) :
    raisesLine digits line lines = !(bodyCount digits lines).prints digits := by
  simp [raisesLine, found, short, differs]

theorem raisesLine_of_agrees {line : Text} {m : HunkMatch}
    (found : hunkMatch digits line = some m)
    (short : m.converts digits = true) {lines : List Text}
    (agrees : ¬ m.Differs (bodyCount digits lines)) :
    raisesLine digits line lines = false := by
  simp [raisesLine, found, short, agrees]

theorem fixedLine_of_differs {line : Text} {m : HunkMatch}
    (found : hunkMatch digits line = some m) {lines : List Text}
    (differs : m.Differs (bodyCount digits lines)) :
    fixedLine digits line lines =
      header m.oldStart (bodyCount digits lines).old m.newStart
        (bodyCount digits lines).new m.suffix := by
  rw [fixedLine, found]
  exact if_pos differs

theorem fixedLine_of_agrees {line : Text} {m : HunkMatch}
    (found : hunkMatch digits line = some m) {lines : List Text}
    (agrees : ¬ m.Differs (bodyCount digits lines)) :
    fixedLine digits line lines = line := by
  rw [fixedLine, found]
  exact if_neg agrees

theorem wrongLine_of_differs {line : Text} {m : HunkMatch}
    (found : hunkMatch digits line = some m) {lines : List Text}
    (differs : m.Differs (bodyCount digits lines)) :
    wrongLine digits line lines = true := by
  rw [wrongLine, found]
  exact decide_eq_true differs

theorem wrongLine_of_agrees {line : Text} {m : HunkMatch}
    (found : hunkMatch digits line = some m) {lines : List Text}
    (agrees : ¬ m.Differs (bodyCount digits lines)) :
    wrongLine digits line lines = false := by
  rw [wrongLine, found]
  exact decide_eq_false agrees

theorem fixedLines_append {body : List Text}
    (noHunk : ∀ line ∈ body, hunkMatch digits line = none)
    (lines : List Text) :
    fixedLines digits (body ++ lines) = body ++ fixedLines digits lines := by
  induction body with
  | nil => rfl
  | cons line body induction =>
      obtain ⟨head, tail⟩ := List.forall_mem_cons.mp noHunk
      rw [List.cons_append, fixedLines, fixedLine_of_none head, induction tail]
      rfl

theorem anyLine_append {test : Text → List Text → Bool}
    (quiet : ∀ line, hunkMatch digits line = none →
      ∀ lines, test line lines = false) {body : List Text}
    (noHunk : ∀ line ∈ body, hunkMatch digits line = none)
    (lines : List Text) :
    anyLine test (body ++ lines) = anyLine test lines := by
  induction body with
  | nil => rfl
  | cons line body induction =>
      obtain ⟨head, tail⟩ := List.forall_mem_cons.mp noHunk
      rw [List.cons_append, anyLine, quiet line head, induction tail,
        Bool.false_or]

/-- Looking at the counted lines again changes nothing. -/
theorem fixedLines_skip (lines : List Text) :
    lines.take (bodyCount digits lines).length ++
        fixedLines digits (lines.drop (bodyCount digits lines).length) =
      fixedLines digits lines := by
  have counted := hunkMatch_eq_none_of_counted digits lines
  rw [← fixedLines_append counted, List.take_append_drop]

theorem anyLine_skip {test : Text → List Text → Bool}
    (quiet : ∀ line, hunkMatch digits line = none →
      ∀ lines, test line lines = false) (lines : List Text) :
    anyLine test (lines.drop (bodyCount digits lines).length) =
      anyLine test lines := by
  have counted := hunkMatch_eq_none_of_counted digits lines
  rw [← anyLine_append quiet counted, List.take_append_drop]

theorem anyWrong_skip (lines : List Text) :
    anyWrong digits (lines.drop (bodyCount digits lines).length) =
      anyWrong digits lines :=
  anyLine_skip (fun _ => wrongLine_of_none) lines

theorem anyRaises_skip (lines : List Text) :
    anyRaises digits (lines.drop (bodyCount digits lines).length) =
      anyRaises digits lines :=
  anyLine_skip (fun _ => raisesLine_of_none) lines

/-- The loop skips the bodies it has counted, and raises as if it looked at
every line. -/
theorem raised_fixLines (digits : Digits) (path : Path) (checkOnly : Bool)
    (lines : List Text) :
    (fixLines digits path checkOnly lines).raised = anyRaises digits lines := by
  fun_induction fixLines digits path checkOnly lines with
  | case1 => rfl
  | case2 line lines noHunk later induction =>
      rw [anyRaises_cons, raisesLine_of_none noHunk, Bool.false_or, ← induction]
  | case3 line lines m found long =>
      rw [anyRaises_cons, raisesLine_of_long found long]
      rfl
  | case4 line lines m found short count differs long =>
      have stops : (bodyCount digits lines).prints digits = false := long
      rw [anyRaises_cons, raisesLine_of_differs found
        (eq_true_of_ne_false short) differs, stops]
      rfl
  | case5 line lines m found short count body later differs prints induction =>
      have goes : (bodyCount digits lines).prints digits = true :=
        eq_true_of_ne_false prints
      rw [anyRaises_cons, raisesLine_of_differs found
        (eq_true_of_ne_false short) differs, goes, ← anyRaises_skip]
      exact induction
  | case6 line lines m found short count body later agrees induction =>
      rw [anyRaises_cons, raisesLine_of_agrees found
        (eq_true_of_ne_false short) agrees, Bool.false_or, ← anyRaises_skip]
      exact induction

theorem fixLines_eq (digits : Digits) (path : Path) (checkOnly : Bool)
    (lines : List Text) (returns : anyRaises digits lines = false) :
    (fixLines digits path checkOnly lines).out = fixedLines digits lines ∧
      (fixLines digits path checkOnly lines).changed =
        anyWrong digits lines := by
  fun_induction fixLines digits path checkOnly lines with
  | case1 => exact ⟨rfl, rfl⟩
  | case2 line lines noHunk later induction =>
      rw [anyRaises_cons, Bool.or_eq_false_iff] at returns
      obtain ⟨out, changed⟩ := induction returns.2
      constructor
      · rw [fixedLines, fixedLine_of_none noHunk, ← out]
      · rw [anyWrong_cons, wrongLine_of_none noHunk, Bool.false_or, ← changed]
  | case3 line lines m found long =>
      rw [anyRaises_cons, raisesLine_of_long found long] at returns
      cases returns
  | case4 line lines m found short count differs long =>
      have stops : (bodyCount digits lines).prints digits = false := long
      rw [anyRaises_cons, raisesLine_of_differs found
        (eq_true_of_ne_false short) differs, stops] at returns
      cases returns
  | case5 line lines m found short count body later differs prints induction =>
      rw [anyRaises_cons, Bool.or_eq_false_iff, ← anyRaises_skip] at returns
      obtain ⟨out, _⟩ := induction returns.2
      have skipped : body ++ later.out = fixedLines digits lines :=
        (congrArg (body ++ ·) out).trans (fixedLines_skip lines)
      constructor
      · rw [fixedLines, fixedLine_of_differs found differs, ← skipped]
        rfl
      · rw [anyWrong_cons, wrongLine_of_differs found differs, Bool.true_or]
  | case6 line lines m found short count body later agrees induction =>
      rw [anyRaises_cons, Bool.or_eq_false_iff, ← anyRaises_skip] at returns
      obtain ⟨out, same⟩ := induction returns.2
      have skipped : body ++ later.out = fixedLines digits lines :=
        (congrArg (body ++ ·) out).trans (fixedLines_skip lines)
      have changed : later.changed = anyWrong digits lines :=
        same.trans (anyWrong_skip lines)
      constructor
      · rw [fixedLines, fixedLine_of_agrees found agrees, ← skipped]
      · rw [anyWrong_cons, wrongLine_of_agrees found agrees, Bool.false_or,
          ← changed]

end FixPatch

end StoplessGC

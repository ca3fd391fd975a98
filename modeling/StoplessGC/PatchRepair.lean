import StoplessGC.PatchFormat
import Mathlib.Data.List.Forall2

/-!
# When the script restores the counts

The script ends a body at a header, at `diff --git`, or at the first line that
it cannot place.  In a readable patch that is where the body ends.  In any other
patch with hunks it takes a removed or added line for a file header, counts the
signature, or loses a separator.  And whatever the patch, a number that is too
long for `int` stops it.
-/

namespace StoplessGC

namespace FixPatch

open PlainText

variable {digits : Digits}

/-! ## Lines of a body -/

namespace BodyLine

theorem oneLine (b : BodyLine) : '\n' ∉ b.line := by
  cases b with
  | marked mark text oneLine =>
      have other : '\n' ≠ mark.char := by cases mark <;> decide
      exact fun member => (List.mem_cons.mp member).elim other oneLine
  | blank => exact List.not_mem_nil

theorem goes (digits : Digits) (b : BodyLine) :
    endsBody digits b.line = false := by
  cases b with
  | marked mark text oneLine =>
      cases mark <;>
        simp [endsBody, hunkMatch, diffMatch, line, Mark.char,
          List.isPrefixOf?, List.isPrefixOf_cons_cons]
  | blank =>
      simp [endsBody, hunkMatch, diffMatch, line, List.isPrefixOf?]

theorem noHunk (digits : Digits) (b : BodyLine) :
    hunkMatch digits b.line = none := by
  have goes := b.goes digits
  rw [endsBody, Bool.or_eq_false_iff] at goes
  exact Option.isSome_eq_false_iff.mp goes.1 |> Option.isNone_iff_eq_none.mp

theorem countLine_line {b : BodyLine} (single : ¬ b.Doubled) :
    countLine b.line = some (b.old, b.new) := by
  cases b with
  | marked mark text oneLine =>
      cases mark <;>
        simp_all [countLine, line, old, new, Mark.char, Mark.old, Mark.new,
          Doubled, ← List.isPrefixOf_iff_prefix, List.isPrefixOf_cons_cons]
  | blank => rfl

/-- A doubled mark is taken for a file header. -/
theorem countLine_doubled {b : BodyLine} (doubled : b.Doubled) :
    countLine b.line = none := by
  cases b with
  | marked mark text oneLine =>
      cases mark <;>
        simp_all [countLine, line, Mark.char, Doubled,
          ← List.isPrefixOf_iff_prefix, List.isPrefixOf_cons_cons]
  | blank => exact doubled.elim

theorem pos_of_doubled {b : BodyLine} (doubled : b.Doubled) :
    0 < b.old + b.new := by
  cases b with
  | marked mark text oneLine =>
      cases mark <;> simp_all [Doubled, old, new, Mark.old, Mark.new]
  | blank => exact doubled.elim

end BodyLine

theorem bodyCount_body (digits : Digits) {body : List BodyLine}
    (single : ∀ b ∈ body, ¬ b.Doubled) (rest : List Text) :
    bodyCount digits (body.map BodyLine.line ++ rest) =
      Count.add
        { old := (body.map BodyLine.old).sum
          new := (body.map BodyLine.new).sum
          length := body.length }
        (bodyCount digits rest) := by
  induction body with
  | nil => exact (Count.zero_add _).symm
  | cons b body induction =>
      obtain ⟨head, tail⟩ := List.forall_mem_cons.mp single
      rw [List.map_cons, List.cons_append,
        bodyCount_cons_of_counted (b.goes digits) (b.countLine_line head),
        induction tail, ← Count.add_assoc]
      congr 1
      simp [Count.add, Nat.add_comm]

/-- A doubled mark leaves some line of the body out. -/
theorem bodyCount_doubled (digits : Digits) {body : List BodyLine}
    {b : BodyLine} (member : b ∈ body) (doubled : b.Doubled)
    (rest : List Text) :
    (bodyCount digits (body.map BodyLine.line ++ rest)).old +
        (bodyCount digits (body.map BodyLine.line ++ rest)).new <
      (body.map BodyLine.old).sum + (body.map BodyLine.new).sum := by
  induction body with
  | nil => exact absurd member List.not_mem_nil
  | cons first body induction =>
      rw [List.map_cons, List.cons_append, List.map_cons, List.map_cons,
        List.sum_cons, List.sum_cons]
      by_cases single : first.Doubled
      · have some_line := BodyLine.pos_of_doubled single
        rw [bodyCount_cons_of_unknown (BodyLine.countLine_doubled single)]
        simp only [Count.zero]
        omega
      · have inside : b ∈ body := by
          rcases List.mem_cons.mp member with rfl | inside
          · exact absurd doubled single
          · exact inside
        have fewer := induction inside
        rw [bodyCount_cons_of_counted (first.goes digits)
          (first.countLine_line single)]
        simp only [Count.add]
        omega

/-! ## Hunks -/

namespace Hunk

variable {h : Hunk digits}

theorem correct_iff (h : Hunk digits) (count : Count) (old : count.old = h.old)
    (new : count.new = h.new) : ¬ h.stated.Differs count ↔ h.Correct := by
  rw [HunkMatch.Differs, not_not, Prod.mk.injEq, old, new, Hunk.Correct,
    eq_comm, @eq_comm _ h.new]

theorem restored_of_correct (correct : h.Correct) : h.restored = h :=
  if_pos correct

theorem withCounts_recounts (h : Hunk digits) (old new : Nat) :
    Recounts h (h.withCounts old new) :=
  ⟨rfl, rfl, rfl, rfl⟩

theorem restored_recounts (h : Hunk digits) : Recounts h h.restored := by
  unfold restored
  split
  · exact ⟨rfl, rfl, rfl, rfl⟩
  · exact h.withCounts_recounts _ _

theorem restored_body (h : Hunk digits) : h.restored.body = h.body :=
  h.restored_recounts.body

theorem correct_of_restored_header (same : h.restored.header = h.header) :
    h.Correct := by
  by_contra wrong
  have restored : h.restored = h.withCounts h.old h.new := if_neg wrong
  have matched := (h.withCounts h.old h.new).matched
  rw [← restored, same, h.matched] at matched
  have stated : h.stated = h.restored.stated := Option.some.inj matched
  rw [restored] at stated
  exact wrong ⟨congrArg HunkMatch.oldStated stated,
    congrArg HunkMatch.newStated stated⟩

theorem body_noHunk (h : Hunk digits) :
    ∀ line ∈ h.body.map BodyLine.line, hunkMatch digits line = none := by
  intro line member
  obtain ⟨b, _, rfl⟩ := List.mem_map.mp member
  exact b.noHunk digits

theorem oneLine_of_mem (h : Hunk digits) : ∀ line ∈ h.lines, '\n' ∉ line := by
  refine List.forall_mem_cons.mpr ⟨h.oneLine, ?_⟩
  intro line member
  obtain ⟨b, _, rfl⟩ := List.mem_map.mp member
  exact b.oneLine

/-- The script counts what the format does if nothing behind the body is
counted. -/
theorem counted (single : ∀ b ∈ h.body, ¬ b.Doubled) {rest : List Text}
    (ends : bodyCount digits rest = Count.zero) :
    bodyCount digits (h.body.map BodyLine.line ++ rest) =
      { old := h.old, new := h.new, length := h.body.length } := by
  rw [bodyCount_body digits single rest, ends, Count.add_zero]
  rfl

/-- A hunk whose numbers can be read, and its true counts printed. -/
structure Writable (h : Hunk digits) : Prop where
  converts : h.stated.converts digits = true
  counts : digits.fits (numeral h.old).length = true ∧
    digits.fits (numeral h.new).length = true

theorem raisesLine_header (writable : h.Writable)
    (single : ∀ b ∈ h.body, ¬ b.Doubled) {rest : List Text}
    (ends : bodyCount digits rest = Count.zero) :
    raisesLine digits h.header (h.body.map BodyLine.line ++ rest) = false := by
  by_cases differs : h.stated.Differs
      (bodyCount digits (h.body.map BodyLine.line ++ rest))
  · rw [raisesLine_of_differs h.matched writable.converts differs,
      counted single ends, Count.prints, writable.counts.1,
      writable.counts.2]
    rfl
  · exact raisesLine_of_agrees h.matched writable.converts differs

theorem fixedLine_header (single : ∀ b ∈ h.body, ¬ b.Doubled)
    {rest : List Text} (ends : bodyCount digits rest = Count.zero) :
    fixedLine digits h.header (h.body.map BodyLine.line ++ rest) =
      h.restored.header := by
  have counts := counted single ends
  by_cases correct : h.Correct
  · have agrees := (h.correct_iff (bodyCount digits
      (h.body.map BodyLine.line ++ rest)) (by rw [counts])
      (by rw [counts])).mpr correct
    rw [fixedLine_of_agrees h.matched agrees, restored_of_correct correct]
  · have differs : h.stated.Differs (bodyCount digits
        (h.body.map BodyLine.line ++ rest)) := by
      by_contra agrees
      exact correct ((h.correct_iff _ (by rw [counts])
        (by rw [counts])).mp agrees)
    rw [fixedLine_of_differs h.matched differs, counts, restored,
      if_neg correct]
    rfl

end Hunk

/-! ## The parts of a patch in order -/

namespace Part

def mapHunk (change : Hunk digits → Hunk digits) : Part digits → Part digits
  | .line l => .line l
  | .hunk h => .hunk (change h)

inductive Recounts : Part digits → Part digits → Prop where
  | line (l : OutsideLine) : Recounts (.line l) (.line l)
  | hunk {h h' : Hunk digits} :
      Hunk.Recounts h h' → Recounts (.hunk h) (.hunk h')

theorem oneLine_of_mem (part : Part digits) :
    ∀ line ∈ part.lines, '\n' ∉ line := by
  cases part with
  | line l => exact List.forall_mem_singleton.mpr l.oneLine
  | hunk h => exact h.oneLine_of_mem

end Part

theorem partsLines_cons (part : Part digits) (parts : List (Part digits)) :
    partsLines (part :: parts) = part.lines ++ partsLines parts := rfl

theorem partsLines_append (parts parts' : List (Part digits)) :
    partsLines (parts ++ parts') = partsLines parts ++ partsLines parts' :=
  List.flatMap_append

theorem partsLines_line (lines : List (OutsideLine)) :
    partsLines (lines.map Part.line : List (Part digits)) =
      lines.map OutsideLine.text := by
  induction lines with
  | nil => rfl
  | cons line lines induction =>
      rw [List.map_cons, partsLines_cons, induction]
      rfl

theorem partsLines_hunk (hunks : List (Hunk digits)) :
    partsLines (hunks.map Part.hunk) = hunks.flatMap Hunk.lines := by
  induction hunks with
  | nil => rfl
  | cons h hunks induction =>
      rw [List.map_cons, partsLines_cons, induction]
      rfl

theorem FilePatch.lines_eq (f : FilePatch digits) :
    f.lines = partsLines f.parts := by
  rw [FilePatch.lines, FilePatch.parts, partsLines_cons, partsLines_append,
    partsLines_line, partsLines_hunk]
  rfl

theorem partsLines_files (files : List (FilePatch digits)) :
    partsLines (files.flatMap FilePatch.parts) =
      files.flatMap FilePatch.lines := by
  induction files with
  | nil => rfl
  | cons f files induction =>
      rw [List.flatMap_cons, partsLines_append, induction, ← f.lines_eq]
      rfl

namespace Patch

theorem partsLines_signature (p : Patch digits) :
    partsLines p.signatureParts = p.signatureLines := by
  unfold signatureParts signatureLines
  cases p.signature <;> rfl

theorem lines_eq (p : Patch digits) : p.lines = partsLines p.parts := by
  rw [lines, parts, partsLines_append, partsLines_append, partsLines_line,
    partsLines_files, partsLines_signature]

theorem hunk_mem_parts {p : Patch digits} {h : Hunk digits} :
    Part.hunk h ∈ p.parts ↔ h ∈ p.hunks := by
  have outside : Part.hunk h ∉ p.signatureParts := by
    unfold signatureParts
    cases p.signature <;> simp
  simp [parts, hunks, FilePatch.parts, outside]

theorem oneLine_of_mem (p : Patch digits) :
    ∀ line ∈ p.lines, '\n' ∉ line := by
  rw [p.lines_eq]
  intro line member
  obtain ⟨part, _, inside⟩ := List.mem_flatMap.mp member
  exact part.oneLine_of_mem line inside

theorem mapHunks_parts (change : Hunk digits → Hunk digits)
    (p : Patch digits) :
    (p.mapHunks change).parts = p.parts.map (Part.mapHunk change) := by
  have signature : p.signatureParts.map (Part.mapHunk change) =
      p.signatureParts := by
    unfold signatureParts
    cases p.signature <;> rfl
  have file (f : FilePatch digits) :
      (f.mapHunks change).parts = f.parts.map (Part.mapHunk change) := by
    simp [FilePatch.parts, FilePatch.mapHunks, Part.mapHunk,
      Function.comp_def]
  have files :
      (p.files.map (FilePatch.mapHunks change)).flatMap FilePatch.parts =
        (p.files.flatMap FilePatch.parts).map (Part.mapHunk change) := by
    rw [List.flatMap_map, List.map_flatMap]
    simp only [file]
  have mail : (p.mail.map Part.line).map (Part.mapHunk change) =
      p.mail.map Part.line := by
    simp [Part.mapHunk, Function.comp_def]
  rw [parts, parts, List.map_append, List.map_append, mail, ← files,
    signature]
  rfl

end Patch

/-! ## Other counts in the same patch -/

theorem Part.Recounts.refl (part : Part digits) : Part.Recounts part part := by
  cases part with
  | line l => exact .line l
  | hunk h => exact .hunk ⟨rfl, rfl, rfl, rfl⟩

theorem Part.Recounts.refl_list (parts : List (Part digits)) :
    List.Forall₂ Part.Recounts parts parts :=
  List.forall₂_same.mpr (fun part _ => .refl part)

theorem Part.Recounts.unbroken_iff {part part' : Part digits}
    (recounts : Part.Recounts part part') :
    (∀ line ∈ part'.lines, Unbroken line) ↔
      ∀ line ∈ part.lines, Unbroken line := by
  cases recounts with
  | line l => rfl
  | @hunk h h' same =>
      have header : Unbroken h'.header ↔ Unbroken h.header := by
        rw [unbroken_iff_suffix h'.matched, unbroken_iff_suffix h.matched,
          same.suffix]
      simp only [Part.lines, Hunk.lines, List.forall_mem_cons, header,
        same.body]

theorem unbroken_partsLines_iff {parts parts' : List (Part digits)}
    (recounts : List.Forall₂ Part.Recounts parts parts') :
    (∀ line ∈ partsLines parts', Unbroken line) ↔
      ∀ line ∈ partsLines parts, Unbroken line := by
  induction recounts with
  | nil => rfl
  | cons head tail induction =>
      simp only [partsLines_cons, List.forall_mem_append, head.unbroken_iff,
        induction]

theorem FilePatch.Recounts.parts {f f' : FilePatch digits}
    (recounts : FilePatch.Recounts f f') :
    List.Forall₂ Part.Recounts f.parts f'.parts := by
  have hunks : List.Forall₂ Part.Recounts (f.hunks.map Part.hunk)
      (f'.hunks.map Part.hunk) :=
    List.forall₂_map_left_iff.mpr (List.forall₂_map_right_iff.mpr
      (recounts.hunks.imp (fun _ _ same => .hunk same)))
  rw [FilePatch.parts, FilePatch.parts, recounts.first, recounts.headers]
  exact .cons (.line _) (List.rel_append (Part.Recounts.refl_list _) hunks)

namespace Patch

variable {p p' : Patch digits}

theorem Recounts.parts (recounts : Recounts p p') :
    List.Forall₂ Part.Recounts p.parts p'.parts := by
  have files : List.Forall₂ Part.Recounts (p.files.flatMap FilePatch.parts)
      (p'.files.flatMap FilePatch.parts) :=
    List.rel_flatMap recounts.files (fun _ _ same => same.parts)
  have signature : p'.signatureParts = p.signatureParts := by
    rw [signatureParts, signatureParts, recounts.signature]
  rw [Patch.parts, Patch.parts, recounts.mail, signature]
  exact List.rel_append (List.rel_append (Part.Recounts.refl_list _) files)
    (Part.Recounts.refl_list _)

theorem Recounts.unbroken_iff (recounts : Recounts p p') :
    (∀ line ∈ p'.lines, Unbroken line) ↔ ∀ line ∈ p.lines, Unbroken line := by
  rw [p.lines_eq, p'.lines_eq]
  exact unbroken_partsLines_iff recounts.parts

theorem Recounts.hunks (recounts : Recounts p p') :
    List.Forall₂ Hunk.Recounts p.hunks p'.hunks :=
  List.rel_flatMap recounts.files (fun _ _ same => same.hunks)

theorem endsInHunk_iff {files files' : List (FilePatch digits)}
    (recounts : List.Forall₂ FilePatch.Recounts files files') :
    EndsInHunk files' ↔ EndsInHunk files := by
  induction recounts with
  | nil => rfl
  | @cons f f' files files' head tail induction =>
      cases tail with
      | nil =>
          have length := head.hunks.length_eq
          have empty : f'.hunks = [] ↔ f.hunks = [] := by
            rw [← List.length_eq_zero_iff, ← List.length_eq_zero_iff, length]
          simp only [EndsInHunk, ne_eq, empty]
      | cons head' tail' => exact induction

theorem marks_iff {hunks hunks' : List (Hunk digits)}
    (recounts : List.Forall₂ Hunk.Recounts hunks hunks') :
    (∀ h ∈ hunks', ∀ b ∈ h.body, ¬ b.Doubled) ↔
      ∀ h ∈ hunks, ∀ b ∈ h.body, ¬ b.Doubled := by
  induction recounts with
  | nil => rfl
  | cons head tail induction =>
      rw [List.forall_mem_cons, List.forall_mem_cons, head.body, induction]

/-- Counts do not matter for what the script relies on. -/
theorem Recounts.readable (recounts : Recounts p p') (readable : Readable p) :
    Readable p' where
  unbroken := recounts.unbroken_iff.mpr readable.unbroken
  marks := (marks_iff recounts.hunks).mpr readable.marks
  signature := by
    rw [recounts.signature, endsInHunk_iff recounts.files]
    exact readable.signature

theorem mapHunks_recounts {change : Hunk digits → Hunk digits}
    (recounts : ∀ h, Hunk.Recounts h (change h)) (p : Patch digits) :
    Recounts p (p.mapHunks change) where
  mail := rfl
  files := by
    refine List.forall₂_map_right_iff.mpr (List.forall₂_same.mpr ?_)
    intro f _
    refine ⟨rfl, rfl, List.forall₂_map_right_iff.mpr
      (List.forall₂_same.mpr ?_)⟩
    exact fun h _ => recounts h
  signature := rfl

theorem restored_recounts (p : Patch digits) : Recounts p p.restored :=
  mapHunks_recounts Hunk.restored_recounts p

end Patch

/-! ## Where bodies end -/

/-- Nothing behind a hunk is counted for it. -/
def Delimited : List (Part digits) → Prop
  | [] => True
  | .line _ :: parts => Delimited parts
  | .hunk _ :: parts =>
      bodyCount digits (partsLines parts) = Count.zero ∧ Delimited parts

theorem delimited_lines (lines : List (OutsideLine))
    {parts : List (Part digits)} (delimited : Delimited parts) :
    Delimited (lines.map Part.line ++ parts) := by
  induction lines with
  | nil => exact delimited
  | cons line lines induction => exact induction

theorem delimited_hunks (hunks : List (Hunk digits))
    {parts : List (Part digits)}
    (ends : hunks ≠ [] → bodyCount digits (partsLines parts) = Count.zero)
    (delimited : Delimited parts) :
    Delimited (hunks.map Part.hunk ++ parts) := by
  induction hunks with
  | nil => exact delimited
  | cons h hunks induction =>
      have stop := ends (by simp)
      refine ⟨?_, induction (fun _ => stop)⟩
      cases hunks with
      | nil => exact stop
      | cons next hunks =>
          apply bodyCount_cons_of_ends
          simp [endsBody, next.matched]

/-- The first line of a file ends the body before it. -/
theorem bodyCount_file (f : FilePatch digits) (parts : List (Part digits)) :
    bodyCount digits (partsLines (f.parts ++ parts)) = Count.zero := by
  rcases f.first_starts with diff | oldFile
  · apply bodyCount_cons_of_ends
    simp [endsBody, diff]
  · apply bodyCount_cons_of_unknown
    obtain ⟨rest, split⟩ := List.isPrefixOf_iff_prefix.mp oldFile
    simp [← split, countLine, List.isPrefixOf_cons_cons]

theorem delimited_files (files : List (FilePatch digits))
    {parts : List (Part digits)}
    (ends : Patch.EndsInHunk files →
      bodyCount digits (partsLines parts) = Count.zero)
    (delimited : Delimited parts) :
    Delimited (files.flatMap FilePatch.parts ++ parts) := by
  induction files with
  | nil => exact delimited
  | cons f files induction =>
      rw [List.flatMap_cons, List.append_assoc, FilePatch.parts]
      change Delimited (_ ++ _ ++ _)
      rw [List.append_assoc]
      apply delimited_lines
      cases files with
      | nil => exact delimited_hunks _ ends delimited
      | cons next files =>
          apply delimited_hunks
          · intro _
            rw [List.flatMap_cons, List.append_assoc]
            exact bodyCount_file next _
          · exact induction ends

namespace Patch

variable {p : Patch digits}

theorem Readable.delimited (readable : Readable p) : Delimited p.parts := by
  rw [parts, List.append_assoc]
  apply delimited_lines
  have signature := readable.signature
  unfold signatureParts
  cases present : p.signature with
  | none => exact delimited_files _ (fun _ => rfl) trivial
  | some version =>
      apply delimited_files
      · intro endsInHunk
        exact absurd endsInHunk (signature (by simp [present]))
      · exact trivial

end Patch

/-! ## Lines outside the hunks -/

theorem silent_append {lines rest : List Text} :
    Silent digits (lines ++ rest) ↔
      Accurate digits rest lines ∧ Silent digits rest := by
  induction lines with
  | nil => exact (and_iff_right trivial).symm
  | cons line lines induction =>
      rw [List.cons_append, silent_cons, induction, Accurate, and_assoc]

theorem linesOf_append (line : Text) (rest : Text) :
    linesOf (line ++ '\n' :: rest) =
      linesOf (line ++ ['\n']) ++ linesOf rest := by
  obtain ⟨start, ending⟩ := readText_newline line
  rw [linesOf, linesOf, linesOf, readText_append, ending, List.append_assoc,
    List.singleton_append, splitlines_append]

theorem linesOf_unlines_append (lines rest : List Text) :
    linesOf (unlines (lines ++ rest)) =
      linesOf (unlines lines) ++ linesOf (unlines rest) := by
  induction lines with
  | nil => rfl
  | cons line lines induction =>
      rw [List.cons_append, unlines_cons, unlines_cons, linesOf_append,
        induction, linesOf_append line (unlines lines), List.append_assoc]

theorem linesOf_partsLines (part : Part digits) (parts : List (Part digits)) :
    linesOf (unlines (partsLines (part :: parts))) =
      linesOf (unlines part.lines) ++ linesOf (unlines (partsLines parts)) := by
  rw [partsLines_cons, linesOf_unlines_append]

theorem unlines_singleton (line : Text) : unlines [line] = line ++ ['\n'] := by
  simp [unlines]

theorem quiet_of_silent {parts : List (Part digits)}
    (silent : Silent digits (linesOf (unlines (partsLines parts)))) :
    QuietParts parts := by
  induction parts with
  | nil => exact trivial
  | cons part parts induction =>
      rw [linesOf_partsLines, silent_append] at silent
      obtain ⟨accurate, rest⟩ := silent
      cases part with
      | line l =>
          rw [Part.lines, unlines_singleton] at accurate
          exact ⟨accurate, induction rest⟩
      | hunk h => exact induction rest

theorem silent_of_quiet {parts : List (Part digits)}
    (noHunk : ∀ h, Part.hunk h ∉ parts) (quiet : QuietParts parts) :
    Silent digits (linesOf (unlines (partsLines parts))) := by
  induction parts with
  | nil => exact ⟨rfl, rfl⟩
  | cons part parts induction =>
      cases part with
      | line l =>
          rw [linesOf_partsLines, silent_append, Part.lines, unlines_singleton]
          exact ⟨quiet.1, induction
            (fun h member => noHunk h (List.mem_cons_of_mem _ member)) quiet.2⟩
      | hunk h => exact absurd List.mem_cons_self (noHunk h)

theorem quiet_line_iff {l : OutsideLine} {parts : List (Part digits)}
    (unbroken : Unbroken l.text)
    (rest : ∀ line ∈ partsLines parts, Unbroken line) :
    Accurate digits (linesOf (unlines (partsLines parts)))
        (linesOf (l.text ++ ['\n'])) ↔
      ∀ m, hunkMatch digits l.text = some m → m.converts digits = true ∧
        ¬ m.Differs (bodyCount digits (partsLines parts)) := by
  have single : linesOf (l.text ++ ['\n']) = [l.text] := by
    rw [← unlines_singleton]
    exact linesOf_unlines (List.forall_mem_singleton.mpr unbroken)
  rw [single, linesOf_unlines rest]
  exact and_iff_left trivial

theorem Part.Recounts.rewritten {part part' : Part digits}
    (recounts : Part.Recounts part part') :
    List.Forall₂ (Rewritten digits) part.lines part'.lines := by
  cases recounts with
  | line l => exact .cons (.inl rfl) .nil
  | @hunk h h' same =>
      rw [Part.lines, Part.lines, Hunk.lines, Hunk.lines, same.body]
      refine .cons (.inr ⟨?_, ?_⟩) (List.forall₂_same.mpr fun _ _ => .inl rfl)
      · rw [h.matched]
        rfl
      · rw [h'.matched]
        rfl

theorem bodyCount_recounts {parts parts' : List (Part digits)}
    (recounts : List.Forall₂ Part.Recounts parts parts') :
    bodyCount digits (partsLines parts) = bodyCount digits (partsLines parts') :=
  bodyCount_rewritten
    (List.rel_flatMap recounts (fun _ _ same => same.rewritten))

theorem quiet_recounts {parts parts' : List (Part digits)}
    (recounts : List.Forall₂ Part.Recounts parts parts')
    (unbroken : ∀ line ∈ partsLines parts, Unbroken line)
    (quiet : QuietParts parts) : QuietParts parts' := by
  have unbroken' := (unbroken_partsLines_iff recounts).mpr unbroken
  induction recounts with
  | nil => exact quiet
  | cons head tail induction =>
      rw [partsLines_cons, List.forall_mem_append] at unbroken unbroken'
      cases head with
      | line l =>
          have text := unbroken.1 l.text (List.mem_singleton_self _)
          refine ⟨(quiet_line_iff text unbroken'.2).mpr ?_,
            induction unbroken.2 quiet.2 unbroken'.2⟩
          rw [← bodyCount_recounts tail]
          exact (quiet_line_iff text unbroken.2).mp quiet.1
      | hunk same => exact induction unbroken.2 quiet unbroken'.2

/-! ## A readable patch -/

section Readable

variable {parts : List (Part digits)}

theorem fixedLines_parts (delimited : Delimited parts)
    (marks : ∀ h, Part.hunk h ∈ parts → ∀ b ∈ h.body, ¬ b.Doubled)
    (unbroken : ∀ line ∈ partsLines parts, Unbroken line)
    (quiet : QuietParts parts) :
    fixedLines digits (partsLines parts) =
      partsLines (parts.map (Part.mapHunk Hunk.restored)) := by
  induction parts with
  | nil => rfl
  | cons part parts induction =>
      rw [partsLines_cons, List.forall_mem_append] at unbroken
      have later := fun h member => marks h (List.mem_cons_of_mem _ member)
      rw [partsLines_cons, List.map_cons, partsLines_cons]
      cases part with
      | line l =>
          have text := unbroken.1 l.text (List.mem_singleton_self _)
          have accurate := (quiet_line_iff text unbroken.2).mp quiet.1
          have kept : fixedLine digits l.text (partsLines parts) = l.text := by
            cases found : hunkMatch digits l.text with
            | none => exact fixedLine_of_none found _
            | some m => exact fixedLine_of_agrees found (accurate m found).2
          rw [← induction delimited later unbroken.2 quiet.2]
          exact congrArg (· :: _) kept
      | hunk h =>
          obtain ⟨ends, tail⟩ := delimited
          have header := h.fixedLine_header (marks h List.mem_cons_self) ends
          rw [← induction tail later unbroken.2 quiet]
          change fixedLine digits h.header
              (h.body.map BodyLine.line ++ partsLines parts) ::
            fixedLines digits (h.body.map BodyLine.line ++ partsLines parts) =
              h.restored.header :: (h.restored.body.map BodyLine.line ++
                fixedLines digits (partsLines parts))
          rw [header, fixedLines_append h.body_noHunk, h.restored_body]

theorem anyRaises_parts (delimited : Delimited parts)
    (marks : ∀ h, Part.hunk h ∈ parts → ∀ b ∈ h.body, ¬ b.Doubled)
    (unbroken : ∀ line ∈ partsLines parts, Unbroken line)
    (quiet : QuietParts parts)
    (writable : ∀ h, Part.hunk h ∈ parts → h.Writable) :
    anyRaises digits (partsLines parts) = false := by
  induction parts with
  | nil => rfl
  | cons part parts induction =>
      rw [partsLines_cons, List.forall_mem_append] at unbroken
      have later := fun h member => marks h (List.mem_cons_of_mem _ member)
      have more := fun h member => writable h (List.mem_cons_of_mem _ member)
      cases part with
      | line l =>
          have text := unbroken.1 l.text (List.mem_singleton_self _)
          have accurate := (quiet_line_iff text unbroken.2).mp quiet.1
          have goes : raisesLine digits l.text (partsLines parts) = false := by
            cases found : hunkMatch digits l.text with
            | none => exact raisesLine_of_none found _
            | some m =>
                exact raisesLine_of_agrees found (accurate m found).1
                  (accurate m found).2
          change anyRaises digits (l.text :: partsLines parts) = false
          rw [anyRaises_cons, goes,
            induction delimited later unbroken.2 quiet.2 more]
          rfl
      | hunk h =>
          obtain ⟨ends, tail⟩ := delimited
          have goes := Hunk.raisesLine_header (writable h List.mem_cons_self)
            (marks h List.mem_cons_self) ends
          change anyRaises digits (h.header ::
            (h.body.map BodyLine.line ++ partsLines parts)) = false
          rw [anyRaises_cons, goes, Bool.false_or]
          exact (anyLine_append (fun _ => raisesLine_of_none) h.body_noHunk
            _).trans (induction tail later unbroken.2 quiet more)

end Readable

theorem recounts_eq {parts parts' : List (Part digits)}
    (recounts : List.Forall₂ Part.Recounts parts parts')
    (noHunk : ∀ h, Part.hunk h ∉ parts) : parts = parts' := by
  induction recounts with
  | nil => rfl
  | @cons part part' parts parts' head tail induction =>
      rw [induction fun h member => noHunk h (List.mem_cons_of_mem _ member)]
      cases head with
      | line l => rfl
      | hunk same => exact absurd List.mem_cons_self (noHunk _)

namespace Patch

variable {p p' : Patch digits}

theorem Readable.linesOf_text (readable : Readable p) :
    linesOf p.text = p.lines :=
  linesOf_unlines readable.unbroken

theorem Readable.parts_marks (readable : Readable p) :
    ∀ h, Part.hunk h ∈ p.parts → ∀ b ∈ h.body, ¬ b.Doubled :=
  fun h member => readable.marks h (hunk_mem_parts.mp member)

theorem Readable.parts_unbroken (readable : Readable p) :
    ∀ line ∈ partsLines p.parts, Unbroken line := by
  rw [← p.lines_eq]
  exact readable.unbroken

theorem Readable.fixedLines_eq (readable : Readable p) (quiet : p.Quiet) :
    fixedLines digits p.lines = p.restored.lines := by
  rw [p.lines_eq, p.restored.lines_eq, restored, mapHunks_parts]
  exact fixedLines_parts readable.delimited readable.parts_marks
    readable.parts_unbroken quiet

theorem Readable.anyRaises_eq (readable : Readable p) (quiet : p.Quiet)
    (writable : ∀ h ∈ p.hunks, h.Writable) :
    anyRaises digits p.lines = false := by
  rw [p.lines_eq]
  exact anyRaises_parts readable.delimited readable.parts_marks
    readable.parts_unbroken quiet
    (fun h member => writable h (hunk_mem_parts.mp member))

theorem Readable.contents (readable : Readable p) (quiet : p.Quiet)
    (writable : ∀ h ∈ p.hunks, h.Writable) (path : Path) :
    (fixPatch digits path false p.text).contents p.text = p.restored.text := by
  have fixed := readable.fixedLines_eq quiet
  rw [contents_fixPatch, readable.linesOf_text, fixed,
    readable.anyRaises_eq quiet writable]
  cases wrong : anyWrong digits p.lines with
  | true => rfl
  | false =>
      rw [fixedLines_of_right wrong] at fixed
      exact congrArg unlines fixed

theorem restored_lines_of_correct (correct : p.Correct) :
    p.restored.lines = p.lines := by
  have same (part : Part digits) (member : part ∈ p.parts) :
      part.mapHunk Hunk.restored = id part := by
    cases part with
    | line l => rfl
    | hunk h =>
        exact congrArg Part.hunk
          (Hunk.restored_of_correct (correct h (hunk_mem_parts.mp member)))
  rw [p.restored.lines_eq, restored, mapHunks_parts, List.map_congr_left same,
    List.map_id, ← p.lines_eq]

/-- True counts are stated, so they are short enough to be printed. -/
theorem printable (correct : p.Correct) (convertible : p.Convertible)
    {h : Hunk digits} (member : h ∈ p.hunks) :
    digits.fits (numeral h.old).length = true ∧
      digits.fits (numeral h.new).length = true := by
  have printed := fits_of_converts h.matched (convertible h member)
  rw [← (correct h member).1, ← (correct h member).2]
  exact ⟨printed _ (by simp), printed _ (by simp)⟩

theorem exists_related {hunks hunks' : List (Hunk digits)}
    (recounts : List.Forall₂ Hunk.Recounts hunks hunks') {h' : Hunk digits}
    (member : h' ∈ hunks') : ∃ h ∈ hunks, Hunk.Recounts h h' := by
  induction recounts with
  | nil => cases member
  | @cons h _ hunks _ head _ induction =>
      rcases List.mem_cons.mp member with rfl | inside
      · exact ⟨h, List.mem_cons_self, head⟩
      · obtain ⟨g, there, same⟩ := induction inside
        exact ⟨g, List.mem_cons_of_mem _ there, same⟩

theorem Recounts.writable (recounts : Recounts p p') (correct : p.Correct)
    (convertible : p.Convertible) (convertible' : p'.Convertible) :
    ∀ h ∈ p'.hunks, h.Writable := by
  intro h' member'
  obtain ⟨h, member, same⟩ := exists_related recounts.hunks member'
  refine ⟨convertible' h' member', ?_⟩
  rw [Hunk.old, Hunk.new, same.body]
  exact printable correct convertible member

theorem Recounts.quiet (recounts : Recounts p p') (readable : Readable p)
    (quiet : p.Quiet) : p'.Quiet :=
  quiet_recounts recounts.parts readable.parts_unbroken quiet

theorem Readable.trueCounts (readable : Readable p) (quiet : p.Quiet)
    (correct : p.Correct) (convertible : p.Convertible) (path : Path)
    {allowed : Patch digits → Prop}
    (short : ∀ p', allowed p' → p'.Convertible) :
    TrueCounts path p allowed where
  unchanged := by
    have writable : ∀ h ∈ p.hunks, h.Writable := fun h member =>
      ⟨convertible h member, printable correct convertible member⟩
    have right := anyWrong_fixedLines digits p.lines
    rw [readable.fixedLines_eq quiet, restored_lines_of_correct correct] at right
    apply fixPatch_of_silent
    rw [readable.linesOf_text]
    exact ⟨readable.anyRaises_eq quiet writable, right⟩
  restores := fun p' recounts within =>
    (recounts.readable readable).contents (recounts.quiet readable quiet)
      (recounts.writable correct convertible (short p' within)) path

/-! ## A patch without hunks -/

theorem parts_noHunk (empty : p.hunks = []) : ∀ h, Part.hunk h ∉ p.parts := by
  intro h member
  have inside := hunk_mem_parts.mp member
  rw [empty] at inside
  exact absurd inside List.not_mem_nil

theorem trueCounts_of_hunks_nil (empty : p.hunks = []) (quiet : p.Quiet)
    (path : Path) (allowed : Patch digits → Prop) :
    TrueCounts path p allowed where
  unchanged := by
    have silent := silent_of_quiet (parts_noHunk empty) quiet
    rw [← p.lines_eq] at silent
    exact fixPatch_of_silent silent path
  restores := by
    intro p' recounts _
    have same := recounts_eq recounts.parts (parts_noHunk empty)
    have correct : p'.Correct := by
      intro h member
      have inside := hunk_mem_parts.mpr member
      rw [← same] at inside
      exact absurd inside (parts_noHunk empty h)
    have silent := silent_of_quiet (parts_noHunk empty) quiet
    rw [same, ← p'.lines_eq] at silent
    rw [text, text, restored_lines_of_correct correct, Outcome.contents,
      (fixPatch_of_silent silent path false).unwritten]
    rfl

/-! ## Any other patch -/

theorem correct_of_restored_lines {parts : List (Part digits)}
    (same : partsLines (parts.map (Part.mapHunk Hunk.restored)) =
      partsLines parts) :
    ∀ h, Part.hunk h ∈ parts → h.Correct := by
  induction parts with
  | nil => exact fun h member => absurd member List.not_mem_nil
  | cons part parts induction =>
      intro h member
      rw [List.map_cons, partsLines_cons, partsLines_cons] at same
      cases part with
      | line l =>
          have tail := List.append_cancel_left same
          rcases List.mem_cons.mp member with first | inside
          · exact absurd first (by simp)
          · exact induction tail h inside
      | hunk first =>
          obtain ⟨header, rest⟩ := List.cons.inj same
          rw [first.restored_body] at rest
          have tail := List.append_cancel_left rest
          rcases List.mem_cons.mp member with same | inside
          · obtain rfl := Part.hunk.inj same
            exact h.correct_of_restored_header header
          · exact induction tail h inside

theorem correct_of_restored_text (same : p.text = p.restored.text) :
    p.Correct := by
  have lines := unlines_injective p.oneLine_of_mem p.restored.oneLine_of_mem
    same
  rw [p.lines_eq, p.restored.lines_eq, restored, mapHunks_parts] at lines
  exact fun h member =>
    correct_of_restored_lines lines.symm h (hunk_mem_parts.mpr member)

theorem silent_of_reported {contents : Text} {path : Path}
    (reported : Reported (fixPatch digits path false contents) path) :
    Silent digits (linesOf contents) := by
  have returns : anyRaises digits (linesOf contents) = false := by
    by_contra raises
    have result := (fixPatch_of_raises (eq_true_of_ne_false raises) path
      false).2
    rw [reported.result] at result
    cases result
  refine ⟨returns, ?_⟩
  by_contra wrong
  have written := (fixPatch_of_wrong returns (eq_true_of_ne_false wrong)
    path).1
  rw [reported.unwritten] at written
  cases written

theorem converts_of_accurate {header : Text} {m : HunkMatch}
    {rest : List Text} (found : hunkMatch digits header = some m)
    (accurate : Accurate digits rest (linesOf (header ++ ['\n']))) :
    m.converts digits = true := by
  obtain ⟨ranges, spelled, split⟩ := hunkMatch_split found
  obtain ⟨first, others, lines⟩ :
      ∃ first others, linesOf (ranges ++ (m.suffix ++ ['\n'])) =
        (ranges ++ first) :: others := by
    obtain ⟨start, ending⟩ := readText_newline m.suffix
    rw [linesOf, readText_append_of_notMem spelled.unbroken.return_notMem,
      ending]
    exact splitlines_unbroken_append spelled.unbroken (by simp)
  rw [split, List.append_assoc, lines] at accurate
  exact (accurate.1 _ (spelled.again first)).1

theorem convertible_of_silent
    (silent : Silent digits (linesOf (unlines (partsLines p.parts)))) :
    p.Convertible := by
  intro h member
  obtain ⟨before, after, split⟩ :=
    List.append_of_mem (hunk_mem_parts.mpr member)
  have lines : partsLines (Part.hunk h :: after) =
      [h.header] ++ (h.body.map BodyLine.line ++ partsLines after) := rfl
  rw [split, partsLines_append, lines, linesOf_unlines_append, silent_append,
    linesOf_unlines_append, unlines_singleton, silent_append] at silent
  exact converts_of_accurate h.matched silent.2.1

/-- The same patch with other counts in every header. -/
def restated (count : Hunk digits → Nat) (p : Patch digits) : Patch digits :=
  p.mapHunks (fun h => h.withCounts (count h) h.new)

theorem restated_recounts (count : Hunk digits → Nat) (p : Patch digits) :
    Recounts p (p.restated count) :=
  mapHunks_recounts (fun h => h.withCounts_recounts _ _) p

theorem mem_restated {count : Hunk digits → Nat} {h' : Hunk digits} :
    h' ∈ (p.restated count).hunks ↔
      ∃ h ∈ p.hunks, h' = h.withCounts (count h) h.new := by
  have hunks : (p.restated count).hunks =
      p.hunks.map fun h => h.withCounts (count h) h.new := by
    change (p.files.map (FilePatch.mapHunks _)).flatMap FilePatch.hunks = _
    rw [List.flatMap_map, Patch.hunks, List.map_flatMap]
    rfl
  rw [hunks, List.mem_map]
  simp only [eq_comm]

theorem restated_wrong (count : Hunk digits → Nat)
    (some_hunk : p.hunks ≠ []) (other : ∀ h ∈ p.hunks, count h ≠ h.old) :
    ¬ (p.restated count).Correct := by
  intro correct
  obtain ⟨h, inside⟩ := List.exists_mem_of_ne_nil _ some_hunk
  exact other h inside (correct _ (mem_restated.mpr ⟨h, inside, rfl⟩)).1

theorem restated_convertible {count : Hunk digits → Nat}
    (correct : p.Correct) (convertible : p.Convertible)
    (short : ∀ h ∈ p.hunks, digits.fits (numeral (count h)).length = true) :
    (p.restated count).Convertible := by
  intro h' member'
  obtain ⟨h, member, rfl⟩ := mem_restated.mp member'
  have printed := fits_of_converts h.matched (convertible h member)
  have counts := printable correct convertible member
  change (HunkMatch.ofHeader _ _ _ _ _).converts digits = true
  rw [converts_ofHeader, short h member, counts.2, printed _ (by simp),
    printed _ (by simp)]
  rfl

/-- A count that is not the true one, of one digit. -/
def otherCount (n : Nat) : Nat := if n = 0 then 1 else 0

theorem otherCount_ne (n : Nat) : otherCount n ≠ n := by
  unfold otherCount
  split <;> omega

theorem length_numeral_otherCount (n : Nat) :
    (numeral (otherCount n)).length = 1 := by
  unfold otherCount
  split <;> decide

theorem unbroken_of_trueCounts {path : Path} (correct : p.Correct)
    (convertible : p.Convertible)
    (true_counts : TrueCounts path p Convertible)
    (some_hunk : p.hunks ≠ []) : ∀ line ∈ p.lines, Unbroken line := by
  have recounts := p.restated_recounts fun h => otherCount h.old
  have short : ∀ h ∈ p.hunks,
      digits.fits (numeral (otherCount h.old)).length = true := by
    intro h member
    refine digits.fits_mono ?_ (printable correct convertible member).1
    rw [length_numeral_otherCount]
    exact List.length_pos_of_ne_nil (numeral_ne_nil _)
  have restored := true_counts.restores _ recounts
    (restated_convertible correct convertible short)
  have wrong := restated_wrong (fun h => otherCount h.old) some_hunk
    fun h _ => otherCount_ne h.old
  generalize p.restated (fun h => otherCount h.old) = p' at *
  rw [contents_fixPatch] at restored
  split at restored
  · have fixed := unbroken_fixedLines digits (unbroken_linesOf p'.text)
    have lines := unlines_injective
      (fun line member => (fixed line member).newline_notMem)
      p'.restored.oneLine_of_mem restored
    rw [lines, p'.restored_recounts.unbroken_iff, recounts.unbroken_iff]
      at fixed
    exact fixed
  · exact absurd (correct_of_restored_text restored) wrong

theorem anyLine_of_append {test : Text → List Text → Bool}
    {lines lines' : List Text}
    (without : anyLine test (lines ++ lines') = false) :
    anyLine test lines' = false := by
  induction lines with
  | nil => exact without
  | cons line lines induction =>
      rw [List.cons_append, anyLine, Bool.or_eq_false_iff] at without
      exact induction without.2

theorem bodyCount_of_right {before after : List (Part digits)} {h : Hunk digits}
    (right : anyWrong digits (partsLines (before ++ .hunk h :: after)) = false)
    (correct : h.Correct) :
    (bodyCount digits (h.body.map BodyLine.line ++ partsLines after)).old =
        h.old ∧
      (bodyCount digits (h.body.map BodyLine.line ++ partsLines after)).new =
        h.new := by
  rw [partsLines_append] at right
  have right : anyWrong digits (h.header ::
      (h.body.map BodyLine.line ++ partsLines after)) = false :=
    anyLine_of_append right
  have agrees := stated_of_right right 0 h.stated h.matched
  have counts := Prod.mk.inj (not_not.mp agrees)
  exact ⟨counts.1.trans correct.1, counts.2.trans correct.2⟩

theorem endsInHunk_split {files : List (FilePatch digits)}
    (ends : EndsInHunk files) :
    ∃ before h, files.flatMap FilePatch.parts = before ++ [Part.hunk h] ∧
      ∃ f ∈ files, h ∈ f.hunks := by
  induction files with
  | nil => exact ends.elim
  | cons f files induction =>
      cases files with
      | nil =>
          rcases List.eq_nil_or_concat f.hunks with empty | ⟨hunks, h, split⟩
          · exact absurd empty ends
          · refine ⟨.line f.first :: (f.headers.map Part.line ++
              hunks.map Part.hunk), h, ?_, f, List.mem_singleton_self _, ?_⟩
            · rw [List.flatMap_cons, List.flatMap_nil, List.append_nil,
                FilePatch.parts, split]
              simp
            · rw [split]
              simp
      | cons next files =>
          obtain ⟨before, h, split, g, member, inside⟩ := induction ends
          refine ⟨f.parts ++ before, h, ?_, g, List.mem_cons_of_mem _ member,
            inside⟩
          rw [List.flatMap_cons, split, List.append_assoc]

/-- Behind a hunk the signature counts as a removed line. -/
theorem bodyCount_signature (digits : Digits) (rest : List Text) :
    0 < (bodyCount digits (dashes.text :: rest)).old := by
  have goes : endsBody digits dashes.text = false := by
    simp [endsBody, dashes, hunkMatch, diffMatch, List.isPrefixOf?,
      List.isPrefixOf_cons_cons]
  have counted : countLine dashes.text = some (1, 0) := rfl
  rw [bodyCount_cons_of_counted goes counted]
  exact Nat.add_pos_left Nat.one_pos _

theorem readable_of_trueCounts {path : Path} (correct : p.Correct)
    (convertible : p.Convertible)
    (true_counts : TrueCounts path p Convertible) (some_hunk : p.hunks ≠ []) :
    Readable p := by
  have unbroken := unbroken_of_trueCounts correct convertible true_counts
    some_hunk
  have right : anyWrong digits (partsLines p.parts) = false := by
    rw [← p.lines_eq, ← linesOf_unlines unbroken]
    exact (silent_of_reported (true_counts.unchanged false)).2
  have marks : ∀ h ∈ p.hunks, ∀ b ∈ h.body, ¬ b.Doubled := by
    intro h member b inside doubled
    obtain ⟨before, after, split⟩ :=
      List.append_of_mem (hunk_mem_parts.mpr member)
    rw [split] at right
    obtain ⟨old, new⟩ := bodyCount_of_right right (correct h member)
    have fewer := bodyCount_doubled digits inside doubled (partsLines after)
    rw [old, new] at fewer
    exact Nat.lt_irrefl _ fewer
  refine ⟨unbroken, marks, ?_⟩
  intro signature ends
  obtain ⟨version, present⟩ := Option.ne_none_iff_exists'.mp signature
  obtain ⟨before, h, split, f, member, inside⟩ := endsInHunk_split ends
  have inside : h ∈ p.hunks := List.mem_flatMap.mpr ⟨f, member, inside⟩
  have parts : p.parts = (p.mail.map Part.line ++ before) ++
      .hunk h :: [.line dashes, .line version] := by
    rw [Patch.parts, split, signatureParts, present]
    simp
  rw [parts] at right
  have old := (bodyCount_of_right right (correct h inside)).1
  rw [bodyCount_body digits (marks h inside)] at old
  have counted := bodyCount_signature digits [version.text]
  have same : h.old + (bodyCount digits [dashes.text, version.text]).old =
      h.old := old
  omega

theorem convertible_of_returns
    (returns : anyRaises digits (partsLines p.parts) = false) :
    p.Convertible := by
  intro h member
  obtain ⟨before, after, split⟩ :=
    List.append_of_mem (hunk_mem_parts.mpr member)
  rw [split, partsLines_append] at returns
  have header : anyRaises digits (h.header ::
      (h.body.map BodyLine.line ++ partsLines after)) = false :=
    anyLine_of_append returns
  rw [anyRaises_cons, Bool.or_eq_false_iff] at header
  by_contra long
  rw [raisesLine_of_long h.matched (eq_false_of_ne_true long)] at header
  cases header.1

/-- A count with more digits than the limit is not restored. -/
theorem limit_of_trueCounts {path : Path} (correct : p.Correct)
    (convertible : p.Convertible) (readable : Readable p)
    (true_counts : TrueCounts path p fun _ => True)
    (some_hunk : p.hunks ≠ []) : digits.limit = none := by
  cases limited : digits.limit with
  | none => rfl
  | some most =>
      exfalso
      have long : digits.fits (numeral (10 ^ most)).length = false := by
        have bound := lt_pow_length_numeral (10 ^ most)
        have more := (Nat.pow_lt_pow_iff_right (by decide)).mp bound
        rw [Digits.fits, limited]
        exact decide_eq_false (Nat.not_le_of_lt more)
      have recounts := p.restated_recounts fun _ => 10 ^ most
      have restored := true_counts.restores _ recounts trivial
      have wrong := restated_wrong (fun _ => 10 ^ most) some_hunk
        fun h member same => by
          have printed := (printable correct convertible member).1
          rw [← same, long] at printed
          cases printed
      have unread : ¬ (p.restated fun _ => 10 ^ most).Convertible := by
        intro within
        obtain ⟨h, inside⟩ := List.exists_mem_of_ne_nil _ some_hunk
        have converts := within _ (mem_restated.mpr ⟨h, inside, rfl⟩)
        change (HunkMatch.ofHeader _ _ _ _ _).converts digits = true at converts
        rw [converts_ofHeader, long] at converts
        simp at converts
      have again := recounts.readable readable
      generalize (p.restated fun _ => 10 ^ most) = p' at *
      have raises : anyRaises digits (linesOf p'.text) = true := by
        rw [again.linesOf_text, p'.lines_eq]
        by_contra returns
        exact unread (convertible_of_returns (eq_false_of_ne_true returns))
      rw [contents_fixPatch, raises] at restored
      exact wrong (correct_of_restored_text restored)

/-- The script writes the true counts of a patch exactly if no line outside
the hunks passes for a wrong header, and the patch has no hunks or is readable
for the script.  Numbers that are too long for `int` are never restored. -/
theorem trueCounts_iff (path : Path) (correct : p.Correct) :
    (TrueCounts path p (fun _ => True) ↔
      p.Quiet ∧ (p.hunks = [] ∨ digits.limit = none ∧ Readable p)) ∧
    (TrueCounts path p Convertible ↔
      p.Quiet ∧ (p.hunks = [] ∨ p.Convertible ∧ Readable p)) := by
  have quiet {allowed : Patch digits → Prop}
      (true_counts : TrueCounts path p allowed) : p.Quiet ∧ p.Convertible := by
    have silent := silent_of_reported (true_counts.unchanged false)
    rw [text, p.lines_eq] at silent
    exact ⟨quiet_of_silent silent, convertible_of_silent silent⟩
  constructor
  · constructor
    · intro true_counts
      obtain ⟨quiet, convertible⟩ := quiet true_counts
      refine ⟨quiet, or_iff_not_imp_left.mpr fun some_hunk => ?_⟩
      have readable := readable_of_trueCounts correct convertible
        ⟨true_counts.unchanged,
          fun p' recounts _ => true_counts.restores p' recounts trivial⟩
        some_hunk
      exact ⟨limit_of_trueCounts correct convertible readable true_counts
        some_hunk, readable⟩
    · rintro ⟨quiet, empty | ⟨unlimited, readable⟩⟩
      · exact trueCounts_of_hunks_nil empty quiet path _
      · have convertible (p' : Patch digits) : p'.Convertible := by
          intro h _
          rw [HunkMatch.converts, Digits.fits, unlimited]
        exact readable.trueCounts quiet correct (convertible p) path
          fun p' _ => convertible p'
  · constructor
    · intro true_counts
      obtain ⟨quiet, convertible⟩ := quiet true_counts
      exact ⟨quiet, or_iff_not_imp_left.mpr fun some_hunk =>
        ⟨convertible, readable_of_trueCounts correct convertible true_counts
          some_hunk⟩⟩
    · rintro ⟨quiet, empty | ⟨convertible, readable⟩⟩
      · exact trueCounts_of_hunks_nil empty quiet path _
      · exact readable.trueCounts quiet correct convertible path
          fun _ allowed => allowed

/-! ## A removed line of dashes -/

/-- A patch that removes the one line of a file. -/
def removal (text : Text) (oneLine : '\n' ∉ text) : Patch asciiDigits :=
  { mail := []
    files :=
      [{ first :=
          { text := "diff --git a/q.sql b/q.sql".toList
            oneLine := by decide
            noHunk := by decide }
         first_starts := Or.inl (by decide)
         headers :=
          [{ text := "--- a/q.sql".toList
             oneLine := by decide
             noHunk := by decide },
           { text := "+++ b/q.sql".toList
             oneLine := by decide
             noHunk := by decide }]
         hunks :=
          [{ header := "@@ -1,1 +0,0 @@".toList
             oneLine := by decide
             stated :=
              { oldStart := 1
                oldCount := some 1
                newStart := 0
                newCount := some 0
                longest := 1
                suffix := [] }
             matched := by decide
             body := [.marked .removed text oneLine] }] }]
    signature := none }

theorem removal_correct (text : Text) (oneLine : '\n' ∉ text) :
    (removal text oneLine).Correct := by
  intro h member
  obtain rfl := List.mem_singleton.mp member
  exact ⟨rfl, rfl⟩

def removedLine : Patch asciiDigits := removal "q".toList (by decide)

def removedDashes : Patch asciiDigits := removal "-- q".toList (by decide)

def samplePath : Path :=
  { name := "q.patch".toList
    display := "patches/q.patch".toList }

/-- The counts of the patch are restored wherever `int` takes them. -/
theorem trueCounts_iff_removedLine :
    TrueCounts samplePath removedLine Convertible := by
  have silent : Silent asciiDigits
      (linesOf (unlines (partsLines removedLine.parts))) := by
    constructor <;> decide
  have readable : Readable removedLine := by
    refine ⟨?_, ?_, fun signed => absurd rfl signed⟩
    · intro line member c inside
      have plain : removedLine.lines.flatten.all (!isBreak ·) = true := by
        decide
      simpa using List.all_eq_true.mp plain c
        (List.mem_flatten.mpr ⟨line, member, inside⟩)
    · intro h member b inside
      obtain rfl := List.mem_singleton.mp member
      obtain rfl := List.mem_singleton.mp inside
      exact fun doubled => absurd (List.isPrefixOf_iff_prefix.mpr doubled)
        (by decide)
  exact (trueCounts_iff samplePath (removal_correct _ _)).2.mpr
    ⟨quiet_of_silent silent, Or.inr ⟨convertible_of_silent silent, readable⟩⟩

/-- The script finds no removed line and writes a header that removes
nothing. -/
theorem removedDashes_not_trueCounts :
    removedDashes.Correct ∧
      ¬ TrueCounts samplePath removedDashes (fun _ => True) ∧
      ¬ TrueCounts samplePath removedDashes Convertible := by
  have wrong : anyWrong asciiDigits (linesOf removedDashes.text) = true := by
    decide
  have never (allowed : Patch asciiDigits → Prop) :
      ¬ TrueCounts samplePath removedDashes allowed := by
    intro true_counts
    have silent := silent_of_reported (true_counts.unchanged false)
    rw [silent.2] at wrong
    cases wrong
  exact ⟨removal_correct _ _, never _, never _⟩

end Patch

end FixPatch

end StoplessGC

import StoplessGC.PatchIdempotence

/-!
# The format of a patch

A patch is mail lines, files with their header lines and hunks, and perhaps the
signature of `git format-patch`.  The format says what the counts of a hunk are
and where its body ends, which the script has to find out from the lines alone.
-/

namespace StoplessGC

namespace FixPatch

open PlainText

/-- The first character of a line in a hunk body. -/
inductive Mark where
  | context
  | removed
  | added
  /-- The remark that the file ends without a newline. -/
  | remark
deriving DecidableEq

namespace Mark

def char : Mark → Char
  | .context => ' '
  | .removed => '-'
  | .added => '+'
  | .remark => '\\'

/-- The lines of the old file that it stands for. -/
def old : Mark → Nat
  | .context => 1
  | .removed => 1
  | .added => 0
  | .remark => 0

/-- The lines of the new file that it stands for. -/
def new : Mark → Nat
  | .context => 1
  | .removed => 0
  | .added => 1
  | .remark => 0

end Mark

/-- A line of a hunk body.  A context line that is empty may have lost its
mark. -/
inductive BodyLine where
  | marked (mark : Mark) (text : Text) (oneLine : '\n' ∉ text)
  | blank

namespace BodyLine

def line : BodyLine → Text
  | .marked mark text _ => mark.char :: text
  | .blank => []

def old : BodyLine → Nat
  | .marked mark _ _ => mark.old
  | .blank => 1

def new : BodyLine → Nat
  | .marked mark _ _ => mark.new
  | .blank => 1

/-- A removed line that begins with `--`, or an added one with `++`. -/
def Doubled : BodyLine → Prop
  | .marked .removed text _ => ['-', '-'] <+: text
  | .marked .added text _ => ['+', '+'] <+: text
  | _ => False

end BodyLine

/-- A hunk; the header is any line that the hunk pattern matches. -/
structure Hunk (digits : Digits) where
  header : Text
  oneLine : '\n' ∉ header
  stated : HunkMatch
  matched : hunkMatch digits header = some stated
  body : List BodyLine

namespace Hunk

variable {digits : Digits}

def lines (h : Hunk digits) : List Text :=
  h.header :: h.body.map BodyLine.line

/-- The true counts. -/
def old (h : Hunk digits) : Nat := (h.body.map BodyLine.old).sum

def new (h : Hunk digits) : Nat := (h.body.map BodyLine.new).sum

def Correct (h : Hunk digits) : Prop :=
  h.stated.oldStated = h.old ∧ h.stated.newStated = h.new

instance (h : Hunk digits) : Decidable h.Correct :=
  inferInstanceAs (Decidable (_ ∧ _))

theorem suffix_oneLine (h : Hunk digits) : '\n' ∉ h.stated.suffix := by
  obtain ⟨ranges, _, split⟩ := hunkMatch_split h.matched
  intro member
  exact h.oneLine (split ▸ List.mem_append_right ranges member)

/-- The hunk with other counts in its header. -/
def withCounts (h : Hunk digits) (old new : Nat) : Hunk digits :=
  { header :=
      FixPatch.header h.stated.oldStart old h.stated.newStart new
        h.stated.suffix
    oneLine := newline_notMem_header _ _ _ _ h.suffix_oneLine
    stated :=
      .ofHeader h.stated.oldStart old h.stated.newStart new h.stated.suffix
    matched := hunkMatch_header _ _ _ _ _
    body := h.body }

/-- The hunk with its true counts. -/
def restored (h : Hunk digits) : Hunk digits :=
  if h.Correct then h else h.withCounts h.old h.new

/-- The same hunk but for the counts in its header. -/
structure Recounts (h h' : Hunk digits) : Prop where
  body : h'.body = h.body
  oldStart : h'.stated.oldStart = h.stated.oldStart
  newStart : h'.stated.newStart = h.stated.newStart
  suffix : h'.stated.suffix = h.stated.suffix

end Hunk

/-- A line outside the hunks, which is no hunk header. -/
structure OutsideLine where
  text : Text
  oneLine : '\n' ∉ text
  noHunk : hunkMatch asciiDigits text = none

/-- `---` and a blank at the start of a line: the file header of a plain
unified diff. -/
def oldFileMatch (line : Text) : Bool := ['-', '-', '-', ' '].isPrefixOf line

/-- The header lines of one file, and its hunks. -/
structure FilePatch (digits : Digits) where
  first : OutsideLine
  first_starts :
    diffMatch first.text = true ∨ oldFileMatch first.text = true
  headers : List OutsideLine
  hunks : List (Hunk digits)

/-- A patch, with the version line of its signature if it has one. -/
structure Patch (digits : Digits) where
  mail : List OutsideLine
  files : List (FilePatch digits)
  signature : Option OutsideLine

/-- A line outside the hunks, or a hunk. -/
inductive Part (digits : Digits) where
  | line (l : OutsideLine)
  | hunk (h : Hunk digits)

def Part.lines {digits : Digits} : Part digits → List Text
  | .line l => [l.text]
  | .hunk h => h.lines

def partsLines {digits : Digits} (parts : List (Part digits)) : List Text :=
  parts.flatMap Part.lines

/-- The line of two dashes and a blank. -/
def dashes : OutsideLine :=
  { text := ['-', '-', ' ']
    oneLine := by decide
    noHunk := by decide }

namespace FilePatch

variable {digits : Digits}

def lines (f : FilePatch digits) : List Text :=
  f.first.text :: (f.headers.map OutsideLine.text ++
    f.hunks.flatMap Hunk.lines)

/-- The same in order. -/
def parts (f : FilePatch digits) : List (Part digits) :=
  .line f.first :: (f.headers.map Part.line ++ f.hunks.map Part.hunk)

def mapHunks (change : Hunk digits → Hunk digits) (f : FilePatch digits) :
    FilePatch digits :=
  { f with hunks := f.hunks.map change }

structure Recounts (f f' : FilePatch digits) : Prop where
  first : f'.first = f.first
  headers : f'.headers = f.headers
  hunks : List.Forall₂ Hunk.Recounts f.hunks f'.hunks

end FilePatch

namespace Patch

variable {digits : Digits}

/-- Two dashes and a blank, and the version. -/
def signatureLines (p : Patch digits) : List Text :=
  match p.signature with
  | none => []
  | some version => [['-', '-', ' '], version.text]

def lines (p : Patch digits) : List Text :=
  p.mail.map OutsideLine.text ++ p.files.flatMap FilePatch.lines ++
    p.signatureLines

def text (p : Patch digits) : Text := unlines p.lines

def signatureParts (p : Patch digits) : List (Part digits) :=
  match p.signature with
  | none => []
  | some version => [.line dashes, .line version]

def parts (p : Patch digits) : List (Part digits) :=
  p.mail.map Part.line ++ p.files.flatMap FilePatch.parts ++ p.signatureParts

def hunks (p : Patch digits) : List (Hunk digits) :=
  p.files.flatMap FilePatch.hunks

/-- Every hunk states its true counts. -/
def Correct (p : Patch digits) : Prop := ∀ h ∈ p.hunks, h.Correct

def mapHunks (change : Hunk digits → Hunk digits) (p : Patch digits) :
    Patch digits :=
  { p with files := p.files.map (FilePatch.mapHunks change) }

/-- The patch with the true counts wherever others are stated. -/
def restored (p : Patch digits) : Patch digits := p.mapHunks Hunk.restored

/-- The same patch but for counts in hunk headers. -/
structure Recounts (p p' : Patch digits) : Prop where
  mail : p'.mail = p.mail
  files : List.Forall₂ FilePatch.Recounts p.files p'.files
  signature : p'.signature = p.signature

/-- The script reports nothing for the patch, and gives it back from any text
that differs from it in counts alone, as long as the counts are `allowed`. -/
structure TrueCounts (path : Path) (p : Patch digits)
    (allowed : Patch digits → Prop) : Prop where
  unchanged : ∀ checkOnly : Bool,
    Reported (fixPatch digits path checkOnly p.text) path
  restores : ∀ p', Recounts p p' → allowed p' →
    (fixPatch digits path false p'.text).contents p'.text = p'.restored.text

/-- `int` takes the numbers of every header. -/
def Convertible (p : Patch digits) : Prop :=
  ∀ h ∈ p.hunks, h.stated.converts digits = true

/-- Whether the last file has hunks. -/
def EndsInHunk : List (FilePatch digits) → Prop
  | [] => False
  | [f] => f.hunks ≠ []
  | _ :: f :: files => EndsInHunk (f :: files)

/-- What the script relies on in hunks: lines end at newlines alone, no line of
a body looks like a file header, and no hunk runs into the signature. -/
structure Readable (p : Patch digits) : Prop where
  unbroken : ∀ line ∈ p.lines, Unbroken line
  marks : ∀ h ∈ p.hunks, ∀ b ∈ h.body, ¬ b.Doubled
  signature : p.signature ≠ none → ¬ EndsInHunk p.files

end Patch

/-- Every header among the lines states what is counted behind it, in numbers
that are not too long.  The lines are followed by `rest`. -/
def Accurate (digits : Digits) (rest : List Text) : List Text → Prop
  | [] => True
  | line :: lines =>
      (∀ m, hunkMatch digits line = some m → m.converts digits = true ∧
        ¬ m.Differs (bodyCount digits (lines ++ rest))) ∧
      Accurate digits rest lines

/-- What the script relies on outside hunks.  It splits a line at more
characters than the newline and knows more digits than the format, so it may
find a header there. -/
def QuietParts {digits : Digits} : List (Part digits) → Prop
  | [] => True
  | .line l :: parts =>
      Accurate digits (linesOf (unlines (partsLines parts)))
        (linesOf (l.text ++ ['\n'])) ∧ QuietParts parts
  | .hunk _ :: parts => QuietParts parts

def Patch.Quiet {digits : Digits} (p : Patch digits) : Prop :=
  QuietParts p.parts

end FixPatch

end StoplessGC

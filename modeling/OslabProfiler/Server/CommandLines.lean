import OslabProfiler.Lib.ShellLine
import OslabProfiler.CompKernel.SsuDiff
import OslabProfiler.Server.SourceView

/-! # The command lines of the profiler

Four places build a line for the shell: `molting_file` makes a directory and copies a file,
`diff_file` and `diff_file_org` compare two files, and `/getDirectoryJSON` starts `ssu_diff`.
All of them put paths between blanks without quoting them. Each path is read as one word
exactly when it has no special character in it.
-/

namespace OslabProfiler.Server

open Lib CompKernel Lib.Shell

/-- An absolute path, as the programs in C put it into a command. -/
structure AbsolutePath where
  bytes : Bytes
  absolute : bytes.head? = some slash
  string : 0 ∉ bytes

def byteCodes (bytes : Bytes) : List Nat := bytes.map Fin.val

def charCodes (text : Text) : List Nat := text.map Char.toNat

@[simp] theorem byteCodes_append (a b : Bytes) :
    byteCodes (a ++ b) = byteCodes a ++ byteCodes b := List.map_append

@[simp] theorem charCodes_append (a b : Text) :
    charCodes (a ++ b) = charCodes a ++ charCodes b := List.map_append

/-- The line that `report` formats and runs. -/
def reportLine (left right : Bytes) : Bytes := ascii "diff " ++ left ++ ascii " " ++ right

theorem report_eq (left right : Bytes) :
    report left right = (do
      let _ ← sprintf (reportLine left right)
      Command.update fun w => { w with out := w.out ++ [⟨left, right⟩] }) := rfl

/-- What `dirname` prints of a path, but for the newline. -/
def dirname (path : Bytes) : Bytes :=
  match path.reverse.dropWhile (· = slash) with
  | [] => if path = [] then ascii "." else [slash]
  | last =>
      match last.dropWhile (· ≠ slash) with
      | [] => ascii "."
      | above =>
          match above.dropWhile (· = slash) with
          | [] => [slash]
          | above => above.reverse

/-- The commands that are built for the shell. -/
inductive BuiltCommand where
  | mkdirDirname (m : AbsolutePath)
  | cp (c m : AbsolutePath)
  | diff (a b : AbsolutePath)
  | ssuDiff (selected1 selected2 : Query) (comparison : IsComparison selected2)

namespace BuiltCommand

def line : BuiltCommand → List Nat
  | .mkdirDirname m => byteCodes (ShellCommand.mkdirDirname m.bytes).line
  | .cp c m => byteCodes (ShellCommand.cp c.bytes m.bytes).line
  | .diff a b => byteCodes (reportLine a.bytes b.bytes)
  | .ssuDiff selected1 selected2 _ => charCodes (compareCommand selected1 selected2)

/-- The path of the original kernel in a comparison. -/
def orgPath : Text := kernelDirPath ++ "/ORG/kernel-source".toList

/-- The words that are meant. -/
def intended : BuiltCommand → List Item
  | .mkdirDirname m =>
      [.text (byteCodes (ascii "mkdir")), .text (byteCodes (ascii "-p")),
        .output [byteCodes (ascii "dirname"), byteCodes m.bytes] (byteCodes (dirname m.bytes))]
  | .cp c m => [.text (byteCodes (ascii "cp")), .text (byteCodes c.bytes), .text (byteCodes m.bytes)]
  | .diff a b =>
      [.text (byteCodes (ascii "diff")), .text (byteCodes a.bytes), .text (byteCodes b.bytes)]
  | .ssuDiff selected1 selected2 _ =>
      [.text (charCodes "./comp_kernel/ssu_diff".toList), .text (charCodes orgPath),
        .text (charCodes (moltPath (queryText selected1.text))),
        .text (charCodes (moltPath (queryText selected2.text)))]

/-- The paths that are put into the line. -/
def paths : BuiltCommand → List (List Nat)
  | .mkdirDirname m => [byteCodes m.bytes]
  | .cp c m => [byteCodes c.bytes, byteCodes m.bytes]
  | .diff a b => [byteCodes a.bytes, byteCodes b.bytes]
  | .ssuDiff selected1 selected2 _ =>
      [charCodes (moltPath (queryText selected1.text)), charCodes (moltPath (queryText selected2.text))]

theorem charCodes_words {start program blank dir org k1 k2 : Text}
    (first : start = program ++ blank) (isBlank : charCodes blank = [32]) :
    charCodes (start ++ dir ++ org ++ blank ++ k1 ++ blank ++ k2) =
      unwords [charCodes program, charCodes (dir ++ org), charCodes k1, charCodes k2] := by
  simp [first, isBlank, unwords]

theorem line_eq (command : BuiltCommand) :
    command.line = unwords (command.intended.map Item.render) := by
  have blank : byteCodes (ascii " ") = [32] := rfl
  cases command with
  | mkdirDirname m =>
      have start : byteCodes (ascii "mkdir -p $(dirname ") =
          byteCodes (ascii "mkdir") ++ 32 :: (byteCodes (ascii "-p") ++ 32 :: 36 :: 40 ::
            (byteCodes (ascii "dirname") ++ [32])) := rfl
      have close : byteCodes (ascii ")") = [41] := rfl
      simp [line, ShellCommand.line, start, close, intended, unwords, Item.render]
  | cp c m =>
      have start : byteCodes (ascii "cp ") = byteCodes (ascii "cp") ++ [32] := rfl
      simp [line, ShellCommand.line, start, blank, intended, unwords, Item.render]
  | diff a b =>
      have start : byteCodes (ascii "diff ") = byteCodes (ascii "diff") ++ [32] := rfl
      simp [line, reportLine, start, blank, intended, unwords, Item.render]
  | ssuDiff selected1 selected2 comparison =>
      exact charCodes_words (by simp) (by simp [charCodes])

theorem starts_absolutePath (path : AbsolutePath) : Starts (byteCodes path.bytes) := by
  obtain ⟨bytes, absolute, _⟩ := path
  obtain ⟨rest, rfl⟩ := List.head?_eq_some_iff.mp absolute
  exact ⟨47, byteCodes rest, rfl, rfl, by decide, by decide⟩

theorem starts_kernelDirPath (more : Text) : Starts (charCodes (kernelDirPath ++ more)) := by
  have absolute : kernelDirPath.head? = some '/' := by decide
  obtain ⟨rest, start⟩ := List.head?_eq_some_iff.mp absolute
  rw [start]
  exact ⟨47, charCodes (rest ++ more), rfl, rfl, by decide, by decide⟩

theorem starts_moltPath (selected : Text) : Starts (charCodes (moltPath selected)) := by
  rw [moltPath, List.append_assoc, List.append_assoc]
  exact starts_kernelDirPath _

theorem plain_words : ∀ word ∈ ["mkdir", "-p", "dirname", "cp", "diff"],
    PlainText (byteCodes (ascii word)) := by decide

theorem plain_program : PlainText (charCodes "./comp_kernel/ssu_diff".toList) := by decide

theorem plain_orgPath : PlainText (charCodes orgPath) := by decide

theorem starts_words : ∀ word ∈ ["mkdir", "-p", "dirname", "cp", "diff"],
    Starts (byteCodes (ascii word)) := by
  simp only [List.mem_cons, List.not_mem_nil, or_false]
  rintro word (rfl | rfl | rfl | rfl | rfl) <;>
    exact ⟨_, _, rfl, rfl, by decide, by decide⟩

theorem starts_program : Starts (charCodes "./comp_kernel/ssu_diff".toList) :=
  ⟨46, charCodes "/comp_kernel/ssu_diff".toList, by decide, rfl, by decide, by decide⟩

theorem starts_intended (command : BuiltCommand) : ∀ item ∈ command.intended, item.Starts := by
  cases command <;>
    simp only [intended, List.forall_mem_cons, List.not_mem_nil, false_implies, implies_true,
      and_true, Item.Starts]
  case mkdirDirname m =>
    exact ⟨starts_words _ (by simp), starts_words _ (by simp), starts_words _ (by simp),
      starts_absolutePath m⟩
  case cp c m =>
    exact ⟨starts_words _ (by simp), starts_absolutePath c, starts_absolutePath m⟩
  case diff a b =>
    exact ⟨starts_words _ (by simp), starts_absolutePath a, starts_absolutePath b⟩
  case ssuDiff selected1 selected2 comparison =>
    exact ⟨starts_program, starts_kernelDirPath _, starts_moltPath _, starts_moltPath _⟩

/-- The directory of an absolute path is a part of it. -/
theorem dirname_front (path : AbsolutePath) :
    dirname path.bytes ≠ [] ∧ dirname path.bytes <+: path.bytes := by
  obtain ⟨bytes, absolute, _⟩ := path
  obtain ⟨rest, rfl⟩ := List.head?_eq_some_iff.mp absolute
  have root : [slash] <+: slash :: rest := List.prefix_append [slash] rest
  simp only [dirname]
  split
  case h_1 => simp [root]
  case h_2 named =>
    have tail := List.dropWhile_suffix (l := (slash :: rest).reverse) (· = slash)
    generalize (slash :: rest).reverse.dropWhile (· = slash) = last at named tail ⊢
    split
    case h_1 none =>
      -- the first byte of the path is a slash, and nothing has dropped it
      have final := tail.getLast named
      have kept : slash ∈ last := by
        rw [← show last.getLast named = slash by simp [final]]
        exact List.getLast_mem named
      have dropped := List.dropWhile_eq_nil_iff.mp none slash kept
      simp at dropped
    case h_2 =>
      have tail' := (List.dropWhile_suffix (l := last) (· ≠ slash)).trans tail
      generalize last.dropWhile (· ≠ slash) = above at tail' ⊢
      split
      case h_1 => exact ⟨by simp, root⟩
      case h_2 some =>
        have tail'' := (List.dropWhile_suffix (l := above) (· = slash)).trans tail'
        refine ⟨by simpa using some, ?_⟩
        rw [← List.reverse_suffix, List.reverse_reverse]
        exact tail''

theorem plain_dirname {path : AbsolutePath} (plainly : PlainText (byteCodes path.bytes)) :
    fields (byteCodes (dirname path.bytes)) = some [byteCodes (dirname path.bytes)] := by
  obtain ⟨nonempty, more, split⟩ := dirname_front path
  rw [← split, byteCodes_append] at plainly
  exact fields_plain plainly.front (by simpa [byteCodes] using nonempty)

theorem plain_intended_iff (command : BuiltCommand) :
    (∀ item ∈ command.intended, item.Plain) ↔ ∀ path ∈ command.paths, PlainText path := by
  cases command <;>
    simp only [intended, paths, List.forall_mem_cons, List.not_mem_nil, false_implies,
      implies_true, and_true, Item.Plain]
  case mkdirDirname m =>
    refine ⟨fun h => h.2.2.1.2, fun plainly => ?_⟩
    exact ⟨plain_words _ (by simp), plain_words _ (by simp), ⟨plain_words _ (by simp), plainly⟩,
      plain_dirname plainly⟩
  case cp c m =>
    exact and_iff_right (plain_words _ (by simp))
  case diff a b =>
    exact and_iff_right (plain_words _ (by simp))
  case ssuDiff selected1 selected2 comparison =>
    rw [and_iff_right plain_program, and_iff_right plain_orgPath]

/-- The line means what it is meant to. -/
def MeansIntended (command : BuiltCommand) : Prop := Means command.line command.intended

theorem MeansIntended.plain {command : BuiltCommand} (means : command.MeansIntended) :
    ∀ path ∈ command.paths, PlainText path := by
  rw [MeansIntended, line_eq, means_iff command.starts_intended] at means
  exact command.plain_intended_iff.mp means

/-- Every command that is built means what it is meant to exactly when its paths have no
    special characters in them. -/
theorem meansIntended_iff (command : BuiltCommand) :
    command.MeansIntended ↔ ∀ path ∈ command.paths, PlainText path := by
  constructor
  · exact MeansIntended.plain
  · intro plainly
    rw [MeansIntended, line_eq, means_iff command.starts_intended]
    exact command.plain_intended_iff.mpr plainly

def blankPath : AbsolutePath := ⟨ascii "/a b", by decide, by decide⟩

def quietPath : AbsolutePath := ⟨ascii "/m", by decide, by decide⟩

/-- A blank in a name, a query that carries a second command, and one with a blank before
    the number. -/
theorem commands_astray :
    ¬ (cp blankPath quietPath).MeansIntended ∧
    ¬ (mkdirDirname blankPath).MeansIntended ∧
    ¬ (diff quietPath blankPath).MeansIntended ∧
    ¬ (ssuDiff (.one "1;reboot".toList) (.one "2".toList) (by decide +kernel)).MeansIntended ∧
    ¬ (ssuDiff (.one "1".toList) (.one " 2".toList) (by decide +kernel)).MeansIntended := by
  refine ⟨fun means => ?_, fun means => ?_, fun means => ?_, fun means => ?_, fun means => ?_⟩ <;>
    exact absurd means.plain (by decide +kernel)

end BuiltCommand

end OslabProfiler.Server

import OslabProfiler.CompKernel.MoltNames
import OslabProfiler.CompKernel.Pipeline
import OslabProfiler.Server.CommandLines
import OslabProfiler.Server.HtmlTree

/-! # A comparison from the directories to the page

The page of a comparison is made by a chain of programs: `skin` and `molt` prepare the two
versions, `/getDirectoryJSON` has a shell run `ssu_diff` on the molts, its output is decoded
and taken apart, and the paths in it become a listing, from which `/viewFile` is asked for one
file after the other. Here the chain is followed as a whole: which files of the directories
are in the listing, and what is sent when one of them is selected.
-/

namespace OslabProfiler.Server

open Lib CompKernel

/-! ## The command -/

/-- The bytes of a text in ASCII. -/
def asciiBytes (t : Text) : Bytes := t.map Utf8.byteOf

/-- A version as it stands in a query. -/
def versionQuery (n : Nat) : Query := .one (Nat.toDigits 10 n)

/-- The directory that the names of the skin and of the molt of a version are derived from. -/
def versionBase (n : Nat) : Text :=
  kernelDirPath ++ "/V".toList ++ Nat.toDigits 10 n ++ "/kernel-source".toList

def skinOf (n : Nat) : Bytes := asciiBytes (versionBase n) ++ ascii "__skin"

def moltOf (n : Nat) : Bytes := asciiBytes (versionBase n) ++ ascii "__molt"

def orgOf : Bytes := asciiBytes BuiltCommand.orgPath

/-- A character that stands for itself in a path, for the shell and for the decoder. -/
def isPathChar (c : Char) : Bool := c.isAlphanum || c = '/' || c = '_' || c = '-'

theorem code_pathChar {c : Char} (pathChar : isPathChar c = true) :
    (47 ≤ c.toNat ∧ c.toNat ≤ 57) ∨ (65 ≤ c.toNat ∧ c.toNat ≤ 90) ∨
      (97 ≤ c.toNat ∧ c.toNat ≤ 122) ∨ c.toNat = 45 ∨ c.toNat = 95 := by
  change ((((decide (65 ≤ c.val ∧ c.val ≤ 90) ||
    (decide (97 ≤ c.val) && decide (c.val ≤ 122))) || (decide (48 ≤ c.val) && decide (c.val ≤ 57))) ||
    decide (c = '/')) || decide (c = '_') || decide (c = '-')) = true at pathChar
  simp only [Bool.or_eq_true, Bool.and_eq_true, decide_eq_true_eq, UInt32.le_iff_toNat_le]
    at pathChar
  change (((((65 ≤ c.toNat ∧ c.toNat ≤ 90) ∨ (97 ≤ c.toNat ∧ c.toNat ≤ 122)) ∨
    (48 ≤ c.toNat ∧ c.toNat ≤ 57)) ∨ c = '/') ∨ c = '_') ∨ c = '-' at pathChar
  rcases pathChar with (((letter | digit) | rfl) | rfl) | rfl
  · omega
  · omega
  · decide
  · decide
  · decide

theorem classify_pathChar {c : Char} (pathChar : isPathChar c = true) :
    Shell.classify c.toNat = .ordinary := by
  have code := code_pathChar pathChar
  simp only [Shell.classify]
  repeat rw [if_neg (by omega)]

theorem hasBracket_plain {codes : List Nat} (none : 91 ∉ codes) :
    Shell.hasBracket (Shell.plain codes) = false := by
  induction codes with
  | nil => rfl
  | cons c codes ih =>
      obtain ⟨other, rest⟩ := not_or.mp (mt List.mem_cons.mpr none)
      have here : (Shell.Piece.char c).isChar 91 = false := by
        simpa [Shell.Piece.isChar] using Ne.symm other
      rw [Shell.plain, List.map_cons, Shell.hasBracket, here, Bool.false_and, Bool.false_or]
      exact ih rest

/-- The shell reads such a path as it stands. -/
theorem plainText_pathChars {t : Text} (pathChars : t.all isPathChar = true) :
    Shell.PlainText (charCodes t) := by
  rw [List.all_eq_true] at pathChars
  have codes : ∀ code ∈ charCodes t, ∃ c, isPathChar c = true ∧ c.toNat = code := by
    intro code member
    obtain ⟨c, inside, rfl⟩ := List.mem_map.mp member
    exact ⟨c, pathChars c inside, rfl⟩
  refine ⟨fun code member => ?_, ?_⟩
  · obtain ⟨c, pathChar, rfl⟩ := codes code member
    exact classify_pathChar pathChar
  · have literal : (Shell.plain (charCodes t)).any
        (fun p => p.isChar 42 || p.isChar 63) = false := by
      rw [List.any_eq_false]
      intro p member
      obtain ⟨code, inside, rfl⟩ := List.mem_map.mp member
      obtain ⟨c, pathChar, rfl⟩ := codes code inside
      have value := code_pathChar pathChar
      simp only [Shell.Piece.isChar, Bool.or_eq_true, beq_iff_eq]
      omega
    rw [Shell.isPattern, literal, Bool.false_or]
    apply hasBracket_plain
    intro bracket
    obtain ⟨c, pathChar, value⟩ := codes 91 bracket
    have := code_pathChar pathChar
    omega

theorem pathChars_digits (n : Nat) : (Nat.toDigits 10 n).all isPathChar = true := by
  rw [List.all_eq_true]
  intro c member
  simp [isPathChar, Char.isAlphanum, digit_of_mem member]

theorem pathChars_versionBase (n : Nat) : (versionBase n).all isPathChar = true := by
  have literals : kernelDirPath.all isPathChar = true ∧ "/V".toList.all isPathChar = true ∧
      "/kernel-source".toList.all isPathChar = true := by decide
  simp only [versionBase, List.all_append, literals, pathChars_digits, Bool.and_self]

theorem moltPath_version (n : Nat) :
    moltPath (Nat.toDigits 10 n) = versionBase n ++ "__molt".toList := by
  have suffix : "/kernel-source__molt".toList = "/kernel-source".toList ++ "__molt".toList := by
    decide
  rw [moltPath, versionBase, suffix, List.append_assoc, List.append_assoc, List.append_assoc,
    List.append_assoc, List.append_assoc]

theorem pathChars_moltPath (n : Nat) : (moltPath (Nat.toDigits 10 n)).all isPathChar = true := by
  rw [moltPath_version, List.all_append, pathChars_versionBase]
  decide

theorem comparison_version (n : Nat) : IsComparison (versionQuery n) := by
  rw [IsComparison, versionQuery, Query.text, isNaNText, isNaN_number, literal_toDigits]
  rfl

/-- The line for two versions means what it is meant to. -/
theorem meansIntended_versions (n1 n2 : Nat) :
    (BuiltCommand.ssuDiff (versionQuery n1) (versionQuery n2)
      (comparison_version n2)).MeansIntended := by
  rw [BuiltCommand.MeansIntended, BuiltCommand.line_eq,
    Shell.means_iff (BuiltCommand.starts_intended _), BuiltCommand.plain_intended_iff]
  simp only [BuiltCommand.paths, List.forall_mem_cons, List.not_mem_nil, false_implies,
    implies_true, and_true]
  exact ⟨plainText_pathChars (pathChars_moltPath n1), plainText_pathChars (pathChars_moltPath n2)⟩

theorem mem_asciiBytes {t : Text} (pathChars : t.all isPathChar = true) {b : Byte}
    (member : b ∈ asciiBytes t) : 45 ≤ b.val ∧ b.val < 128 := by
  obtain ⟨c, inside, rfl⟩ := List.mem_map.mp member
  have code := code_pathChar (List.all_eq_true.mp pathChars c inside)
  rw [Utf8.byteOf_val (by omega)]
  omega

theorem decode_asciiBytes {t : Text} (pathChars : t.all isPathChar = true) :
    Utf8.decode (asciiBytes t) = t := by
  have decoded := Utf8.decode_map_byteOf_append (a := t) (fun c member => by
    have code := code_pathChar (List.all_eq_true.mp pathChars c member)
    omega) []
  rwa [List.append_nil, Utf8.decode_nil, List.append_nil] at decoded

theorem moltOf_eq (n : Nat) : moltOf n = asciiBytes (moltPath (Nat.toDigits 10 n)) := by
  have suffix : ascii "__molt" = asciiBytes "__molt".toList := by decide
  rw [moltOf, moltPath_version, asciiBytes, asciiBytes, List.map_append, suffix, asciiBytes]

theorem pathChars_orgPath : BuiltCommand.orgPath.all isPathChar = true := by decide

/-- A byte that no path of the kernels has. -/
theorem not_mem_asciiBytes {t : Text} (pathChars : t.all isPathChar = true) {b : Byte}
    (low : b.val < 45) : b ∉ asciiBytes t := by
  intro member
  have bounds := mem_asciiBytes pathChars member
  omega

def orgArg : Arg := ⟨orgOf, not_mem_asciiBytes pathChars_orgPath (by decide)⟩

def moltArg (n : Nat) : Arg :=
  ⟨moltOf n, moltOf_eq n ▸ not_mem_asciiBytes (pathChars_moltPath n) (by decide)⟩

/-- The lines that `main` prints of its paths; `skin_path_org` was never set. -/
def pathLines (paths : DiffPathNames) : List Bytes :=
  [ascii "skin_path : " ++ paths.skin1 ++ ascii " | " ++ paths.skin2,
    ascii "molt_path : " ++ paths.molt1 ++ ascii " | " ++ paths.molt2,
    ascii " " ++ paths.skin1 ++ ascii " " ++ paths.skin2]

/-- What `ssu_diff` prints when it comes to its end, where `diff` is what the command of that
    name prints. After any other end `execSync` throws. -/
def ssuDiffOutput (diff : Bytes → Bytes → Bytes) (junk : Junk) (cwd : List Name)
    (args : List Arg) (w : World) : Option Bytes :=
  match ssuDiffPaths cwd args w with
  | (.error _, _) => none
  | (.ok paths, w₁) =>
      match ssuDiff junk paths.org paths.molt1 paths.molt2 paths.skin1 paths.skin2 w₁ with
      | (.error _, _) => none
      | (.ok (), w₂) =>
          some ((pathLines paths).flatMap (· ++ [newline]) ++
            (reports w₁ w₂).flatMap (printReport diff))

/-- The shell runs `ssu_diff` on two versions, if the line means that, and what it prints is
    buffered. -/
def Env.Runs (env : Env) (diff : Bytes → Bytes → Bytes) (junk : Junk) (cwd : List Name)
    (w : World) (n1 n2 : Nat) : Prop :=
  (BuiltCommand.ssuDiff (versionQuery n1) (versionQuery n2)
      (comparison_version n2)).MeansIntended →
    env.execSync (compareCommand (versionQuery n1) (versionQuery n2)) =
      (ssuDiffOutput diff junk cwd [orgArg, moltArg n1, moltArg n2] w).bind buffered

/-- The paths that `main` derives for two versions. -/
def versionPaths (n1 n2 : Nat) : DiffPathNames :=
  ⟨orgOf, moltOf n1, moltOf n2, skinOf n1, skinOf n2⟩

theorem absolute_of_slash {fs : Fs} {cwd : List Name} {path : Bytes}
    (absolutely : path.head? = some slash) : absolute fs cwd path = path := by
  rw [absolute, if_neg (not_not.mpr absolutely)]

theorem head_orgOf : orgOf.head? = some slash := by decide

theorem head_moltOf (n : Nat) : (moltOf n).head? = some slash := by
  have head : kernelDirPath.head? = some '/' := by decide
  obtain ⟨rest, start⟩ := List.head?_eq_some_iff.mp head
  rw [moltOf, versionBase, start]
  rfl

theorem ssuDiffPaths_versions (n1 n2 : Nat) (cwd : List Name) (w : World) :
    (ssuDiffPaths cwd [orgArg, moltArg n1, moltArg n2]).wp
      (fun paths w' => w' = w ∧ paths = versionPaths n1 n2) (fun _ _ => True) w := by
  have cut : ∀ n, cutName (moltOf n) = pure (asciiBytes (versionBase n)) :=
    fun n => cutName_molt _
  have org : absolute w.fs cwd orgArg.bytes = orgOf := absolute_of_slash head_orgOf
  have molt : ∀ n, absolute w.fs cwd (moltArg n).bytes = moltOf n :=
    fun n => absolute_of_slash (head_moltOf n)
  simp only [ssuDiffPaths, Command.wp_bind, wp_checkDirs, wp_makeAbsolute, org, molt,
    wp_deriveName (cut n1), wp_deriveName (cut n2), Command.wp_read, Command.wp_ite,
    Command.wp_pure, exit, Command.wp_stop, implies_true, and_true]
  intro _ _ _ _ _ _ _ _
  exact ⟨trivial, rfl⟩

/-- A run whose output is read has found its paths, come to its end and printed its reports. -/
theorem ssuDiffOutput_versions {diff : Bytes → Bytes → Bytes} {junk : Junk} {cwd : List Name}
    {n1 n2 : Nat} {w : World} {stdout : Bytes}
    (printed : ssuDiffOutput diff junk cwd [orgArg, moltArg n1, moltArg n2] w = some stdout) :
    ∃ w', (ssuDiff junk orgOf (moltOf n1) (moltOf n2) (skinOf n1) (skinOf n2)).Ends w () w' ∧
      stdout = (pathLines (versionPaths n1 n2)).flatMap (· ++ [newline]) ++
        (reports w w').flatMap (printReport diff) := by
  unfold ssuDiffOutput at printed
  split at printed
  · cases printed
  · rename_i paths w₁ found
    obtain ⟨rfl, rfl⟩ := Command.wp_ends (ssuDiffPaths_versions n1 n2 cwd w) found
    split at printed
    · cases printed
    · rename_i w₂ ended
      exact ⟨w₂, ended, (Option.some.inj printed).symm⟩

/-! ## Where a file stands in the listing -/

/-- A name as the page shows it. -/
def nameText (x : Name) : Text := Utf8.decode x.bytes

theorem slash_not_mem_nameText (x : Name) : '/' ∉ nameText x := by
  intro member
  exact x.valid.2.1 ((Utf8.mem_decode (b := slash) (by decide) x.bytes).mp member)

theorem decode_extend (path : Bytes) (p : List Name) :
    Utf8.decode (extend path p) = Utf8.decode path ++ p.flatMap fun x => '/' :: nameText x := by
  induction p generalizing path with
  | nil => simp
  | cons x p ih =>
      rw [extend_cons, ih, child, Utf8.decode_append_ascii path (b := slash) (by decide),
        List.flatMap_cons, List.append_assoc]
      rfl

theorem splitOn_names (dir : Text) (p : List Name) :
    (dir ++ p.flatMap fun x => '/' :: nameText x).splitOn '/' =
      dir.splitOn '/' ++ p.map nameText := by
  induction p generalizing dir with
  | nil => simp
  | cons x p ih =>
      have cut : (dir ++ '/' :: (nameText x ++ p.flatMap fun x => '/' :: nameText x)).splitOn '/' =
          dir.splitOn '/' ++ (nameText x ++ p.flatMap fun x => '/' :: nameText x).splitOn '/' :=
        List.splitOnP_append_cons dir _ (by simp)
      have one : (nameText x).splitOn '/' = [nameText x] := by
        apply List.splitOnP_eq_singleton
        intro c member
        have other : c ≠ '/' := fun same => slash_not_mem_nameText x (same ▸ member)
        simpa using other
      rw [List.flatMap_cons, List.cons_append, cut, ih, one, List.map_cons]
      rfl

/-- The two directories that the second operand of a `diff` may be in. -/
inductive Side where
  | original
  | molt (n : Nat)

/-- The directory, from that of the kernels on. -/
def Side.parts : Side → List Text
  | .original => ["ORG".toList, "kernel-source".toList]
  | .molt n => ["V".toList ++ Nat.toDigits 10 n, "kernel-source__molt".toList]

def Side.path : Side → Bytes
  | .original => orgOf
  | .molt n => moltOf n

theorem slash_not_mem_digits (n : Nat) : '/' ∉ Nat.toDigits 10 n := by
  intro member
  exact absurd (digit_of_mem member) (by decide)

theorem Side.decode_path (s : Side) :
    ∃ dir, Utf8.decode s.path = kernelDirPath ++ '/' :: dir ∧ dir.splitOn '/' = s.parts := by
  cases s with
  | original =>
      refine ⟨"ORG/kernel-source".toList, ?_, by decide⟩
      rw [Side.path, orgOf, decode_asciiBytes pathChars_orgPath]
      rfl
  | molt n =>
      refine ⟨"V".toList ++ Nat.toDigits 10 n ++ '/' :: "kernel-source__molt".toList, ?_, ?_⟩
      · rw [Side.path, moltOf_eq, decode_asciiBytes (pathChars_moltPath n), moltPath]
        simp
      · have cut : ("V".toList ++ Nat.toDigits 10 n ++ '/' :: "kernel-source__molt".toList).splitOn
            '/' = ("V".toList ++ Nat.toDigits 10 n).splitOn '/' ++
              "kernel-source__molt".toList.splitOn '/' :=
          List.splitOnP_append_cons _ _ (by simp)
        have version : ("V".toList ++ Nat.toDigits 10 n).splitOn '/' =
            ["V".toList ++ Nat.toDigits 10 n] := by
          apply List.splitOnP_eq_singleton
          intro c member
          have other : c ≠ '/' := by
            rintro rfl
            simp [slash_not_mem_digits n] at member
          simpa using other
        rw [cut, version]
        rfl

/-- The parts of a path that the page shows. -/
theorem Side.shownParts_extend (s : Side) (p : List Name) :
    shownParts (Utf8.decode (extend s.path p)) = s.parts ++ p.map nameText := by
  obtain ⟨dir, path, parts⟩ := s.decode_path
  rw [decode_extend, path, List.append_assoc, List.cons_append, shownParts_inside, splitOn_names,
    parts]

theorem Side.parts_prefix {s s' : Side} {a b : List Text} (same : s.parts ++ a <+: s'.parts ++ b) :
    s.parts = s'.parts ∧ a <+: b := by
  have lengths : s.parts.length = s'.parts.length := by cases s <;> cases s' <;> rfl
  obtain ⟨rest, same⟩ := same
  rw [List.append_assoc] at same
  obtain ⟨parts, below⟩ := List.append_inj same lengths
  exact ⟨parts, rest, below⟩

/-! ## The reports of a run -/

/-- What the page needs of the names on the way to the files and of the outputs of `diff`:
    names are lines that the decoder tells apart, none of them is `isFile` or has a quote or a
    `<` in it, and an output is made of lines without a NUL that do not look like a header. -/
structure Presentable (reported : List Name → Prop) (report : List Name → Report)
    (diff : Bytes → Bytes → Bytes) : Prop where
  oneLine : ∀ p, reported p → ∀ x ∈ p, newline ∉ x.bytes
  told : ∀ p q, reported p → reported q → ∀ x ∈ p, ∀ y ∈ q, nameText x = nameText y → x = y
  noIsFile : ∀ p, reported p → ∀ x ∈ p, nameText x ≠ "isFile".toList
  plain : ∀ p, reported p → ∀ x ∈ p, Tags.PlainName (nameText x)
  output : ∀ p, reported p → ∃ lines : List Bytes,
    diff (report p).left (report p).right = lines.flatMap (· ++ [newline]) ∧
      ∀ l ∈ lines, newline ∉ l ∧ 0 ∉ l ∧ ¬ ascii "diff " <+: l

theorem prefix_of_map_prefix {α β : Type} {f : α → β} {p q : List α}
    (told : ∀ x ∈ p, ∀ y ∈ q, f x = f y → x = y) (h : p.map f <+: q.map f) : p <+: q := by
  induction p generalizing q with
  | nil => exact List.nil_prefix
  | cons x p ih =>
      cases q with
      | nil => simp at h
      | cons y q =>
          rw [List.map_cons, List.map_cons, List.cons_prefix_cons] at h
          rw [List.cons_prefix_cons]
          refine ⟨told x (by simp) y (by simp) h.1, ih (fun x inP y inQ => ?_) h.2⟩
          exact told x (by simp [inP]) y (by simp [inQ])

section Run

variable {lib : Md5} {v1 v2 so : Bytes} {n1 n2 : Nat} {w₀ w₁ w₂ w₃ w₄ w₅ : World}
  (pipe : Pipeline lib orgOf v1 v2 so (skinOf n1) (skinOf n2) (moltOf n1) (moltOf n2)
    w₀ w₁ w₂ w₃ w₄ w₅)

include pipe

theorem right_side (p : List Name) :
    ∃ s : Side, (pipe.comparing.reportOf p).right = extend s.path p := by
  by_cases differs : pipe.comparing.Diff2 p
  · exact ⟨.molt n2, Comparing.reportOf_right differs⟩
  · exact ⟨.original, Comparing.reportOf_right_org differs⟩

end Run

/-! ## The entries of the output -/

theorem not_mem_extend {b : Byte} {path : Bytes} {p : List Name} (other : b ≠ slash)
    (notInPath : b ∉ path) (notInNames : ∀ x ∈ p, b ∉ x.bytes) : b ∉ extend path p := by
  induction p generalizing path with
  | nil => exact notInPath
  | cons x p ih =>
      rw [List.forall_mem_cons] at notInNames
      apply ih _ notInNames.2
      simp [child, notInPath, other, notInNames.1]

theorem Side.not_mem_path (s : Side) {b : Byte} (low : b.val < 45) : b ∉ s.path := by
  cases s with
  | original => exact not_mem_asciiBytes pathChars_orgPath low
  | molt n =>
      rw [Side.path, moltOf_eq]
      exact not_mem_asciiBytes (pathChars_moltPath n) low

theorem Side.not_mem_decode (s : Side) {c : Char} (other : isPathChar c = false) :
    c ∉ Utf8.decode s.path := by
  have pathChars : (Utf8.decode s.path).all isPathChar = true := by
    cases s with
    | original => rw [Side.path, orgOf, decode_asciiBytes pathChars_orgPath, pathChars_orgPath]
    | molt n =>
        rw [Side.path, moltOf_eq, decode_asciiBytes (pathChars_moltPath n), pathChars_moltPath]
  intro member
  rw [List.all_eq_true.mp pathChars c member] at other
  cases other

/-- The report of a path has an entry in the output. -/
theorem Presentable.exists_entry {reported : List Name → Prop} {report : List Name → Report}
    {diff : Bytes → Bytes → Bytes} (presentable : Presentable reported report diff)
    {p : List Name} (here : reported p) {s : Side} (right : (report p).right = extend s.path p) :
    ∃ e : DiffEntry, (e.path = (report p).right ∧
      e.output = diff (report p).left (report p).right) ∧ 0 ∉ e.output := by
  obtain ⟨lines, output, plain⟩ := presentable.output p here
  refine ⟨⟨(report p).right, lines, ?_, ?_, fun l member => (plain l member).1,
    fun l member => (plain l member).2.2⟩, ⟨rfl, output.symm⟩, ?_⟩
  · rw [right]
    exact not_mem_extend (by decide) (s.not_mem_path (by decide)) fun x _ => x.valid.2.2.1
  · rw [right]
    exact not_mem_extend (by decide) (s.not_mem_path (by decide)) (presentable.oneLine p here)
  · intro nul
    obtain ⟨l, member, inside⟩ := List.mem_flatMap.mp nul
    cases List.mem_append.mp inside with
    | inl inLine => exact (plain l member).2.1 inLine
    | inr isNewline => exact absurd isNewline (by decide)

theorem exists_forall₂ {α β : Type*} {R : α → β → Prop} {l : List β}
    (each : ∀ b ∈ l, ∃ a, R a b) : ∃ as, List.Forall₂ R as l := by
  induction l with
  | nil => exact ⟨[], .nil⟩
  | cons b l ih =>
      obtain ⟨a, first⟩ := each b (by simp)
      obtain ⟨as, rest⟩ := ih fun b member => each b (by simp [member])
      exact ⟨a :: as, .cons first rest⟩

/-- The entry of `diff_log` for a report. -/
def ShowsReport (diff : Bytes → Bytes → Bytes) (r : Report) (log : DiffLog) : Prop :=
  log.path = Utf8.decode r.right ∧ UpToNewline log.text (Utf8.decode (diff r.left r.right))

theorem paths_of_showsReport {diff : Bytes → Bytes → Bytes} {rs : List Report}
    {logs : List DiffLog} (shown : List.Forall₂ (ShowsReport diff) rs logs) :
    logs.map DiffLog.path = rs.map fun r => Utf8.decode r.right := by
  induction shown with
  | nil => rfl
  | cons head _ ih => rw [List.map_cons, List.map_cons, head.1, ih]

theorem skinOf_plain (n : Nat) {b : Byte} (low : b.val < 45) : b ∉ skinOf n := by
  have suffix : ascii "__skin" = asciiBytes "__skin".toList := by decide
  rw [skinOf, suffix, List.mem_append, not_or]
  exact ⟨not_mem_asciiBytes (pathChars_versionBase n) low, not_mem_asciiBytes (by decide) low⟩

/-- The paths of two versions fill the first three lines. -/
def versionPreamble (n1 n2 : Nat) : Preamble where
  skinPath1 := skinOf n1
  skinPath2 := skinOf n2
  moltPath1 := moltOf n1
  moltPath2 := moltOf n2
  plain := by
    have molt : ∀ n, newline ∉ moltOf n ∧ 0 ∉ moltOf n := fun n =>
      ⟨(Side.molt n).not_mem_path (by decide), (Side.molt n).not_mem_path (by decide)⟩
    have skin : ∀ n, newline ∉ skinOf n ∧ 0 ∉ skinOf n := fun n =>
      ⟨skinOf_plain n (by decide), skinOf_plain n (by decide)⟩
    simp only [List.forall_mem_cons, List.not_mem_nil, false_implies, implies_true, and_true]
    exact ⟨skin n1, skin n2, molt n1, molt n2⟩

theorem showsReport_of_matches {diff : Bytes → Bytes → Bytes} {entries : List DiffEntry}
    {rs : List Report} {logs : List DiffLog}
    (same : List.Forall₂ (fun e r => e.path = r.right ∧ e.output = diff r.left r.right) entries rs)
    (read : List.Forall₂ Matches entries logs) : List.Forall₂ (ShowsReport diff) rs logs := by
  induction same generalizing logs with
  | nil =>
      cases read
      exact .nil
  | cons head _ ih =>
      cases read with
      | cons first rest => exact .cons ⟨head.1 ▸ first.path, head.2 ▸ first.text⟩ (ih rest)

/-- What the server reads of the reports of a run. -/
theorem readDiff_reports {diff : Bytes → Bytes → Bytes} {rs : List Report} (n1 n2 : Nat)
    (present : ∀ r ∈ rs, ∃ e : DiffEntry, (e.path = r.right ∧ e.output = diff r.left r.right) ∧
      0 ∉ e.output) :
    List.Forall₂ (ShowsReport diff) rs (readDiff ((pathLines (versionPaths n1 n2)).flatMap
      (· ++ [newline]) ++ rs.flatMap (printReport diff))) := by
  obtain ⟨entries, each⟩ := exists_forall₂ present
  have same := List.Forall₂.imp (fun _ _ h => h.1) each
  have strings : ∀ e ∈ entries, 0 ∉ e.output := by
    intro e member
    obtain ⟨r, _, h⟩ := exists_of_forall₂ each member
    exact h.2
  have lines : (versionPreamble n1 n2).lines = pathLines (versionPaths n1 n2) := rfl
  rw [← lines, ← diffStream_eq_reports (versionPreamble n1 n2) same]
  exact showsReport_of_matches same (matches_readDiff _ strings)

/-! ## The page -/

theorem shownParts_below {path : Text} (inside : kernelDirPath ++ ['/'] <+: path) (rest : Text) :
    shownParts (path ++ '/' :: rest) = shownParts path ++ rest.splitOn '/' := by
  obtain ⟨dir, rfl⟩ := inside
  have cut : (dir ++ '/' :: rest).splitOn '/' = dir.splitOn '/' ++ rest.splitOn '/' :=
    List.splitOnP_append_cons dir rest (by simp)
  have start : kernelDirPath ++ ['/'] ++ dir = kernelDirPath ++ '/' :: dir := by simp
  rw [start, List.append_assoc, List.cons_append, shownParts_inside, shownParts_inside, cut]

theorem mem_of_map_eq {logs : List DiffLog} {ps : List (List Name)} {f : List Name → Text}
    (paths : logs.map DiffLog.path = ps.map f) {log : DiffLog} (member : log ∈ logs) :
    ∃ p ∈ ps, f p = log.path := by
  have found : log.path ∈ ps.map f := paths ▸ List.mem_map_of_mem member
  exact List.mem_map.mp found

theorem not_mem_names {c : Char} {dir : Text} {p : List Name} (other : c ≠ '/') (notInDir : c ∉ dir)
    (notInNames : ∀ x ∈ p, c ∉ nameText x) : c ∉ dir ++ p.flatMap fun x => '/' :: nameText x := by
  rw [List.mem_append, List.mem_flatMap]
  rintro (inDir | ⟨x, member, inside⟩)
  · exact notInDir inDir
  · exact notInNames x member ((List.mem_cons.mp inside).resolve_left other)

section Places

variable {lib : Md5} {fs : Fs} {org v1 v2 : Bytes} {report : List Name → Report}
  {diff : Bytes → Bytes → Bytes} {logs : List DiffLog} {ps : List (List Name)}
  (presentable : Presentable (Reported lib fs org v1 v2) report diff)
  (reported : ∀ p ∈ ps, Reported lib fs org v1 v2 p)
  (right : ∀ p, ∃ s : Side, (report p).right = extend s.path p)

include right in
theorem shownParts_right (p : List Name) :
    ∃ s : Side, shownParts (Utf8.decode (report p).right) = s.parts ++ p.map nameText := by
  obtain ⟨s, same⟩ := right p
  exact ⟨s, same ▸ s.shownParts_extend p⟩

include presentable reported right

/-- Of two files of a comparison, one does not lead to the other. -/
theorem eq_of_shownParts_prefix {p q : List Name} (inP : p ∈ ps) (inQ : q ∈ ps)
    (through : shownParts (Utf8.decode (report p).right) <+:
      shownParts (Utf8.decode (report q).right)) : p = q := by
  obtain ⟨s, placeP⟩ := shownParts_right right p
  obtain ⟨s', placeQ⟩ := shownParts_right right q
  rw [placeP, placeQ] at through
  have names := (Side.parts_prefix through).2
  obtain ⟨rest, rfl⟩ := prefix_of_map_prefix
    (presentable.told p q (reported p inP) (reported q inQ)) names
  rw [(reported p inP).not_below (reported _ inQ), List.append_nil]

theorem diffPaths_reports (distinct : ps.Nodup)
    (paths : logs.map DiffLog.path = ps.map fun p => Utf8.decode (report p).right) :
    DiffPaths logs := by
  have inside : ∀ log ∈ logs, kernelDirPath ++ ['/'] <+: log.path := by
    intro log member
    obtain ⟨p, _, path⟩ := mem_of_map_eq paths member
    obtain ⟨s, same⟩ := right p
    obtain ⟨dir, decoded, _⟩ := s.decode_path
    rw [← path, same, decode_extend, decoded, List.append_assoc, List.cons_append]
    exact (List.prefix_append_right_inj _).mpr (List.prefix_append ['/'] _)
  refine ⟨?_, inside, ?_⟩
  · rw [paths]
    refine distinct.map_on fun p inP q inQ same => ?_
    exact eq_of_shownParts_prefix presentable reported right inP inQ (by rw [same])
  · intro a inA b inB
    obtain ⟨p, inP, pathA⟩ := mem_of_map_eq paths inA
    obtain ⟨q, inQ, pathB⟩ := mem_of_map_eq paths inB
    rintro ⟨rest, below⟩
    rw [List.append_assoc, List.singleton_append] at below
    have longer := shownParts_below (inside a inA) rest
    rw [below] at longer
    have equal := eq_of_shownParts_prefix presentable reported right inP inQ (by
      rw [pathA, pathB, longer]
      exact List.prefix_append _ _)
    have lengths := congrArg List.length below
    rw [← pathA, ← pathB, equal] at lengths
    simp at lengths

theorem isFile_not_mem_places {log : DiffLog} (member : log ∈ logs)
    (paths : logs.map DiffLog.path = ps.map fun p => Utf8.decode (report p).right) :
    "isFile".toList ∉ (shownParts log.path).tail := by
  obtain ⟨p, inP, path⟩ := mem_of_map_eq paths member
  obtain ⟨s, place⟩ := shownParts_right right p
  rw [← path, place]
  have names : "isFile".toList ∉ p.map nameText := by
    intro found
    obtain ⟨x, inside, same⟩ := List.mem_map.mp found
    exact presentable.noIsFile p (reported p inP) x inside same
  cases s with
  | original =>
      rw [Side.parts, List.cons_append, List.tail_cons, List.cons_append, List.mem_cons, not_or]
      exact ⟨by decide, names⟩
  | molt n =>
      rw [Side.parts, List.cons_append, List.tail_cons, List.cons_append, List.mem_cons, not_or]
      exact ⟨by decide, names⟩

theorem plainName_of_reported {log : DiffLog} (member : log ∈ logs)
    (paths : logs.map DiffLog.path = ps.map fun p => Utf8.decode (report p).right) :
    Tags.PlainName log.path := by
  obtain ⟨p, inP, path⟩ := mem_of_map_eq paths member
  obtain ⟨s, same⟩ := right p
  have names : ∀ x ∈ p, Tags.PlainName (nameText x) := presentable.plain p (reported p inP)
  rw [← path, same, decode_extend]
  exact ⟨not_mem_names (by decide) (s.not_mem_decode (by decide)) fun x inside => (names x inside).1,
    not_mem_names (by decide) (s.not_mem_decode (by decide)) fun x inside => (names x inside).2⟩

end Places

/-- An entry whose path no other one has is sent alone. -/
theorem sendMatching_of_nodup {logs : List DiffLog} (distinct : (logs.map DiffLog.path).Nodup)
    {log : DiffLog} (member : log ∈ logs) :
    sendMatching (.text log.path) logs = [.str log.text] :=
  (sendMatching_eq_str _ _ _).mpr (textsOf_of_nodup distinct member)

/-- The replies for a comparison: its listing, and what `/viewFile` then sends for each file. -/
structure PageShows (env : Env) (reply : ServerState × Outcome) (diff : Bytes → Bytes → Bytes)
    (ps : List (List Name)) (report : List Name → Report) : Prop where
  paths : reply.1.diffLog.map DiffLog.path = ps.map fun p => Utf8.decode (report p).right
  listing : ps ≠ [] →
    ∃ html, reply.2 = ⟨[.htmlcode html], false⟩ ∧ ShowsOnce reply.1.diffLog html
  nothing : ps = [] → reply.2 = ⟨[], false⟩
  view : ∀ p ∈ ps, ∃ text,
    viewFile env reply.1 (.text (Utf8.decode (report p).right)) = ⟨[.str text], false⟩ ∧
      UpToNewline text (Utf8.decode (diff (report p).left (report p).right))

theorem truthy_versionQuery (n : Nat) : (versionQuery n).truthy = true := by
  simp [versionQuery, Query.truthy, Nat.toDigits_ne_nil]

theorem pageShows_of_logs (env : Env) {diff : Bytes → Bytes → Bytes} {ps : List (List Name)}
    {report : List Name → Report} {logs : List DiffLog} (n1 n2 : Nat)
    (shown : List.Forall₂ (ShowsReport diff) (ps.map report) logs) (paths : DiffPaths logs)
    (names : ∀ log ∈ logs, "isFile".toList ∉ (shownParts log.path).tail ∧
      Tags.PlainName log.path) :
    PageShows env (⟨versionQuery n1, versionQuery n2, logs⟩, showDiff logs) diff ps report := by
  have lengths := shown.length_eq
  rw [List.length_map] at lengths
  constructor
  · have paths := paths_of_showsReport shown
    rwa [List.map_map] at paths
  · intro some
    have nonempty : logs.length ≠ 0 := by
      rw [← lengths]
      simpa using some
    obtain ⟨tree, built, once⟩ := showsOnce_of_clear paths names
    refine ⟨_, ?_, once⟩
    rw [showDiff, if_pos nonempty, built]
  · rintro rfl
    cases shown
    rfl
  · intro p member
    obtain ⟨log, inLogs, path, text⟩ := exists_of_forall₂ shown (List.mem_map_of_mem member)
    refine ⟨log.text, ?_, text⟩
    have nonempty : ¬ logs.length < 1 := by
      have := List.length_pos_of_mem inLogs
      omega
    rw [viewFile, if_neg (by simp), truthy_versionQuery, if_neg (by decide), if_neg nonempty, ← path,
      sendMatching_of_nodup paths.distinct inLogs]

def sourceOf (n : Nat) : Bytes := asciiBytes (versionBase n)

def orgSkin : Bytes := orgOf ++ ascii "__skin"

def kernels : World :=
  ⟨FileTree.planted [(locate orgOf ++ [nameF], []), (locate (sourceOf 1) ++ [nameF], [1]),
    (locate (sourceOf 2) ++ [nameF], [2])], []⟩

def kernelsO : World := skinWorld orgOf orgSkin kernels

def kernels1 : World := skinWorld (sourceOf 1) (skinOf 1) kernelsO

def kernels2 : World := skinWorld (sourceOf 2) (skinOf 2) kernels1

def kernelsM1 : World := moltWorld orgSkin (skinOf 1) (moltOf 1) kernels2

def kernelsM2 : World := moltWorld orgSkin (skinOf 2) (moltOf 2) kernelsM1

theorem freshPlace_of_check {fs : Fs} {path : Bytes} (named : locate path ≠ [])
    (missing : (fs.get (locate path)).isNone = true)
    (parent : fs.isDir (locate path).dropLast = true) : FreshPlace fs path where
  missing := Option.isNone_iff_eq_none.mp missing
  parent := ⟨_, _, (List.dropLast_append_getLast named).symm, FileTree.isDir_iff.mp parent⟩

theorem pipeline_kernels :
    Pipeline plainMd5 orgOf (sourceOf 1) (sourceOf 2) orgSkin (skinOf 1) (skinOf 2) (moltOf 1)
      (moltOf 2) kernels kernelsO kernels1 kernels2 kernelsM1 kernelsM2 where
  sourceO := .of_allPlain (by decide +kernel) (by decide +kernel)
  source1 := .of_allPlain (by decide +kernel) (by decide +kernel)
  source2 := .of_allPlain (by decide +kernel) (by decide +kernel)
  string1 := not_mem_asciiBytes (pathChars_versionBase 1) (by decide)
  string2 := not_mem_asciiBytes (pathChars_versionBase 2) (by decide)
  fresh := by
    have places : ([orgSkin, skinOf 1, skinOf 2, moltOf 1, moltOf 2].all fun path =>
        locate path ≠ [] && (kernels.fs.get (locate path)).isNone &&
          kernels.fs.isDir (locate path).dropLast) = true := by decide +kernel
    intro path member
    have checked := List.all_eq_true.mp places path member
    simp only [Bool.and_eq_true, decide_eq_true_eq] at checked
    exact freshPlace_of_check checked.1.1 checked.1.2 checked.2
  apart := by
    unfold FileTree.Apart
    decide +kernel
  outside := by decide +kernel
  skinO := skinWorld_ends (by decide +kernel)
  skin1 := skinWorld_ends (by decide +kernel)
  skin2 := skinWorld_ends (by decide +kernel)
  molt1 := ⟨zeroJunk, Command.ends_of_ok (by decide +kernel)⟩
  molt2 := ⟨zeroJunk, Command.ends_of_ok (by decide +kernel)⟩

/-- One line for every file that differs. -/
def oneLine (_ _ : Bytes) : Bytes := ascii "1c1" ++ [newline]

def kernelsEnv : Env where
  disk := ⟨fun _ => none, fun _ => none⟩
  execSync _ :=
    (ssuDiffOutput oneLine zeroJunk [] [orgArg, moltArg 1, moltArg 2] kernelsM2).bind buffered
  readFile _ := .error

theorem reported_kernels {p : List Name}
    (reported : Reported plainMd5 kernels.fs orgOf (sourceOf 1) (sourceOf 2) p) : p = [nameF] := by
  have files : (kernels.fs.support.all fun l =>
      !decide (locate orgOf <+: l) || kernels.fs.isDir l || l = locate orgOf ++ [nameF]) = true := by
    decide +kernel
  obtain ⟨a, isFile⟩ := reported.org_file
  have checked := List.all_eq_true.mp files (locate orgOf ++ p)
    (kernels.fs.listed _ (by simp [isFile]))
  have notDir : kernels.fs.isDir (locate orgOf ++ p) = false := by
    rw [← Bool.not_eq_true, FileTree.isDir_iff, isFile]
    simp
  simpa [notDir] using checked

theorem presentable_kernels : Presentable
    (Reported plainMd5 kernels.fs orgOf (sourceOf 1) (sourceOf 2))
    pipeline_kernels.comparing.reportOf oneLine where
  oneLine p reported x member := by
    rw [reported_kernels reported, List.mem_singleton] at member
    rw [member]
    decide
  told p q here there x inP y inQ _ := by
    rw [reported_kernels here, List.mem_singleton] at inP
    rw [reported_kernels there, List.mem_singleton] at inQ
    rw [inP, inQ]
  noIsFile p reported x member := by
    rw [reported_kernels reported, List.mem_singleton] at member
    rw [member]
    decide
  plain p reported x member := by
    rw [reported_kernels reported, List.mem_singleton] at member
    rw [member]
    decide
  output p reported := ⟨[ascii "1c1"], rfl, by decide⟩

theorem execSync_kernels (command : Text) : kernelsEnv.execSync command =
    (ssuDiffOutput oneLine zeroJunk [] [orgArg, moltArg 1, moltArg 2] kernelsM2).bind buffered := by
  rw [kernelsEnv]

theorem succeeds_kernels (command : Text) : kernelsEnv.execSync command ≠ none := by
  rw [execSync_kernels]
  decide +kernel

end OslabProfiler.Server

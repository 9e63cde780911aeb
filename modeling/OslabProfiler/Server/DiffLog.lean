import OslabProfiler.CompKernel.DiffStream
import OslabProfiler.Lib.Utf8

/-! # Reading the output of ssu_diff

`/getDirectoryJSON` runs `ssu_diff` on two versions and takes its output apart
again, line by line: a line that begins with `diff ` starts an entry, and every
other line belongs to the entry before it.
-/

namespace OslabProfiler.Server

open Lib CompKernel

structure DiffLog where
  path : Text
  diffdata : List Text
  deriving DecidableEq

structure DiffState where
  diffLog : List DiffLog := []
  currentLog : Option DiffLog := none

/-- One turn of the loop over the lines. -/
def diffLine (s : DiffState) (line : Text) : DiffState :=
  if "diff ".toList <+: line then
    { diffLog := s.diffLog ++ s.currentLog.toList, currentLog := some ⟨line.drop 5, []⟩ }
  else
    match s.currentLog with
    | some log => { s with currentLog := some { log with diffdata := log.diffdata ++ [line] } }
    | none => s

def diffLines (lines : List Text) (s : DiffState) : DiffState := lines.foldl diffLine s

/-- The default `maxBuffer` of `execSync`, in bytes. -/
def maxBuffer : Nat := 1024 * 1024

/-- What `execSync` returns of the bytes that a command prints. When there are more than
    `maxBuffer` of them it throws, and `diff_log` stays empty. -/
def buffered (printed : Bytes) : Option Bytes :=
  if printed.length ≤ maxBuffer then some printed else none

/-- `diff_log` after the loop, for the bytes that the command has printed. -/
def readDiff (stdout : Bytes) : List DiffLog :=
  let s := diffLines ((Utf8.decode stdout).splitOn '\n') {}
  s.diffLog ++ s.currentLog.toList

theorem diffLine_nonempty (s : DiffState) (line : Text) :
    (diffLine s line).diffLog ++ (diffLine s line).currentLog.toList ≠ [] ↔
      "diff ".toList <+: line ∨ s.diffLog ++ s.currentLog.toList ≠ [] := by
  unfold diffLine
  split
  · rename_i header
    exact iff_of_true (by simp) (.inl header)
  · rename_i other
    rw [or_iff_right other]
    cases current : s.currentLog with
    | none => simp [current]
    | some log => simp

/-- There is an entry exactly when some line begins with `diff `. -/
theorem readDiff_ne_nil_iff (stdout : Bytes) :
    readDiff stdout ≠ [] ↔
      ∃ line ∈ (Utf8.decode stdout).splitOn '\n', "diff ".toList <+: line := by
  have loop : ∀ (lines : List Text) (s : DiffState),
      (diffLines lines s).diffLog ++ (diffLines lines s).currentLog.toList ≠ [] ↔
        (∃ line ∈ lines, "diff ".toList <+: line) ∨ s.diffLog ++ s.currentLog.toList ≠ [] := by
    intro lines
    induction lines with
    | nil =>
        intro s
        simp [diffLines]
    | cons line lines ih =>
        intro s
        rw [diffLines, List.foldl_cons, ← diffLines, ih, diffLine_nonempty,
          List.exists_mem_cons_iff, or_left_comm, or_assoc]
  rw [readDiff, loop]
  simp

/-- What `/viewFile` sends of an entry. -/
def DiffLog.text (log : DiffLog) : Text := List.intercalate ['\n'] log.diffdata

/-! ## The lines of the stream -/

theorem decode_lines (lines : List Bytes) :
    Utf8.decode (lines.flatMap (· ++ [newline])) =
      (lines.map Utf8.decode).flatMap (· ++ ['\n']) := by
  induction lines with
  | nil => rfl
  | cons l lines ih =>
      rw [List.flatMap_cons, List.append_assoc, List.singleton_append,
        Utf8.decode_append_ascii l (b := newline) (by decide), ih, List.map_cons,
        List.flatMap_cons, List.append_assoc]
      rfl

theorem newline_mem_decode (l : Bytes) : '\n' ∈ Utf8.decode l ↔ newline ∈ l :=
  Utf8.mem_decode (b := newline) (by decide) l

/-- The bytes of lines are split into these lines and an empty one behind the last. -/
theorem splitOn_decode_lines {lines : List Bytes} (oneLine : ∀ l ∈ lines, newline ∉ l) :
    (Utf8.decode (lines.flatMap (· ++ [newline]))).splitOn '\n' =
      lines.map Utf8.decode ++ [[]] := by
  rw [decode_lines, splitOn_lines]
  intro l member
  obtain ⟨bytes, inside, rfl⟩ := List.mem_map.mp member
  rw [newline_mem_decode]
  exact oneLine bytes inside

theorem header_decode (l : Bytes) : "diff ".toList <+: Utf8.decode l ↔ ascii "diff " <+: l :=
  Utf8.prefix_decode (by simp) l

theorem decode_header (e : DiffEntry) :
    Utf8.decode e.header = "diff ".toList ++ Utf8.decode e.path :=
  Utf8.decode_map_byteOf_append (a := "diff ".toList) (by simp) e.path

theorem newline_not_mem_stream (pre : Preamble) (entries : List DiffEntry) :
    ∀ l ∈ pre.lines ++ entries.flatMap (fun e => e.header :: e.lines), newline ∉ l := by
  have plain := pre.plain
  simp only [List.forall_mem_cons, List.not_mem_nil, false_implies, implies_true,
    and_true] at plain
  obtain ⟨skin1, skin2, molt1, molt2⟩ := plain
  have literals : newline ∉ ascii "skin_path : " ∧ newline ∉ ascii "molt_path : " ∧
      newline ∉ ascii " | " ∧ newline ∉ ascii " " ∧ newline ∉ ascii "diff " := by decide
  intro l member
  cases List.mem_append.mp member with
  | inl first =>
      simp only [Preamble.lines, List.mem_cons, List.not_mem_nil, or_false] at first
      rcases first with rfl | rfl | rfl
      · simp [literals, skin1.1, skin2.1]
      · simp [literals, molt1.1, molt2.1]
      · simp [literals, skin1.1, skin2.1]
  | inr later =>
      obtain ⟨e, _, here⟩ := List.mem_flatMap.mp later
      cases List.mem_cons.mp here with
      | inl header => simp [header, DiffEntry.header, literals, e.pathLine]
      | inr line => exact e.oneLine l line

/-! ## The loop -/

/-- Lines before the first header are passed over. -/
theorem diffLines_none {lines : List Text} (noHeader : ∀ l ∈ lines, ¬ "diff ".toList <+: l)
    (done : List DiffLog) : diffLines lines ⟨done, none⟩ = ⟨done, none⟩ := by
  induction lines with
  | nil => rfl
  | cons l lines ih =>
      rw [List.forall_mem_cons] at noHeader
      rw [diffLines, List.foldl_cons, diffLine, if_neg noHeader.1]
      exact ih noHeader.2

/-- Lines without a header belong to the current entry. -/
theorem diffLines_some {lines : List Text} (noHeader : ∀ l ∈ lines, ¬ "diff ".toList <+: l)
    (done : List DiffLog) (log : DiffLog) :
    diffLines lines ⟨done, some log⟩ =
      ⟨done, some { log with diffdata := log.diffdata ++ lines }⟩ := by
  induction lines generalizing log with
  | nil => simp [diffLines]
  | cons l lines ih =>
      rw [List.forall_mem_cons] at noHeader
      rw [diffLines, List.foldl_cons, diffLine, if_neg noHeader.1, ← diffLines, ih noHeader.2]
      simp

theorem diffLines_append (a b : List Text) (s : DiffState) :
    diffLines (a ++ b) s = diffLines b (diffLines a s) := List.foldl_append

/-- The entry as the loop rebuilds it. -/
def rebuilt (e : DiffEntry) : DiffLog := ⟨Utf8.decode e.path, e.lines.map Utf8.decode⟩

theorem diffLines_entry (e : DiffEntry) (s : DiffState) :
    diffLines ((e.header :: e.lines).map Utf8.decode) s =
      ⟨s.diffLog ++ s.currentLog.toList, some (rebuilt e)⟩ := by
  have noHeader : ∀ l ∈ e.lines.map Utf8.decode, ¬ "diff ".toList <+: l := by
    intro l member
    obtain ⟨bytes, inside, rfl⟩ := List.mem_map.mp member
    rw [header_decode]
    exact e.noHeader bytes inside
  have starts : diffLine s (Utf8.decode e.header) =
      ⟨s.diffLog ++ s.currentLog.toList, some ⟨Utf8.decode e.path, []⟩⟩ := by
    rw [decode_header, diffLine, if_pos (List.prefix_append _ _)]
    rfl
  rw [List.map_cons, diffLines, List.foldl_cons, starts, ← diffLines, diffLines_some noHeader]
  rfl

theorem diffLines_entries (entries : List DiffEntry) (s : DiffState) :
    let s' := diffLines ((entries.flatMap fun e => e.header :: e.lines).map Utf8.decode) s
    s'.diffLog ++ s'.currentLog.toList =
      s.diffLog ++ s.currentLog.toList ++ entries.map rebuilt := by
  induction entries generalizing s with
  | nil => simp [diffLines]
  | cons e entries ih =>
      rw [List.flatMap_cons, List.map_append, diffLines_append, diffLines_entry]
      simpa using ih ⟨s.diffLog ++ s.currentLog.toList, some (rebuilt e)⟩

/-! ## Reading the stream back -/

/-- All lines of the stream, and an empty one behind the last newline. -/
theorem readDiff_diffStream (pre : Preamble) {entries : List DiffEntry}
    (strings : ∀ e ∈ entries, 0 ∉ e.output) :
    readDiff (diffStream pre entries) =
      let s := diffLines ((entries.flatMap fun e => e.header :: e.lines).map Utf8.decode ++ [[]]) {}
      s.diffLog ++ s.currentLog.toList := by
  have noHeader : ∀ l ∈ pre.lines.map Utf8.decode, ¬ "diff ".toList <+: l := by
    intro l member
    obtain ⟨bytes, inside, rfl⟩ := List.mem_map.mp member
    rw [header_decode]
    simp only [Preamble.lines, List.mem_cons, List.not_mem_nil, or_false] at inside
    have apart : ∀ (c : Byte) (l : Bytes), c ≠ 100 → ¬ ascii "diff " <+: c :: l := by
      intro c l other here
      exact other (List.cons_prefix_cons.mp here).1.symm
    rcases inside with rfl | rfl | rfl
    · exact apart 115 _ (by decide)
    · exact apart 109 _ (by decide)
    · exact apart 32 _ (by decide)
  rw [readDiff, diffStream_eq_lines pre strings,
    splitOn_decode_lines (newline_not_mem_stream pre entries), List.map_append, List.append_assoc,
    diffLines_append, diffLines_none noHeader]

/-- The last entry also has the empty line behind the last newline. -/
def rebuiltLast (e : DiffEntry) : DiffLog :=
  { rebuilt e with diffdata := (rebuilt e).diffdata ++ [[]] }

theorem readDiff_nil (pre : Preamble) : readDiff (diffStream pre []) = [] := by
  rw [readDiff_diffStream pre (by simp)]
  rfl

theorem readDiff_snoc (pre : Preamble) {entries : List DiffEntry} {e : DiffEntry}
    (strings : ∀ e' ∈ entries ++ [e], 0 ∉ e'.output) :
    readDiff (diffStream pre (entries ++ [e])) = entries.map rebuilt ++ [rebuiltLast e] := by
  have before := diffLines_entries entries {}
  have last : ∀ l ∈ [([] : Text)], ¬ "diff ".toList <+: l := by simp
  rw [readDiff_diffStream pre strings, List.flatMap_append, List.flatMap_singleton,
    List.map_append, List.append_assoc, diffLines_append, diffLines_append, diffLines_entry,
    before, diffLines_some last]
  rfl

/-- Equal up to one newline at the end. -/
def UpToNewline (text output : Text) : Prop := text = output ∨ text ++ ['\n'] = output

/-- The entry of `diff_log` for an entry of the stream: the path, the text and the single
    lines of the output. -/
structure Matches (e : DiffEntry) (log : DiffLog) : Prop where
  path : log.path = Utf8.decode e.path
  text : UpToNewline log.text (Utf8.decode e.output)
  lines : log.diffdata = e.lines.map Utf8.decode ∨ log.diffdata = e.lines.map Utf8.decode ++ [[]]

theorem intercalate_snoc (lines : List Text) :
    List.intercalate ['\n'] (lines ++ [[]]) = lines.flatMap (· ++ ['\n']) := by
  induction lines with
  | nil => rfl
  | cons l lines ih =>
      rw [List.cons_append, List.intercalate_cons_of_ne_nil (by simp), ih, List.flatMap_cons]

theorem intercalate_append_newline {lines : List Text} (nonempty : lines ≠ []) :
    List.intercalate ['\n'] lines ++ ['\n'] = lines.flatMap (· ++ ['\n']) := by
  induction lines with
  | nil => exact (nonempty rfl).elim
  | cons l lines ih =>
      cases lines with
      | nil => simp
      | cons l' lines =>
          rw [List.intercalate_cons_cons, List.append_assoc, ih (by simp)]
          rfl

theorem matches_rebuilt (e : DiffEntry) : Matches e (rebuilt e) where
  path := rfl
  text := by
    rw [DiffEntry.output, decode_lines, DiffLog.text, rebuilt]
    by_cases empty : e.lines = []
    · left
      simp [empty]
    · right
      exact intercalate_append_newline (by simpa using empty)
  lines := .inl rfl

theorem matches_rebuiltLast (e : DiffEntry) : Matches e (rebuiltLast e) where
  path := rfl
  text := by
    left
    rw [DiffEntry.output, decode_lines, DiffLog.text]
    exact intercalate_snoc _
  lines := .inr rfl

/-- The loop takes every text from a line. -/
theorem mem_diffLines {lines : List Text} {s : DiffState} {log : DiffLog} {d : Text}
    (inLog : log ∈ (diffLines lines s).diffLog ++ (diffLines lines s).currentLog.toList)
    (member : d ∈ log.diffdata) :
    d ∈ lines ∨ ∃ log' ∈ s.diffLog ++ s.currentLog.toList, d ∈ log'.diffdata := by
  induction lines generalizing s with
  | nil => exact .inr ⟨log, inLog, member⟩
  | cons l lines ih =>
      rw [diffLines, List.foldl_cons, ← diffLines] at inLog
      rcases ih inLog with later | ⟨log', inside, here⟩
      · exact .inl (List.mem_cons_of_mem _ later)
      · unfold diffLine at inside
        split at inside
        · simp only [Option.toList_some, List.mem_append, List.mem_singleton] at inside
          rcases inside with old | rfl
          · exact .inr ⟨log', List.mem_append.mpr old, here⟩
          · cases here
        · cases current : s.currentLog with
          | none =>
              rw [current] at inside
              exact .inr ⟨log', by simpa [current] using inside, here⟩
          | some cur =>
              rw [current] at inside
              simp only [Option.toList_some, List.mem_append, List.mem_singleton] at inside
              rcases inside with old | rfl
              · exact .inr ⟨log', by simp [old], here⟩
              · simp only [List.mem_append, List.mem_singleton] at here
                rcases here with old | rfl
                · exact .inr ⟨cur, by simp, old⟩
                · exact .inl List.mem_cons_self

theorem mem_intercalate {c separator : Char} (other : c ≠ separator) (lines : List Text) :
    c ∈ List.intercalate [separator] lines ↔ ∃ l ∈ lines, c ∈ l := by
  induction lines with
  | nil => simp
  | cons l lines ih =>
      cases lines with
      | nil => simp
      | cons l' lines =>
          rw [List.intercalate_cons_cons, List.mem_append, List.mem_append, List.mem_singleton, ih,
            List.exists_mem_cons_iff (a := l), or_iff_left other]

/-- No NUL reaches the server. -/
theorem nul_not_mem_text {pre : Preamble} {entries : List DiffEntry} {log : DiffLog}
    (inLog : log ∈ readDiff (diffStream pre entries)) : Char.ofNat 0 ∉ log.text := by
  intro nul
  obtain ⟨d, member, found⟩ := (mem_intercalate (by decide) log.diffdata).mp nul
  have line : d ∈ (Utf8.decode (diffStream pre entries)).splitOn '\n' := by
    rcases mem_diffLines inLog member with line | ⟨log', none, _⟩
    · exact line
    · cases none
  have inText := (mem_intercalate (by decide : Char.ofNat 0 ≠ '\n') _).mpr ⟨d, line, found⟩
  rw [List.intercalate_splitOn] at inText
  exact zero_not_mem_diffStream pre entries ((Utf8.mem_decode (b := 0) (by decide) _).mp inText)

theorem Matches.nul_mem {e : DiffEntry} {log : DiffLog} (same : Matches e log)
    (zero : 0 ∈ e.output) : Char.ofNat 0 ∈ log.text := by
  have nul : Char.ofNat 0 ∈ Utf8.decode e.output :=
    (Utf8.mem_decode (b := 0) (by decide) _).mpr zero
  rcases same.text with whole | cut
  · rwa [whole]
  · rw [← cut, List.mem_append, List.mem_singleton] at nul
    exact nul.resolve_right (by decide)

theorem exists_of_forall₂ {α β : Type*} {R : α → β → Prop} {l : List α} {l' : List β}
    (related : List.Forall₂ R l l') {a : α} (member : a ∈ l) : ∃ b ∈ l', R a b := by
  induction related with
  | nil => cases member
  | cons head _ ih =>
      cases List.mem_cons.mp member with
      | inl same => exact ⟨_, List.mem_cons_self, same ▸ head⟩
      | inr later =>
          obtain ⟨b, inside, holds⟩ := ih later
          exact ⟨b, List.mem_cons_of_mem _ inside, holds⟩

theorem matches_readDiff (pre : Preamble) {entries : List DiffEntry}
    (strings : ∀ e ∈ entries, 0 ∉ e.output) :
    List.Forall₂ Matches entries (readDiff (diffStream pre entries)) := by
  cases entries using List.reverseRecOn with
  | nil =>
      rw [readDiff_nil]
      exact .nil
  | append_singleton entries e =>
      rw [readDiff_snoc pre strings]
      apply List.rel_append
      · rw [List.forall₂_map_right_iff, List.forall₂_same]
        exact fun e' _ => matches_rebuilt e'
      · exact .cons (matches_rebuiltLast e) .nil

/-- The loop gets the stream and reads it back, entry by entry. -/
def Faithful (pre : Preamble) (entries : List DiffEntry) : Prop :=
  ∃ stdout, buffered (diffStream pre entries) = some stdout ∧
    List.Forall₂ Matches entries (readDiff stdout)

theorem buffered_eq_some {printed stdout : Bytes} :
    buffered printed = some stdout ↔ printed.length ≤ maxBuffer ∧ stdout = printed := by
  rw [buffered, Option.ite_none_right_eq_some, Option.some.injEq, eq_comm (a := printed)]

/-- The stream is read back exactly when no output of `diff` has a NUL in it and the whole is
    not longer than the buffer. -/
theorem faithful_iff (pre : Preamble) (entries : List DiffEntry) :
    Faithful pre entries ↔
      (∀ e ∈ entries, 0 ∉ e.output) ∧ (diffStream pre entries).length ≤ maxBuffer := by
  constructor
  · rintro ⟨stdout, printed, read⟩
    obtain ⟨short, rfl⟩ := buffered_eq_some.mp printed
    refine ⟨fun e member zero => ?_, short⟩
    obtain ⟨log, inLog, same⟩ := exists_of_forall₂ read member
    exact nul_not_mem_text inLog (same.nul_mem zero)
  · rintro ⟨strings, short⟩
    exact ⟨_, buffered_eq_some.mpr ⟨short, rfl⟩, matches_readDiff pre strings⟩

def samplePreamble : Preamble where
  skinPath1 := ascii "/k/V1/kernel-source__skin"
  skinPath2 := ascii "/k/V2/kernel-source__skin"
  moltPath1 := ascii "/k/V1/kernel-source__molt"
  moltPath2 := ascii "/k/V2/kernel-source__molt"
  plain := by decide

/-- A change of a line with a NUL in it. -/
def nulEntry : DiffEntry where
  path := ascii "/k/V2/kernel-source__molt/font.c"
  lines := [ascii "9c9", ascii "< a" ++ [0] ++ ascii "b", ascii "---", ascii "> ab"]
  pathString := by decide
  pathLine := by decide
  oneLine := by decide
  noHeader := by decide

/-- Half a million lines, of two bytes each. -/
def longEntry : DiffEntry where
  path := ascii "/k/V2/kernel-source__molt/font.c"
  lines := List.replicate (512 * 1024) (ascii ">")
  pathString := by decide
  pathLine := by decide
  oneLine l member := by
    rw [List.eq_of_mem_replicate member]
    decide
  noHeader l member := by
    rw [List.eq_of_mem_replicate member]
    decide

theorem longEntry_tooLong : maxBuffer < (diffStream samplePreamble [longEntry]).length := by
  have output : longEntry.output.length = maxBuffer := by
    simp only [DiffEntry.output, longEntry, List.length_flatMap, List.map_replicate,
      List.sum_replicate, maxBuffer]
    rfl
  have string : 0 ∉ longEntry.output := by
    intro member
    obtain ⟨l, inside, zero⟩ := List.mem_flatMap.mp member
    rw [List.eq_of_mem_replicate inside] at zero
    revert zero
    decide
  rw [diffStream, List.flatMap_singleton, copied_eq_self string, List.length_append,
    List.length_append, List.length_append, output, List.length_singleton]
  omega

/-- What stands behind the NUL is lost, and the next line is glued to what is left. Of a
    stream that is too long nothing is read at all. -/
theorem nulEntry_not_faithful :
    readDiff (diffStream samplePreamble [nulEntry]) =
      [⟨"/k/V2/kernel-source__molt/font.c".toList,
        ["9c9".toList, "< a---".toList, "> ab".toList, []]⟩] ∧
    ¬ Faithful samplePreamble [nulEntry] ∧
    buffered (diffStream samplePreamble [longEntry]) = none ∧
    ¬ Faithful samplePreamble [longEntry] := by
  have long := longEntry_tooLong
  refine ⟨by decide +kernel, ?_, if_neg (not_le.mpr long), ?_⟩
  · rintro ⟨stdout, printed, read⟩
    obtain ⟨_, rfl⟩ := buffered_eq_some.mp printed
    obtain ⟨log, inLog, same⟩ := exists_of_forall₂ read (List.mem_singleton_self nulEntry)
    exact nul_not_mem_text inLog (same.nul_mem (by decide))
  · rintro ⟨stdout, printed, _⟩
    exact absurd (buffered_eq_some.mp printed).1 (not_le.mpr long)

end OslabProfiler.Server

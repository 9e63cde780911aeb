import OslabProfiler.CompKernel.SsuDiff
import OslabProfiler.CompKernel.Delta

/-! # What ssu_diff reports

The walk over two molts reports a file that both hold when its digests differ,
and a file that only one of them holds when the other still has a later name in
the same directory. The run is measured against this set of paths: whatever it
prints belongs to it, no path is printed twice, a run that comes to its end
has printed all of it, and it does so if every text fits its buffer.
-/

namespace OslabProfiler.CompKernel

open Lib Lib.FileTree

/-- A file of both directories, outside `.git`, whose digests differ. -/
def Differs (lib : Md5) (fs : Fs) (org v : Bytes) (p : List Name) : Prop :=
  p.all scandirFilter = true ∧ ∃ a b, fs.get (locate org ++ p) = some (.file a) ∧
    fs.get (locate v ++ p) = some (.file b) ∧ lib.digest a ≠ lib.digest b

/-- At `m` stand the files in which `v` differs from `org`, as `v` has them, and
    the directories above them. -/
structure Molted (lib : Md5) (fs : Fs) (org v m : Bytes) : Prop where
  root : fs.get (locate m) = some .dir
  file : ∀ p, Differs lib fs org v p → fs.get (locate m ++ p) = fs.get (locate v ++ p)
  isFile : ∀ p data, fs.get (locate m ++ p) = some (.file data) → Differs lib fs org v p
  isDir : ∀ p, p ≠ [] → fs.get (locate m ++ p) = some .dir →
    ∃ q, q ≠ [] ∧ Differs lib fs org v (p ++ q)
  plain : ∀ p e, fs.get (locate m ++ p) = some e → e.IsPlain

theorem Differs.org_file {lib : Md5} {fs : Fs} {org v : Bytes} {p : List Name}
    (h : Differs lib fs org v p) : ∃ a, fs.get (locate org ++ p) = some (.file a) := by
  obtain ⟨_, a, _, isFile, _⟩ := h
  exact ⟨a, isFile⟩

namespace Molted

variable {lib : Md5} {fs : Fs} {org v m : Bytes} (molted : Molted lib fs org v m)

include molted

theorem present {p : List Name} (h : Differs lib fs org v p) :
    ∃ b, fs.get (locate m ++ p) = some (.file b) := by
  obtain ⟨_, _, b, _, isFile, _⟩ := id h
  exact ⟨b, by rw [molted.file p h, isFile]⟩

/-- An entry of a molt is a changed file or a directory above one. -/
theorem cases {p : List Name} (nonempty : p ≠ []) (there : fs.get (locate m ++ p) ≠ none) :
    (Differs lib fs org v p ∧ ∃ b, fs.get (locate m ++ p) = some (.file b)) ∨
      (fs.get (locate m ++ p) = some .dir ∧ ∃ q, q ≠ [] ∧ Differs lib fs org v (p ++ q)) := by
  obtain ⟨e, isE⟩ := Option.ne_none_iff_exists'.mp there
  have plain := molted.plain p e isE
  cases e with
  | file data => exact .inl ⟨molted.isFile p data isE, data, isE⟩
  | dir => exact .inr ⟨isE, molted.isDir p nonempty isE⟩
  | locked => exact plain.elim
  | dangling => exact plain.elim

/-- The entries of a molt are those on the way to a changed file. -/
theorem present_iff {p : List Name} (nonempty : p ≠ []) :
    fs.get (locate m ++ p) ≠ none ↔ ∃ q, Differs lib fs org v (p ++ q) := by
  constructor
  · intro there
    cases molted.cases nonempty there with
    | inl file => exact ⟨[], by simpa using file.1⟩
    | inr dir =>
        obtain ⟨_, q, _, below⟩ := dir
        exact ⟨q, below⟩
  · rintro ⟨q, below⟩
    obtain ⟨b, there⟩ := molted.present below
    exact fs.present_above _ q (by simp [there])

theorem clean {p : List Name} {x : Name} (there : fs.get (locate m ++ (p ++ [x])) ≠ none) :
    scandirFilter x = true := by
  obtain ⟨q, differs⟩ := (molted.present_iff (by simp)).mp there
  have := differs.1
  simp_all

omit molted in
/-- Below a changed file there is nothing that could have changed. -/
theorem not_below {v' : Bytes} {p q : List Name} (upper : Differs lib fs org v p) (below : q ≠ []) :
    ¬ Differs lib fs org v' (p ++ q) := by
  intro lower
  obtain ⟨a, isFile⟩ := upper.org_file
  obtain ⟨b, there⟩ := lower.org_file
  rw [← List.append_assoc, fs.nothing_below (by simp [isFile]) q below] at there
  cases there

theorem org_dir {p : List Name} (nonempty : p ≠ [])
    (isDir : fs.get (locate m ++ p) = some .dir) : fs.get (locate org ++ p) = some .dir := by
  obtain ⟨q, below, differs⟩ := molted.isDir p nonempty isDir
  obtain ⟨a, there⟩ := differs.org_file
  apply fs.dir_above _ q below
  rw [List.append_assoc, there]
  simp

theorem not_differs {p : List Name} (noFile : ∀ b, fs.get (locate m ++ p) ≠ some (.file b)) :
    ¬ Differs lib fs org v p := by
  intro differs
  obtain ⟨b, there⟩ := molted.present differs
  exact noFile b there

/-- A molt has nothing that `scandir` leaves out. -/
theorem mem_scandir {d : List Name} {x : Name} :
    x ∈ (fs.children (locate m ++ d)).filter scandirFilter ↔
      fs.get (locate m ++ (d ++ [x])) ≠ none := by
  rw [Skinning.mem_scandir, List.append_assoc]
  exact ⟨fun member => member.1, fun there => ⟨there, molted.clean there⟩⟩

end Molted

open Classical in
/-- The two operands for a path: the copy in a molt, or else the original. -/
noncomputable def reportFor (lib : Md5) (fs : Fs) (org v1 v2 m1 m2 : Bytes) (p : List Name) :
    Report where
  left := if Differs lib fs org v1 p then extend m1 p else extend org p
  right := if Differs lib fs org v2 p then extend m2 p else extend org p

/-- The paths of the entries of the molt at `m` fit, and so do those of the skin at `s` and of
    the original. -/
def PathsFit (fs : Fs) (org s m : Bytes) : Prop :=
  ∀ p, p ≠ [] → fs.get (locate m ++ p) ≠ none →
    (extend m p).length < BUFMAX ∧ (extend s p).length < BUFMAX ∧ (extend org p).length < BUFMAX

/-- The system when the skins and the molts of two versions are made. -/
structure Comparing where
  lib : Md5
  fs : Fs
  org : Bytes
  v1 : Bytes
  v2 : Bytes
  s1 : Bytes
  s2 : Bytes
  m1 : Bytes
  m2 : Bytes
  skin1 : Skinned lib fs fs v1 s1
  skin2 : Skinned lib fs fs v2 s2
  molt1 : Molted lib fs org v1 m1
  molt2 : Molted lib fs org v2 m2

namespace Comparing

variable (c : Comparing)

def Diff1 (p : List Name) : Prop := Differs c.lib c.fs c.org c.v1 p

def Diff2 (p : List Name) : Prop := Differs c.lib c.fs c.org c.v2 p

/-- The digests of a file in the two versions differ. -/
def Apart12 (p : List Name) : Prop :=
  ∃ a b, c.fs.get (locate c.v1 ++ p) = some (.file a) ∧
    c.fs.get (locate c.v2 ++ p) = some (.file b) ∧ c.lib.digest a ≠ c.lib.digest b

/-- In the directory of `p`, the molt at `m` has a name behind the last one of `p`. -/
def Later (m : Bytes) (p : List Name) : Prop :=
  ∃ d x y, p = d ++ [x] ∧ x < y ∧ c.fs.get (locate m ++ (d ++ [y])) ≠ none

/-- The paths which the walk is to report. -/
def Expected (p : List Name) : Prop :=
  (c.Diff1 p ∧ c.Diff2 p ∧ c.Apart12 p) ∨
  (c.Diff1 p ∧ ¬ c.Diff2 p ∧ c.Later c.m2 p) ∨
  (c.Diff2 p ∧ ¬ c.Diff1 p ∧ c.Later c.m1 p)

noncomputable def reportOf (p : List Name) : Report :=
  reportFor c.lib c.fs c.org c.v1 c.v2 c.m1 c.m2 p

/-- Every text that the walk formats fits its buffer. -/
structure Room : Prop where
  paths1 : PathsFit c.fs c.org c.s1 c.m1
  paths2 : PathsFit c.fs c.org c.s2 c.m2
  lines : ∀ p, c.Expected p → (c.reportOf p).Fits

/-- Between two worlds, exactly the paths `ps` are reported, all of them expected
    and at or below `l`. -/
structure Adds (l : List Name) (ps : List (List Name)) (w w' : World) : Prop where
  fs : w'.fs = w.fs
  out : w'.out = w.out ++ ps.map c.reportOf
  nodup : ps.Nodup
  expected : ∀ p ∈ ps, c.Expected p ∧ l <+: p

/-- Everything that is expected at or below `l` is among `ps`. -/
def Complete (l : List Name) (ps : List (List Name)) : Prop :=
  ∀ p, c.Expected p → l <+: p → p ∈ ps

variable {c}

theorem Expected.differs {p : List Name} (h : c.Expected p) : c.Diff1 p ∨ c.Diff2 p := by
  rcases h with both | left | right
  · exact .inl both.1
  · exact .inl left.1
  · exact .inr right.1

theorem Later.above {m : Bytes} {p q : List Name} (h : c.Later m (p ++ q)) (below : q ≠ []) :
    c.fs.get (locate m ++ p) ≠ none := by
  obtain ⟨d, x, y, same, _, there⟩ := h
  obtain ⟨q', z, rfl⟩ := (List.eq_nil_or_concat' q).resolve_left below
  rw [← List.append_assoc] at same
  rw [← (List.append_inj' same rfl).1, List.append_assoc, ← List.append_assoc (locate m)] at there
  rw [c.fs.dir_above (locate m ++ p) (q' ++ [y]) (by simp) there]
  simp

/-- What is expected below an entry needs that entry in both molts. -/
theorem Expected.above {p q : List Name} (h : c.Expected (p ++ q)) (nonempty : p ≠ [])
    (below : q ≠ []) :
    c.fs.get (locate c.m1 ++ p) ≠ none ∧ c.fs.get (locate c.m2 ++ p) ≠ none := by
  rcases h with both | left | right
  · exact ⟨(c.molt1.present_iff nonempty).mpr ⟨q, both.1⟩,
      (c.molt2.present_iff nonempty).mpr ⟨q, both.2.1⟩⟩
  · exact ⟨(c.molt1.present_iff nonempty).mpr ⟨q, left.1⟩, left.2.2.above below⟩
  · exact ⟨right.2.2.above below, (c.molt2.present_iff nonempty).mpr ⟨q, right.1⟩⟩

theorem Adds.none (l : List Name) (w : World) : c.Adds l [] w w where
  fs := rfl
  out := by simp
  nodup := List.nodup_nil
  expected _ member := (List.not_mem_nil member).elim

theorem Adds.one {p : List Name} {w w' : World} (expected : c.Expected p) (fs : w'.fs = w.fs)
    (out : w'.out = w.out ++ [c.reportOf p]) : c.Adds p [p] w w' where
  fs := fs
  out := out
  nodup := List.nodup_singleton p
  expected q member := by
    rw [List.mem_singleton.mp member]
    exact ⟨expected, List.prefix_rfl⟩

theorem reportOf_left {p : List Name} (h : c.Diff1 p) : (c.reportOf p).left = extend c.m1 p :=
  if_pos h

theorem reportOf_right {p : List Name} (h : c.Diff2 p) : (c.reportOf p).right = extend c.m2 p :=
  if_pos h

theorem reportOf_left_org {p : List Name} (h : ¬ c.Diff1 p) :
    (c.reportOf p).left = extend c.org p := if_neg h

theorem reportOf_right_org {p : List Name} (h : ¬ c.Diff2 p) :
    (c.reportOf p).right = extend c.org p := if_neg h

theorem complete_of_own {p : List Name} {ps : List (List Name)} (own : c.Expected p → p ∈ ps)
    (bare : ∀ r, r ≠ [] → ¬ c.Expected (p ++ r)) : c.Complete p ps := by
  intro q expected below
  obtain ⟨r, rfl⟩ := below
  by_cases here : r = []
  · rw [here, List.append_nil] at expected ⊢
    exact own expected
  · exact (bare r here expected).elim

/-- At an entry of only one molt, at most the entry itself is expected. -/
theorem complete_of_alone {p : List Name} {ps : List (List Name)} (nonempty : p ≠ [])
    (alone : c.fs.get (locate c.m1 ++ p) = none ∨ c.fs.get (locate c.m2 ++ p) = none)
    (own : c.Expected p → p ∈ ps) : c.Complete p ps := by
  apply complete_of_own own
  intro r below expected
  have above := expected.above nonempty below
  cases alone with
  | inl left => exact above.1 left
  | inr right => exact above.2 right

/-- At a changed file, at most the file itself is expected. -/
theorem complete_of_file {p : List Name} {ps : List (List Name)} (file : c.Diff1 p)
    (own : c.Expected p → p ∈ ps) : c.Complete p ps := by
  apply complete_of_own own
  intro r below expected
  cases expected.differs with
  | inl lower => exact Molted.not_below file below lower
  | inr lower => exact Molted.not_below file below lower

theorem absent1 {p : List Name} (absent : c.fs.get (locate c.m1 ++ p) = none) : ¬ c.Diff1 p :=
  c.molt1.not_differs (by simp [absent])

theorem absent2 {p : List Name} (absent : c.fs.get (locate c.m2 ++ p) = none) : ¬ c.Diff2 p :=
  c.molt2.not_differs (by simp [absent])

/-- A directory of both molts is not reported itself. -/
theorem not_expected_dir {p : List Name} (dir1 : c.fs.get (locate c.m1 ++ p) = some .dir)
    (dir2 : c.fs.get (locate c.m2 ++ p) = some .dir) : ¬ c.Expected p := by
  intro expected
  cases expected.differs with
  | inl left => exact c.molt1.not_differs (by simp [dir1]) left
  | inr right => exact c.molt2.not_differs (by simp [dir2]) right

/-- The skin files which `diff_file` reads for a changed file. -/
theorem skin_records {p : List Name} (diff1 : c.Diff1 p) (diff2 : c.Diff2 p) :
    ∃ a b, c.fs.get (locate c.v1 ++ p) = some (.file a) ∧
      c.fs.get (locate c.v2 ++ p) = some (.file b) ∧
      c.fs.get (locate c.s1 ++ p) = some (.file (skinRecord c.lib (extend c.v1 p) a)) ∧
      c.fs.get (locate c.s2 ++ p) = some (.file (skinRecord c.lib (extend c.v2 p) b)) := by
  obtain ⟨clean, _, a, _, isA, _⟩ := diff1
  obtain ⟨_, _, b, _, isB, _⟩ := diff2
  exact ⟨a, b, isA, isB, c.skin1.file_iff.mpr ⟨clean, a, isA, rfl⟩,
    c.skin2.file_iff.mpr ⟨clean, b, isB, rfl⟩⟩

/-- Stopped with reports on the way, by a text that does not fit. -/
def Stopped (c : Comparing) (l : List Name) (w w' : World) : Prop :=
  (∃ ps, c.Adds l ps w w') ∧ ¬ c.Room

theorem Stopped.now (l : List Name) (w : World) (large : ¬ c.Room) : c.Stopped l w w :=
  ⟨⟨[], Adds.none l w⟩, large⟩

/-- What one turn on an entry leaves: its reports, complete if the turn ends. -/
abbrev Turned (c : Comparing) (l : List Name) (turn : Prog (Bool × Bool)) (w : World) : Prop :=
  turn.wp (fun _ w' => ∃ ps, c.Adds l ps w w' ∧ c.Complete l ps)
    (fun _ w' => c.Stopped l w w') w

/-- The loop body on the directory `d`. -/
abbrev step (c : Comparing) (junk : Junk)
    (recur : Bytes → Bytes → Bytes → Bytes → Bytes → Prog Unit) (d : List Name)
    (stats : Bool × Bool) (names : Name × Name) : Prog (Bool × Bool) :=
  compStep junk recur (extend c.org d) (extend c.m1 d) (extend c.m2 d) (extend c.s1 d)
    (extend c.s2 d) stats names

/-- A turn on a name which both molts have. -/
theorem compStep_same (junk : Junk)
    {recur : Bytes → Bytes → Bytes → Bytes → Bytes → Prog Unit} {d : List Name} {x : Name}
    {w : World} {stats : Bool × Bool} (start : w.fs = c.fs)
    (in1 : c.fs.get (locate c.m1 ++ (d ++ [x])) ≠ none)
    (in2 : c.fs.get (locate c.m2 ++ (d ++ [x])) ≠ none)
    (deeper : c.fs.get (locate c.m1 ++ (d ++ [x])) = some .dir →
      c.fs.get (locate c.m2 ++ (d ++ [x])) = some .dir →
      (extend c.m1 (d ++ [x])).length < BUFMAX →
      (recur (extend c.org (d ++ [x])) (extend c.m1 (d ++ [x])) (extend c.m2 (d ++ [x]))
          (extend c.s1 (d ++ [x])) (extend c.s2 (d ++ [x]))).wp
        (fun _ w' => ∃ ps, c.Adds (d ++ [x]) ps w w' ∧ c.Complete (d ++ [x]) ps)
        (fun _ w' => c.Stopped (d ++ [x]) w w') w) :
    c.Turned (d ++ [x]) (c.step junk recur d stats (x, x)) w := by
  have stop := Stopped.now (c := c) (d ++ [x]) w
  have paths1 := fun room : c.Room => room.paths1 (d ++ [x]) (by simp) in1
  have paths2 := fun room : c.Room => room.paths2 (d ++ [x]) (by simp) in2
  simp only [Turned, step, compStep, Command.wp_bind, wp_sprintf, wp_stat, extend_snoc, start,
    locate_extend, strcmp_decides.eq, Command.wp_ite, Command.wp_pure, not_true, false_implies,
    and_true, true_implies]
  refine ⟨fun room1 => ⟨fun _ => ⟨fun _ => ⟨fun _ => ?_,
    fun large => stop fun room => large (paths2 room).2.1⟩,
    fun large => stop fun room => large (paths1 room).2.1⟩,
    fun large => stop fun room => large (paths2 room).1⟩,
    fun large => stop fun room => large (paths1 room).1⟩
  cases c.molt1.cases (by simp) in1 with
  | inl file1 =>
      obtain ⟨diff1, b1, isFile1⟩ := file1
      cases c.molt2.cases (by simp) in2 with
      | inl file2 =>
          obtain ⟨diff2, b2, isFile2⟩ := file2
          obtain ⟨a, b, isA, isB, record1, record2⟩ := skin_records diff1 diff2
          simp only [isFile1, isFile2, statOf, Option.getD_some, Bool.false_eq_true, and_self,
            false_implies, not_false_eq_true, true_implies, true_and, not_true, and_true]
          rw [← start, ← locate_extend] at record1 record2
          apply diffFile_wp junk record1 record2
          · intro equal
            refine ⟨[], Adds.none _ w, complete_of_file diff1 fun expected => ?_⟩
            rcases expected with both | left | right
            · obtain ⟨_, _, a', b', isA', isB', differ⟩ := both
              rw [isA] at isA'
              rw [isB] at isB'
              cases isA'
              cases isB'
              exact (differ equal).elim
            · exact (left.2.1 diff2).elim
            · exact (right.2.1 diff1).elim
          · intro differ _
            have expected : c.Expected (d ++ [x]) := .inl ⟨diff1, diff2, a, b, isA, isB, differ⟩
            refine ⟨[d ++ [x]], Adds.one expected rfl ?_, complete_of_file diff1 fun _ => by simp⟩
            rw [← reportOf_left diff1, ← reportOf_right diff2]
          · intro differ large
            have expected : c.Expected (d ++ [x]) := .inl ⟨diff1, diff2, a, b, isA, isB, differ⟩
            rw [← reportOf_left diff1, ← reportOf_right diff2] at large
            exact stop fun room => large (room.lines _ expected)
      | inr dir2 =>
          obtain ⟨_, q, below, lower⟩ := dir2
          exact (Molted.not_below diff1 below lower).elim
  | inr dir1 =>
      obtain ⟨isDir1, q, below, lower⟩ := dir1
      cases c.molt2.cases (by simp) in2 with
      | inl file2 => exact (Molted.not_below file2.1 below lower).elim
      | inr dir2 =>
          simp only [isDir1, dir2.1, statOf, Option.getD_some, and_self, true_implies, not_true,
            false_implies, and_true]
          refine ⟨fun _ => ?_, fun large => stop fun room => large (paths1 room).2.2⟩
          exact deeper isDir1 dir2.1 room1

/-- A turn on a name which only the first molt has, before a name of the second. -/
theorem compStep_less (junk : Junk)
    {recur : Bytes → Bytes → Bytes → Bytes → Bytes → Prog Unit} {d : List Name} {x y : Name}
    {w : World} {stats : Bool × Bool} (start : w.fs = c.fs) (less : x < y)
    (in1 : c.fs.get (locate c.m1 ++ (d ++ [x])) ≠ none)
    (absent : c.fs.get (locate c.m2 ++ (d ++ [x])) = none)
    (later : c.fs.get (locate c.m2 ++ (d ++ [y])) ≠ none) :
    c.Turned (d ++ [x]) (c.step junk recur d stats (x, y)) w := by
  have stop := Stopped.now (c := c) (d ++ [x]) w
  have paths1 := fun room : c.Room => room.paths1 (d ++ [x]) (by simp) in1
  have paths2 := fun room : c.Room => room.paths2 (d ++ [y]) (by simp) later
  have different : ¬ x = y := less.ne
  simp only [Turned, step, compStep, Command.wp_bind, wp_sprintf, wp_stat, extend_snoc, start,
    locate_extend, strcmp_decides.eq, strcmp_decides.lt, different, less, if_false, if_true,
    Command.wp_ite, Command.wp_pure]
  refine ⟨fun _ => ⟨fun _ => ⟨fun _ => ⟨fun _ => ⟨fun _ => ?_,
    fun large => stop fun room => large (paths1 room).2.2⟩,
    fun large => stop fun room => large (paths2 room).2.1⟩,
    fun large => stop fun room => large (paths1 room).2.1⟩,
    fun large => stop fun room => large (paths2 room).1⟩,
    fun large => stop fun room => large (paths1 room).1⟩
  cases c.molt1.cases (by simp) in1 with
  | inl file1 =>
      obtain ⟨diff1, b, isFile⟩ := file1
      obtain ⟨a, isOrg⟩ := diff1.org_file
      have expected : c.Expected (d ++ [x]) :=
        .inr (.inl ⟨diff1, absent2 absent, d, x, y, rfl, less, later⟩)
      simp only [isFile, isOrg, statOf, Option.getD_some, Bool.false_eq_true, and_self,
        false_implies, not_false_eq_true, true_implies, true_and, not_true, and_true, diffFileOrg,
        wp_report]
      rw [← reportOf_left diff1, ← reportOf_right_org (absent2 absent)]
      refine ⟨fun _ => ⟨[d ++ [x]], Adds.one expected rfl rfl, ?_⟩,
        fun large => stop fun room => large (room.lines _ expected)⟩
      exact complete_of_alone (by simp) (.inr absent) fun _ => by simp
  | inr dir1 =>
      have isOrg := c.molt1.org_dir (by simp) dir1.1
      simp only [dir1.1, isOrg, statOf, Option.getD_some, and_self, true_implies, not_true,
        false_implies, and_true]
      apply diffDirBody_wp
      refine ⟨[], Adds.none _ w, complete_of_alone (by simp) (.inr absent) fun expected => ?_⟩
      obtain ⟨_, q, below, lower⟩ := dir1
      cases expected.differs with
      | inl upper => exact (Molted.not_below upper below lower).elim
      | inr upper => exact (absent2 absent upper).elim

/-- A turn on a name which only the second molt has, before a name of the first. -/
theorem compStep_greater (junk : Junk)
    {recur : Bytes → Bytes → Bytes → Bytes → Bytes → Prog Unit} {d : List Name} {x y : Name}
    {w : World} {stats : Bool × Bool} (start : w.fs = c.fs) (less : y < x)
    (in2 : c.fs.get (locate c.m2 ++ (d ++ [y])) ≠ none)
    (absent : c.fs.get (locate c.m1 ++ (d ++ [y])) = none)
    (later : c.fs.get (locate c.m1 ++ (d ++ [x])) ≠ none) :
    c.Turned (d ++ [y]) (c.step junk recur d stats (x, y)) w := by
  have stop := Stopped.now (c := c) (d ++ [y]) w
  have paths1 := fun room : c.Room => room.paths1 (d ++ [x]) (by simp) later
  have paths2 := fun room : c.Room => room.paths2 (d ++ [y]) (by simp) in2
  have different : ¬ x = y := less.ne'
  have notLess : ¬ x < y := less.not_gt
  simp only [Turned, step, compStep, Command.wp_bind, wp_sprintf, wp_stat, extend_snoc, start,
    locate_extend, strcmp_decides.eq, strcmp_decides.lt, different, notLess, if_false,
    Command.wp_ite, Command.wp_pure]
  refine ⟨fun _ => ⟨fun _ => ⟨fun _ => ⟨fun _ => ⟨fun _ => ?_,
    fun large => stop fun room => large (paths2 room).2.2⟩,
    fun large => stop fun room => large (paths2 room).2.1⟩,
    fun large => stop fun room => large (paths1 room).2.1⟩,
    fun large => stop fun room => large (paths2 room).1⟩,
    fun large => stop fun room => large (paths1 room).1⟩
  cases c.molt2.cases (by simp) in2 with
  | inl file2 =>
      obtain ⟨diff2, b, isFile⟩ := file2
      obtain ⟨a, isOrg⟩ := diff2.org_file
      have expected : c.Expected (d ++ [y]) :=
        .inr (.inr ⟨diff2, absent1 absent, d, y, x, rfl, less, later⟩)
      simp only [isFile, isOrg, statOf, Option.getD_some, Bool.false_eq_true, and_self,
        false_implies, not_false_eq_true, true_implies, true_and, not_true, and_true, diffFileOrg,
        wp_report]
      rw [← reportOf_left_org (absent1 absent), ← reportOf_right diff2]
      refine ⟨fun _ => ⟨[d ++ [y]], Adds.one expected rfl rfl, ?_⟩,
        fun large => stop fun room => large (room.lines _ expected)⟩
      exact complete_of_alone (by simp) (.inl absent) fun _ => by simp
  | inr dir2 =>
      have isOrg := c.molt2.org_dir (by simp) dir2.1
      simp only [dir2.1, isOrg, statOf, Option.getD_some, and_self, true_implies, not_true,
        false_implies, and_true]
      apply diffDirBody_wp
      refine ⟨[], Adds.none _ w, complete_of_alone (by simp) (.inl absent) fun expected => ?_⟩
      obtain ⟨_, q, below, lower⟩ := dir2
      cases expected.differs with
      | inl upper => exact (absent1 absent upper).elim
      | inr upper => exact (Molted.not_below upper below lower).elim

/-- The invariant of the loop of `comp_dir` on the directory `d`, which began in
    `w₀` and is to look at the pairs `steps`: `ps` is reported, and `rest` is still
    to come. -/
structure Tour (c : Comparing) (d : List Name) (steps : List (Name × Name)) (w₀ : World)
    (rest : List (Name × Name)) (w : World) (ps : List (List Name)) : Prop where
  adds : c.Adds d ps w₀ w
  listed : ∀ pair ∈ rest, pair ∈ steps
  increasing : rest.Pairwise fun a b => min a.1 a.2 < min b.1 b.2
  behind : ∀ p ∈ ps, ∃ z, d ++ [z] <+: p ∧ ∀ pair ∈ rest, z < min pair.1 pair.2
  complete : ∀ pair ∈ steps, pair ∈ rest ∨ c.Complete (d ++ [min pair.1 pair.2]) ps

theorem Tour.start {d : List Name} {steps : List (Name × Name)} {w₀ : World}
    (increasing : steps.Pairwise fun a b => min a.1 a.2 < min b.1 b.2) :
    c.Tour d steps w₀ steps w₀ [] where
  adds := Adds.none d w₀
  listed _ member := member
  increasing := increasing
  behind _ member := (List.not_mem_nil member).elim
  complete _ member := .inl member

/-- The reports of a turn come on top of those before it. -/
theorem Tour.adds_next {d : List Name} {steps rest : List (Name × Name)} {w₀ w w' : World}
    {ps ps' : List (List Name)} {pair : Name × Name}
    (tour : c.Tour d steps w₀ (pair :: rest) w ps)
    (turn : c.Adds (d ++ [min pair.1 pair.2]) ps' w w') : c.Adds d (ps ++ ps') w₀ w' where
  fs := turn.fs.trans tour.adds.fs
  out := by rw [turn.out, tour.adds.out, List.map_append, List.append_assoc]
  nodup := by
    apply List.Nodup.append tour.adds.nodup turn.nodup
    intro p old new
    obtain ⟨z, ⟨r, rfl⟩, before⟩ := tour.behind p old
    have below := (turn.expected _ new).2
    rw [List.append_assoc, List.prefix_append_right_inj, List.singleton_append,
      List.cons_prefix_cons] at below
    exact (before pair List.mem_cons_self).ne' below.1
  expected p member := by
    cases List.mem_append.mp member with
    | inl old => exact tour.adds.expected p old
    | inr new =>
        obtain ⟨expected, below⟩ := turn.expected p new
        exact ⟨expected, (List.prefix_append d _).trans below⟩

theorem Tour.next {d : List Name} {steps rest : List (Name × Name)} {w₀ w w' : World}
    {ps ps' : List (List Name)} {pair : Name × Name}
    (tour : c.Tour d steps w₀ (pair :: rest) w ps)
    (turn : c.Adds (d ++ [min pair.1 pair.2]) ps' w w')
    (done : c.Complete (d ++ [min pair.1 pair.2]) ps') : c.Tour d steps w₀ rest w' (ps ++ ps') where
  adds := tour.adds_next turn
  listed other member := tour.listed other (List.mem_cons_of_mem _ member)
  increasing := tour.increasing.tail
  behind p member := by
    cases List.mem_append.mp member with
    | inl old =>
        obtain ⟨z, below, before⟩ := tour.behind p old
        exact ⟨z, below, fun other later => before other (List.mem_cons_of_mem _ later)⟩
    | inr new =>
        exact ⟨_, (turn.expected p new).2, fun other later =>
          List.rel_of_pairwise_cons tour.increasing later⟩
  complete other member := by
    have grows : ∀ l qs, c.Complete l qs → (∀ q ∈ qs, q ∈ ps ++ ps') → c.Complete l (ps ++ ps') :=
      fun l qs complete more p expected below => more p (complete p expected below)
    cases tour.complete other member with
    | inl waits =>
        cases List.mem_cons.mp waits with
        | inl now =>
            rw [now]
            exact .inr (grows _ ps' done fun q h => List.mem_append_right ps h)
        | inr later => exact .inl later
    | inr before => exact .inr (grows _ ps before fun q h => List.mem_append_left ps' h)

/-- Whatever is expected below the directory is met by the walk. -/
theorem Expected.met {d p : List Name} {z : Name} {xs ys : List Name}
    (expected : c.Expected (d ++ z :: p))
    (mem1 : ∀ x, x ∈ xs ↔ c.fs.get (locate c.m1 ++ (d ++ [x])) ≠ none)
    (mem2 : ∀ x, x ∈ ys ↔ c.fs.get (locate c.m2 ++ (d ++ [x])) ≠ none)
    (sorted1 : xs.Pairwise (· < ·)) (sorted2 : ys.Pairwise (· < ·)) :
    ∃ pair ∈ mergeNames xs ys, min pair.1 pair.2 = z := by
  have both : z ∈ xs → z ∈ ys → ∃ pair ∈ mergeNames xs ys, min pair.1 pair.2 = z :=
    fun in1 in2 => ⟨(z, z), (MergeJoin.mergeSteps_common strcmp_decides sorted1 sorted2).mpr
      ⟨in1, in2⟩, min_self z⟩
  by_cases last : p = []
  · subst last
    have later : ∀ m, c.Later m (d ++ [z]) → ∃ y, z < y ∧
        c.fs.get (locate m ++ (d ++ [y])) ≠ none := by
      intro m h
      obtain ⟨d', x', y, same, less, there⟩ := h
      obtain ⟨rfl, last⟩ := List.append_inj' same rfl
      cases last
      exact ⟨y, less, there⟩
    have here1 : c.Diff1 (d ++ [z]) → z ∈ xs := fun h =>
      (mem1 z).mpr ((c.molt1.present_iff (by simp)).mpr ⟨[], by rwa [List.append_nil]⟩)
    have here2 : c.Diff2 (d ++ [z]) → z ∈ ys := fun h =>
      (mem2 z).mpr ((c.molt2.present_iff (by simp)).mpr ⟨[], by rwa [List.append_nil]⟩)
    rcases expected with common | left | right
    · exact both (here1 common.1) (here2 common.2.1)
    · by_cases in2 : z ∈ ys
      · exact both (here1 left.1) in2
      · obtain ⟨y, less, there⟩ := later _ left.2.2
        obtain ⟨y', member, less'⟩ := (MergeJoin.mergeSteps_left strcmp_decides sorted1
          sorted2).mpr ⟨here1 left.1, in2, y, (mem2 y).mpr there, less⟩
        exact ⟨(z, y'), member, min_eq_left less'.le⟩
    · by_cases in1 : z ∈ xs
      · exact both in1 (here2 right.1)
      · obtain ⟨y, less, there⟩ := later _ right.2.2
        obtain ⟨x', member, less'⟩ := (MergeJoin.mergeSteps_right strcmp_decides sorted1
          sorted2).mpr ⟨here2 right.1, in1, y, (mem1 y).mpr there, less⟩
        exact ⟨(x', z), member, min_eq_right less'.le⟩
  · rw [List.append_cons] at expected
    obtain ⟨in1, in2⟩ := expected.above (by simp) last
    exact both ((mem1 z).mpr in1) ((mem2 z).mpr in2)

/-- The recursion reports what is expected below its directory: only that, each
    path once, and all of it if it ends. It ends unless a text does not fit. -/
theorem compDir_wp (junk : Junk) (n : Nat) (d : List Name) (w : World) (start : w.fs = c.fs)
    (dir1 : c.fs.get (locate c.m1 ++ d) = some .dir)
    (dir2 : c.fs.get (locate c.m2 ++ d) = some .dir)
    (deep : 0 < n ∧ BUFMAX ≤ n + (extend c.m1 d).length) :
    (compDir junk n (extend c.org d) (extend c.m1 d) (extend c.m2 d) (extend c.s1 d)
        (extend c.s2 d)).wp
      (fun _ w' => ∃ ps, c.Adds d ps w w' ∧ c.Complete d ps)
      (fun _ w' => c.Stopped d w w') w := by
  induction n generalizing d w with
  | zero => exact (Nat.lt_irrefl 0 deep.1).elim
  | succ n ih =>
      have list1 : c.fs.isDir (locate c.m1 ++ d) = true := isDir_iff.mpr dir1
      have list2 : c.fs.isDir (locate c.m2 ++ d) = true := isDir_iff.mpr dir2
      have sorted := fun l => (children_increasing c.fs l).filter scandirFilter
      have mem1 := fun x => c.molt1.mem_scandir (d := d) (x := x)
      have mem2 := fun x => c.molt2.mem_scandir (d := d) (x := x)
      simp only [compDir, Command.wp_bind, wp_scandir, start, locate_extend, list1, list2, if_true,
        Command.wp_pure]
      apply Command.wp_mono (Command.wp_fold (fun _ rest (w' : World) => ∃ ps, c.Tour d
        (mergeNames _ _) w rest w' ps) _ ⟨[], Tour.start (MergeJoin.mergeSteps_increasing
          strcmp_decides (sorted _) (sorted _))⟩) _ (fun _ _ stopped => stopped)
      · rintro stats pair rest w' ⟨ps, tour⟩
        obtain ⟨x, y⟩ := pair
        have member := tour.listed _ List.mem_cons_self
        obtain ⟨inX, inY⟩ := MergeJoin.mergeSteps_mem strcmp_decides member
        have start' : w'.fs = c.fs := tour.adds.fs.trans start
        have turned : c.Turned (d ++ [min x y]) (c.step junk (compDir junk n) d stats (x, y)) w' := by
          rcases lt_trichotomy x y with less | same | greater
          · rw [min_eq_left less.le]
            have only := ((MergeJoin.mergeSteps_left strcmp_decides (sorted _) (sorted _)).mp
              ⟨y, member, less⟩).2.1
            exact compStep_less junk start' less ((mem1 x).mp inX) (not_not.mp ((mem2 x).not.mp only))
              ((mem2 y).mp inY)
          · subst same
            rw [min_self]
            apply compStep_same junk start' ((mem1 x).mp inX) ((mem2 x).mp inY)
            intro dir1' dir2' room
            have longer := length_child (extend c.m1 d) x
            rw [extend_snoc] at longer
            exact ih (d ++ [x]) w' start' dir1' dir2' ⟨by omega, by omega⟩
          · rw [min_eq_right greater.le]
            have only := ((MergeJoin.mergeSteps_right strcmp_decides (sorted _) (sorted _)).mp
              ⟨x, member, greater⟩).2.1
            exact compStep_greater junk start' greater ((mem2 y).mp inY)
              (not_not.mp ((mem1 y).not.mp only)) ((mem1 x).mp inX)
        apply Command.wp_mono turned
        · rintro _ w'' ⟨ps', turn, done⟩
          exact ⟨ps ++ ps', tour.next turn done⟩
        · rintro _ w'' ⟨⟨ps', turn⟩, large⟩
          exact ⟨⟨ps ++ ps', tour.adds_next turn⟩, large⟩
      · rintro _ w' ⟨ps, tour⟩
        refine ⟨ps, tour.adds, fun p expected below => ?_⟩
        obtain ⟨r, rfl⟩ := below
        cases r with
        | nil =>
            rw [List.append_nil] at expected
            exact (not_expected_dir dir1 dir2 expected).elim
        | cons z r =>
            obtain ⟨pair, member, rfl⟩ := expected.met mem1 mem2 (sorted _) (sorted _)
            have complete := (tour.complete pair member).resolve_left List.not_mem_nil
            exact complete _ expected ⟨r, by simp⟩

end Comparing

end OslabProfiler.CompKernel

import OslabProfiler.CompKernel.Molt

/-! # What a molt holds

A molt holds the changed files, the directories above them and nothing else.
As for the skin, the run is measured against the tree it is meant to write. The
walk visits the common entries of the two skins, each one once, and what it
writes for one of them does not touch the places of the others.
-/

namespace OslabProfiler.CompKernel

open Lib Lib.FileTree

/-- At `spath` stands the skin which was made of the directory `fpath` when the
    file tree was `src`. -/
structure Skinned (lib : Md5) (src fs : Fs) (fpath spath : Bytes) : Prop where
  source : Source src fpath
  tree : ∀ p, fs.get (locate spath ++ p) = mirror lib src fpath p
  fits : SkinFits src fpath spath

namespace Skinned

variable {lib : Md5} {src fs : Fs} {fpath spath : Bytes} (skinned : Skinned lib src fs fpath spath)

include skinned

theorem dir_iff {p : List Name} : fs.get (locate spath ++ p) = some .dir ↔
    p.all scandirFilter = true ∧ src.get (locate fpath ++ p) = some .dir := by
  rw [skinned.tree, mirror]
  split
  · rename_i clean
    cases h : src.get (locate fpath ++ p) with
    | none => simp
    | some e => cases e <;> simp [clean]
  · rename_i dropped
    simp [dropped]

theorem file_iff {p : List Name} {r : Bytes} : fs.get (locate spath ++ p) = some (.file r) ↔
    p.all scandirFilter = true ∧ ∃ data, src.get (locate fpath ++ p) = some (.file data) ∧
      r = skinRecord lib (extend fpath p) data := by
  rw [skinned.tree, mirror]
  split
  · rename_i clean
    cases h : src.get (locate fpath ++ p) with
    | none => simp
    | some e => cases e <;> simp [clean, eq_comm]
  · rename_i dropped
    simp [dropped]

theorem root : fs.get (locate spath) = some .dir := by
  have := skinned.dir_iff (p := [])
  rw [List.append_nil, List.append_nil] at this
  exact this.mpr ⟨rfl, skinned.source.root⟩

/-- A skin holds directories and files. -/
theorem plain {p : List Name} (present : fs.get (locate spath ++ p) ≠ none) :
    fs.get (locate spath ++ p) = some .dir ∨ ∃ r, fs.get (locate spath ++ p) = some (.file r) := by
  rw [skinned.tree] at present ⊢
  unfold mirror at present ⊢
  split at present
  · cases h : src.get (locate fpath ++ p) with
    | none => simp [h] at present
    | some e => cases e <;> simp_all
  · exact (present rfl).elim

theorem clean {p : List Name} (present : fs.get (locate spath ++ p) ≠ none) :
    p.all scandirFilter = true ∧ src.get (locate fpath ++ p) ≠ none := by
  cases skinned.plain present with
  | inl isDir =>
      obtain ⟨clean, there⟩ := skinned.dir_iff.mp isDir
      exact ⟨clean, by simp [there]⟩
  | inr isFile =>
      obtain ⟨r, isFile⟩ := isFile
      obtain ⟨clean, data, there, _⟩ := skinned.file_iff.mp isFile
      exact ⟨clean, by simp [there]⟩

theorem short {p : List Name} (nonempty : p ≠ [])
    (present : fs.get (locate spath ++ p) ≠ none) : (extend spath p).length < BUFMAX := by
  obtain ⟨clean, there⟩ := skinned.clean present
  exact (skinned.fits p nonempty clean there).2.1

end Skinned

/-- A run of `skin` that ends leaves a skin. -/
theorem skin_skinned {lib : Md5} {junk : Junk} {w w' : World} {fpath spath : Bytes}
    (source : Source w.fs fpath) (fresh : FreshPlace w.fs spath)
    (outside : ¬ locate fpath <+: locate spath)
    (ended : (skin lib junk fpath spath).Ends w () w') :
    Skinned lib w.fs w'.fs fpath spath ∧ ∀ q, ¬ locate spath <+: q → w'.fs.get q = w.fs.get q := by
  obtain ⟨fits, tree, frame⟩ :=
    Command.wp_ends (skin_fresh_wp lib junk source fresh outside) ended
  exact ⟨⟨source, tree, fits⟩, frame⟩

/-- A file of both skins whose stored digests differ. -/
def Changed (fs : Fs) (oPath cPath : Bytes) (p : List Name) : Prop :=
  ∃ r r', fs.get (locate oPath ++ p) = some (.file r) ∧
    fs.get (locate cPath ++ p) = some (.file r') ∧ storedHash r ≠ storedHash r'

theorem Changed.common {fs : Fs} {oPath cPath : Bytes} {p : List Name}
    (h : Changed fs oPath cPath p) :
    fs.get (locate oPath ++ p) ≠ none ∧ fs.get (locate cPath ++ p) ≠ none := by
  obtain ⟨r, r', fileO, fileC, _⟩ := h
  exact ⟨by simp [fileO], by simp [fileC]⟩

theorem changed_iff_storedHash {fs : Fs} {oPath cPath r r' : Bytes} {p : List Name}
    (fileO : fs.get (locate oPath ++ p) = some (.file r))
    (fileC : fs.get (locate cPath ++ p) = some (.file r')) :
    Changed fs oPath cPath p ↔ storedHash r ≠ storedHash r' := by
  simp [Changed, fileO, fileC]

open Classical in
/-- The tree which `molt` is meant to write. -/
noncomputable def moltTree (fs : Fs) (oPath cPath cmp : Bytes) (p : List Name) :
    Option (Entry Bytes) :=
  if Changed fs oPath cPath p then fs.get (locate cmp ++ p)
  else if p = [] ∨ ∃ q, Changed fs oPath cPath (p ++ q) then some .dir
  else none

/-- The texts which `molt` formats for an entry of both skins fit. The line with
    `mkdir` is only needed where nothing stands yet. -/
def MoltFitsAt (fs : Fs) (oPath cPath cmp mPath : Bytes) (p : List Name) : Prop :=
  (extend mPath p).length < BUFMAX ∧
    (Changed fs oPath cPath p →
      (fs.get (locate mPath ++ p) = none →
        (ShellCommand.mkdirDirname (extend mPath p)).line.length < BUFMAX) ∧
      (ShellCommand.cp (extend cmp p) (extend mPath p)).line.length < BUFMAX)

/-- Two skins, and a place for the molt where no older entry is in the way of
    one of another kind. `old` is the tree when the first skin was made. -/
structure Molting where
  lib : Md5
  old : Fs
  fs : Fs
  org : Bytes
  cmp : Bytes
  oPath : Bytes
  cPath : Bytes
  mPath : Bytes
  skinO : Skinned lib old fs org oPath
  skinC : Skinned lib fs fs cmp cPath
  string : 0 ∉ cmp
  apartO : Apart (locate mPath) (locate oPath)
  apartC : Apart (locate mPath) (locate cPath)
  outside : ∀ p data, fs.get (locate cmp ++ p) = some (.file data) →
    ¬ locate mPath <+: locate cmp ++ p
  compatible : ∀ p e e', fs.get (locate mPath ++ p) = some e →
    moltTree fs oPath cPath cmp p = some e' → e.kind = e'.kind

namespace Molting

variable (s : Molting)

abbrev Changed (p : List Name) : Prop := CompKernel.Changed s.fs s.oPath s.cPath p

noncomputable def want (p : List Name) : Option (Entry Bytes) :=
  moltTree s.fs s.oPath s.cPath s.cmp p

noncomputable def goal : List Name → Option (Entry Bytes) := graft (locate s.mPath) s.want

/-- An entry that both skins have. -/
def Common (p : List Name) : Prop :=
  s.fs.get (locate s.oPath ++ p) ≠ none ∧ s.fs.get (locate s.cPath ++ p) ≠ none

abbrev FitsAt (p : List Name) : Prop := MoltFitsAt s.fs s.oPath s.cPath s.cmp s.mPath p

/-- The entry `p` fits, and its copy is there if it has changed. -/
def Settled (fs : Fs) (p : List Name) : Prop :=
  s.Common p → s.FitsAt p ∧ (s.Changed p → fs.get (locate s.mPath ++ p) = s.want p)

/-- Some common entry at or below `d`, other than the root, does not fit. -/
def Misfit (d : List Name) : Prop := ∃ p, d ++ p ≠ [] ∧ s.Common (d ++ p) ∧ ¬ s.FitsAt (d ++ p)

variable {s}

theorem compatible_goal : Compatible s.goal s.fs := compatible_graft s.compatible

theorem kept_o {fs : Fs} (near : Toward s.goal s.fs fs) (p : List Name) :
    fs.get (locate s.oPath ++ p) = s.fs.get (locate s.oPath ++ p) :=
  near.frame (graft_outside _ (s.apartO.outside p))

theorem kept_c {fs : Fs} (near : Toward s.goal s.fs fs) (p : List Name) :
    fs.get (locate s.cPath ++ p) = s.fs.get (locate s.cPath ++ p) :=
  near.frame (graft_outside _ (s.apartC.outside p))

theorem kept_cmp {fs : Fs} (near : Toward s.goal s.fs fs) {p : List Name} {data : Bytes}
    (isFile : s.fs.get (locate s.cmp ++ p) = some (.file data)) :
    fs.get (locate s.cmp ++ p) = some (.file data) := by
  rw [near.frame (graft_outside _ (s.outside p data isFile)), isFile]

/-- What is wanted for a changed file is the file it was changed to. -/
theorem want_changed {p : List Name} (h : s.Changed p) :
    ∃ data, s.fs.get (locate s.cmp ++ p) = some (.file data) ∧ s.want p = some (.file data) := by
  obtain ⟨r, r', _, fileC, _⟩ := id h
  obtain ⟨_, data, isFile, _⟩ := s.skinC.file_iff.mp fileC
  refine ⟨data, isFile, ?_⟩
  rw [want, moltTree, if_pos h, isFile]

/-- What is wanted above a changed file is a directory. -/
theorem want_above {d p : List Name} (h : s.Changed (d ++ p)) (below : p ≠ []) :
    s.want d = some .dir := by
  have notFile : ¬ s.Changed d := by
    intro upper
    obtain ⟨r, _, fileO, _⟩ := upper
    have absent := s.fs.nothing_below (d := locate s.oPath ++ d) (by simp [fileO]) p below
    exact h.common.1 (by rw [← List.append_assoc, absent])
  rw [want, moltTree, if_neg notFile, if_pos (.inr ⟨p, h⟩)]

theorem root_not_changed : ¬ s.Changed [] := by
  intro changed
  obtain ⟨r, _, fileO, _⟩ := changed
  rw [List.append_nil, s.skinO.root] at fileO
  cases fileO

theorem want_root : s.want [] = some .dir := by
  rw [want, moltTree, if_neg root_not_changed, if_pos (.inl rfl)]

theorem goal_append (p : List Name) : s.goal (locate s.mPath ++ p) = s.want p := graft_append _ _ _

theorem goal_root : s.goal (locate s.mPath) = some .dir := by
  rw [goal, graft_root, want_root]

theorem Settled.stays {a b : Fs} {p : List Name} (h : s.Settled a p) (near : Toward s.goal a b) :
    s.Settled b p := by
  intro common
  obtain ⟨fits, copied⟩ := h common
  refine ⟨fits, fun changed => ?_⟩
  have := near.stays (q := locate s.mPath ++ p) (by rw [copied changed, goal_append])
  rwa [goal_append] at this

/-- An entry that has not changed asks only for its path to fit. -/
theorem settled_unchanged {fs : Fs} {p : List Name} (room : (extend s.mPath p).length < BUFMAX)
    (unchanged : ¬ s.Changed p) : s.Settled fs p := by
  intro _
  exact ⟨⟨room, fun changed => (unchanged changed).elim⟩, fun changed => (unchanged changed).elim⟩

theorem Misfit.up {d : List Name} {x : Name} (h : s.Misfit (d ++ [x])) : s.Misfit d := by
  obtain ⟨p, _, common, large⟩ := h
  exact ⟨x :: p, by simp, by simpa using common, by simpa using large⟩

/-- `mkdir -p` above a changed file makes directories the goal has, and then
    the one above the file is there. -/
theorem mkdirP_above {fs : Fs} {d : List Name} {x : Name} (near : Toward s.goal s.fs fs)
    (rootDir : fs.get (locate s.mPath) = some .dir) (changed : s.Changed (d ++ [x])) :
    Toward (along (locate s.mPath ++ (d ++ [x])) s.goal) fs (fs.mkdirP (locate s.mPath ++ d)) ∧
      (fs.mkdirP (locate s.mPath ++ d)).get (locate s.mPath ++ d) = some .dir := by
  -- a location on the way is above the molt, or a directory of the goal
  have onTheWay : ∀ p, p <+: locate s.mPath ++ d →
      fs.get p = some .dir ∨ s.goal p = some .dir := by
    intro p above
    cases List.prefix_or_prefix_of_prefix above (List.prefix_append _ d) with
    | inl higher =>
        obtain ⟨rest, whole⟩ := higher
        by_cases last : rest = []
        · rw [last, List.append_nil] at whole
          exact .inl (by rw [whole, rootDir])
        · exact .inl (fs.dir_above p rest last (by rw [whole, rootDir]; simp))
    | inr inside =>
        obtain ⟨d', rfl⟩ := inside
        obtain ⟨rest, rfl⟩ := (List.prefix_append_right_inj _).mp above
        rw [List.append_assoc] at changed
        exact .inr (by rw [goal_append, want_above changed (by simp)])
  constructor
  · apply mkdirFrom_toward
    intro p above _ absent
    rw [List.nil_append] at absent ⊢
    have reaches : p <+: locate s.mPath ++ (d ++ [x]) := by
      rw [← List.append_assoc]
      exact above.trans (List.prefix_append _ [x])
    cases onTheWay p above with
    | inl present => rw [present] at absent; cases absent
    | inr aimed => rw [along, if_pos (.inr reaches), aimed]
  · apply mkdirFrom_dirs fs [] (locate s.mPath ++ d) fs.root _ _ List.prefix_rfl
    intro p above e present
    cases onTheWay p above with
    | inl isDir => rw [List.nil_append, isDir] at present; exact (Option.some.inj present).symm
    | inr aimed =>
        exact Entry.kind_eq_dir.mp (compatible_goal.kept near p e .dir present aimed)

/-- `cp` of a changed file into the directory that awaits it. -/
theorem cp_changed {fs : Fs} {d : List Name} {x : Name} (near : Toward s.goal s.fs fs)
    (above : fs.get (locate s.mPath ++ d) = some .dir) (changed : s.Changed (d ++ [x])) :
    Toward (along (locate s.mPath ++ (d ++ [x])) s.goal) fs
        (fs.cp (locate s.cmp ++ (d ++ [x])) (locate s.mPath ++ (d ++ [x]))) ∧
      (fs.cp (locate s.cmp ++ (d ++ [x])) (locate s.mPath ++ (d ++ [x]))).get
        (locate s.mPath ++ (d ++ [x])) = s.want (d ++ [x]) := by
  obtain ⟨data, isFile, wanted⟩ := want_changed changed
  have readable := kept_cmp near isFile
  have aimed : s.goal (locate s.mPath ++ (d ++ [x])) = some (.file data) := by
    rw [goal_append, wanted]
  have sameKind := fun e present => compatible_goal.kept near _ e _ present aimed
  have free : Entry.writable (fs.get (locate s.mPath ++ d ++ [x])) = true := by
    rw [List.append_assoc]
    exact Entry.writable_of_kind sameKind
  have noDir : fs.isDir (locate s.mPath ++ (d ++ [x])) = false := by
    rw [Bool.eq_false_iff]
    intro isDir
    cases sameKind .dir (isDir_iff.mp isDir)
  obtain ⟨written, hWritten⟩ : ∃ fs', fs.writeAt (locate s.mPath ++ d) x data = some fs' :=
    writeAt_isSome.mpr ⟨above, free⟩
  have copied : fs.cp (locate s.cmp ++ (d ++ [x])) (locate s.mPath ++ (d ++ [x])) = written := by
    simp only [FileTree.cp, readable, noDir, Bool.false_eq_true, if_false]
    rw [FileTree.write, ← List.append_assoc, onLast_append, hWritten, Option.getD_some]
  have change := writeAt_change hWritten
  rw [List.append_assoc] at change
  rw [copied]
  constructor
  · apply change.toward
    rw [along, if_pos (.inl List.prefix_rfl), aimed]
  · rw [wanted, ← List.append_assoc, get_writeAt hWritten, if_pos rfl]

/-- `molting_file` on two skin files copies a changed file and leaves others
    alone; it is stopped only by a command line that does not fit. -/
theorem moltingFile_wp (junk : Junk) {d : List Name} {x : Name} {w : World} {r r' : Bytes}
    (near : Toward s.goal s.fs w.fs) (rootDir : w.fs.get (locate s.mPath) = some .dir)
    (fileO : s.fs.get (locate s.oPath ++ (d ++ [x])) = some (.file r))
    (fileC : s.fs.get (locate s.cPath ++ (d ++ [x])) = some (.file r'))
    (untouched : w.fs.get (locate s.mPath ++ (d ++ [x])) =
      s.fs.get (locate s.mPath ++ (d ++ [x])))
    (room : (extend s.mPath (d ++ [x])).length < BUFMAX) :
    (moltingFile junk (extend s.oPath (d ++ [x])) (extend s.cPath (d ++ [x]))
        (extend s.mPath (d ++ [x]))).wp
      (fun _ w' => Toward (along (locate s.mPath ++ (d ++ [x])) s.goal) w.fs w'.fs ∧
        s.Settled w'.fs (d ++ [x]))
      (fun _ _ => ¬ s.FitsAt (d ++ [x])) w := by
  obtain ⟨_, dataO, _, rfl⟩ := s.skinO.file_iff.mp fileO
  obtain ⟨cleanC, dataC, isFile, rfl⟩ := s.skinC.file_iff.mp fileC
  have changed_iff : s.Changed (d ++ [x]) ↔ s.lib.digest dataO ≠ s.lib.digest dataC :=
    (changed_iff_storedHash fileO fileC).trans (storedHash_eq_iff s.lib _ _ _ _).not
  have short := (s.skinC.fits (d ++ [x]) (by simp) cleanC (by simp [isFile])).1
  have decoded := fun rest => cString_skinRecord s.lib dataC rest
    (zero_not_mem_extend s.string (d ++ [x])) short
  simp only [moltingFile, readSkin, contents, Command.wp_bind, Command.wp_read, locate_extend,
    kept_o near, kept_c near, fileO, fileC, Command.wp_pure, cutHash_skinRecord, strcmp_hex,
    Command.wp_ite, decoded, wp_access, wp_system, ShellCommand.effect, untouched]
  constructor
  · intro same
    exact ⟨Toward.refl _ _, settled_unchanged room fun changed => changed_iff.mp changed same⟩
  · intro differ
    have changed := changed_iff.mpr differ
    -- once the directory above is there, the copy settles the file
    have copy : ∀ fs₁ : Fs, Toward (along (locate s.mPath ++ (d ++ [x])) s.goal) w.fs fs₁ →
        fs₁.get (locate s.mPath ++ d) = some .dir →
        (s.fs.get (locate s.mPath ++ (d ++ [x])) = none →
          (ShellCommand.mkdirDirname (extend s.mPath (d ++ [x]))).line.length < BUFMAX) →
        (ShellCommand.cp (extend s.cmp (d ++ [x])) (extend s.mPath (d ++ [x]))).line.length <
          BUFMAX →
        Toward (along (locate s.mPath ++ (d ++ [x])) s.goal) w.fs
            (fs₁.cp (locate s.cmp ++ (d ++ [x])) (locate s.mPath ++ (d ++ [x]))) ∧
          s.Settled (fs₁.cp (locate s.cmp ++ (d ++ [x])) (locate s.mPath ++ (d ++ [x])))
            (d ++ [x]) := by
      intro fs₁ moved above mkdirFits cpFits
      obtain ⟨onward, there⟩ := cp_changed (near.trans moved.whole) above changed
      exact ⟨moved.trans onward, fun _ => ⟨⟨room, fun _ => ⟨mkdirFits, cpFits⟩⟩, fun _ => there⟩⟩
    constructor
    · intro exists_
      have present : s.fs.get (locate s.mPath ++ (d ++ [x])) ≠ none := by
        intro absent
        rw [absent] at exists_
        cases exists_
      have above : w.fs.get (locate s.mPath ++ d) = some .dir := by
        apply w.fs.parent (locate s.mPath ++ d) x
        rwa [List.append_assoc, untouched]
      exact ⟨fun cpFits => copy w.fs (Toward.refl _ _) above
        (fun absent => (present absent).elim) cpFits, fun large fits => large (fits.2 changed).2⟩
    · intro missing
      obtain ⟨made, above⟩ := mkdirP_above near rootDir changed
      have dirname : (locate s.mPath ++ (d ++ [x])).dropLast = locate s.mPath ++ d := by
        rw [← List.append_assoc, List.dropLast_concat]
      have absent : s.fs.get (locate s.mPath ++ (d ++ [x])) = none := by
        cases present : s.fs.get (locate s.mPath ++ (d ++ [x])) with
        | none => rfl
        | some e =>
            obtain ⟨data, _, wanted⟩ := want_changed changed
            obtain ⟨old, rfl⟩ := Entry.kind_eq_file.mp (s.compatible _ e _ present wanted)
            rw [present] at missing
            exact (missing rfl).elim
      rw [dirname]
      refine ⟨fun mkdirFits => ?_, fun large fits => large ((fits.2 changed).1 absent)⟩
      exact ⟨fun cpFits => copy _ made above (fun _ => mkdirFits) cpFits,
        fun large fits => large (fits.2 changed).2⟩

/-- What is a directory in one of the skins is not a changed file. -/
theorem not_changed {p : List Name} (isDir : s.fs.get (locate s.oPath ++ p) = some .dir ∨
    s.fs.get (locate s.cPath ++ p) = some .dir) : ¬ s.Changed p := by
  intro changed
  obtain ⟨_, _, fileO, fileC, _⟩ := changed
  cases isDir with
  | inl left => rw [left] at fileO; cases fileO
  | inr right => rw [right] at fileC; cases fileC

/-- Nothing is to be settled below what is no directory in one of the skins. -/
theorem settled_below {fs : Fs} {p q : List Name} (below : q ≠ [])
    (noDir : s.fs.get (locate s.oPath ++ p) ≠ some .dir ∨
      s.fs.get (locate s.cPath ++ p) ≠ some .dir) : s.Settled fs (p ++ q) := by
  intro common
  rw [Common, ← List.append_assoc, ← List.append_assoc] at common
  cases noDir with
  | inl left => exact (common.1 (s.fs.nothing_below left q below)).elim
  | inr right => exact (common.2 (s.fs.nothing_below right q below)).elim

theorem settled_all {fs : Fs} {p : List Name} (here : s.Settled fs p)
    (below : ∀ q, q ≠ [] → s.Settled fs (p ++ q)) (q : List Name) : s.Settled fs (p ++ q) := by
  cases q with
  | nil => rwa [List.append_nil]
  | cons z q => exact below (z :: q) (by simp)

/-- A turn on two different names does nothing. -/
theorem moltingStep_other (junk : Junk) {recur : Bytes → Bytes → Bytes → Prog Unit}
    {d : List Name} {x y : Name} {w : World} {stats : Bool × Bool} (different : x ≠ y)
    (presentO : s.fs.get (locate s.oPath ++ (d ++ [x])) ≠ none)
    (presentC : s.fs.get (locate s.cPath ++ (d ++ [y])) ≠ none) :
    (moltingStep junk recur (extend s.oPath d) (extend s.cPath d) (extend s.mPath d) stats
        (x, y)).wp (fun _ w' => w' = w) (fun _ _ => False) w := by
  simp only [moltingStep, Command.wp_bind, wp_sprintf, wp_stat, extend_snoc,
    s.skinO.short (by simp) presentO, s.skinC.short (by simp) presentC, strcmp_decides.eq,
    different, if_false, Command.wp_pure, not_true, false_implies, and_self, implies_true]

/-- A turn on equal names settles its entry and everything below. -/
theorem moltingStep_same (junk : Junk) {recur : Bytes → Bytes → Bytes → Prog Unit}
    {d : List Name} {x : Name} {w : World} {stats : Bool × Bool} (near : Toward s.goal s.fs w.fs)
    (rootDir : w.fs.get (locate s.mPath) = some .dir)
    (presentO : s.fs.get (locate s.oPath ++ (d ++ [x])) ≠ none)
    (presentC : s.fs.get (locate s.cPath ++ (d ++ [x])) ≠ none)
    (untouched : ∀ p, w.fs.get (locate s.mPath ++ (d ++ [x] ++ p)) =
      s.fs.get (locate s.mPath ++ (d ++ [x] ++ p)))
    (deeper : s.fs.get (locate s.oPath ++ (d ++ [x])) = some .dir →
      s.fs.get (locate s.cPath ++ (d ++ [x])) = some .dir →
      (recur (extend s.oPath (d ++ [x])) (extend s.cPath (d ++ [x]))
          (extend s.mPath (d ++ [x]))).wp
        (fun _ w' => Toward (along (locate s.mPath ++ (d ++ [x])) s.goal) w.fs w'.fs ∧
          ∀ p, p ≠ [] → s.Settled w'.fs (d ++ [x] ++ p))
        (fun _ _ => s.Misfit (d ++ [x])) w) :
    (moltingStep junk recur (extend s.oPath d) (extend s.cPath d) (extend s.mPath d) stats
        (x, x)).wp
      (fun _ w' => Toward (along (locate s.mPath ++ (d ++ [x])) s.goal) w.fs w'.fs ∧
        ∀ p, s.Settled w'.fs (d ++ [x] ++ p))
      (fun _ _ => s.Misfit (d ++ [x])) w := by
  simp only [moltingStep, Command.wp_bind, wp_sprintf, wp_stat, extend_snoc,
    s.skinO.short (by simp) presentO, s.skinC.short (by simp) presentC, not_true, false_implies,
    and_true, true_implies, Command.wp_ite, Command.wp_pure, strcmp_decides.eq, locate_extend,
    kept_o near, kept_c near]
  have common : s.Common (d ++ [x]) := ⟨presentO, presentC⟩
  have stop : ¬ s.FitsAt (d ++ [x]) → s.Misfit (d ++ [x]) := by
    intro large
    exact ⟨[], by simp, by simpa using common, by simpa using large⟩
  refine ⟨fun room => ?_, fun large => stop fun fits => large fits.1⟩
  cases s.skinO.plain presentO with
  | inl dirO =>
      cases s.skinC.plain presentC with
      | inl dirC =>
          simp only [dirO, dirC, statOf, Option.getD_some, and_self, true_implies, not_true,
            false_implies, and_true]
          apply Command.wp_mono (deeper dirO dirC) _ (fun _ _ large => large)
          intro _ w' done
          exact ⟨done.1, settled_all (settled_unchanged room (not_changed (.inl dirO))) done.2⟩
      | inr fileC =>
          obtain ⟨r', fileC⟩ := fileC
          simp only [dirO, fileC, statOf, Option.getD_some, Bool.false_eq_true, and_false,
            false_implies, not_false_eq_true, true_implies, true_and, Bool.true_eq_false,
            false_and]
          exact ⟨Toward.refl _ _, settled_all (settled_unchanged room (not_changed (.inl dirO)))
            fun p nonempty => settled_below nonempty (.inr (by simp [fileC]))⟩
  | inr fileO =>
      obtain ⟨r, fileO⟩ := fileO
      cases s.skinC.plain presentC with
      | inl dirC =>
          simp only [fileO, dirC, statOf, Option.getD_some, Bool.false_eq_true, and_false,
            false_implies, not_false_eq_true, true_implies, true_and, Bool.true_eq_false,
            false_and]
          exact ⟨Toward.refl _ _, settled_all (settled_unchanged room (not_changed (.inr dirC)))
            fun p nonempty => settled_below nonempty (.inl (by simp [fileO]))⟩
      | inr fileC =>
          obtain ⟨r', fileC⟩ := fileC
          simp only [fileO, fileC, statOf, Option.getD_some, Bool.false_eq_true, and_self,
            false_implies, not_false_eq_true, true_implies, true_and, not_true, and_true]
          have here := untouched []
          rw [List.append_nil] at here
          apply Command.wp_mono (moltingFile_wp junk near rootDir fileO fileC here room) _
            (fun _ _ large => stop large)
          intro _ w' done
          exact ⟨done.1, settled_all done.2
            fun p nonempty => settled_below nonempty (.inl (by simp [fileO]))⟩

/-- The places of the entries below `d` are as they were before the molt. -/
def Untouched (s : Molting) (fs : Fs) (d : List Name) : Prop :=
  ∀ p, p ≠ [] → fs.get (locate s.mPath ++ (d ++ p)) = s.fs.get (locate s.mPath ++ (d ++ p))

/-- The invariant of the loop of `molting_dir` on the directory `d`, which began
    in `fs₀` and is to look at the pairs `steps`, with `rest` still to come. -/
structure Turn (s : Molting) (d : List Name) (steps : List (Name × Name)) (fs₀ : Fs)
    (rest : List (Name × Name)) (fs : Fs) : Prop where
  moved : Toward (along (locate s.mPath ++ d) s.goal) fs₀ fs
  listed : ∀ pair ∈ rest, pair ∈ steps
  increasing : rest.Pairwise fun a b => min a.1 a.2 < min b.1 b.2
  waiting : ∀ z, (z, z) ∈ rest → ∀ p, fs.get (locate s.mPath ++ (d ++ [z] ++ p)) =
    s.fs.get (locate s.mPath ++ (d ++ [z] ++ p))
  settled : ∀ z, (z, z) ∈ steps → (z, z) ∈ rest ∨ ∀ p, s.Settled fs (d ++ [z] ++ p)

theorem Turn.start {d : List Name} {steps : List (Name × Name)} {fs₀ : Fs}
    (increasing : steps.Pairwise fun a b => min a.1 a.2 < min b.1 b.2)
    (untouched : s.Untouched fs₀ d) : s.Turn d steps fs₀ steps fs₀ where
  moved := Toward.refl _ _
  listed _ member := member
  increasing := increasing
  waiting z _ p := by simpa using untouched ([z] ++ p) (by simp)
  settled _ member := .inl member

theorem Turn.other {d : List Name} {steps rest : List (Name × Name)} {fs₀ fs : Fs} {x y : Name}
    (h : s.Turn d steps fs₀ ((x, y) :: rest) fs) (different : x ≠ y) :
    s.Turn d steps fs₀ rest fs where
  moved := h.moved
  listed pair member := h.listed pair (List.mem_cons_of_mem _ member)
  increasing := h.increasing.tail
  waiting z member := h.waiting z (List.mem_cons_of_mem _ member)
  settled z member := by
    cases h.settled z member with
    | inl waits =>
        cases List.mem_cons.mp waits with
        | inl now =>
            cases now
            exact (different rfl).elim
        | inr later => exact .inl later
    | inr done => exact .inr done

theorem Turn.same {d : List Name} {steps rest : List (Name × Name)} {fs₀ fs fs' : Fs} {x : Name}
    (h : s.Turn d steps fs₀ ((x, x) :: rest) fs)
    (onward : Toward (along (locate s.mPath ++ (d ++ [x])) s.goal) fs fs')
    (done : ∀ p, s.Settled fs' (d ++ [x] ++ p)) : s.Turn d steps fs₀ rest fs' where
  moved := by
    rw [← List.append_assoc] at onward
    exact h.moved.trans onward.widen
  listed pair member := h.listed pair (List.mem_cons_of_mem _ member)
  increasing := h.increasing.tail
  waiting z member p := by
    have less := List.rel_of_pairwise_cons h.increasing member
    rw [min_self, min_self] at less
    rw [← h.waiting z (List.mem_cons_of_mem _ member) p]
    rw [← List.append_assoc] at onward
    simpa using onward.aside (p := p) less.ne'
  settled z member := by
    cases h.settled z member with
    | inl waits =>
        cases List.mem_cons.mp waits with
        | inl now =>
            cases now
            exact .inr done
        | inr later => exact .inl later
    | inr old => exact .inr fun p => (old p).stays onward.whole

/-- The recursion settles every common entry below its directory; it is stopped
    only by a text below that directory which does not fit. -/
theorem moltingDir_wp (junk : Junk) (n : Nat) (d : List Name) (w : World)
    (near : Toward s.goal s.fs w.fs) (rootDir : w.fs.get (locate s.mPath) = some .dir)
    (dirO : s.fs.get (locate s.oPath ++ d) = some .dir)
    (dirC : s.fs.get (locate s.cPath ++ d) = some .dir)
    (untouched : s.Untouched w.fs d)
    (deep : 0 < n ∧ BUFMAX ≤ n + (extend s.oPath d).length) :
    (moltingDir junk n (extend s.oPath d) (extend s.cPath d) (extend s.mPath d)).wp
      (fun _ w' => Toward (along (locate s.mPath ++ d) s.goal) w.fs w'.fs ∧
        ∀ p, p ≠ [] → s.Settled w'.fs (d ++ p))
      (fun _ _ => s.Misfit d) w := by
  induction n generalizing d w with
  | zero => exact (Nat.lt_irrefl 0 deep.1).elim
  | succ n ih =>
      have listO : w.fs.isDir (locate s.oPath ++ d) = true := by rw [isDir_iff, kept_o near, dirO]
      have listC : w.fs.isDir (locate s.cPath ++ d) = true := by rw [isDir_iff, kept_c near, dirC]
      have sorted := fun l => (children_increasing w.fs l).filter scandirFilter
      have memO : ∀ x, x ∈ (w.fs.children (locate s.oPath ++ d)).filter scandirFilter ↔
          s.fs.get (locate s.oPath ++ (d ++ [x])) ≠ none ∧ scandirFilter x = true := by
        intro x
        rw [Skinning.mem_scandir, List.append_assoc, kept_o near]
      have memC : ∀ x, x ∈ (w.fs.children (locate s.cPath ++ d)).filter scandirFilter ↔
          s.fs.get (locate s.cPath ++ (d ++ [x])) ≠ none ∧ scandirFilter x = true := by
        intro x
        rw [Skinning.mem_scandir, List.append_assoc, kept_c near]
      simp only [moltingDir, Command.wp_bind, wp_scandir, locate_extend, listO, listC, if_true,
        Command.wp_pure]
      apply Command.wp_mono (Command.wp_fold (fun _ rest (w' : World) => s.Turn d (mergeNames _ _)
        w.fs rest w'.fs) _ (Turn.start (MergeJoin.mergeSteps_increasing strcmp_decides (sorted _)
          (sorted _)) untouched)) _ (fun _ _ large => large)
      · intro _ pair rest w' turn
        obtain ⟨x, y⟩ := pair
        obtain ⟨inO, inC⟩ := MergeJoin.mergeSteps_mem strcmp_decides
          (turn.listed _ List.mem_cons_self)
        have presentO := ((memO x).mp inO).1
        have presentC := ((memC y).mp inC).1
        by_cases same : x = y
        · subst same
          have near' := near.trans turn.moved.whole
          have rootDir' : w'.fs.get (locate s.mPath) = some .dir := by
            rw [turn.moved.whole.stays (by rw [rootDir, goal_root]), goal_root]
          have here := turn.waiting x List.mem_cons_self
          apply Command.wp_mono (moltingStep_same junk near' rootDir' presentO presentC here _)
          · intro _ w'' done
            exact turn.same done.1 done.2
          · intro _ _ large
            exact large.up
          · intro dirO' dirC'
            have longer := length_child (extend s.oPath d) x
            have short := s.skinO.short (by simp) presentO
            rw [extend_snoc] at longer
            exact ih (d ++ [x]) w' near' rootDir' dirO' dirC' (fun p _ => here p)
              ⟨by omega, by omega⟩
        · apply Command.wp_mono (moltingStep_other junk same presentO presentC)
          · intro _ w'' unchanged
            rw [unchanged]
            exact turn.other same
          · intro _ _ impossible
            exact impossible.elim
      · intro _ w' turn
        refine ⟨turn.moved, fun p nonempty common => ?_⟩
        cases p with
        | nil => exact (nonempty rfl).elim
        | cons x p =>
            have presentAt : ∀ l, s.fs.get (l ++ (d ++ x :: p)) ≠ none →
                s.fs.get (l ++ (d ++ [x])) ≠ none := by
              intro l present
              exact s.fs.present_above _ p (by simpa using present)
            have clean : scandirFilter x = true := by
              have := (s.skinO.clean common.1).1
              simp_all
            have met := (MergeJoin.mergeSteps_common strcmp_decides (sorted _) (sorted _)).mpr
              ⟨(memO x).mpr ⟨presentAt _ common.1, clean⟩,
                (memC x).mpr ⟨presentAt _ common.2, clean⟩⟩
            have settled := (turn.settled x met).resolve_left List.not_mem_nil p
            simpa using settled (by simpa using common)

/-- With the root and the copies in place, all of the goal is: a directory of it
    is the root or stands above a copy. -/
theorem placed_of_copied {fs : Fs} (rootDir : fs.get (locate s.mPath) = some .dir)
    (copied : ∀ q, s.Changed q → fs.get (locate s.mPath ++ q) = s.want q) (p : List Name)
    (wanted : s.want p ≠ none) : fs.get (locate s.mPath ++ p) = s.want p := by
  by_cases changed : s.Changed p
  · exact copied p changed
  · by_cases root : p = []
    · rw [root, List.append_nil, want_root, rootDir]
    · have inner : ∃ q, s.Changed (p ++ q) := by
        by_contra none
        exact wanted (by rw [want, moltTree, if_neg changed, if_neg (by tauto)])
      obtain ⟨q, deeper⟩ := inner
      have below : q ≠ [] := by
        intro empty
        rw [empty, List.append_nil] at deeper
        exact changed deeper
      obtain ⟨data, _, file⟩ := want_changed deeper
      rw [want_above deeper below]
      apply fs.dir_above _ q below
      rw [List.append_assoc, copied _ deeper, file]
      simp

end Molting

/-- Every text that `molt` formats fits its buffer. -/
def MoltFits (fs : Fs) (oPath cPath cmp mPath : Bytes) : Prop :=
  ∀ p, p ≠ [] → fs.get (locate oPath ++ p) ≠ none → fs.get (locate cPath ++ p) ≠ none →
    MoltFitsAt fs oPath cPath cmp mPath p

/-- `molt` lays the changed files over what stood at the destination and touches
    nothing else; it is stopped exactly when some text does not fit. -/
theorem molt_wp (s : Molting) (junk : Junk) {w : World} (start : w.fs = s.fs)
    {d : List Name} {x : Name} (place : locate s.mPath = d ++ [x])
    (above : s.fs.get d = some .dir) :
    (molt junk s.oPath s.cPath s.mPath).wp
      (fun _ w' => MoltFits s.fs s.oPath s.cPath s.cmp s.mPath ∧
        (∀ p, w'.fs.get (locate s.mPath ++ p) =
          (moltTree s.fs s.oPath s.cPath s.cmp p).or (s.fs.get (locate s.mPath ++ p))) ∧
        ∀ q, ¬ locate s.mPath <+: q → w'.fs.get q = s.fs.get q)
      (fun _ _ => ¬ MoltFits s.fs s.oPath s.cPath s.cmp s.mPath) w := by
  have free : ∀ e, s.fs.get (d ++ [x]) = some e → e = .dir := by
    intro e present
    apply Entry.kind_eq_dir.mp (s.compatible [] e .dir _ Molting.want_root)
    rwa [List.append_nil, place]
  have rootGoal := Molting.goal_root (s := s)
  simp only [molt, Command.wp_bind]
  apply Command.wp_mono (freshDir_wp place (start ▸ above) (start ▸ free)) _ (fun _ _ h => h)
  intro _ w₁ made
  rw [← place, start] at made
  have rootDir : w₁.fs.get (locate s.mPath) = some .dir := by rw [made, if_pos rfl]
  have first : Toward s.goal s.fs w₁.fs := toward_of_sets made rootGoal
  have untouched : s.Untouched w₁.fs [] := by
    intro p nonempty
    rw [made, if_neg]
    simpa using nonempty
  have dirO := s.skinO.root
  have dirC := s.skinC.root
  rw [← List.append_nil (locate _)] at dirO dirC
  apply Command.wp_mono (Molting.moltingDir_wp junk BUFMAX [] w₁ first rootDir dirO dirC untouched
    ⟨by decide, by simp⟩)
  · intro _ w₂ done
    have onward := done.1.whole
    refine ⟨fun p nonempty inO inC => (done.2 p nonempty ⟨inO, inC⟩).1,
      (first.trans onward).overlay (Molting.placed_of_copied ?_ ?_)⟩
    · rw [onward.stays (by rw [rootDir, rootGoal]), rootGoal]
    · intro q changed
      have nonempty : q ≠ [] := fun empty => Molting.root_not_changed (empty ▸ changed)
      exact (done.2 q nonempty changed.common).2 changed
  · intro _ _ large fits
    obtain ⟨p, nonempty, common, tooLong⟩ := large
    exact tooLong (fits p nonempty common.1 common.2)

end OslabProfiler.CompKernel

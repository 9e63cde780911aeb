import OslabProfiler.CompKernel.Arguments
import OslabProfiler.CompKernel.Footprint

/-! # Keeping the skin out of the source

`main` of skin.c refuses a skin directory whose path contains the path of the source as a
substring. The two paths are compared as texts, and an absolute one is the text that was
typed. So the test also hits directories which only share a part of their names with the
source, and it misses the source itself once a slash or a dot is typed behind it. The
directory that is filled is one level further down, under a name taken from the text of
the source, and nothing compares that one.

Skinning a tree that lies apart from the skin is as deep as the tree. Skinning a tree that
contains the skin does not come to an end at all.
-/

namespace OslabProfiler.CompKernel

open Lib Lib.FileTree

/-- The directory that `skin` fills. -/
def skinPath (fpath spath : Bytes) : Bytes :=
  spath ++ ascii "/" ++ filename fpath ++ ascii "__skin"

/-- `main` gets past its checks on two texts. -/
def GoesOn (fpath spath : Bytes) : Prop :=
  fpath.length < BUFMAX ∧ spath.length < BUFMAX ∧ ¬ fpath <:+: spath ∧
    (skinPath fpath spath).length < BUFMAX

instance (fpath spath : Bytes) : Decidable (GoesOn fpath spath) :=
  inferInstanceAs (Decidable (_ ∧ _))

/-- The recursion of `skinning_dir` goes no deeper than the source: a bound on the depth
    of the source bounds the calls. -/
def RecursionEnds (w : World) (fpath spath : Bytes) : Prop :=
  ∀ (lib : Md5) (junk : Junk) (n : Nat),
    (∀ p, w.fs.get (locate fpath ++ p) ≠ none → p.length < n) →
    ((do freshDir spath; skinningDir lib junk n fpath spath : Prog Unit) w).1 ≠ .error .depth

/-- The check of `main` is right for two directories. -/
structure GuardRight (w : World) (cwd : List Name) (args : List Arg) (source target : List Name) :
    Prop where
  decides : (∃ paths, (skinPaths cwd args).Ends w paths w) ↔ ¬ source <+: target
  apart : ∀ fpath spath, (skinPaths cwd args).Ends w (fpath, spath) w →
    Apart (locate fpath) (locate spath)
  ends : ∀ fpath spath, (skinPaths cwd args).Ends w (fpath, spath) w → RecursionEnds w fpath spath

/-! ## The depth of the recursion -/

theorem skinningFile_depth (lib : Md5) (junk : Junk) (fpath spath : Bytes) (w : World) :
    (skinningFile lib junk fpath spath).wp (fun _ _ => True) (fun stop _ => stop ≠ .depth) w := by
  simp only [skinningFile, Command.wp_bind]
  have hashes : (md5 lib fpath (junk.hash fpath)).wp (fun _ _ => True) (fun _ _ => False) w := by
    simp only [md5, contents, Command.wp_bind, Command.wp_read]
    cases w.fs.get (locate fpath) with
    | none => trivial
    | some e => cases e <;> trivial
  refine Command.wp_mono hashes ?_ (fun _ _ never => never.elim)
  intro hash w' _
  rw [wp_openTrunc]
  constructor
  · intro fs _
    simp
  · intro _
    simp [exit]

/-- A source apart from the skin bounds the recursion. -/
theorem skinningDir_depth (lib : Md5) (junk : Junk) (n : Nat) (fpath spath : Bytes) (w : World)
    (apart : Apart (locate fpath) (locate spath)) (positive : 0 < n)
    (bound : ∀ p, w.fs.get (locate fpath ++ p) ≠ none → p.length < n) :
    (skinningDir lib junk n fpath spath).wp (fun _ _ => True) (fun stop _ => stop ≠ .depth) w := by
  induction n generalizing fpath spath w with
  | zero => exact (Nat.lt_irrefl 0 positive).elim
  | succ n ih =>
      by_cases isDir : w.fs.get (locate fpath) = some .dir
      · refine Command.wp_mono (skinningDir_rule
          (fun rest w' => GrowsWithin (locate spath) w w' ∧
            ∀ x ∈ rest, w.fs.get (locate fpath ++ [x]) ≠ none)
          isDir ⟨Within.refl _ _, fun x listed => (Skinning.mem_scandir.mp listed).1⟩ ?_)
          (fun _ _ _ => trivial) (fun _ _ h => h)
        intro statbuf x rest w' inv
        obtain ⟨moved, there⟩ := inv
        have written := (skinningEntry_within lib junk (skinningDir_within lib junk n) fpath spath
          statbuf x).wp (s := w')
        have stopped : (skinningEntry lib junk (skinningDir lib junk n) fpath spath statbuf x).wp
            (fun _ _ => True) (fun stop _ => stop ≠ .depth) w' := by
          refine skinningEntry_rule (fun _ => by simp) (fun _ => ?_) (fun _ => skinningFile_depth _ _ _ _ _)
          have made := moved.trans ((mkdirAt_change w'.fs (locate spath) x).within.widen
            (List.prefix_append _ _))
          have inner : 1 < n + 1 := bound [x] (there x List.mem_cons_self)
          refine ih _ _ _ (by simpa using apart.below [x] [x]) (by omega) fun p present => ?_
          rw [locate_child, List.append_assoc] at present
          have deeper := bound ([x] ++ p) (by rwa [← made.kept apart])
          simpa using deeper
        refine Command.wp_mono (Command.wp_and written stopped) ?_ (fun _ _ both => both.2)
        rintro _ w'' ⟨step, _⟩
        exact ⟨moved.trans (step.widen (List.prefix_append _ _)),
          fun y later => there y (List.mem_cons_of_mem _ later)⟩
      · exact skinningDir_missing isDir trivial

/-- A run that fills an empty directory inside of what it reads never ends: the listing
    has the way down to that directory in it, and following it leads to the same situation
    one level further down. -/
theorem skinningDir_inside (lib : Md5) (junk : Junk) (n : Nat) {fpath spath : Bytes} {w : World}
    {p : List Name} (inside : locate spath = locate fpath ++ p) (below : p ≠ [])
    (seen : p.all scandirFilter) (isDir : w.fs.get (locate spath) = some .dir)
    (bare : ∀ y, w.fs.get (locate spath ++ [y]) = none) :
    (skinningDir lib junk n fpath spath).wp (fun _ _ => False) (fun _ _ => True) w := by
  induction n generalizing fpath spath w p with
  | zero => trivial
  | succ n ih =>
      cases p with
      | nil => exact (below rfl).elim
      | cons x p =>
          have onTheWay : w.fs.get (locate fpath ++ [x]) = some .dir := by
            rw [inside, List.append_cons] at isDir
            cases p with
            | nil => rwa [List.append_nil] at isDir
            | cons y p =>
                exact w.fs.dir_above _ (y :: p) (List.cons_ne_nil y p)
                  (by rw [isDir]; exact Option.some_ne_none _)
          have above := w.fs.parent (locate fpath) x (by simp [onTheWay])
          have seenX : scandirFilter x = true := by simp_all
          refine Command.wp_mono (skinningDir_rule
            (fun rest w' => x ∈ rest ∧ Grows w.fs w'.fs ∧
              w'.fs.get (locate spath ++ [x]) = none)
            above ⟨Skinning.mem_scandir.mpr ⟨by simp [onTheWay], seenX⟩, Grows.refl _, bare x⟩ ?_)
            (fun _ _ inv => List.not_mem_nil inv.1) (fun _ _ h => h)
          rintro statbuf y rest w' ⟨waiting, grown, free⟩
          by_cases here : y = x
          · subst here
            have still := grown.dir isDir
            have made := get_mkdirAt still (x := y) (by simp [free])
            refine skinningEntry_rule (fun _ => trivial) (fun _ => ?_) (fun plain => ?_)
            · have further : locate (child spath y) = locate (child fpath y) ++ (p ++ [y]) := by
                simp [inside]
              have again := ih (w := { w' with fs := w'.fs.mkdirAt (locate spath) y }) further
                (by simp) (by simp_all) (by rw [locate_child, made, if_pos rfl])
              refine Command.wp_mono (again fun z => ?_) (fun _ _ never => never.elim)
                (fun _ _ _ => trivial)
              have nothing := w'.fs.nothing_below (d := locate spath ++ [y]) (by simp [free]) [z]
                (by simp)
              rw [locate_child, made, if_neg (by simp), nothing]
            · rw [grown.dir onTheWay] at plain
              cases plain
          · have written := (skinningEntry_within lib junk (skinningDir_within lib junk n) fpath
              spath statbuf y).wp (s := w')
            refine Command.wp_mono written ?_ (fun _ _ _ => trivial)
            intro _ w'' step
            refine ⟨(List.mem_cons.mp waiting).resolve_left (Ne.symm here), grown.trans step.1, ?_⟩
            rw [step.2 _ (by simpa using here), free]

/-- A source whose skin would be a new directory inside of it is never skinned to the end. -/
theorem skinMain_inside (lib : Md5) (junk : Junk) {cwd : List Name} {args : List Arg}
    {fpath spath : Bytes} {w : World} {p : List Name} {x : Name}
    (passed : (skinPaths cwd args).Ends w (fpath, spath) w)
    (inside : locate spath = locate fpath ++ p ++ [x]) (seen : (p ++ [x]).all scandirFilter)
    (above : w.fs.get (locate fpath ++ p) = some .dir) (free : w.fs.get (locate spath) = none) :
    ¬ ∃ w', (skinMain lib junk cwd args).Ends w () w' := by
  have never : (skinMain lib junk cwd args).wp (fun _ _ => False) (fun _ _ => True) w := by
    rw [skinMain, Command.wp_bind, Command.wp_iff_of_ends passed]
    simp only [skin, Command.wp_bind]
    refine Command.wp_mono (freshDir_wp inside above (by simp [← inside, free])) ?_ (fun _ _ h => h)
    intro _ w' made
    rw [← inside] at made
    refine skinningDir_inside lib junk BUFMAX (by rw [inside, List.append_assoc]) (by simp) seen
      (by rw [made, if_pos rfl]) fun y => ?_
    rw [made, if_neg (by simp)]
    exact w.fs.nothing_below (by simp [free]) [y] (by simp)
  rintro ⟨w', ended⟩
  exact Command.wp_ends never ended

/-- Preparing the directory changes nothing elsewhere. -/
theorem freshDir_outside {path : Bytes} {d : List Name} {x : Name} (place : locate path = d ++ [x])
    (w : World) :
    (freshDir path).wp (fun _ w' => ∀ q, ¬ locate path <+: q → w'.fs.get q = w.fs.get q)
      (fun _ _ => False) w := by
  have made : ∀ fs : Fs, ∀ q, ¬ d ++ [x] <+: q → (fs.mkdirAt d x).get q = fs.get q :=
    fun fs => (mkdirAt_change fs d x).within.2
  simp only [freshDir, Command.wp_bind, wp_access, wp_rmdir, wp_mkdir, place, FileTree.mkdir,
    onLast_append, FileTree.rmdir, Command.wp_ite]
  refine ⟨fun _ q outside => ?_, fun _ q outside => made w.fs q outside⟩
  rw [made _ q outside, rmdirAt]
  split
  · have elsewhere : q ≠ d ++ [x] := by
      rintro rfl
      exact outside List.prefix_rfl
    exact if_neg elsewhere
  · rfl

theorem recursionEnds_of_apart {w : World} {fpath spath : Bytes} {d : List Name} {x : Name}
    (place : locate spath = d ++ [x]) (isDir : w.fs.get (locate fpath) = some .dir)
    (apart : Apart (locate fpath) (locate spath)) : RecursionEnds w fpath spath := by
  intro lib junk n bound
  have positive : 0 < n := bound [] (by simp [isDir])
  have outcome : (do freshDir spath; skinningDir lib junk n fpath spath : Prog Unit).wp
      (fun _ _ => True) (fun stop _ => stop ≠ .depth) w := by
    rw [Command.wp_bind]
    refine Command.wp_mono (freshDir_outside place w) ?_ (fun _ _ never => never.elim)
    intro _ w' kept
    refine skinningDir_depth lib junk n fpath spath w' apart positive fun p present => ?_
    exact bound p (by rwa [← kept _ (apart.symm.outside p)])
  intro deep
  exact Command.wp_stops outcome deep rfl

/-! ## The check -/

/-- The name of the skin of a directory. -/
def skinName (fpath : Bytes) (string : 0 ∉ fpath) : Name where
  bytes := filename fpath ++ ascii "__skin"
  valid := by
    have six : 6 ≤ (filename fpath ++ ascii "__skin").length := by
      rw [List.length_append]
      exact Nat.le_add_left 6 _
    refine ⟨?_, ?_, ?_, ?_, ?_⟩
    · intro same
      rw [same] at six
      cases six
    · rw [List.mem_append, not_or]
      exact ⟨slash_not_mem_filename fpath, by decide⟩
    · rw [List.mem_append, not_or]
      exact ⟨fun member => string (mem_of_mem_filename member), by decide⟩
    · intro same
      rw [same] at six
      revert six
      decide
    · intro same
      rw [same] at six
      revert six
      decide

theorem locate_skinPath {fpath : Bytes} (string : 0 ∉ fpath) (spath : Bytes) :
    locate (skinPath fpath spath) = locate spath ++ [skinName fpath string] := by
  rw [← locate_child]
  simp [skinPath, child, skinName, ascii, slash]

theorem skinPaths_wp {w : World} {cwd : List Name} {dir skinDir : Arg} (rest : List Arg)
    (accepted : Accepted w cwd [dir, skinDir]) :
    (skinPaths cwd (dir :: skinDir :: rest)).wp
      (fun paths w' => w' = w ∧
        paths = (absolute w.fs cwd dir.bytes,
          skinPath (absolute w.fs cwd dir.bytes) (absolute w.fs cwd skinDir.bytes)) ∧
        GoesOn (absolute w.fs cwd dir.bytes) (absolute w.fs cwd skinDir.bytes))
      (fun _ _ => ¬ GoesOn (absolute w.fs cwd dir.bytes) (absolute w.fs cwd skinDir.bytes)) w := by
  generalize fEq : absolute w.fs cwd dir.bytes = fpath
  generalize sEq : absolute w.fs cwd skinDir.bytes = spath
  simp only [skinPaths, Command.wp_bind, wp_checkDirs, wp_makeAbsolute, fEq, sEq, Command.wp_ite,
    exit, Command.wp_stop, wp_sprintf, Command.wp_pure]
  refine ⟨fun _ => ⟨fun fFits => ⟨fun sFits => ⟨fun occurs goes => goes.2.2.1 occurs,
    fun absent => ⟨fun fits => ⟨trivial, rfl, fFits, sFits, absent, fits⟩,
      fun long goes => long goes.2.2.2⟩⟩, fun long goes => long goes.2.1⟩,
    fun long goes => long goes.1⟩, fun refused => (refused accepted).elim⟩

theorem prefix_extend (path : Bytes) (p : List Name) : path <+: extend path p := by
  induction p generalizing path with
  | nil => exact List.prefix_rfl
  | cons x p ih => exact (List.prefix_append path _).trans (ih (child path x))

theorem canonical_append (l p : List Name) : canonical l <+: canonical (l ++ p) := by
  cases l with
  | nil =>
      cases p with
      | nil => exact List.prefix_rfl
      | cons x p =>
          have start : [slash] <+: child [] x := List.prefix_append [slash] x.bytes
          exact start.trans (prefix_extend (child [] x) p)
  | cons x l =>
      have longer := prefix_extend (extend [] (x :: l)) p
      rwa [← extend_append] at longer

/-- Between two paths that `realpath` made, a skin directory inside the source is refused. -/
theorem relative_inside_refused {fs : Fs} {cwd source target : List Name} {dir skinDir : Arg}
    (relative : dir.bytes.head? ≠ some slash) (relativeSkin : skinDir.bytes.head? ≠ some slash)
    (found : resolve fs cwd dir.bytes = some source)
    (foundSkin : resolve fs cwd skinDir.bytes = some target) (inside : source <+: target) :
    ¬ GoesOn (absolute fs cwd dir.bytes) (absolute fs cwd skinDir.bytes) := by
  obtain ⟨p, rfl⟩ := inside
  rw [absolute, if_pos relative, found, absolute, if_pos relativeSkin, foundSkin]
  intro goes
  exact goes.2.2.1 (canonical_append source p).isInfix

/-- An argument leads to a directory. -/
structure Led (w : World) (cwd : List Name) (arg : Arg) (l : List Name) : Prop where
  found : resolve w.fs cwd arg.bytes = some l
  isDir : w.fs.get l = some .dir

theorem Led.accepted {w : World} {cwd source target : List Name} {dir skinDir : Arg}
    (ledDir : Led w cwd dir source) (ledSkinDir : Led w cwd skinDir target) :
    Accepted w cwd [dir, skinDir] := by
  intro arg member
  simp only [List.mem_cons, List.not_mem_nil, or_false] at member
  rcases member with rfl | rfl
  · rw [statPath, ledDir.found, Option.bind_some, ledDir.isDir]
    rfl
  · rw [statPath, ledSkinDir.found, Option.bind_some, ledSkinDir.isDir]
    rfl

/-- The check of `main` is right exactly when the substring test agrees with the locations,
    and the directory to be filled is not one that the source lies in. -/
theorem guardRight_iff (w : World) (cwd source target : List Name) (dir skinDir : Arg)
    (rest : List Arg) (ledDir : Led w cwd dir source) (ledSkinDir : Led w cwd skinDir target) :
    GuardRight w cwd (dir :: skinDir :: rest) source target ↔
      (GoesOn (absolute w.fs cwd dir.bytes) (absolute w.fs cwd skinDir.bytes) ↔
        ¬ source <+: target) ∧
      (GoesOn (absolute w.fs cwd dir.bytes) (absolute w.fs cwd skinDir.bytes) →
        ¬ locate (skinPath (absolute w.fs cwd dir.bytes) (absolute w.fs cwd skinDir.bytes)) <+:
          source) := by
  have outcome := skinPaths_wp rest (ledDir.accepted ledSkinDir)
  have fPlace := locate_absolute ledDir.found
  have sPlace := locate_absolute ledSkinDir.found
  obtain ⟨x, place⟩ : ∃ x, locate (skinPath (absolute w.fs cwd dir.bytes)
      (absolute w.fs cwd skinDir.bytes)) = target ++ [x] :=
    ⟨_, (locate_skinPath (zero_not_mem_absolute w.fs cwd dir) _).trans (by rw [sPlace])⟩
  generalize absolute w.fs cwd dir.bytes = fpath at *
  generalize absolute w.fs cwd skinDir.bytes = spath at *
  have passes : GoesOn fpath spath →
      (skinPaths cwd (dir :: skinDir :: rest)).Ends w (fpath, skinPath fpath spath) w := by
    intro goes
    obtain ⟨_, _, ended, rfl, rfl, _⟩ :=
      Command.ends_of_unstopped outcome fun _ _ stays => stays goes
    exact ended
  have passed : (∃ paths, (skinPaths cwd (dir :: skinDir :: rest)).Ends w paths w) ↔
      GoesOn fpath spath :=
    ⟨fun run => run.elim fun _ ended => (Command.wp_ends outcome ended).2.2,
      fun goes => ⟨_, passes goes⟩⟩
  constructor
  · intro right
    refine ⟨passed.symm.trans right.decides, fun goes => ?_⟩
    rw [← fPlace]
    exact (right.apart _ _ (passes goes)).2
  · rintro ⟨decides, aside⟩
    have apart : GoesOn fpath spath → Apart (locate fpath) (locate (skinPath fpath spath)) := by
      intro goes
      rw [fPlace]
      refine ⟨?_, aside goes⟩
      rw [place, List.prefix_concat_iff, not_or]
      exact ⟨fun same => aside goes (by rw [place, same]), decides.mp goes⟩
    refine ⟨passed.trans decides, ?_, ?_⟩
    · intro f s ended
      obtain ⟨_, same, goes⟩ := Command.wp_ends outcome ended
      cases same
      exact apart goes
    · intro f s ended
      obtain ⟨_, same, goes⟩ := Command.wp_ends outcome ended
      cases same
      exact recursionEnds_of_apart place (fPlace ▸ ledDir.isDir) (apart goes)

def nameFF : Name := sameByte 102 2 (by decide)

/-- Three directories side by side. -/
def guardTree : Fs := ((empty.mkdir [nameF]).mkdir [nameFF]).mkdir [nameS]

def typedF : Arg := ⟨ascii "/f", by decide⟩

def typedFF : Arg := ⟨ascii "/ff", by decide⟩

def typedS : Arg := ⟨ascii "/s", by decide⟩

def slashedF : Arg := ⟨ascii "/f/", by decide⟩

theorem guardRight_siblings : GuardRight ⟨guardTree, []⟩ [] [typedF, typedS] [nameF] [nameS] :=
  (guardRight_iff ⟨guardTree, []⟩ [] [nameF] [nameS] typedF typedS [] ⟨by decide, by decide⟩
    ⟨by decide, by decide⟩).mpr ⟨by decide, by decide⟩

/-- `/ff` does not lie in `/f` and is refused; with a slash typed behind the source, `/f`
    itself is let through, and the run never ends. -/
theorem guard_wrong_both_ways :
    ¬ GuardRight ⟨guardTree, []⟩ [] [typedF, typedFF] [nameF] [nameFF] ∧
    ¬ GuardRight ⟨guardTree, []⟩ [] [slashedF, typedF] [nameF] [nameF] ∧
    ¬ ∃ w', (skinMain plainMd5 zeroJunk [] [slashedF, typedF]).Ends ⟨guardTree, []⟩ () w' := by
  have refused : (skinPaths [] [typedF, typedFF] ⟨guardTree, []⟩).1 = .error (.exit 1) := rfl
  have passed : (skinPaths [] [slashedF, typedF]).Ends ⟨guardTree, []⟩
      (ascii "/f/", ascii "/f/__skin") ⟨guardTree, []⟩ := rfl
  refine ⟨?_, ?_, ?_⟩
  · intro right
    obtain ⟨paths, ended⟩ := right.decides.mpr (by decide)
    rw [show skinPaths [] [typedF, typedFF] ⟨guardTree, []⟩ = (.ok paths, _) from ended] at refused
    cases refused
  · intro right
    exact right.decides.mp ⟨_, passed⟩ List.prefix_rfl
  · exact skinMain_inside plainMd5 zeroJunk (p := []) (x := skinName (ascii "/f/") (by decide))
      passed (by decide) (by decide) (by decide) (by decide)

end OslabProfiler.CompKernel

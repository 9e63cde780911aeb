import OslabProfiler.CompKernel.Skin

/-! # The skin tree mirrors the source

The run is measured against the tree it is meant to write. Every step of
`skinning_dir` either changes nothing or writes the entry which that tree has
there, so the source stays as it was and what is written stays written; the
recursion then only has to show that every entry is reached. A run that is
stopped was stopped by a text that does not fit its buffer.
-/

namespace OslabProfiler.CompKernel

open Lib Lib.FileTree

/-- The tree which `skin` is meant to write for the directory at `fpath`. -/
def mirror (lib : Md5) (fs : Fs) (fpath : Bytes) (p : List Name) : Option (Entry Bytes) :=
  if p.all scandirFilter then
    match fs.get (locate fpath ++ p) with
    | some .dir => some .dir
    | some (.file data) => some (.file (skinRecord lib (extend fpath p) data))
    | _ => none
  else none

/-- The texts formatted for the entry `p` fit their buffers. -/
def SkinFitsAt (fs : Fs) (fpath spath : Bytes) (p : List Name) : Prop :=
  (extend fpath p).length < BUFMAX ∧ (extend spath p).length < BUFMAX ∧
    ∀ data, fs.get (locate fpath ++ p) = some (.file data) →
      HASHLEN + (extend fpath p).length < BUFMAX

/-- A tree of directories and readable files, without symbolic links. -/
structure Source (fs : Fs) (fpath : Bytes) : Prop where
  root : fs.get (locate fpath) = some .dir
  plain : ∀ p e, fs.get (locate fpath ++ p) = some e → e.IsPlain

/-- A directory to be skinned, and a place for the skin where no older entry
    is in the way of one of another kind. -/
structure Skinning where
  lib : Md5
  fs : Fs
  fpath : Bytes
  spath : Bytes
  source : Source fs fpath
  apart : Apart (locate spath) (locate fpath)
  compatible : ∀ p e e', fs.get (locate spath ++ p) = some e →
    mirror lib fs fpath p = some e' → e.kind = e'.kind

namespace Skinning

variable (s : Skinning)

def want (p : List Name) : Option (Entry Bytes) := mirror s.lib s.fs s.fpath p

def goal : List Name → Option (Entry Bytes) := graft (locate s.spath) s.want

/-- The entry `p` is written and its texts fit. -/
def Settled (fs : Fs) (p : List Name) : Prop :=
  s.want p ≠ none → fs.get (locate s.spath ++ p) = s.want p ∧ SkinFitsAt s.fs s.fpath s.spath p

/-- Some entry at or below `d`, other than the root, does not fit. -/
def Misfit (d : List Name) : Prop :=
  ∃ p, d ++ p ≠ [] ∧ s.want (d ++ p) ≠ none ∧ ¬ SkinFitsAt s.fs s.fpath s.spath (d ++ p)

variable {s}

theorem source_kept {fs : Fs} (near : Toward s.goal s.fs fs) (p : List Name) :
    fs.get (locate s.fpath ++ p) = s.fs.get (locate s.fpath ++ p) :=
  near.frame (graft_outside _ (s.apart.outside p))

theorem compatible_goal : Compatible s.goal s.fs := compatible_graft s.compatible

/-- Whatever already stands where an entry is wanted has its kind. -/
theorem same_kind {fs : Fs} (near : Toward s.goal s.fs fs) {p : List Name} {e e' : Entry Bytes}
    (wanted : s.want p = some e') (present : fs.get (locate s.spath ++ p) = some e) :
    e.kind = e'.kind :=
  compatible_goal.kept near _ e e' present (by rw [goal, graft_append, wanted])

theorem want_dir {p : List Name} (clean : p.all scandirFilter)
    (h : s.fs.get (locate s.fpath ++ p) = some .dir) : s.want p = some .dir := by
  simp only [want, mirror, if_pos clean, h]

theorem want_file {p : List Name} {data : Bytes} (clean : p.all scandirFilter)
    (h : s.fs.get (locate s.fpath ++ p) = some (.file data)) :
    s.want p = some (.file (skinRecord s.lib (extend s.fpath p) data)) := by
  simp only [want, mirror, if_pos clean, h]

theorem want_ne_none {p : List Name} (clean : p.all scandirFilter)
    (present : s.fs.get (locate s.fpath ++ p) ≠ none) : s.want p ≠ none := by
  obtain ⟨e, isE⟩ := Option.ne_none_iff_exists'.mp present
  cases e with
  | file data => simp [want_file clean isE]
  | dir => simp [want_dir clean isE]
  | locked => exact (s.source.plain _ _ isE).elim
  | dangling => exact (s.source.plain _ _ isE).elim

theorem want_cases {p : List Name} (wanted : s.want p ≠ none) :
    p.all scandirFilter ∧ s.fs.get (locate s.fpath ++ p) ≠ none := by
  unfold want mirror at wanted
  split at wanted
  · rename_i clean
    refine ⟨clean, fun h => ?_⟩
    rw [h] at wanted
    exact wanted rfl
  · exact (wanted rfl).elim

theorem Settled.stays {a b : Fs} {p : List Name} (h : s.Settled a p) (near : Toward s.goal a b) :
    s.Settled b p := by
  intro wanted
  obtain ⟨there, fits⟩ := h wanted
  refine ⟨?_, fits⟩
  have := near.stays (q := locate s.spath ++ p) (by rw [there, goal, graft_append])
  rwa [goal, graft_append] at this

end Skinning

/-- `skinning_file` on a readable file and a place it may write to. -/
theorem skinningFile_wp (lib : Md5) (junk : Junk) {fpath spath data : Bytes} {w : World}
    {d : List Name} {x : Name} (place : locate spath = d ++ [x])
    (readable : w.fs.get (locate fpath) = some (.file data))
    (above : w.fs.get d = some .dir) (free : Entry.writable (w.fs.get (d ++ [x])) = true) :
    (skinningFile lib junk fpath spath).wp
      (fun _ w' => HASHLEN + fpath.length < BUFMAX ∧ ∀ q, w'.fs.get q =
        if q = d ++ [x] then some (.file (skinRecord lib fpath data)) else w.fs.get q)
      (fun _ _ => ¬ HASHLEN + fpath.length < BUFMAX) w := by
  have length : (cString (hex (lib.digest data).toList ++ [0]) ++ ascii "|" ++ fpath).length =
      HASHLEN + fpath.length := by
    simp only [cString_hex, List.length_append, length_hex, List.Vector.toList_length]
    rfl
  obtain ⟨opened, hOpened⟩ : ∃ fs, w.fs.writeAt d x [] = some fs :=
    writeAt_isSome.mpr ⟨above, free⟩
  have blank := get_writeAt hOpened
  obtain ⟨written, hWritten⟩ : ∃ fs, opened.writeAt d x (skinRecord lib fpath data) = some fs := by
    apply writeAt_isSome.mpr
    constructor
    · simpa [blank] using above
    · simp [blank, Entry.writable]
  have final := get_writeAt hWritten
  simp only [skinningFile, md5, contents, Command.wp_bind, Command.wp_read, readable,
    Command.wp_pure, md5Loop_final, wp_openTrunc, place, FileTree.write, onLast_append, hOpened]
  refine ⟨fun fs same => ?_, fun h => by cases h⟩
  cases same
  simp only [if_true, Command.wp_bind, wp_sprintf, length, wp_writeAll, place, FileTree.write,
    onLast_append]
  refine ⟨fun fits => ⟨fits, fun q => ?_⟩, fun h => h⟩
  rw [cString_hex, show hex (lib.digest data).toList ++ ascii "|" ++ fpath ++ [0] =
    skinRecord lib fpath data from rfl, hWritten, Option.getD_some, final, blank]
  by_cases here : q = d ++ [x] <;> simp [here]

theorem extend_snoc (path : Bytes) (d : List Name) (x : Name) :
    child (extend path d) x = extend path (d ++ [x]) := by
  rw [extend_append]
  rfl

namespace Skinning

variable {s : Skinning}

theorem Misfit.up {d : List Name} {x : Name} (h : s.Misfit (d ++ [x])) : s.Misfit d := by
  obtain ⟨p, _, wanted, large⟩ := h
  exact ⟨x :: p, by simp, by simpa using wanted, by simpa using large⟩

/-- Below a file nothing is wanted. -/
theorem settled_below_file {fs : Fs} {q p : List Name} {data : Bytes}
    (isFile : s.fs.get (locate s.fpath ++ q) = some (.file data)) (below : p ≠ []) :
    s.Settled fs (q ++ p) := by
  intro wanted
  have present := (want_cases wanted).2
  rw [← List.append_assoc] at present
  rw [s.fs.nothing_below (by simp [isFile]) p below] at present
  exact (present rfl).elim

/-- `mkdir` of a directory of the source brings the tree closer to the goal. -/
theorem mkdirAt_wanted {fs : Fs} {d : List Name} {x : Name} (near : Toward s.goal s.fs fs)
    (above : fs.get (locate s.spath ++ d) = some .dir) (wanted : s.want (d ++ [x]) = some .dir) :
    Toward s.goal fs (fs.mkdirAt (locate s.spath ++ d) x) ∧
      (fs.mkdirAt (locate s.spath ++ d) x).get (locate s.spath ++ (d ++ [x])) = some .dir := by
  have change := mkdirAt_change fs (locate s.spath ++ d) x
  have made := mkdirAt_made above (x := x) fun e there => by
    rw [List.append_assoc] at there
    exact Entry.kind_eq_dir.mp (same_kind near wanted there)
  rw [List.append_assoc] at change made
  exact ⟨change.toward (by rw [goal, graft_append, wanted]), made⟩

/-- `skinning_file` on a file of the source settles it and what lies below. -/
theorem skinningFile_settles (junk : Junk) {d : List Name} {x : Name} {w : World} {data : Bytes}
    (clean : (d ++ [x]).all scandirFilter) (near : Toward s.goal s.fs w.fs)
    (above : w.fs.get (locate s.spath ++ d) = some .dir)
    (isFile : s.fs.get (locate s.fpath ++ (d ++ [x])) = some (.file data))
    (fitsF : (extend s.fpath (d ++ [x])).length < BUFMAX)
    (fitsS : (extend s.spath (d ++ [x])).length < BUFMAX) :
    (skinningFile s.lib junk (extend s.fpath (d ++ [x])) (extend s.spath (d ++ [x]))).wp
      (fun _ w' => Toward s.goal w.fs w'.fs ∧ ∀ p, s.Settled w'.fs (d ++ [x] ++ p))
      (fun _ _ => ¬ SkinFitsAt s.fs s.fpath s.spath (d ++ [x])) w := by
  have now := (source_kept near (d ++ [x])).trans isFile
  have aim : s.goal (locate s.spath ++ (d ++ [x])) =
      some (.file (skinRecord s.lib (extend s.fpath (d ++ [x])) data)) := by
    rw [goal, graft_append, want_file clean isFile]
  have free : Entry.writable (w.fs.get (locate s.spath ++ d ++ [x])) = true := by
    rw [List.append_assoc]
    exact Entry.writable_of_kind fun e there => same_kind near (want_file clean isFile) there
  refine Command.wp_mono (skinningFile_wp s.lib junk (w := w) (d := locate s.spath ++ d)
    (by simp) (by simpa using now) above free) ?_ (fun _ _ large fits => large (fits.2.2 data isFile))
  intro _ w' done
  refine ⟨toward_of_sets done.2 (by rw [List.append_assoc, aim]), fun p => ?_⟩
  by_cases own : p = []
  · intro _
    subst own
    rw [List.append_nil, ← List.append_assoc, done.2, if_pos rfl, want_file clean isFile]
    exact ⟨rfl, fitsF, fitsS, fun _ _ => done.1⟩
  · exact settled_below_file isFile own

/-- One turn of the loop settles everything at and below its entry. -/
theorem skinningEntry_wp (junk : Junk) {recur : Bytes → Bytes → Prog Unit} {d : List Name}
    {x : Name} {w : World} {statbuf : Bool}
    (clean : (d ++ [x]).all scandirFilter)
    (present : s.fs.get (locate s.fpath ++ (d ++ [x])) ≠ none)
    (near : Toward s.goal s.fs w.fs)
    (above : w.fs.get (locate s.spath ++ d) = some .dir)
    (deeper : ∀ w', Toward s.goal s.fs w'.fs →
      s.fs.get (locate s.fpath ++ (d ++ [x])) = some .dir →
      w'.fs.get (locate s.spath ++ (d ++ [x])) = some .dir →
      (extend s.fpath (d ++ [x])).length < BUFMAX →
      (recur (extend s.fpath (d ++ [x])) (extend s.spath (d ++ [x]))).wp
        (fun _ w'' => Toward s.goal w'.fs w''.fs ∧ ∀ p, p ≠ [] → s.Settled w''.fs (d ++ [x] ++ p))
        (fun _ _ => s.Misfit (d ++ [x])) w') :
    (skinningEntry s.lib junk recur (extend s.fpath d) (extend s.spath d) statbuf x).wp
      (fun _ w' => Toward s.goal w.fs w'.fs ∧ ∀ p, s.Settled w'.fs (d ++ [x] ++ p))
      (fun _ _ => s.Misfit (d ++ [x])) w := by
  have stop : ¬ SkinFitsAt s.fs s.fpath s.spath (d ++ [x]) → s.Misfit (d ++ [x]) := by
    intro large
    exact ⟨[], by simp, by simpa using want_ne_none clean present, by simpa using large⟩
  obtain ⟨e, isE⟩ := Option.ne_none_iff_exists'.mp present
  have now := (source_kept near (d ++ [x])).trans isE
  simp only [skinningEntry, Command.wp_bind, wp_sprintf, wp_stat, extend_snoc, locate_extend, now]
  refine ⟨fun fitsF => ⟨fun fitsS => ?_, fun large => stop fun fits => large fits.2.1⟩,
    fun large => stop fun fits => large fits.1⟩
  cases e with
  | dir =>
      have wanted := want_dir clean isE
      obtain ⟨toward, made⟩ := mkdirAt_wanted near above wanted
      simp only [statOf, Option.getD_some, if_true, Command.wp_bind, wp_mkdir, Command.wp_pure,
        locate_extend, FileTree.mkdir, ← List.append_assoc, onLast_append]
      refine Command.wp_mono (deeper { w with fs := w.fs.mkdirAt (locate s.spath ++ d) x }
        (near.trans toward) isE made fitsF) ?_ (fun _ _ h => h)
      intro _ w' done
      refine ⟨toward.trans done.1, fun p => ?_⟩
      by_cases own : p = []
      · intro _
        subst own
        rw [List.append_nil]
        have aim : s.goal (locate s.spath ++ (d ++ [x])) = some .dir := by
          rw [goal, graft_append, wanted]
        have stays := done.1.stays (q := locate s.spath ++ (d ++ [x])) (by rw [aim]; exact made)
        refine ⟨by rw [stays, aim, wanted], fitsF, fitsS, fun data isFile => ?_⟩
        rw [isE] at isFile
        cases isFile
      · exact done.2 p own
  | file data =>
      simp only [statOf, Option.getD_some, Bool.false_eq_true, if_false, Command.wp_bind,
        Command.wp_pure]
      exact Command.wp_mono (skinningFile_settles junk clean near above isE fitsF fitsS)
        (fun _ _ done => done) (fun _ _ large => stop large)
  | locked => exact (s.source.plain _ _ isE).elim
  | dangling => exact (s.source.plain _ _ isE).elim

theorem mem_scandir {fs : Fs} {l : List Name} {x : Name} :
    x ∈ (fs.children l).filter scandirFilter ↔ fs.get (l ++ [x]) ≠ none ∧ scandirFilter x = true := by
  rw [List.mem_filter, mem_children]

/-- The recursion settles everything below its directory; it is stopped only
    by a text below that directory which does not fit. -/
theorem skinningDir_wp (junk : Junk) (n : Nat) (d : List Name) (w : World)
    (near : Toward s.goal s.fs w.fs) (clean : d.all scandirFilter)
    (isDir : s.fs.get (locate s.fpath ++ d) = some .dir)
    (above : w.fs.get (locate s.spath ++ d) = some .dir)
    (deep : 0 < n ∧ BUFMAX ≤ n + (extend s.fpath d).length) :
    (skinningDir s.lib junk n (extend s.fpath d) (extend s.spath d)).wp
      (fun _ w' => Toward s.goal w.fs w'.fs ∧ ∀ p, p ≠ [] → s.Settled w'.fs (d ++ p))
      (fun _ _ => s.Misfit d) w := by
  induction n generalizing d w with
  | zero => exact (Nat.lt_irrefl 0 deep.1).elim
  | succ n ih =>
      have listing : w.fs.isDir (locate s.fpath ++ d) = true := by
        rw [isDir_iff, source_kept near, isDir]
      simp only [skinningDir, Command.wp_bind, wp_scandir, locate_extend, listing, if_true,
        Command.wp_pure]
      -- the names still to come, and everything under the others settled
      refine Command.wp_mono (Command.wp_fold
        (fun _ rest (w' : World) => Toward s.goal w.fs w'.fs ∧
          (∀ x ∈ rest, x ∈ (w.fs.children (locate s.fpath ++ d)).filter scandirFilter) ∧
          ∀ x ∈ (w.fs.children (locate s.fpath ++ d)).filter scandirFilter,
            x ∈ rest ∨ ∀ p, s.Settled w'.fs (d ++ [x] ++ p))
        ?_ ⟨Toward.refl _ _, fun _ h => h, fun _ h => .inl h⟩) ?_ (fun _ _ h => h)
      · intro _ x rest w' inv
        obtain ⟨moved, listed, settled⟩ := inv
        obtain ⟨there, kept⟩ := mem_scandir.mp (listed x List.mem_cons_self)
        rw [List.append_assoc, source_kept near] at there
        have cleanX : (d ++ [x]).all scandirFilter := by simp_all
        have still : w'.fs.get (locate s.spath ++ d) = some .dir := by
          have aim : s.goal (locate s.spath ++ d) = some .dir := by
            rw [goal, graft_append, want_dir clean isDir]
          rw [moved.stays (by rw [above, aim]), aim]
        refine Command.wp_mono (skinningEntry_wp junk cleanX there (near.trans moved) still ?_)
          ?_ (fun _ _ large => large.up)
        · intro w'' near' isDir' above' fits
          have longer := length_child (extend s.fpath d) x
          rw [extend_snoc] at longer
          exact ih (d ++ [x]) w'' near' cleanX isDir' above' ⟨by omega, by omega⟩
        · intro _ w'' done
          refine ⟨moved.trans done.1, fun y h => listed y (List.mem_cons_of_mem _ h), ?_⟩
          intro y hy
          cases settled y hy with
          | inl waiting =>
              cases List.mem_cons.mp waiting with
              | inl same => exact .inr (same ▸ done.2)
              | inr later => exact .inl later
          | inr old => exact .inr fun p => (old p).stays done.1
      · intro _ w' inv
        refine ⟨inv.1, fun p nonempty wanted => ?_⟩
        cases p with
        | nil => exact (nonempty rfl).elim
        | cons x p =>
            obtain ⟨cleanP, there⟩ := want_cases wanted
            have kept : scandirFilter x = true := by simp_all
            have child := s.fs.present_above (locate s.fpath ++ d ++ [x]) p (by simpa using there)
            have listed : x ∈ (w.fs.children (locate s.fpath ++ d)).filter scandirFilter := by
              rw [mem_scandir, List.append_assoc, source_kept near, ← List.append_assoc]
              exact ⟨child, kept⟩
            have settled := (inv.2.2 x listed).resolve_left List.not_mem_nil p
            simpa using settled (by simpa using wanted)

end Skinning

/-- The directory to be filled is there afterwards, whether it was missing,
    empty or full; nothing else changes. -/
theorem freshDir_wp {path : Bytes} {w : World} {d : List Name} {x : Name}
    (place : locate path = d ++ [x]) (above : w.fs.get d = some .dir)
    (free : ∀ e, w.fs.get (d ++ [x]) = some e → e = .dir) {E : Stop → World → Prop} :
    (freshDir path).wp
      (fun _ w' => ∀ q, w'.fs.get q = if q = d ++ [x] then some .dir else w.fs.get q) E w := by
  simp only [freshDir, Command.wp_bind, wp_access, wp_rmdir, wp_mkdir, place, FileTree.mkdir,
    onLast_append, FileTree.rmdir, Command.wp_ite]
  refine ⟨fun _ q => ?_, fun _ q => get_mkdirAt above free q⟩
  unfold rmdirAt
  split
  · have other : d ≠ d ++ [x] := by simp
    rw [get_mkdirAt (by simpa [other] using above) (by simp)]
    by_cases here : q = d ++ [x] <;> simp [here]
  · exact get_mkdirAt above free q

/-- Every text that `skin` formats fits its buffer. -/
def SkinFits (fs : Fs) (fpath spath : Bytes) : Prop :=
  ∀ p, p ≠ [] → p.all scandirFilter → fs.get (locate fpath ++ p) ≠ none →
    SkinFitsAt fs fpath spath p

/-- `skin` lays the mirror over what stood at the destination and touches
    nothing else; it is stopped exactly when some text does not fit. -/
theorem skin_wp (s : Skinning) (junk : Junk) {w : World} (start : w.fs = s.fs)
    {d : List Name} {x : Name} (place : locate s.spath = d ++ [x])
    (above : s.fs.get d = some .dir) :
    (skin s.lib junk s.fpath s.spath).wp
      (fun _ w' => SkinFits s.fs s.fpath s.spath ∧
        (∀ p, w'.fs.get (locate s.spath ++ p) =
          (mirror s.lib s.fs s.fpath p).or (s.fs.get (locate s.spath ++ p))) ∧
        ∀ q, ¬ locate s.spath <+: q → w'.fs.get q = s.fs.get q)
      (fun _ _ => ¬ SkinFits s.fs s.fpath s.spath) w := by
  have rootDir : s.want [] = some .dir := Skinning.want_dir rfl (by simpa using s.source.root)
  have rootGoal : s.goal (locate s.spath) = some .dir := by rw [Skinning.goal, graft_root, rootDir]
  have free : ∀ e, s.fs.get (d ++ [x]) = some e → e = .dir := by
    intro e present
    exact Entry.kind_eq_dir.mp (s.compatible [] e .dir (by simpa [place] using present) rootDir)
  simp only [skin, Command.wp_bind]
  refine Command.wp_mono (freshDir_wp place (start ▸ above) (start ▸ free)) ?_ (fun _ _ h => h)
  intro _ w₁ made
  rw [← place, start] at made
  have first : Toward s.goal s.fs w₁.fs := toward_of_sets made rootGoal
  refine Command.wp_mono (Skinning.skinningDir_wp junk BUFMAX [] w₁ first rfl
    (by simpa using s.source.root) (by simp [made]) ⟨by decide, by simp⟩) ?_ ?_
  · intro _ w₂ done
    refine ⟨fun p nonempty clean present =>
      (done.2 p nonempty (Skinning.want_ne_none clean present)).2, (first.trans done.1).overlay ?_⟩
    intro p wanted
    by_cases own : p = []
    · rw [own, List.append_nil, rootDir, done.1.stays (by rw [made, if_pos rfl, rootGoal]), rootGoal]
    · exact (done.2 p own wanted).1
  · intro _ _ large fits
    obtain ⟨p, own, wanted, tooLong⟩ := large
    obtain ⟨clean, present⟩ := Skinning.want_cases wanted
    exact tooLong (fits p own clean present)

/-- A path where nothing is, in a directory that exists. -/
structure FreshPlace (fs : Fs) (path : Bytes) : Prop where
  missing : fs.get (locate path) = none
  parent : ∃ d x, locate path = d ++ [x] ∧ fs.get d = some .dir

theorem FreshPlace.empty {fs : Fs} {path : Bytes} (h : FreshPlace fs path) (p : List Name) :
    fs.get (locate path ++ p) = none := by
  by_cases own : p = []
  · simpa [own] using h.missing
  · exact fs.nothing_below (by simp [h.missing]) p own

/-- What exists cannot lie below a place where nothing is. -/
theorem FreshPlace.not_above {fs : Fs} {path : Bytes} (h : FreshPlace fs path) {l : List Name}
    (present : fs.get l ≠ none) : ¬ locate path <+: l := by
  intro above
  obtain ⟨p, same⟩ := above
  exact present (by rw [← same, h.empty p])

def Skinning.ofFresh (lib : Md5) {fs : Fs} {fpath spath : Bytes} (source : Source fs fpath)
    (fresh : FreshPlace fs spath) (outside : ¬ locate fpath <+: locate spath) : Skinning where
  lib := lib
  fs := fs
  fpath := fpath
  spath := spath
  source := source
  apart := ⟨fresh.not_above (by simp [source.root]), outside⟩
  compatible p e _ present _ := by simp [fresh.empty p] at present

/-- From a fresh destination, `skin` ends with the mirror and nothing else
    changed, or some text did not fit. -/
theorem skin_fresh_wp (lib : Md5) (junk : Junk) {w : World} {fpath spath : Bytes}
    (source : Source w.fs fpath) (fresh : FreshPlace w.fs spath)
    (outside : ¬ locate fpath <+: locate spath) :
    (skin lib junk fpath spath).wp
      (fun _ w' => SkinFits w.fs fpath spath ∧
        (∀ p, w'.fs.get (locate spath ++ p) = mirror lib w.fs fpath p) ∧
        ∀ q, ¬ locate spath <+: q → w'.fs.get q = w.fs.get q)
      (fun _ _ => ¬ SkinFits w.fs fpath spath) w := by
  obtain ⟨d, x, place, above⟩ := fresh.parent
  refine Command.wp_mono (skin_wp (Skinning.ofFresh lib source fresh outside) junk rfl place above)
    ?_ (fun _ _ h => h)
  intro _ w' done
  refine ⟨done.1, fun p => ?_, done.2.2⟩
  have laid := done.2.1 p
  rw [show (Skinning.ofFresh lib source fresh outside).fs.get
    (locate (Skinning.ofFresh lib source fresh outside).spath ++ p) = none from fresh.empty p,
    Option.or_none] at laid
  exact laid

theorem oneFile_source (path : Bytes) (x : Name) (data : Bytes) :
    Source (oneFile (locate path) x data) path where
  root := by simp [oneFile]
  plain p e h := by
    simp only [oneFile] at h
    split at h
    · cases h
      trivial
    · split at h
      · cases h
        trivial
      · cases h

/-- No link and no locked file in the whole tree. -/
def allPlain (fs : Fs) : Bool :=
  fs.support.all fun l =>
    match fs.get l with
    | some .locked | some .dangling => false
    | _ => true

theorem Source.of_allPlain {fs : Fs} {path : Bytes} (root : fs.isDir (locate path) = true)
    (h : allPlain fs = true) : Source fs path where
  root := isDir_iff.mp root
  plain p e present := by
    have checked := List.all_eq_true.mp h _ (fs.listed (locate path ++ p) (by simp [present]))
    rw [present] at checked
    cases e with
    | file data => trivial
    | dir => trivial
    | locked => cases checked
    | dangling => cases checked

/-- A name made of one byte, repeated. -/
def sameByte (b : Byte) (n : Nat) (valid : IsName (List.replicate n b)) : Name :=
  ⟨List.replicate n b, valid⟩

def nameF : Name := sameByte 102 1 (by decide)

def nameS : Name := sameByte 115 1 (by decide)

def longName : Name := sameByte 97 250 (by decide)

/-- Sixteen directories with names of 250 bytes. -/
def deepPath : Bytes := extend [] (List.replicate 16 longName)

def deepTree : Fs := oneFile (locate deepPath) (sameByte 98 60 (by decide)) []

/-- A digest function and unset locals to run the programs with. -/
def plainMd5 : Md5 := Md5.ofDigest fun data => ⟨(data ++ List.replicate 16 0).take 16, by simp⟩

def zeroJunk : Junk := ⟨fun _ => false, fun _ => [], fun _ => []⟩

/-- The skin of a readable tree, written where nothing was, mirrors it exactly
    when the paths leave room in the buffers they are formatted into. -/
theorem skin_mirrors_iff_fits (lib : Md5) (junk : Junk) (w : World) (fpath spath : Bytes)
    (source : Source w.fs fpath) (fresh : FreshPlace w.fs spath)
    (outside : ¬ locate fpath <+: locate spath) :
    (∃ w', (skin lib junk fpath spath).Ends w () w' ∧
      ∀ p, w'.fs.get (locate spath ++ p) = mirror lib w.fs fpath p) ↔
    SkinFits w.fs fpath spath := by
  have outcome := skin_fresh_wp lib junk source fresh outside
  constructor
  · rintro ⟨w', ended, _⟩
    exact (Command.wp_ends outcome ended).1
  · intro fits
    obtain ⟨_, w', ended, done⟩ := Command.ends_of_unstopped outcome fun _ _ large => large fits
    exact ⟨w', ended, done.2.1⟩

theorem smallTree_fits :
    SkinFits (oneFile (locate (child [] nameF)) nameF []) (child [] nameF) (child [] nameS) := by
  intro p nonempty _ present
  have only : p = [nameF] := by simpa [oneFile, nonempty] using present
  subst only
  exact ⟨by decide, by decide, fun _ _ => by decide⟩

theorem skin_mirrors_smallTree :
    ∃ w', (skin plainMd5 zeroJunk (child [] nameF) (child [] nameS)).Ends
        ⟨oneFile (locate (child [] nameF)) nameF [], []⟩ () w' ∧
      ∀ p, w'.fs.get (locate (child [] nameS) ++ p) =
        mirror plainMd5 (oneFile (locate (child [] nameF)) nameF []) (child [] nameF) p :=
  (skin_mirrors_iff_fits plainMd5 zeroJunk ⟨oneFile (locate (child [] nameF)) nameF [], []⟩
    (child [] nameF) (child [] nameS) (oneFile_source _ _ _)
    ⟨by decide, [], nameS, by decide, by decide⟩ (by decide)).mpr smallTree_fits

/-- A file path of 4077 bytes fits every path buffer and not the record buffer. -/
theorem skin_record_overflows :
    Source deepTree deepPath ∧ FreshPlace deepTree (child [] nameS) ∧
    ¬ locate deepPath <+: locate (child [] nameS) ∧
    ¬ ∃ w', (skin plainMd5 zeroJunk deepPath (child [] nameS)).Ends ⟨deepTree, []⟩ () w' ∧
      ∀ p, w'.fs.get (locate (child [] nameS) ++ p) = mirror plainMd5 deepTree deepPath p := by
  have source : Source deepTree deepPath := oneFile_source _ _ _
  have long : locate deepPath = List.replicate 16 longName := by
    rw [deepPath, locate_extend]
    rfl
  have short : locate (child [] nameS) = [nameS] := by rw [locate_child]; rfl
  have other : nameS ≠ longName := by decide
  have fresh : FreshPlace deepTree (child [] nameS) := by
    refine ⟨?_, [], nameS, short, deepTree.root⟩
    rw [short, deepTree, oneFile, long]
    simp [List.replicate_succ, other]
  have outside : ¬ locate deepPath <+: locate (child [] nameS) := by
    rw [short, long]
    simp [List.replicate_succ]
  refine ⟨source, fresh, outside, ?_⟩
  rintro ⟨w', ended, _⟩
  have fits := (Command.wp_ends (skin_fresh_wp plainMd5 zeroJunk source fresh outside) ended).1
  have isFile : deepTree.get (locate deepPath ++ [sameByte 98 60 (by decide)]) =
      some (.file []) := get_oneFile _ _ _
  have room := (fits [sameByte 98 60 (by decide)] (by simp) (by decide) (by simp [isFile])).2.2
    [] isFile
  simp only [deepPath, longName, length_extend, sameByte, List.map_cons, List.map_nil, List.map_replicate,
    List.length_replicate, List.sum_cons, List.sum_nil, List.sum_replicate, List.length_nil,
    smul_eq_mul, HASHLEN, BUFMAX] at room
  omega

end OslabProfiler.CompKernel

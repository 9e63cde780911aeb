import OslabProfiler.CompKernel.MoltExact

/-! # A molt made of two skins

The skins are made one after the other, then the molt is made where nothing
was. What it holds is stated in terms of the skins, and in terms of the two
directories they were made of: a molt is the part of the new directory that
differs from the old one, as far as the old one has the same files.
-/

namespace OslabProfiler.CompKernel

open Lib Lib.FileTree

/-- A skin that nothing has touched is still a skin. -/
theorem Skinned.kept {lib : Md5} {src fs fs' : Fs} {fpath spath : Bytes}
    (skinned : Skinned lib src fs fpath spath)
    (same : ∀ p, fs'.get (locate spath ++ p) = fs.get (locate spath ++ p)) :
    Skinned lib src fs' fpath spath where
  source := skinned.source
  tree p := by rw [same, skinned.tree]
  fits := skinned.fits

/-- The skin of a directory which is still as it was. -/
theorem Skinned.current {lib : Md5} {src src' fs : Fs} {fpath spath : Bytes}
    (skinned : Skinned lib src fs fpath spath)
    (same : ∀ p, src'.get (locate fpath ++ p) = src.get (locate fpath ++ p)) :
    Skinned lib src' fs fpath spath where
  source := {
    root := by simpa only [List.append_nil, skinned.source.root] using same []
    plain := fun p e present => skinned.source.plain p e (same p ▸ present) }
  tree p := by rw [skinned.tree, mirror, mirror, same]
  fits p nonempty clean present := by
    obtain ⟨first, second, record⟩ := skinned.fits p nonempty clean (same p ▸ present)
    exact ⟨first, second, fun data isFile => record data (same p ▸ isFile)⟩

/-- The changed files are the files of both directories with different digests. -/
theorem Molting.changed_iff {s : Molting} {p : List Name} : s.Changed p ↔
    p.all scandirFilter = true ∧ ∃ a b, s.old.get (locate s.org ++ p) = some (.file a) ∧
      s.fs.get (locate s.cmp ++ p) = some (.file b) ∧ s.lib.digest a ≠ s.lib.digest b := by
  constructor
  · rintro ⟨r, r', fileO, fileC, stored⟩
    obtain ⟨clean, a, isA, rfl⟩ := s.skinO.file_iff.mp fileO
    obtain ⟨_, b, isB, rfl⟩ := s.skinC.file_iff.mp fileC
    exact ⟨clean, a, b, isA, isB, (storedHash_eq_iff _ _ _ _ _).not.mp stored⟩
  · rintro ⟨clean, a, b, isA, isB, different⟩
    exact ⟨_, _, s.skinO.file_iff.mpr ⟨clean, a, isA, rfl⟩,
      s.skinC.file_iff.mpr ⟨clean, b, isB, rfl⟩, (storedHash_eq_iff _ _ _ _ _).not.mpr different⟩

/-- Two skins and a place where nothing is. -/
def Molting.ofFresh {lib : Md5} {old fs : Fs} {org cmp oPath cPath mPath : Bytes}
    (skinO : Skinned lib old fs org oPath) (skinC : Skinned lib fs fs cmp cPath)
    (string : 0 ∉ cmp) (fresh : FreshPlace fs mPath) (outO : ¬ locate oPath <+: locate mPath)
    (outC : ¬ locate cPath <+: locate mPath) : Molting where
  lib := lib
  old := old
  fs := fs
  org := org
  cmp := cmp
  oPath := oPath
  cPath := cPath
  mPath := mPath
  skinO := skinO
  skinC := skinC
  string := string
  apartO := ⟨fresh.not_above (by simp [skinO.root]), outO⟩
  apartC := ⟨fresh.not_above (by simp [skinC.root]), outC⟩
  outside p data present := fresh.not_above (by simp [present])
  compatible p e e' present _ := by simp [fresh.empty p] at present

/-- From a fresh destination, `molt` ends with the tree of the changed files and
    nothing else changed, or some text did not fit. -/
theorem molt_fresh_wp (s : Molting) (junk : Junk) {w : World} (start : w.fs = s.fs)
    (fresh : FreshPlace s.fs s.mPath) :
    (molt junk s.oPath s.cPath s.mPath).wp
      (fun _ w' => MoltFits s.fs s.oPath s.cPath s.cmp s.mPath ∧
        (∀ p, w'.fs.get (locate s.mPath ++ p) = moltTree s.fs s.oPath s.cPath s.cmp p) ∧
        ∀ q, ¬ locate s.mPath <+: q → w'.fs.get q = s.fs.get q)
      (fun _ _ => ¬ MoltFits s.fs s.oPath s.cPath s.cmp s.mPath) w := by
  obtain ⟨d, x, place, above⟩ := fresh.parent
  apply Command.wp_mono (molt_wp s junk start place above) _ (fun _ _ h => h)
  intro _ w' done
  refine ⟨done.1, fun p => ?_, done.2.2⟩
  rw [done.2.1 p, fresh.empty p, Option.or_none]

/-- `skin` is run on the old directory `org` and on the new one `cmp`, both into
    places where nothing was, and nothing is where the molt is to go. -/
structure SkinRuns (lib : Md5) (org oPath cmp cPath mPath : Bytes) (w₀ w₁ w₂ : World) : Prop where
  sourceO : Source w₀.fs org
  freshO : FreshPlace w₀.fs oPath
  outsideO : ¬ locate org <+: locate oPath
  runO : ∃ junk, (skin lib junk org oPath).Ends w₀ () w₁
  sourceC : Source w₁.fs cmp
  freshC : FreshPlace w₁.fs cPath
  outsideC : ¬ locate cmp <+: locate cPath
  apart : ¬ locate oPath <+: locate cPath
  /-- A path given to a program holds no NUL. -/
  string : 0 ∉ cmp
  runC : ∃ junk, (skin lib junk cmp cPath).Ends w₁ () w₂
  freshM : FreshPlace w₂.fs mPath
  outO : ¬ locate oPath <+: locate mPath
  outC : ¬ locate cPath <+: locate mPath

namespace SkinRuns

variable {lib : Md5} {org oPath cmp cPath mPath : Bytes} {w₀ w₁ w₂ : World}
  (runs : SkinRuns lib org oPath cmp cPath mPath w₀ w₁ w₂)

include runs

theorem skinnedO : Skinned lib w₀.fs w₂.fs org oPath := by
  obtain ⟨junkO, endO⟩ := runs.runO
  obtain ⟨junkC, endC⟩ := runs.runC
  have first := (skin_skinned runs.sourceO runs.freshO runs.outsideO endO).1
  have frame := (skin_skinned runs.sourceC runs.freshC runs.outsideC endC).2
  have apart : Apart (locate cPath) (locate oPath) :=
    ⟨runs.freshC.not_above (by simp [first.root]), runs.apart⟩
  exact first.kept fun p => frame _ (apart.outside p)

theorem cmp_kept (p : List Name) : w₂.fs.get (locate cmp ++ p) = w₁.fs.get (locate cmp ++ p) := by
  obtain ⟨junkC, endC⟩ := runs.runC
  have frame := (skin_skinned runs.sourceC runs.freshC runs.outsideC endC).2
  have apart : Apart (locate cPath) (locate cmp) :=
    ⟨runs.freshC.not_above (by simp [runs.sourceC.root]), runs.outsideC⟩
  exact frame _ (apart.outside p)

theorem skinnedC : Skinned lib w₂.fs w₂.fs cmp cPath := by
  obtain ⟨junkC, endC⟩ := runs.runC
  exact (skin_skinned runs.sourceC runs.freshC runs.outsideC endC).1.current runs.cmp_kept

omit runs in
/-- The molt that is to be made of the two skins. -/
def molting (runs : SkinRuns lib org oPath cmp cPath mPath w₀ w₁ w₂) : Molting :=
  Molting.ofFresh runs.skinnedO runs.skinnedC runs.string runs.freshM runs.outO runs.outC

theorem outcome (junk : Junk) : (molt junk oPath cPath mPath).wp
    (fun _ w₃ => MoltFits w₂.fs oPath cPath cmp mPath ∧
      (∀ p, w₃.fs.get (locate mPath ++ p) = moltTree w₂.fs oPath cPath cmp p) ∧
      ∀ q, ¬ locate mPath <+: q → w₃.fs.get q = w₂.fs.get q)
    (fun _ _ => ¬ MoltFits w₂.fs oPath cPath cmp mPath) w₂ :=
  molt_fresh_wp runs.molting junk rfl runs.freshM

theorem fits_of_ends {junk : Junk} {w₃ : World}
    (ended : (molt junk oPath cPath mPath).Ends w₂ () w₃) :
    MoltFits w₂.fs oPath cPath cmp mPath :=
  (Command.wp_ends (runs.outcome junk) ended).1

/-- The changed files, in terms of the two directories as they were skinned. -/
theorem changed_iff {p : List Name} : Changed w₂.fs oPath cPath p ↔
    p.all scandirFilter = true ∧ ∃ a b, w₀.fs.get (locate org ++ p) = some (.file a) ∧
      w₁.fs.get (locate cmp ++ p) = some (.file b) ∧ lib.digest a ≠ lib.digest b := by
  rw [← runs.cmp_kept]
  exact Molting.changed_iff (s := runs.molting)

end SkinRuns

/-- What a molt is to hold: the files that both skins have with different
    digests, with the new contents, and no directory but those above them. -/
structure MoltExact (fs : Fs) (oPath cPath cmp mPath : Bytes) (fs' : Fs) : Prop where
  file : ∀ p, (∃ data, fs'.get (locate mPath ++ p) = some (.file data)) ↔ Changed fs oPath cPath p
  content : ∀ p, Changed fs oPath cPath p →
    fs'.get (locate mPath ++ p) = fs.get (locate cmp ++ p)
  dir : ∀ p, p ≠ [] → fs'.get (locate mPath ++ p) = some .dir →
    ∃ q, q ≠ [] ∧ Changed fs oPath cPath (p ++ q)
  plain : ∀ p e, fs'.get (locate mPath ++ p) = some e → e.IsPlain

theorem moltExact_of_tree (s : Molting) {fs' : Fs}
    (tree : ∀ p, fs'.get (locate s.mPath ++ p) = s.want p) :
    MoltExact s.fs s.oPath s.cPath s.cmp s.mPath fs' := by
  have shape : ∀ p e, s.want p = some e → (s.Changed p ∧ ∃ data, e = .file data) ∨
      (¬ s.Changed p ∧ e = .dir ∧ (p = [] ∨ ∃ q, s.Changed (p ++ q))) := by
    intro p e wanted
    by_cases changed : s.Changed p
    · obtain ⟨data, _, file⟩ := Molting.want_changed changed
      rw [file] at wanted
      exact .inl ⟨changed, data, (Option.some.inj wanted).symm⟩
    · rw [Molting.want, moltTree, if_neg changed] at wanted
      split at wanted
      · rename_i above
        exact .inr ⟨changed, (Option.some.inj wanted).symm, above⟩
      · cases wanted
  constructor
  · intro p
    rw [tree]
    constructor
    · rintro ⟨data, isFile⟩
      cases shape p _ isFile with
      | inl copy => exact copy.1
      | inr other => cases other.2.1
    · intro changed
      obtain ⟨data, _, file⟩ := Molting.want_changed changed
      exact ⟨data, file⟩
  · intro p changed
    obtain ⟨data, isFile, file⟩ := Molting.want_changed changed
    rw [tree, file, isFile]
  · intro p nonempty isDir
    rw [tree] at isDir
    cases shape p _ isDir with
    | inl copy =>
        obtain ⟨data, wrong⟩ := copy.2
        cases wrong
    | inr above =>
        obtain ⟨q, deeper⟩ := above.2.2.resolve_left nonempty
        refine ⟨q, fun empty => above.1 ?_, deeper⟩
        rwa [empty, List.append_nil] at deeper
  · intro p e present
    rw [tree] at present
    cases shape p e present with
    | inl copy =>
        obtain ⟨data, rfl⟩ := copy.2
        trivial
    | inr above =>
        rw [above.2.1]
        trivial

/-- Everything fits in a tree whose locations print in at most 1000 bytes. -/
theorem moltFits_of_short {fs : Fs} {oPath cPath cmp mPath : Bytes}
    (short : ∀ l ∈ fs.support, (l.map fun x => x.bytes.length + 1).sum ≤ 1000)
    (shortCmp : cmp.length ≤ 1000) (shortM : mPath.length ≤ 1000) :
    MoltFits fs oPath cPath cmp mPath := by
  intro p _ inO _
  have bound := short _ (fs.listed _ inO)
  rw [List.map_append, List.sum_append] at bound
  have lengthM := length_extend mPath p
  have lengthCmp := length_extend cmp p
  refine ⟨by rw [BUFMAX]; omega, fun _ => ⟨fun _ => ?_, ?_⟩⟩
  · simp only [ShellCommand.line, List.length_append, ascii, BUFMAX]
    simp only [List.length_map, String.length_toList]
    have : ("mkdir -p $(dirname ".length, ")".length) = (19, 1) := rfl
    simp only [Prod.mk.injEq] at this
    omega
  · simp only [ShellCommand.line, List.length_append, ascii, BUFMAX]
    simp only [List.length_map, String.length_toList]
    have : ("cp ".length, " ".length) = (3, 1) := rfl
    simp only [Prod.mk.injEq] at this
    omega

/-! Two directories `/o` and `/c`, their skins `/p` and `/d`, and the molt `/m`. -/

def nameO : Name := sameByte 111 1 (by decide)

def nameP : Name := sameByte 112 1 (by decide)

def nameC : Name := sameByte 99 1 (by decide)

def nameD : Name := sameByte 100 1 (by decide)

def nameM : Name := sameByte 109 1 (by decide)

def nameG : Name := sameByte 103 1 (by decide)

/-- The world after a run of `skin`. -/
def skinWorld (fpath spath : Bytes) (w : World) : World := (skin plainMd5 zeroJunk fpath spath w).2

theorem skinWorld_ends {fpath spath : Bytes} {w : World}
    (ok : (skin plainMd5 zeroJunk fpath spath w).1 = .ok ()) :
    ∃ junk, (skin plainMd5 junk fpath spath).Ends w () (skinWorld fpath spath w) :=
  ⟨zeroJunk, Command.ends_of_ok ok⟩

/-- The world after a run of `molt`. -/
def moltWorld (oPath cPath mPath : Bytes) (w : World) : World :=
  (molt zeroJunk oPath cPath mPath w).2

/-- The molt of two skins is exact when every text fits its buffer, and is not
    completed otherwise. -/
theorem molt_exact_iff_fits (lib : Md5) (junk : Junk) (org oPath cmp cPath mPath : Bytes)
    (w₀ w₁ w₂ : World) (runs : SkinRuns lib org oPath cmp cPath mPath w₀ w₁ w₂) :
    (∃ w₃, (molt junk oPath cPath mPath).Ends w₂ () w₃ ∧
      MoltExact w₂.fs oPath cPath cmp mPath w₃.fs) ↔
    MoltFits w₂.fs oPath cPath cmp mPath := by
  have outcome := runs.outcome junk
  constructor
  · rintro ⟨w₃, ended, _⟩
    exact runs.fits_of_ends ended
  · intro fits
    obtain ⟨_, w₃, ended, done⟩ := Command.ends_of_unstopped outcome fun _ _ large => large fits
    exact ⟨w₃, ended, moltExact_of_tree runs.molting done.2.1⟩

/-- The runs of `skin` on `/o` and `/c` when both are directories of plain entries. -/
theorem skinRuns_flat {w w₁ w₂ : World} (dirO : w.fs.isDir (locate (child [] nameO)) = true)
    (plainO : allPlain w.fs = true) (freeP : w.fs.get (locate (child [] nameP)) = none)
    (runO : (skin plainMd5 zeroJunk (child [] nameO) (child [] nameP) w).1 = .ok ())
    (first : w₁ = skinWorld (child [] nameO) (child [] nameP) w)
    (dirC : w₁.fs.isDir (locate (child [] nameC)) = true) (plainC : allPlain w₁.fs = true)
    (freeD : w₁.fs.get (locate (child [] nameD)) = none)
    (runC : (skin plainMd5 zeroJunk (child [] nameC) (child [] nameD) w₁).1 = .ok ())
    (second : w₂ = skinWorld (child [] nameC) (child [] nameD) w₁)
    (freeM : w₂.fs.get (locate (child [] nameM)) = none) :
    SkinRuns plainMd5 (child [] nameO) (child [] nameP) (child [] nameC) (child [] nameD)
      (child [] nameM) w w₁ w₂ where
  sourceO := .of_allPlain dirO plainO
  freshO := ⟨freeP, [], nameP, by decide +kernel, w.fs.root⟩
  outsideO := by decide +kernel
  runO := first ▸ skinWorld_ends runO
  sourceC := .of_allPlain dirC plainC
  freshC := ⟨freeD, [], nameD, by decide +kernel, w₁.fs.root⟩
  outsideC := by decide +kernel
  apart := by decide +kernel
  string := by decide +kernel
  runC := second ▸ skinWorld_ends runC
  freshM := ⟨freeM, [], nameM, by decide +kernel, w₂.fs.root⟩
  outO := by decide +kernel
  outC := by decide +kernel

/-- The file `f` is in both directories, with other contents. -/
def oneChange : World := ⟨planted [([nameO, nameF], []), ([nameC, nameF], [1])], []⟩

def oneChangeO : World := skinWorld (child [] nameO) (child [] nameP) oneChange

def oneChangeC : World := skinWorld (child [] nameC) (child [] nameD) oneChangeO

def oneChangeM : World :=
  moltWorld (child [] nameP) (child [] nameD) (child [] nameM) oneChangeC

theorem oneChange_runs : SkinRuns plainMd5 (child [] nameO) (child [] nameP) (child [] nameC)
    (child [] nameD) (child [] nameM) oneChange oneChangeO oneChangeC :=
  skinRuns_flat (by decide +kernel) (by decide +kernel) (by decide +kernel) (by decide +kernel) rfl
    (by decide +kernel) (by decide +kernel) (by decide +kernel) (by decide +kernel) rfl
    (by decide +kernel)

theorem molt_exact_oneChange :
    ∃ w₃, (molt zeroJunk (child [] nameP) (child [] nameD) (child [] nameM)).Ends oneChangeC () w₃ ∧
      MoltExact oneChangeC.fs (child [] nameP) (child [] nameD) (child [] nameC)
        (child [] nameM) w₃.fs :=
  (molt_exact_iff_fits plainMd5 zeroJunk (child [] nameO) (child [] nameP) (child [] nameC)
    (child [] nameD) (child [] nameM) _ _ _ oneChange_runs).mpr
    (moltFits_of_short (by decide +kernel) (by decide) (by decide))

/-- Eight directories with names of 250 bytes. -/
def deepDir : Bytes := extend [] (List.replicate 8 longName)

def deepMolt : Bytes := child deepDir (sameByte 109 80 (by decide))

/-- The changed directory, its skin and its molt are side by side, deep down. -/
def deepChange : World :=
  ⟨planted [([nameO, nameF], []), (List.replicate 8 longName ++ [nameC, nameF], [1])], []⟩

def deepChangeO : World := skinWorld (child [] nameO) (child [] nameP) deepChange

def deepChangeC : World := skinWorld (child deepDir nameC) (child deepDir nameD) deepChangeO

theorem deepChange_runs : SkinRuns plainMd5 (child [] nameO) (child [] nameP)
    (child deepDir nameC) (child deepDir nameD) deepMolt deepChange deepChangeO deepChangeC where
  sourceO := .of_allPlain (by decide +kernel) (by decide +kernel)
  freshO := ⟨by decide +kernel, [], nameP, by decide +kernel, by decide +kernel⟩
  outsideO := by decide +kernel
  runO := skinWorld_ends (by decide +kernel)
  sourceC := .of_allPlain (by decide +kernel) (by decide +kernel)
  freshC := ⟨by decide +kernel, _, nameD, locate_child _ _, by decide +kernel⟩
  outsideC := by rw [locate_child, locate_child, List.prefix_append_right_inj]; decide
  apart := by decide +kernel
  string := by
    change 0 ∉ extend deepDir [nameC]
    exact zero_not_mem_extend (zero_not_mem_extend (by simp) _) _
  runC := skinWorld_ends (by decide +kernel)
  freshM := ⟨by decide +kernel, _, _, locate_child _ _, by decide +kernel⟩
  outO := by decide +kernel
  outC := by decide +kernel

/-- Both paths of the copy fit their buffers, the command line does not. -/
theorem molt_cp_line_overflows :
    SkinRuns plainMd5 (child [] nameO) (child [] nameP) (child deepDir nameC)
      (child deepDir nameD) deepMolt deepChange deepChangeO deepChangeC ∧
    ¬ ∃ w₃, (molt zeroJunk (child [] nameP) (child deepDir nameD) deepMolt).Ends deepChangeC () w₃ ∧
      MoltExact deepChangeC.fs (child [] nameP) (child deepDir nameD) (child deepDir nameC)
        deepMolt w₃.fs := by
  have runs := deepChange_runs
  refine ⟨runs, ?_⟩
  rintro ⟨w₃, ended, _⟩
  have fits := runs.fits_of_ends ended
  have old : deepChange.fs.get (locate (child [] nameO) ++ [nameF]) = some (.file []) := by
    decide +kernel
  have new : deepChangeO.fs.get (locate (child deepDir nameC) ++ [nameF]) = some (.file [1]) := by
    decide +kernel
  have changed := runs.changed_iff.mpr ⟨by decide, [], [1], old, new, by decide⟩
  have room := ((fits [nameF] (by simp) changed.common.1 changed.common.2).2 changed).2
  simp only [ShellCommand.line, ascii, deepMolt, deepDir,
    child, length_extend, List.length_append, List.length_cons, List.length_map,
    List.map_replicate, List.sum_replicate, List.map_cons, List.map_nil, List.sum_cons,
    List.sum_nil, smul_eq_mul, sameByte, longName, nameC, nameF, List.length_replicate,
    List.length_nil, BUFMAX] at room
  omega

/-- The file `f` is new, `g` is gone. -/
def oneNew : World := ⟨planted [([nameO, nameG], []), ([nameC, nameF], [1])], []⟩

def oneNewO : World := skinWorld (child [] nameO) (child [] nameP) oneNew

def oneNewC : World := skinWorld (child [] nameC) (child [] nameD) oneNewO

def oneNewM : World := moltWorld (child [] nameP) (child [] nameD) (child [] nameM) oneNewC

theorem oneNew_runs : SkinRuns plainMd5 (child [] nameO) (child [] nameP) (child [] nameC)
    (child [] nameD) (child [] nameM) oneNew oneNewO oneNewC :=
  skinRuns_flat (by decide +kernel) (by decide +kernel) (by decide +kernel) (by decide +kernel) rfl
    (by decide +kernel) (by decide +kernel) (by decide +kernel) (by decide +kernel) rfl
    (by decide +kernel)

end OslabProfiler.CompKernel

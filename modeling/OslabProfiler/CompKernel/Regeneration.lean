import OslabProfiler.CompKernel.Delta
import OslabProfiler.CompKernel.Footprint

/-! # Running skin and molt a second time

Both mains try to remove an old destination with `rmdir`, which fails when
there is something in it. From then on nothing is ever removed and nothing
changes its kind, whatever the run comes to, so a second run forgets the first
one exactly when every old entry is written again as what it was.
-/

namespace OslabProfiler.CompKernel

open Lib Lib.FileTree

/-- The file tree has only grown. -/
def GrowsFs (w w' : World) : Prop := Grows w.fs w'.fs

instance : Std.Refl GrowsFs := ⟨fun w => Grows.refl w.fs⟩

instance : IsTrans World GrowsFs := ⟨fun _ _ _ h h' => Grows.trans h h'⟩

section Growth

open Command

theorem system_grows (command : ShellCommand) : Always GrowsFs (system command) := by
  refine always_bind (always_sprintf _) fun _ w => ?_
  cases command with
  | mkdirDirname path => exact mkdirFrom_grows _ _ _
  | cp src dst => exact cp_grows _ _ _

theorem skinningDir_grows (lib : Md5) (junk : Junk) (n : Nat) (fpath spath : Bytes) :
    Always GrowsFs (skinningDir lib junk n fpath spath) :=
  (skinningDir_within lib junk n fpath spath).mono fun _ _ moved => moved.1

theorem moltingFile_grows (junk : Junk) (oPath cPath mPath : Bytes) :
    Always GrowsFs (moltingFile junk oPath cPath mPath) := by
  have reading : ∀ path, Always GrowsFs (readSkin junk path) := by
    intro path
    refine always_bind (always_contents _) fun data => ?_
    cases data <;> exact always_pure _
  refine always_bind (reading _) fun hashO => ?_
  refine always_bind (reading _) fun hashC => ?_
  dsimp only
  apply always_ite
  · exact always_pure _
  · refine always_bind (always_access _) fun exists_ => ?_
    exact always_ite (system_grows _) (always_bind (system_grows _) fun _ => system_grows _)

theorem moltingDir_grows (junk : Junk) (n : Nat) (oPath cPath mPath : Bytes) :
    Always GrowsFs (moltingDir junk n oPath cPath mPath) := by
  induction n generalizing oPath cPath mPath with
  | zero => exact always_stop _
  | succ n ih =>
      unfold moltingDir
      refine always_bind (always_scandir _) fun oFilelist => ?_
      cases oFilelist with
      | none => exact always_pure _
      | some oNames =>
          refine always_bind (always_scandir _) fun cFilelist => ?_
          cases cFilelist with
          | none => exact always_pure _
          | some cNames =>
              refine always_bind (always_fold (fun stats names => ?_) _ _) fun _ => always_pure _
              refine always_bind (always_sprintf _) fun tmpO => ?_
              refine always_bind (always_sprintf _) fun tmpC => ?_
              refine always_bind (always_stat _ _) fun oStat => ?_
              refine always_bind (always_stat _ _) fun cStat => ?_
              refine always_ite ?_ (always_pure _)
              refine always_bind (always_sprintf _) fun tmpM => ?_
              apply always_ite
              · exact always_bind (ih _ _ _) fun _ => always_pure _
              · apply always_ite
                · exact always_bind (moltingFile_grows _ _ _ _) fun _ => always_pure _
                · exact always_pure _

end Growth

/-- The same system, but for an earlier destination directory and what is in it. -/
structure Earlier (w wOld : World) (path : Bytes) : Prop where
  same : ∀ q, ¬ locate path <+: q → wOld.fs.get q = w.fs.get q
  isDir : wOld.fs.get (locate path) = some .dir

/-- The tree at a path is the same in both. -/
def SameAt (path : Bytes) (w w' : World) : Prop :=
  ∀ p, w.fs.get (locate path ++ p) = w'.fs.get (locate path ++ p)

/-- Every old entry is in the tree that is to be written, as the same kind of thing. -/
def Overwritten (path : Bytes) (wOld : World) (tree : List Name → Option (Entry Bytes)) : Prop :=
  ∀ p e, wOld.fs.get (locate path ++ p) = some e → ∃ e', tree p = some e' ∧ e'.kind = e.kind

/-- No entry of the destination is lost or changes its kind when it is filled
    again by something that only grows the tree. -/
theorem refill_grows {fill : Prog Unit} (grows : Command.Always GrowsFs fill) {path : Bytes}
    {wOld w' : World} {tree : List Name → Option (Entry Bytes)}
    (isDir : wOld.fs.get (locate path) = some .dir)
    {d : List Name} {x : Name} (place : locate path = d ++ [x])
    (new : ∀ p, w'.fs.get (locate path ++ p) = tree p)
    (result : SameAt path (((freshDir path) >>= fun _ => fill) wOld).2 w') :
    Overwritten path wOld tree := by
  have above : wOld.fs.get d = some .dir := by
    apply wOld.fs.parent d x
    rw [← place, isDir]
    simp
  have kept : ((freshDir path) >>= fun _ => fill).wp
      (fun _ w => GrowsFs wOld w) (fun _ w => GrowsFs wOld w) wOld := by
    rw [Command.wp_bind]
    apply Command.wp_mono (freshDir_wp place above (fun e present => by
      rw [← place, isDir] at present
      exact (Option.some.inj present).symm)) _ (fun _ _ h => h)
    intro _ w₁ made
    have first : GrowsFs wOld w₁ := by
      intro q e present
      refine ⟨e, ?_, rfl⟩
      rw [made]
      split
      · rename_i here
        rw [here, ← place, isDir] at present
        exact present
      · exact present
    exact Command.wp_mono grows.wp (fun _ _ h => Grows.trans first h)
      (fun _ _ h => Grows.trans first h)
  intro p e present
  obtain ⟨e', there, kind⟩ := Command.wp_final kept _ e present
  exact ⟨e', by rw [← new, ← result p, there], kind⟩

/-- Where every old entry is overwritten, a tree laid over the old one is all
    there is. -/
theorem sameAt_of_laid {path : Bytes} {wOld w' w'' : World} {tree : List Name → Option (Entry Bytes)}
    (overwritten : Overwritten path wOld tree) (new : ∀ p, w'.fs.get (locate path ++ p) = tree p)
    (laid : ∀ p, w''.fs.get (locate path ++ p) = (tree p).or (wOld.fs.get (locate path ++ p))) :
    SameAt path w'' w' := by
  intro p
  rw [laid, new]
  cases wanted : tree p with
  | some e => rfl
  | none =>
      cases present : wOld.fs.get (locate path ++ p) with
      | none => rfl
      | some e =>
          obtain ⟨e', there, _⟩ := overwritten p e present
          rw [wanted] at there
          cases there

theorem Overwritten.compatible {path : Bytes} {wOld : World}
    {tree : List Name → Option (Entry Bytes)} (overwritten : Overwritten path wOld tree)
    (p : List Name) (e e' : Entry Bytes) (present : wOld.fs.get (locate path ++ p) = some e)
    (wanted : tree p = some e') : e.kind = e'.kind := by
  obtain ⟨e'', there, kind⟩ := overwritten p e present
  rw [wanted] at there
  rw [← kind, Option.some.inj there]

theorem Earlier.above {w wOld : World} {path : Bytes} (earlier : Earlier w wOld path)
    {d : List Name} {x : Name} (place : locate path = d ++ [x]) : wOld.fs.get d = some .dir := by
  apply wOld.fs.parent d x
  rw [← place, earlier.isDir]
  simp

/-- `skin` over an earlier skin, against `skin` where nothing was. -/
theorem skin_again_iff (lib : Md5) (junk junk' : Junk) {w wOld : World} {fpath spath : Bytes}
    (source : Source w.fs fpath) (fresh : FreshPlace w.fs spath)
    (outside : ¬ locate fpath <+: locate spath) (fits : SkinFits w.fs fpath spath)
    (earlier : Earlier w wOld spath) :
    ∃ w', (skin lib junk fpath spath).Ends w () w' ∧
      (SameAt spath (skin lib junk' fpath spath wOld).2 w' ↔
        Overwritten spath wOld (mirror lib w.fs fpath)) := by
  obtain ⟨d, x, place, _⟩ := fresh.parent
  have apart : Apart (locate spath) (locate fpath) :=
    ⟨fresh.not_above (by simp [source.root]), outside⟩
  obtain ⟨_, w', ended, _, tree, _⟩ := Command.ends_of_unstopped
    (skin_fresh_wp lib junk source fresh outside) fun _ _ large => large fits
  have skinned : Skinned lib w.fs w'.fs fpath spath := ⟨source, tree, fits⟩
  have current := skinned.current fun p => earlier.same _ (apart.outside p)
  have same : mirror lib wOld.fs fpath = mirror lib w.fs fpath :=
    funext fun p => (current.tree p).symm.trans (tree p)
  refine ⟨w', ended,
    refill_grows (skinningDir_grows lib junk' BUFMAX fpath spath) earlier.isDir place tree, ?_⟩
  intro overwritten
  rw [← same] at overwritten
  let s : Skinning := {
    lib := lib
    fs := wOld.fs
    fpath := fpath
    spath := spath
    source := current.source
    apart := apart
    compatible := overwritten.compatible }
  obtain ⟨_, w'', again, done⟩ := Command.ends_of_unstopped
    (skin_wp s junk' rfl place (earlier.above place)) fun _ _ large => large current.fits
  have final : (skin lib junk' fpath spath wOld).2 = w'' := congrArg Prod.snd again
  rw [final]
  exact sameAt_of_laid overwritten current.tree done.2.1

theorem Changed.congr {fs fs' : Fs} {oPath cPath : Bytes} {p : List Name}
    (sameO : fs'.get (locate oPath ++ p) = fs.get (locate oPath ++ p))
    (sameC : fs'.get (locate cPath ++ p) = fs.get (locate cPath ++ p)) :
    Changed fs' oPath cPath p ↔ Changed fs oPath cPath p := by
  simp only [Changed, sameO, sameC]

theorem moltTree_congr {fs fs' : Fs} {oPath cPath cmp : Bytes}
    (sameO : ∀ p, fs'.get (locate oPath ++ p) = fs.get (locate oPath ++ p))
    (sameC : ∀ p, fs'.get (locate cPath ++ p) = fs.get (locate cPath ++ p))
    (sameCmp : ∀ p, fs'.get (locate cmp ++ p) = fs.get (locate cmp ++ p)) :
    moltTree fs' oPath cPath cmp = moltTree fs oPath cPath cmp := by
  have changed : Changed fs' oPath cPath = Changed fs oPath cPath :=
    funext fun p => propext (Changed.congr (sameO p) (sameC p))
  funext p
  rw [moltTree, moltTree, changed, sameCmp]

/-- What fits where nothing was fits over an earlier molt. -/
theorem MoltFits.over_earlier {fs fs' : Fs} {oPath cPath cmp mPath : Bytes}
    (fits : MoltFits fs oPath cPath cmp mPath)
    (empty : ∀ p, fs.get (locate mPath ++ p) = none)
    (sameO : ∀ p, fs'.get (locate oPath ++ p) = fs.get (locate oPath ++ p))
    (sameC : ∀ p, fs'.get (locate cPath ++ p) = fs.get (locate cPath ++ p)) :
    MoltFits fs' oPath cPath cmp mPath := by
  intro p nonempty inO inC
  rw [sameO] at inO
  rw [sameC] at inC
  obtain ⟨room, lines⟩ := fits p nonempty inO inC
  refine ⟨room, fun changed => ?_⟩
  obtain ⟨mkdirFits, cpFits⟩ := lines ((Changed.congr (sameO p) (sameC p)).mp changed)
  exact ⟨fun _ => mkdirFits (empty p), cpFits⟩

/-- `molt` over an earlier molt, against `molt` where nothing was. -/
theorem molt_again_iff (lib : Md5) (junk junk' : Junk) {org oPath cmp cPath mPath : Bytes}
    {w₀ w₁ w₂ wOld : World} (runs : SkinRuns lib org oPath cmp cPath mPath w₀ w₁ w₂)
    (outside : ¬ locate cmp <+: locate mPath) (fits : MoltFits w₂.fs oPath cPath cmp mPath)
    (earlier : Earlier w₂ wOld mPath) :
    ∃ w₃, (molt junk oPath cPath mPath).Ends w₂ () w₃ ∧
      (SameAt mPath (molt junk' oPath cPath mPath wOld).2 w₃ ↔
        Overwritten mPath wOld (moltTree w₂.fs oPath cPath cmp)) := by
  obtain ⟨d, x, place, _⟩ := runs.freshM.parent
  obtain ⟨_, w₃, ended, _, new, _⟩ :=
    Command.ends_of_unstopped (runs.outcome junk) fun _ _ large => large fits
  have apartO : Apart (locate mPath) (locate oPath) := runs.molting.apartO
  have apartC : Apart (locate mPath) (locate cPath) := runs.molting.apartC
  have apartCmp : Apart (locate mPath) (locate cmp) :=
    ⟨runs.freshM.not_above (by simp [runs.skinnedC.source.root]), outside⟩
  have sameO := fun p => earlier.same _ (apartO.outside p)
  have sameC := fun p => earlier.same _ (apartC.outside p)
  have sameCmp := fun p => earlier.same _ (apartCmp.outside p)
  refine ⟨w₃, ended,
    refill_grows (moltingDir_grows junk' BUFMAX oPath cPath mPath) earlier.isDir place new, ?_⟩
  rw [← moltTree_congr sameO sameC sameCmp] at new ⊢
  intro overwritten
  let s : Molting := {
    lib := lib
    old := w₀.fs
    fs := wOld.fs
    org := org
    cmp := cmp
    oPath := oPath
    cPath := cPath
    mPath := mPath
    skinO := runs.skinnedO.kept sameO
    skinC := (runs.skinnedC.kept sameC).current sameCmp
    string := runs.string
    apartO := apartO
    apartC := apartC
    outside := fun p _ _ => apartCmp.outside p
    compatible := overwritten.compatible }
  obtain ⟨_, w'', again, done⟩ := Command.ends_of_unstopped
    (molt_wp s junk' rfl place (earlier.above place)) fun _ _ large =>
      large (fits.over_earlier runs.freshM.empty sameO sameC)
  have final : (molt junk' oPath cPath mPath wOld).2 = w'' := congrArg Prod.snd again
  rw [final]
  exact sameAt_of_laid overwritten new done.2.1

theorem Earlier.of_supports {w wOld : World} {path : Bytes}
    (same : ∀ q ∈ w.fs.support ++ wOld.fs.support, ¬ locate path <+: q →
      wOld.fs.get q = w.fs.get q)
    (isDir : wOld.fs.isDir (locate path) = true) : Earlier w wOld path where
  same q outside := by
    by_cases listed : q ∈ w.fs.support ++ wOld.fs.support
    · exact same q listed outside
    · have absent : ∀ fs : Fs, q ∉ fs.support → fs.get q = none := by
        intro fs unlisted
        by_contra present
        exact unlisted (fs.listed q present)
      rw [List.mem_append, not_or] at listed
      rw [absent _ listed.1, absent _ listed.2]
  isDir := isDir_iff.mp isDir

/-- The condition, checked on the old entries. -/
theorem Overwritten.of_support {path : Bytes} {wOld : World}
    {tree : List Name → Option (Entry Bytes)}
    (each : ∀ l ∈ wOld.fs.support, locate path <+: l →
      (tree (l.drop (locate path).length)).map Entry.kind = (wOld.fs.get l).map Entry.kind) :
    Overwritten path wOld tree := by
  intro p e present
  have kinds := each _ (wOld.fs.listed _ (by simp [present])) (List.prefix_append _ p)
  rw [List.drop_left, present, Option.map_some, Option.map_eq_some_iff] at kinds
  exact kinds

/-- The directories `/o` and `/c`, and a file left in the place of the skin of `/o`. -/
def leftInSkin (x : Name) : World :=
  ⟨planted [([nameO, nameF], []), ([nameC, nameF], [1]), ([nameP, x], [7])], []⟩

/-- The two skins, and a file left in the place of the molt. -/
def leftInMolt (x : Name) : World :=
  { oneChangeC with
    fs := ((oneChangeC.fs.mkdir [nameM]).write [nameM, x] [7]).getD oneChangeC.fs }

end OslabProfiler.CompKernel

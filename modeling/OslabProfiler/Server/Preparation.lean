import OslabProfiler.CompKernel.SkinGuard
import OslabProfiler.Server.ComparisonPage

/-! # Preparing the versions, in any order

Before two versions can be compared, `skin` has to be run on the original and on the versions,
and `molt` on the skins, with the paths that the server will derive. Nobody keeps a record of
what was run. The programs find out from the tree: `molt` refuses to start without its two
skins, `ssu_diff` without the molts and the skins.

The abstract model is the set of the directories that have been made. Every run of a program
adds at most one directory to it, whatever was run before and however often, and what is in a
directory is determined by the kernels alone. So the order of the runs does not matter.
-/

namespace OslabProfiler.Server

open Lib CompKernel

/-! ## The layout -/

/-- The directories that hold a kernel. -/
inductive KernelDir where
  | org
  | version (n : Nat)
  deriving DecidableEq

/-- The directories in each of them. -/
inductive Part where
  | source
  | skin
  | molt
  deriving DecidableEq

theorem slash_not_mem_asciiDigits (n : Nat) : slash ∉ asciiBytes (Nat.toDigits 10 n) := by
  intro member
  obtain ⟨c, inside, same⟩ := List.mem_map.mp member
  have code := code_pathChar (List.all_eq_true.mp (pathChars_digits n) c inside)
  have value := congrArg Fin.val same
  rw [Utf8.byteOf_val (by omega)] at value
  have isSlash : c = '/' := Char.toNat_inj.mp value
  have digit := digit_of_mem inside
  rw [isSlash] at digit
  cases digit

/-- A letter and digits make a name. -/
theorem isName_version (n : Nat) : CompKernel.IsName (asciiBytes ('V' :: Nat.toDigits 10 n)) := by
  have letter : asciiBytes ('V' :: Nat.toDigits 10 n) = 86 :: asciiBytes (Nat.toDigits 10 n) := rfl
  have noNul := not_mem_asciiBytes (b := 0) (pathChars_digits n) (by decide)
  rw [letter]
  refine ⟨List.cons_ne_nil _ _, ?_, ?_, ?_, ?_⟩
  · exact List.not_mem_cons_of_ne_of_not_mem (by decide) (slash_not_mem_asciiDigits n)
  · exact List.not_mem_cons_of_ne_of_not_mem (by decide) noNul
  · intro same
    cases (List.cons.inj same).1
  · intro same
    cases (List.cons.inj same).1

/-- The name of the directory of a kernel. -/
def KernelDir.entry : KernelDir → Name
  | .org => ⟨ascii "ORG", by decide⟩
  | .version n => ⟨asciiBytes ('V' :: Nat.toDigits 10 n), isName_version n⟩

def Part.entry : Part → Name
  | .source => ⟨ascii "kernel-source", by decide⟩
  | .skin => ⟨ascii "kernel-source__skin", by decide⟩
  | .molt => ⟨ascii "kernel-source__molt", by decide⟩

def KernelDir.dir (k : KernelDir) : Bytes := child (asciiBytes kernelDirPath) k.entry

def KernelDir.path (k : KernelDir) (part : Part) : Bytes := child k.dir part.entry

theorem KernelDir.entry_injective : Function.Injective KernelDir.entry := by
  intro k k' same
  have bytes := congrArg Name.bytes same
  cases k with
  | org =>
      cases k' with
      | org => rfl
      | version n => cases (List.cons.inj bytes).1
  | version n =>
      cases k' with
      | org => cases (List.cons.inj bytes).1
      | version m =>
          have digits := congrArg Utf8.decode (List.cons.inj bytes).2
          change Utf8.decode (asciiBytes _) = Utf8.decode (asciiBytes _) at digits
          rw [decode_asciiBytes (pathChars_digits n), decode_asciiBytes (pathChars_digits m)]
            at digits
          have number := congrArg (Nat.ofDigitChars 10 · 0) digits
          simp only [Nat.ofDigitChars_ten_toDigits] at number
          rw [number]

theorem Part.entry_injective : Function.Injective Part.entry := by
  intro part part' same
  have bytes := congrArg Name.bytes same
  revert bytes
  cases part <;> cases part' <;> decide

/-- Where the kernels are. -/
def kernelsAt : List Name := locate (asciiBytes kernelDirPath)

theorem locate_dir (k : KernelDir) : locate k.dir = kernelsAt ++ [k.entry] := locate_child _ _

theorem locate_path (k : KernelDir) (part : Part) :
    locate (k.path part) = kernelsAt ++ [k.entry] ++ [part.entry] := by
  rw [KernelDir.path, locate_child, locate_dir]

/-- Different directories of the layout lie apart. -/
theorem apart_paths {k k' : KernelDir} {part part' : Part} (other : (k, part) ≠ (k', part')) :
    FileTree.Apart (locate (k.path part)) (locate (k'.path part')) := by
  have distinct : locate (k.path part) ≠ locate (k'.path part') := by
    intro same
    rw [locate_path, locate_path] at same
    obtain ⟨upper, last⟩ := List.append_inj' same rfl
    obtain ⟨-, first⟩ := List.append_inj' upper rfl
    apply other
    rw [KernelDir.entry_injective (List.cons.inj first).1,
      Part.entry_injective (List.cons.inj last).1]
  have length : (locate (k.path part)).length = (locate (k'.path part')).length := by
    simp [locate_path]
  exact ⟨fun above => distinct (above.eq_of_length length),
    fun above => distinct (above.eq_of_length length.symm).symm⟩

theorem path_skin (k : KernelDir) : k.path .skin = k.path .source ++ ascii "__skin" := by
  have name : Part.skin.entry.bytes = Part.source.entry.bytes ++ ascii "__skin" := by decide
  rw [KernelDir.path, KernelDir.path, child, child, name, List.append_assoc, List.cons_append]

theorem path_molt (k : KernelDir) : k.path .molt = k.path .source ++ ascii "__molt" := by
  have name : Part.molt.entry.bytes = Part.source.entry.bytes ++ ascii "__molt" := by decide
  rw [KernelDir.path, KernelDir.path, child, child, name, List.append_assoc, List.cons_append]

theorem path_org : KernelDir.org.path .source = orgOf := by decide

theorem path_version (n : Nat) : (KernelDir.version n).path .source = sourceOf n := by
  have literals : asciiBytes "/V".toList = [slash, 86] ∧
      asciiBytes "/kernel-source".toList = slash :: Part.source.entry.bytes := by decide
  have letter : (KernelDir.version n).entry.bytes = 86 :: asciiBytes (Nat.toDigits 10 n) := rfl
  have pieces : sourceOf n = asciiBytes kernelDirPath ++ asciiBytes "/V".toList ++
      asciiBytes (Nat.toDigits 10 n) ++ asciiBytes "/kernel-source".toList := by
    simp only [sourceOf, versionBase, asciiBytes, List.map_append]
  rw [pieces, literals.1, literals.2, KernelDir.path, KernelDir.dir, child, child, letter]
  simp

/-! ## The programs -/

theorem zero_not_mem_kernelDirPath : 0 ∉ asciiBytes kernelDirPath :=
  not_mem_asciiBytes (by decide) (by decide)

def KernelDir.dirArg (k : KernelDir) : Arg :=
  ⟨k.dir, zero_not_mem_extend zero_not_mem_kernelDirPath [k.entry]⟩

def KernelDir.arg (k : KernelDir) (part : Part) : Arg :=
  ⟨k.path part, zero_not_mem_extend zero_not_mem_kernelDirPath [k.entry, part.entry]⟩

/-- The runs that prepare a comparison. -/
inductive Preparation where
  /-- `skin K/kernel-source K` -/
  | skin (k : KernelDir)
  /-- `molt ORG/kernel-source__skin K/kernel-source__skin` -/
  | molt (k : KernelDir)

def Preparation.main (lib : Md5) (junk : Junk) (cwd : List Name) : Preparation → Prog Unit
  | .skin k => skinMain lib junk cwd [k.arg .source, k.dirArg]
  | .molt k => moltMain junk cwd [KernelDir.org.arg .skin, k.arg .skin]

/-- A program is run and comes to its end, or refuses to start and leaves everything as it is. -/
inductive Prepares (lib : Md5) : World → World → Prop
  | ended {w w' : World} (c : Preparation) (junk : Junk) (cwd : List Name)
      (run : (c.main lib junk cwd).Ends w () w') : Prepares lib w w'
  | refused {w : World} (c : Preparation) (junk : Junk) (cwd : List Name) (status : Nat)
      (run : c.main lib junk cwd w = (.error (.exit status), w)) : Prepares lib w w

theorem head_child {path : Bytes} (absolutely : path.head? = some slash) (x : Name) :
    (child path x).head? = some slash := by
  rw [child, List.head?_append, absolutely, Option.some_or]

theorem head_dir (k : KernelDir) : k.dir.head? = some slash := head_child (by decide) _

theorem head_path (k : KernelDir) (part : Part) : (k.path part).head? = some slash :=
  head_child (head_dir k) _

/-- What `main` has checked of an absolute path. -/
theorem isDir_of_accepted {w : World} {cwd : List Name} {args : List Arg}
    (accepted : Accepted w cwd args) {arg : Arg} (member : arg ∈ args)
    (absolutely : arg.bytes.head? = some slash) : w.fs.get (locate arg.bytes) = some .dir := by
  obtain ⟨l, led, isDir⟩ := Option.bind_eq_some_iff.mp (accepted arg member)
  have place := locate_absolute led
  rw [absolute_of_slash absolutely] at place
  rw [place]
  cases there : w.fs.get l with
  | none =>
      rw [there] at isDir
      cases isDir
  | some e =>
      rw [there] at isDir
      cases e with
      | dir => rfl
      | file data => cases isDir
      | locked => cases isDir
      | dangling => cases isDir

theorem wp_run {α : Type} (c : Prog α) (w : World) :
    c.wp (fun a w' => c.Ends w a w') (fun _ _ => True) w := by
  rw [Command.wp]
  split
  case h_1 ends => exact ends
  case h_2 => trivial

theorem filename_path (k : KernelDir) (part : Part) : filename (k.path part) = part.entry.bytes := by
  have last := strrchr_append k.dir part.entry.valid.2.1
  have behind : (k.dir ++ slash :: part.entry.bytes).drop (k.dir.length + 1) = part.entry.bytes := by
    simp
  rw [KernelDir.path, child, filename, last]
  exact behind

theorem skinPath_path (k : KernelDir) : skinPath (k.path .source) k.dir = k.path .skin := by
  have literal : ascii "/" = [slash] := by decide
  rw [skinPath, filename_path, path_skin, KernelDir.path, child, literal]
  simp

theorem Preparation.skin_ended {lib : Md5} {junk : Junk} {cwd : List Name} {k : KernelDir}
    {w w' : World} (ended : ((Preparation.skin k).main lib junk cwd).Ends w () w') :
    w.fs.get (locate (k.path .source)) = some .dir ∧
      (CompKernel.skin lib junk (k.path .source) (k.path .skin)).Ends w () w' := by
  have source : absolute w.fs cwd (k.arg .source).bytes = k.path .source :=
    absolute_of_slash (head_path k .source)
  have dir : absolute w.fs cwd k.dirArg.bytes = k.dir := absolute_of_slash (head_dir k)
  have target : k.dir ++ ascii "/" ++ filename (k.path .source) ++ ascii "__skin" = k.path .skin :=
    skinPath_path k
  have outcome : ((Preparation.skin k).main lib junk cwd).wp
      (fun _ w' => w.fs.get (locate (k.path .source)) = some .dir ∧
        (CompKernel.skin lib junk (k.path .source) (k.path .skin)).Ends w () w')
      (fun _ _ => True) w := by
    simp only [Preparation.main, skinMain, skinPaths, Command.wp_bind, wp_checkDirs,
      wp_makeAbsolute, source, dir, target, Command.wp_ite, CompKernel.exit, Command.wp_stop,
      wp_sprintf, Command.wp_pure, implies_true, and_true, true_and]
    intro accepted _ _ _ _
    have isDir := isDir_of_accepted accepted List.mem_cons_self (head_path k .source)
    exact Command.wp_mono (wp_run _ w) (fun _ _ ends => ⟨isDir, ends⟩) (fun _ _ h => h)
  have final := Command.wp_ends outcome ended
  exact final

theorem Preparation.molt_ended {lib : Md5} {junk : Junk} {cwd : List Name} {k : KernelDir}
    {w w' : World} (ended : ((Preparation.molt k).main lib junk cwd).Ends w () w') :
    w.fs.get (locate (KernelDir.org.path .skin)) = some .dir ∧
      w.fs.get (locate (k.path .skin)) = some .dir ∧
      (CompKernel.molt junk (KernelDir.org.path .skin) (k.path .skin) (k.path .molt)).Ends
        w () w' := by
  have skin : ∀ k, absolute w.fs cwd (KernelDir.arg k .skin).bytes = k.path .skin :=
    fun k => absolute_of_slash (head_path k .skin)
  have cut : cutName (k.path .skin) = pure (k.path .source) := by
    rw [path_skin]
    exact cutName_append _ (ascii "skin") (by decide)
  have outcome : ((Preparation.molt k).main lib junk cwd).wp
      (fun _ w' => w.fs.get (locate (KernelDir.org.path .skin)) = some .dir ∧
        w.fs.get (locate (k.path .skin)) = some .dir ∧
        (CompKernel.molt junk (KernelDir.org.path .skin) (k.path .skin) (k.path .molt)).Ends
          w () w')
      (fun _ _ => True) w := by
    simp only [Preparation.main, moltMain, moltPaths, Command.wp_bind, wp_checkDirs,
      wp_makeAbsolute, skin, wp_deriveName cut, ← path_molt, Command.wp_pure,
      implies_true, and_true]
    intro accepted _ _ _
    have isDirO := isDir_of_accepted accepted List.mem_cons_self (head_path .org .skin)
    have isDirK := isDir_of_accepted accepted (List.mem_cons_of_mem _ List.mem_cons_self)
      (head_path k .skin)
    exact Command.wp_mono (wp_run _ w) (fun _ _ ends => ⟨isDirO, isDirK, ends⟩) (fun _ _ h => h)
  have final := Command.wp_ends outcome ended
  exact final

/-- Without its skins `molt` refuses to start. -/
theorem Preparation.molt_refused {k : KernelDir} {w : World}
    (absent : w.fs.get (locate (KernelDir.org.path .skin)) ≠ some .dir ∨
      w.fs.get (locate (k.path .skin)) ≠ some .dir) (lib : Md5) (junk : Junk) (cwd : List Name) :
    (Preparation.molt k).main lib junk cwd w = (.error (.exit 1), w) := by
  have outcome : ((Preparation.molt k).main lib junk cwd).wp (fun _ _ => False)
      (fun e w' => e = .exit 1 ∧ w' = w) w := by
    simp only [Preparation.main, moltMain, moltPaths, Command.wp_bind, wp_checkDirs]
    refine ⟨fun accepted => ?_, fun _ => by simp⟩
    have isDirO := isDir_of_accepted accepted List.mem_cons_self (head_path .org .skin)
    have isDirK := isDir_of_accepted accepted (List.mem_cons_of_mem _ List.mem_cons_self)
      (head_path k .skin)
    cases absent with
    | inl noOrg => exact (noOrg isDirO).elim
    | inr noSkin => exact (noSkin isDirK).elim
  obtain ⟨e, stopped, rfl, same⟩ := Command.stops_of_wp outcome
  exact Prod.ext stopped same

/-! ## What belongs into the directories -/

open Classical in
/-- The files in which a version differs, as the version has them, and the directories above. -/
noncomputable def deltaTree (lib : Md5) (fs : Fs) (org v : Bytes) (p : List Name) :
    Option (Lib.Entry Bytes) :=
  if Differs lib fs org v p then fs.get (locate v ++ p)
  else if p = [] ∨ ∃ q, Differs lib fs org v (p ++ q) then some .dir
  else none

/-- The tree of a directory, told by the kernels. -/
noncomputable def treeOf (lib : Md5) (fs : Fs) (k : KernelDir) : Part → List Name →
    Option (Lib.Entry Bytes)
  | .source => fun p => fs.get (locate (k.path .source) ++ p)
  | .skin => mirror lib fs (k.path .source)
  | .molt => deltaTree lib fs (KernelDir.org.path .source) (k.path .source)

/-- The directories that are there: a skin has its source, a molt its two skins. -/
structure Progress where
  made : Set (KernelDir × Part)
  source : ∀ {k}, (k, Part.skin) ∈ made → (k, Part.source) ∈ made
  skins : ∀ {k}, (k, Part.molt) ∈ made → (KernelDir.org, Part.skin) ∈ made ∧ (k, Part.skin) ∈ made

namespace Progress

def addSkin (s : Progress) (k : KernelDir) (there : (k, Part.source) ∈ s.made) : Progress where
  made := insert (k, .skin) s.made
  source := by
    intro k' member
    simp only [Set.mem_insert_iff, Prod.mk.injEq, and_true, reduceCtorEq, and_false,
      false_or] at member ⊢
    cases member with
    | inl same => rwa [same]
    | inr old => exact s.source old
  skins := by
    intro k' member
    simp only [Set.mem_insert_iff, Prod.mk.injEq, reduceCtorEq, and_false, false_or] at member
    exact ⟨.inr (s.skins member).1, .inr (s.skins member).2⟩

def addMolt (s : Progress) (k : KernelDir) (org : (KernelDir.org, Part.skin) ∈ s.made)
    (there : (k, Part.skin) ∈ s.made) : Progress where
  made := insert (k, .molt) s.made
  source := by
    intro k' member
    simp only [Set.mem_insert_iff, Prod.mk.injEq, reduceCtorEq, and_false, false_or] at member
    exact .inr (s.source member)
  skins := by
    intro k' member
    simp only [Set.mem_insert_iff, Prod.mk.injEq, and_true] at member
    cases member with
    | inl same => exact ⟨.inr org, .inr (same ▸ there)⟩
    | inr old => exact ⟨.inr (s.skins old).1, .inr (s.skins old).2⟩

/-- What a run of a program does to the directories. -/
inductive Step : Progress → Progress → Prop
  | skin (s : Progress) (k : KernelDir) (there : (k, Part.source) ∈ s.made) :
      Step s (s.addSkin k there)
  | molt (s : Progress) (k : KernelDir) (org : (KernelDir.org, Part.skin) ∈ s.made)
      (there : (k, Part.skin) ∈ s.made) : Step s (s.addMolt k org there)
  | refused (s : Progress) : Step s s

end Progress

/-- The tree has the directories that have been made, each with what belongs into it when the
    kernels are those of `fs₀`. -/
structure Laid (lib : Md5) (fs₀ : Fs) (s : Progress) (fs : Fs) : Prop where
  tree : ∀ {k part}, (k, part) ∈ s.made → ∀ p,
    fs.get (locate (k.path part) ++ p) = treeOf lib fs₀ k part p
  missing : ∀ {k part}, (k, part) ∉ s.made → fs.get (locate (k.path part)) = none
  plain : ∀ {k}, (k, Part.source) ∈ s.made → Source fs₀ (k.path .source)
  fits : ∀ {k}, (k, Part.skin) ∈ s.made → SkinFits fs₀ (k.path .source) (k.path .skin)

theorem changed_iff_differs {lib : Md5} {src fs : Fs} {org v oPath cPath : Bytes}
    (skinO : Skinned lib src fs org oPath) (skinC : Skinned lib src fs v cPath) {p : List Name} :
    Changed fs oPath cPath p ↔ Differs lib src org v p := by
  constructor
  · rintro ⟨r, r', fileO, fileC, stored⟩
    obtain ⟨clean, a, isA, rfl⟩ := skinO.file_iff.mp fileO
    obtain ⟨_, b, isB, rfl⟩ := skinC.file_iff.mp fileC
    exact ⟨clean, a, b, isA, isB, (storedHash_eq_iff _ _ _ _ _).not.mp stored⟩
  · rintro ⟨clean, a, b, isA, isB, different⟩
    exact ⟨_, _, skinO.file_iff.mpr ⟨clean, a, isA, rfl⟩, skinC.file_iff.mpr ⟨clean, b, isB, rfl⟩,
      (storedHash_eq_iff _ _ _ _ _).not.mpr different⟩

/-- What `molt` writes is told by the kernels that the skins were made of. -/
theorem moltTree_eq_deltaTree {lib : Md5} {src fs : Fs} {org v oPath cPath : Bytes}
    (skinO : Skinned lib src fs org oPath) (skinC : Skinned lib src fs v cPath)
    (same : ∀ p, fs.get (locate v ++ p) = src.get (locate v ++ p)) :
    moltTree fs oPath cPath v = deltaTree lib src org v := by
  have changed : Changed fs oPath cPath = Differs lib src org v :=
    funext fun p => propext (changed_iff_differs skinO skinC)
  funext p
  rw [moltTree, deltaTree, changed, same]

namespace Laid

variable {lib : Md5} {fs₀ fs fs' : Fs} {s : Progress} {k : KernelDir} {part : Part}

theorem made_of_present (laid : Laid lib fs₀ s fs)
    (present : fs.get (locate (k.path part)) = some .dir) : (k, part) ∈ s.made := by
  by_contra absent
  rw [laid.missing absent] at present
  cases present

theorem source_kept (laid : Laid lib fs₀ s fs) (there : (k, Part.source) ∈ s.made)
    (p : List Name) :
    fs.get (locate (k.path .source) ++ p) = fs₀.get (locate (k.path .source) ++ p) :=
  laid.tree there p

theorem source (laid : Laid lib fs₀ s fs) (there : (k, Part.source) ∈ s.made) :
    Source fs (k.path .source) where
  root := by
    have root := laid.source_kept there []
    rwa [List.append_nil, (laid.plain there).root] at root
  plain p e present := (laid.plain there).plain p e (laid.source_kept there p ▸ present)

theorem skinned (laid : Laid lib fs₀ s fs) (there : (k, Part.skin) ∈ s.made) :
    Skinned lib fs₀ fs (k.path .source) (k.path .skin) :=
  ⟨laid.plain (s.source there), laid.tree there, laid.fits there⟩

theorem skinned_current (laid : Laid lib fs₀ s fs) (there : (k, Part.skin) ∈ s.made) :
    Skinned lib fs fs (k.path .source) (k.path .skin) :=
  (laid.skinned there).current (laid.source_kept (s.source there))

/-- A directory is filled and nothing else changes. -/
theorem add (laid : Laid lib fs₀ s fs) {s' : Progress}
    (added : s'.made = insert (k, part) s.made)
    (tree : ∀ p, fs'.get (locate (k.path part) ++ p) = treeOf lib fs₀ k part p)
    (frame : ∀ q, ¬ locate (k.path part) <+: q → fs'.get q = fs.get q)
    (derived : part ≠ .source)
    (fits : part = .skin → SkinFits fs₀ (k.path .source) (k.path .skin)) :
    Laid lib fs₀ s' fs' where
  tree := by
    intro k' part' member p
    by_cases same : (k, part) = (k', part')
    · cases same
      exact tree p
    · rw [added] at member
      rw [frame _ ((apart_paths same).outside p)]
      exact laid.tree (member.resolve_left (Ne.symm same)) p
  missing := by
    intro k' part' absent
    rw [added, Set.mem_insert_iff, not_or] at absent
    rw [frame _ (apart_paths (Ne.symm absent.1)).1, laid.missing absent.2]
  plain := by
    intro k' member
    rw [added] at member
    exact laid.plain (member.resolve_left fun same => derived (Prod.mk.inj same).2.symm)
  fits := by
    intro k' member
    rw [added] at member
    cases member with
    | inl same =>
        obtain ⟨rfl, isSkin⟩ := Prod.mk.inj same
        exact fits isSkin.symm
    | inr old => exact laid.fits old

/-- The directory above a directory of the layout is there when its neighbour is. -/
theorem above (laid : Laid lib fs₀ s fs) (there : (k, Part.source) ∈ s.made) :
    fs.get (kernelsAt ++ [k.entry]) = some .dir := by
  apply fs.parent _ Part.source.entry
  rw [← locate_path, (laid.source there).root]
  exact Option.some_ne_none _

theorem empty (laid : Laid lib fs₀ s fs) (absent : (k, part) ∉ s.made) (p : List Name) :
    fs.get (locate (k.path part) ++ p) = none := by
  have nothing := laid.missing absent
  by_cases root : p = []
  · rwa [root, List.append_nil]
  · exact fs.nothing_below (by simp [nothing]) p root

/-- What stands in the way of a tree that is written again is that tree. -/
theorem same_kind (laid : Laid lib fs₀ s fs) {p : List Name} {e e' : Lib.Entry Bytes}
    (present : fs.get (locate (k.path part) ++ p) = some e)
    (wanted : treeOf lib fs₀ k part p = some e') : e.kind = e'.kind := by
  by_cases there : (k, part) ∈ s.made
  · rw [laid.tree there, wanted] at present
    rw [Option.some.inj present]
  · rw [laid.empty there] at present
    cases present

/-- A tree laid over itself or over nothing is itself. -/
theorem overlay (laid : Laid lib fs₀ s fs) (p : List Name) :
    (treeOf lib fs₀ k part p).or (fs.get (locate (k.path part) ++ p)) =
      treeOf lib fs₀ k part p := by
  by_cases there : (k, part) ∈ s.made
  · rw [laid.tree there, Option.or_self]
  · rw [laid.empty there, Option.or_none]

/-- The kernel to be skinned, whether its skin is there or not. -/
def skinning (laid : Laid lib fs₀ s fs) (there : (k, Part.source) ∈ s.made) : Skinning where
  lib := lib
  fs := fs
  fpath := k.path .source
  spath := k.path .skin
  source := laid.source there
  apart := apart_paths (by simp)
  compatible p e e' present wanted := by
    rw [mirror, laid.source_kept there] at wanted
    exact laid.same_kind present wanted

/-- The skins to be compared, whether the molt is there or not. -/
def molting (laid : Laid lib fs₀ s fs) (org : (KernelDir.org, Part.skin) ∈ s.made)
    (there : (k, Part.skin) ∈ s.made) : Molting where
  lib := lib
  old := fs
  fs := fs
  org := KernelDir.org.path .source
  cmp := k.path .source
  oPath := KernelDir.org.path .skin
  cPath := k.path .skin
  mPath := k.path .molt
  skinO := laid.skinned_current org
  skinC := laid.skinned_current there
  string := (k.arg .source).string
  apartO := apart_paths (by simp)
  apartC := apart_paths (by simp)
  outside p _ _ := (apart_paths (by simp)).outside p
  compatible p e e' present wanted := by
    rw [moltTree_eq_deltaTree (laid.skinned org) (laid.skinned there)
      (laid.source_kept (s.source there))] at wanted
    exact laid.same_kind present wanted

/-- A run of `skin` makes a skin, or makes it again. -/
theorem skin_step {junk : Junk} {w w' : World} (laid : Laid lib fs₀ s w.fs)
    (there : (k, Part.source) ∈ s.made)
    (ended : (CompKernel.skin lib junk (k.path .source) (k.path .skin)).Ends w () w') :
    Laid lib fs₀ (s.addSkin k there) w'.fs := by
  obtain ⟨fits, tree, frame⟩ := Command.wp_ends
    (skin_wp (laid.skinning there) junk rfl (locate_path k .skin) (laid.above there)) ended
  have kept := laid.source_kept there
  refine laid.add rfl (fun p => ?_) frame (by simp) (fun _ p own clean present => ?_)
  · have mirrored : mirror lib w.fs (k.path .source) p = treeOf lib fs₀ k .skin p := by
      rw [mirror, kept]
      rfl
    rw [← laid.overlay p, ← mirrored]
    exact tree p
  · rw [← kept] at present
    obtain ⟨source, target, record⟩ := fits p own clean present
    refine ⟨source, target, fun data isFile => ?_⟩
    rw [← kept] at isFile
    exact record data isFile

/-- A run of `molt` makes a molt, or makes it again. -/
theorem molt_step {junk : Junk} {w w' : World} (laid : Laid lib fs₀ s w.fs)
    (org : (KernelDir.org, Part.skin) ∈ s.made) (there : (k, Part.skin) ∈ s.made)
    (ended : (CompKernel.molt junk (KernelDir.org.path .skin) (k.path .skin) (k.path .molt)).Ends
      w () w') : Laid lib fs₀ (s.addMolt k org there) w'.fs := by
  obtain ⟨-, tree, frame⟩ := Command.wp_ends
    (molt_wp (laid.molting org there) junk rfl (locate_path k .molt)
      (laid.above (s.source there))) ended
  refine laid.add rfl (fun p => ?_) frame (by simp) (by simp)
  have delta := moltTree_eq_deltaTree (laid.skinned org) (laid.skinned there)
    (laid.source_kept (s.source there))
  have wanted : moltTree w.fs (KernelDir.org.path .skin) (k.path .skin) (k.path .source) p =
      treeOf lib fs₀ k .molt p := congrFun delta p
  rw [← laid.overlay p, ← wanted]
  exact tree p

/-- One run of a program is one step of the abstract model. -/
theorem step {w w' : World} (laid : Laid lib fs₀ s w.fs) (run : Prepares lib w w') :
    ∃ s', Progress.Step s s' ∧ Laid lib fs₀ s' w'.fs := by
  cases run with
  | refused => exact ⟨s, .refused s, laid⟩
  | ended c junk cwd ended =>
      cases c with
      | skin k =>
          obtain ⟨isDir, ended⟩ := Preparation.skin_ended ended
          have there := laid.made_of_present isDir
          exact ⟨_, .skin s k there, laid.skin_step there ended⟩
      | molt k =>
          obtain ⟨isDirO, isDirK, ended⟩ := Preparation.molt_ended ended
          have org := laid.made_of_present isDirO
          have there := laid.made_of_present isDirK
          exact ⟨_, .molt s k org there, laid.molt_step org there ended⟩

/-- Any number of runs, in any order. -/
theorem steps {w w' : World} (laid : Laid lib fs₀ s w.fs)
    (runs : Relation.ReflTransGen (Prepares lib) w w') :
    ∃ s', Relation.ReflTransGen Progress.Step s s' ∧ Laid lib fs₀ s' w'.fs := by
  induction runs with
  | refl => exact ⟨s, .refl, laid⟩
  | tail _ run ih =>
      obtain ⟨s₁, before, laid₁⟩ := ih
      obtain ⟨s₂, step, laid₂⟩ := laid₁.step run
      exact ⟨s₂, before.tail step, laid₂⟩

end Laid

/-! ## From the kernels on -/

/-- The kernels have been put into their directories, and nothing else has been done. -/
structure Unprepared (fs : Fs) : Prop where
  plain : ∀ k : KernelDir, fs.get (locate (k.path .source)) ≠ none → Source fs (k.path .source)
  missing : ∀ (k : KernelDir) (part : Part), part ≠ .source → fs.get (locate (k.path part)) = none

/-- The kernels that are there. -/
def Progress.start (fs : Fs) : Progress where
  made := {place | place.2 = .source ∧ fs.get (locate (place.1.path .source)) ≠ none}
  source member := by cases member.1
  skins member := by cases member.1

theorem Unprepared.laid {fs : Fs} (unprepared : Unprepared fs) (lib : Md5) :
    Laid lib fs (Progress.start fs) fs where
  tree := by
    rintro k part ⟨isSource, -⟩ p
    cases isSource
    rfl
  missing := by
    intro k part absent
    cases part with
    | source =>
        by_contra there
        exact absent ⟨rfl, there⟩
    | skin => exact unprepared.missing k .skin (by simp)
    | molt => exact unprepared.missing k .molt (by simp)
  plain member := unprepared.plain _ member.2
  fits member := by cases member.1

/-- Two sequences of runs leave the same in every directory that both have made. -/
theorem Laid.agree {lib : Md5} {fs₀ fs fs' : Fs} {s s' : Progress} (laid : Laid lib fs₀ s fs)
    (laid' : Laid lib fs₀ s' fs') {k : KernelDir} {part : Part}
    (there : fs.get (locate (k.path part)) ≠ none)
    (there' : fs'.get (locate (k.path part)) ≠ none) (p : List Name) :
    fs.get (locate (k.path part) ++ p) = fs'.get (locate (k.path part) ++ p) := by
  rw [laid.tree (not_not.mp (mt laid.missing there)),
    laid'.tree (not_not.mp (mt laid'.missing there'))]

theorem Laid.molted {lib : Md5} {fs₀ fs : Fs} {s : Progress} {k : KernelDir}
    (laid : Laid lib fs₀ s fs) (there : (k, Part.molt) ∈ s.made) :
    Molted lib fs (KernelDir.org.path .source) (k.path .source) (k.path .molt) := by
  obtain ⟨org, skin⟩ := s.skins there
  have delta := moltTree_eq_deltaTree (laid.skinned org) (laid.skinned skin)
    (laid.source_kept (s.source skin))
  apply Molting.molted (laid.molting org skin)
  · intro p
    exact (laid.tree there p).trans (congrFun delta p).symm
  · exact fun _ => rfl
  · exact fun _ => rfl

/-- What `ssu_diff` finds when two molts are there. -/
def Laid.comparing {lib : Md5} {fs₀ fs : Fs} {s : Progress} {k1 k2 : KernelDir}
    (laid : Laid lib fs₀ s fs) (molt1 : (k1, Part.molt) ∈ s.made)
    (molt2 : (k2, Part.molt) ∈ s.made) : Comparing where
  lib := lib
  fs := fs
  org := KernelDir.org.path .source
  v1 := k1.path .source
  v2 := k2.path .source
  s1 := k1.path .skin
  s2 := k2.path .skin
  m1 := k1.path .molt
  m2 := k2.path .molt
  skin1 := laid.skinned_current (s.skins molt1).2
  skin2 := laid.skinned_current (s.skins molt2).2
  molt1 := laid.molted molt1
  molt2 := laid.molted molt2

theorem moltOf_path (n : Nat) : moltOf n = (KernelDir.version n).path .molt := by
  rw [path_molt, path_version]
  rfl

theorem skinOf_path (n : Nat) : skinOf n = (KernelDir.version n).path .skin := by
  rw [path_skin, path_version]
  rfl

/-- What a run of `ssu_diff` has found before it started to compare. -/
theorem ssuDiffMain_ended {junk : Junk} {cwd : List Name} {n1 n2 : Nat} {w w' : World}
    (ended : (ssuDiffMain junk cwd [orgArg, moltArg n1, moltArg n2]).Ends w () w') :
    w.fs.get (locate (moltOf n1)) = some .dir ∧ w.fs.get (locate (moltOf n2)) = some .dir ∧
      (ssuDiff junk orgOf (moltOf n1) (moltOf n2) (skinOf n1) (skinOf n2)).Ends w () w' := by
  have outcome : (ssuDiffMain junk cwd [orgArg, moltArg n1, moltArg n2]).wp
      (fun _ w' => w.fs.get (locate (moltOf n1)) = some .dir ∧
        w.fs.get (locate (moltOf n2)) = some .dir ∧
        (ssuDiff junk orgOf (moltOf n1) (moltOf n2) (skinOf n1) (skinOf n2)).Ends w () w')
      (fun _ _ => True) w := by
    have cut : ∀ n, cutName (moltOf n) = pure (asciiBytes (versionBase n)) :=
      fun n => cutName_molt _
    have org : absolute w.fs cwd orgArg.bytes = orgOf := absolute_of_slash head_orgOf
    have molt : ∀ n, absolute w.fs cwd (moltArg n).bytes = moltOf n :=
      fun n => absolute_of_slash (head_moltOf n)
    simp only [ssuDiffMain, ssuDiffPaths, Command.wp_bind, wp_checkDirs, wp_makeAbsolute, org, molt,
      wp_deriveName (cut n1), wp_deriveName (cut n2), Command.wp_read, Command.wp_ite,
      Command.wp_pure, CompKernel.exit, Command.wp_stop, implies_true, and_true]
    intro accepted _ _ _ _ _ _ _
    have isDir1 := isDir_of_accepted accepted (List.mem_cons_of_mem _ List.mem_cons_self)
      (head_moltOf n1)
    have isDir2 := isDir_of_accepted accepted
      (List.mem_cons_of_mem _ (List.mem_cons_of_mem _ List.mem_cons_self)) (head_moltOf n2)
    exact Command.wp_mono (wp_run _ w) (fun _ _ ends => ⟨isDir1, isDir2, ends⟩) (fun _ _ h => h)
  have final := Command.wp_ends outcome ended
  exact final

/-- The reports of a walk over two molts, told by the kernels. -/
theorem Laid.reports {lib : Md5} {fs₀ : Fs} {s : Progress} {k1 k2 : KernelDir} {junk : Junk}
    {w w' : World} (laid : Laid lib fs₀ s w.fs) (molt1 : (k1, Part.molt) ∈ s.made)
    (molt2 : (k2, Part.molt) ∈ s.made)
    (ended : (ssuDiff junk (KernelDir.org.path .source) (k1.path .molt) (k2.path .molt)
      (k1.path .skin) (k2.path .skin)).Ends w () w') :
    ∃ ps : List (List Name), ps.Nodup ∧
      (∀ p, p ∈ ps ↔
        Reported lib fs₀ (KernelDir.org.path .source) (k1.path .source) (k2.path .source) p) ∧
      List.Forall₂ (fun p r =>
          Belongs (KernelDir.org.path .source) (k1.path .molt) (k2.path .molt) p r ∧
          SoundAt lib fs₀ (KernelDir.org.path .source) (k1.path .source) (k2.path .source) w.fs p r)
        ps (reports w w') ∧ w'.fs = w.fs := by
  have keptO := laid.source_kept (s.source (s.skins molt1).1)
  have kept1 := laid.source_kept (s.source (s.skins molt1).2)
  have kept2 := laid.source_kept (s.source (s.skins molt2).2)
  let c := laid.comparing molt1 molt2
  have root1 := c.molt1.root
  have root2 := c.molt2.root
  rw [← List.append_nil (locate _)] at root1 root2
  obtain ⟨ps, adds, complete⟩ := Command.wp_ends
    (Comparing.compDir_wp junk BUFMAX [] w rfl root1 root2
      ⟨by decide, Nat.le_add_right BUFMAX _⟩) ended
  have expected : ∀ p, c.Expected p ↔ Reported lib fs₀ (KernelDir.org.path .source)
      (k1.path .source) (k2.path .source) p :=
    fun p => (expected_iff c p).trans (reported_congr keptO kept1 kept2 p)
  refine ⟨ps, adds.nodup, fun p => ?_, ?_, adds.fs⟩
  · rw [← expected]
    exact ⟨fun member => (adds.expected p member).1, fun h => complete p h List.nil_prefix⟩
  · rw [adds.reports, List.forall₂_map_right_iff, List.forall₂_same]
    intro p member
    refine ⟨belongs_reportOf c p, fun o a b inOrg in1 in2 => ?_⟩
    exact (adds.expected p member).1.soundAt o a b ((keptO p).trans inOrg) ((kept1 p).trans in1)
      ((kept2 p).trans in2)

theorem unprepared_kernels : Unprepared kernels.fs where
  plain k there := by
    have dirs : (kernels.fs.support.all fun l =>
        l.getLast? ≠ some Part.source.entry || kernels.fs.isDir l) = true := by decide +kernel
    have checked := List.all_eq_true.mp dirs _ (kernels.fs.listed _ there)
    rw [locate_path, List.getLast?_concat] at checked
    refine .of_allPlain ?_ (by decide +kernel)
    rw [locate_path]
    simpa using checked
  missing k part derived := by
    have none : (kernels.fs.support.all fun l => l.getLast? ≠ some Part.skin.entry &&
        l.getLast? ≠ some Part.molt.entry) = true := by decide +kernel
    by_contra there
    have checked := List.all_eq_true.mp none _ (kernels.fs.listed _ there)
    rw [locate_path, List.getLast?_concat] at checked
    cases part with
    | source => exact derived rfl
    | skin => simp at checked
    | molt => simp at checked

/-- The world after a run. -/
def Preparation.after (c : Preparation) (w : World) : World := (c.main plainMd5 zeroJunk [] w).2

theorem Preparation.prepares {c : Preparation} {w : World}
    (ends : (c.main plainMd5 zeroJunk [] w).1.isOk = true) : Prepares plainMd5 w (c.after w) := by
  refine .ended c zeroJunk [] (Command.ends_of_ok ?_)
  cases outcome : (c.main plainMd5 zeroJunk [] w).1 with
  | ok => rfl
  | error e =>
      rw [outcome] at ends
      cases ends

def prepared2 : World :=
  (Preparation.molt (.version 2)).after ((Preparation.skin .org).after
    ((Preparation.skin (.version 2)).after kernels))

def prepared1 : World :=
  (Preparation.molt (.version 1)).after ((Preparation.skin (.version 1)).after prepared2)

theorem prepared_kernels : Relation.ReflTransGen (Prepares plainMd5) kernels prepared1 := by
  have skin2 := Preparation.prepares (c := .skin (.version 2)) (w := kernels) (by decide +kernel)
  have early := Prepares.refused (.molt (.version 2)) zeroJunk [] 1
    (Preparation.molt_refused (w := (Preparation.skin (.version 2)).after kernels)
      (.inl (by decide +kernel)) plainMd5 zeroJunk [])
  have org := Preparation.prepares (c := .skin .org)
    (w := (Preparation.skin (.version 2)).after kernels) (by decide +kernel)
  have molt2 : Prepares plainMd5 _ prepared2 := Preparation.prepares (by decide +kernel)
  have skin1 := Preparation.prepares (c := .skin (.version 1)) (w := prepared2) (by decide +kernel)
  have molt1 : Prepares plainMd5 _ prepared1 := Preparation.prepares (by decide +kernel)
  exact .tail (.tail (.tail (.tail (.tail (.single skin2) early) org) molt2) skin1) molt1

/-- The world after the comparison. -/
def compared : World := (ssuDiffMain zeroJunk [] [orgArg, moltArg 1, moltArg 2] prepared1).2

end OslabProfiler.Server

import OslabProfiler.Server.FreshNames
import Mathlib.Data.List.AList

/-! # The directory of the versions from start to start

New kernels are put into the directory of the versions by hand, and so are the boot logs of the
versions. Every start of the server moves the new kernels into directories of their own. It
makes the directories at once and leaves the moves to threads, so when the server is killed,
some directories are made and some of the moves to them are done. The numbers of the versions
come from counting, and what was half done before is not looked at again.
-/

namespace OslabProfiler.Server

open Lib CompKernel Lib.Command

/-! ## The directory -/

/-- What stands under a name. -/
inductive Placed where
  /-- What was put there: a directory with a kernel, or a file. -/
  | plain (tree : SourceTree)
  /-- The directory of a version: its boot log, if there is one, and what was moved into it. -/
  | version (log : Option Text) (kernels : List (Text × SourceTree))

abbrev Store := AList fun _ : Text => Placed

/-- The trees under a name, each with the name that it was given. -/
def Placed.trees (name : Text) : Placed → List (Text × SourceTree)
  | .plain tree => [(name, tree)]
  | .version _ kernels => kernels

def trees (s : Store) : List (Text × SourceTree) := s.entries.flatMap fun e => e.2.trees e.1

/-- `mkdirSync` of a version. -/
def mkdir (s : Store) (version : Text) : Store := s.insert version (.version none [])

/-- `rename` of what stands under the first name into the directory with the second one. -/
def rename (s : Store) (move : Text × Text) : Store :=
  match s.lookup move.1, s.lookup move.2 with
  | some (.plain tree), some (.version log kernels) =>
      (s.erase move.1).insert move.2 (.version log (kernels ++ [(move.1, tree)]))
  | _, _ => s

/-! ## The start -/

/-- The moves that a start begins, in their order. -/
def moves (env : StartUpEnv) (list : List Text) : List (Text × Text) :=
  (routineDone env list).registered.map fun q =>
    (nameAt list q, nameAt (routineDone env list).kernelDirList q)

/-- The calls of the start find the directory as it is. -/
structure Shows (env : StartUpEnv) (s : Store) : Prop where
  readFile : ∀ name log kernels, s.lookup name = some (.version log kernels) →
    env.disk.readFile (dmesgPath name) = log
  holds : ∀ name tree, s.lookup name = some (.plain tree) →
    Holds env.source (kernelDirPath ++ "/".toList ++ name) tree ∧ tree.dirs < env.turns
  mkdirSync : ∀ n, env.mkdirSync (kernelDirPath ++ "/".toList ++ versionName n) = true ↔
    versionName n ∉ s

/-- `kernel_dir_list`, in some order. -/
def Lists (list : List Text) (s : Store) : Prop :=
  list.Perm (s.keys.filter fun name => name ≠ "ORG".toList)

/-- The name of a kernel that a start is to make a version of. -/
def isNewKernel (s : Store) (name : Text) : Bool :=
  isUnregistered name && match s.lookup name with
    | some (.plain (.dir _)) => true
    | _ => false

/-- The new kernels, in the order of the listing. -/
def newKernels (s : Store) (list : List Text) : List Text := list.filter (isNewKernel s)

/-- One thing that happens to the directory, with the trees that are new in it. -/
inductive Store.Step : Store → List (Text × SourceTree) → Store → Prop where
  | add {s : Store} {name : Text} {tree : SourceTree} (fresh : name ∉ s)
      (unregistered : isUnregistered name = true) :
      Step s [(name, tree)] (s.insert name (.plain tree))
  | log {s : Store} {name : Text} {log : Option Text} {kernels : List (Text × SourceTree)}
      (text : Text) (there : s.lookup name = some (.version log kernels)) :
      Step s [] (s.insert name (.version (some text) kernels))
  /-- A start that may be killed: the directories of `made` are made, and the moves in `done`
      are carried out. -/
  | start {s : Store} {env : StartUpEnv} {list : List Text} {made done : List (Text × Text)}
      (shows : Shows env s) (lists : Lists list s) (begun : made <+: moves env list)
      (carried : done.Subperm made) :
      Step s [] (done.foldl rename ((made.map Prod.snd).foldl mkdir s))

/-- Any number of such steps. -/
inductive Store.Run : Store → List (Text × SourceTree) → Store → Prop where
  | refl (s : Store) : Run s [] s
  | step {s t u : Store} {added new : List (Text × SourceTree)} (run : Run s added t)
      (next : t.Step new u) : Run s (added ++ new) u

/-! ## What the calls keep -/

/-- The versions are numbered from 1 to `n`, and nothing else has a name like theirs. -/
structure Contiguous (n : Nat) (s : Store) : Prop where
  numbers : ∀ name, name ∈ s ∧ name.head? = some 'V' ↔ ∃ k, 1 ≤ k ∧ k ≤ n ∧ name = versionName k
  plain : ∀ name tree, s.lookup name = some (.plain tree) → name.head? ≠ some 'V'
  version : ∀ name log kernels, s.lookup name = some (.version log kernels) →
    name.head? = some 'V'

@[simp] theorem head_versionName (n : Nat) : (versionName n).head? = some 'V' := by
  simp [versionName]

theorem trees_insert (s : Store) (name : Text) (item : Placed) :
    trees (s.insert name item) = item.trees name ++ trees (s.erase name) := by
  rw [trees, AList.entries_insert, List.flatMap_cons]
  rfl

theorem trees_erase {s : Store} {name : Text} {item : Placed} (there : s.lookup name = some item) :
    (trees s).Perm (item.trees name ++ trees (s.erase name)) := by
  have member : name ∈ s.entries.keys :=
    AList.mem_keys.mp (AList.lookup_isSome.mp (by rw [there]; rfl))
  obtain ⟨found, before, after, -, entries, rest⟩ := List.exists_of_kerase member
  have same : found = item := by
    have entry : (⟨name, found⟩ : Sigma fun _ : Text => Placed) ∈ s.entries := by simp [entries]
    have looked := (AList.mem_lookup_iff (s := s)).mpr entry
    rw [there] at looked
    exact (Option.some.inj looked).symm
  have left : trees s = (before ++ ⟨name, found⟩ :: after).flatMap fun e => e.2.trees e.1 := by
    rw [trees, entries]
  have right : trees (s.erase name) = (before ++ after).flatMap fun e => e.2.trees e.1 := by
    rw [← rest]
    rfl
  rw [left, right, same]
  simp only [List.flatMap_append, List.flatMap_cons]
  exact List.perm_append_comm_assoc _ _ _

theorem trees_mkdir {s : Store} {version : Text} (fresh : version ∉ s) :
    (trees (mkdir s version)).Perm (trees s) := by
  rw [mkdir, trees, AList.entries_insert_of_notMem fresh, List.flatMap_cons]
  exact .refl _

/-- What a move does where it can be carried out. -/
theorem rename_eq {s : Store} {move : Text × Text} {tree : SourceTree} {log : Option Text}
    {ks : List (Text × SourceTree)} (source : s.lookup move.1 = some (.plain tree))
    (target : s.lookup move.2 = some (.version log ks)) :
    rename s move =
      (s.erase move.1).insert move.2 (.version log (ks ++ [(move.1, tree)])) := by
  rw [rename, source, target]

/-- A move is carried out or changes nothing. -/
theorem rename_cases (s : Store) (move : Text × Text) :
    rename s move = s ∨ ∃ tree log ks, s.lookup move.1 = some (.plain tree) ∧
      s.lookup move.2 = some (.version log ks) := by
  unfold rename
  split
  case h_1 tree log ks source target => exact .inr ⟨tree, log, ks, source, target⟩
  case h_2 => exact .inl rfl

theorem trees_rename (s : Store) (move : Text × Text) :
    (trees (rename s move)).Perm (trees s) := by
  obtain same | ⟨tree, log, ks, source, target⟩ := rename_cases s move
  · rw [same]
  · have other : move.2 ≠ move.1 := fun same => by
      rw [same, source] at target
      cases target
    have there : (s.erase move.1).lookup move.2 = some (.version log ks) := by
      rw [AList.lookup_erase_ne other, target]
    rw [rename_eq source target, trees_insert]
    calc List.Perm ((ks ++ [(move.1, tree)]) ++ trees ((s.erase move.1).erase move.2))
          (ks ++ ([(move.1, tree)] ++ trees ((s.erase move.1).erase move.2))) :=
          .of_eq (List.append_assoc _ _ _)
      List.Perm _ ([(move.1, tree)] ++ (ks ++ trees ((s.erase move.1).erase move.2))) :=
          List.perm_append_comm_assoc _ _ _
      List.Perm _ ([(move.1, tree)] ++ trees (s.erase move.1)) :=
          (trees_erase there).symm.append_left _
      List.Perm _ (trees s) := (trees_erase source).symm

/-- A move leaves the other names as they are. -/
theorem lookup_rename {s : Store} {move : Text × Text} {name : Text} (other : name ≠ move.1)
    (apart : name ≠ move.2) : (rename s move).lookup name = s.lookup name := by
  obtain same | ⟨tree, log, ks, source, target⟩ := rename_cases s move
  · rw [same]
  · rw [rename_eq source target, AList.lookup_insert_ne apart, AList.lookup_erase_ne other]

theorem Contiguous.mkdir {n : Nat} {s : Store} (contiguous : Contiguous n s) :
    Contiguous (n + 1) (mkdir s (versionName (n + 1))) := by
  refine ⟨fun name => ?_, fun name tree there => ?_, fun name log ks there => ?_⟩
  · rw [Server.mkdir, AList.mem_insert, or_and_right, contiguous.numbers]
    constructor
    · rintro (⟨rfl, -⟩ | ⟨k, low, high, rfl⟩)
      · exact ⟨n + 1, by omega, le_rfl, rfl⟩
      · exact ⟨k, low, by omega, rfl⟩
    · rintro ⟨k, low, high, rfl⟩
      by_cases last : k = n + 1
      · exact .inl ⟨by rw [last], head_versionName k⟩
      · exact .inr ⟨k, low, by omega, rfl⟩
  · by_cases own : name = versionName (n + 1)
    · rw [own, Server.mkdir, AList.lookup_insert] at there
      cases there
    · rw [Server.mkdir, AList.lookup_insert_ne own] at there
      exact contiguous.plain name tree there
  · by_cases own : name = versionName (n + 1)
    · rw [own, head_versionName]
    · rw [Server.mkdir, AList.lookup_insert_ne own] at there
      exact contiguous.version name log ks there

theorem Contiguous.rename {n : Nat} {s : Store} (contiguous : Contiguous n s) (move : Text × Text) :
    Contiguous n (rename s move) := by
  obtain same | ⟨tree, log, ks, source, target⟩ := rename_cases s move
  · rwa [same]
  · have noVersion := contiguous.plain _ _ source
    have isVersion := contiguous.version _ _ _ target
    have present : move.2 ∈ s := AList.lookup_isSome.mp (by rw [target]; rfl)
    rw [rename_eq source target]
    refine ⟨fun name => ?_, fun name tree' there => ?_, fun name log' ks' there => ?_⟩
    · rw [← contiguous.numbers, AList.mem_insert, AList.mem_erase]
      constructor
      · rintro ⟨rfl | ⟨-, member⟩, version⟩
        · exact ⟨present, version⟩
        · exact ⟨member, version⟩
      · rintro ⟨member, version⟩
        refine ⟨.inr ⟨fun same => ?_, member⟩, version⟩
        rw [same] at version
        exact noVersion version
    · by_cases own : name = move.2
      · rw [own, AList.lookup_insert] at there
        cases there
      · rw [AList.lookup_insert_ne own] at there
        by_cases moved : name = move.1
        · rw [moved, AList.lookup_erase] at there
          cases there
        · rw [AList.lookup_erase_ne moved] at there
          exact contiguous.plain name tree' there
    · by_cases own : name = move.2
      · rw [own]
        exact isVersion
      · rw [AList.lookup_insert_ne own] at there
        by_cases moved : name = move.1
        · rw [moved, AList.lookup_erase] at there
          cases there
        · rw [AList.lookup_erase_ne moved] at there
          exact contiguous.version name log' ks' there

/-! ## The moves of a start -/

section Start

variable {env : StartUpEnv} {s : Store} {list : List Text} {n : Nat}

theorem Lists.mem_iff (lists : Lists list s) {name : Text} :
    name ∈ list ↔ name ∈ s ∧ name ≠ "ORG".toList := by
  rw [List.Perm.mem_iff lists, List.mem_filter, AList.mem_keys, decide_eq_true_eq]

theorem versionName_ne_org (k : Nat) : versionName k ≠ "ORG".toList := by
  simp [versionName]

theorem Contiguous.versionCount_eq (contiguous : Contiguous n s) (lists : Lists list s) :
    versionCount list = n := by
  have perm : (list.filter fun name => name.head? = some 'V').Perm
      ((List.range' 1 n).map versionName) := by
    refine (List.perm_ext_iff_of_nodup ?_ ?_).mpr fun name => ?_
    · exact ((List.Perm.nodup_iff lists).mpr (s.keys_nodup.filter _)).filter _
    · exact List.Nodup.map versionName_injective List.nodup_range'
    · rw [List.mem_filter, decide_eq_true_eq, lists.mem_iff, List.mem_map]
      constructor
      · rintro ⟨⟨member, -⟩, version⟩
        obtain ⟨k, low, high, rfl⟩ := (contiguous.numbers name).mp ⟨member, version⟩
        exact ⟨k, List.mem_range'_1.mpr ⟨low, by omega⟩, rfl⟩
      · rintro ⟨k, member, rfl⟩
        obtain ⟨low, high⟩ := List.mem_range'_1.mp member
        obtain ⟨present, version⟩ :=
          (contiguous.numbers (versionName k)).mpr ⟨k, low, by omega, rfl⟩
        exact ⟨⟨present, versionName_ne_org k⟩, version⟩
  rw [versionCount, List.countP_eq_length_filter, perm.length_eq, List.length_map,
    List.length_range']

theorem Holds.isDirectory {disk : SourceDisk} {path : Text} {tree : SourceTree}
    (held : Holds disk path tree) :
    disk.lstatSync path = some true ∧ (∃ entries, tree = .dir entries) ∨
      disk.lstatSync path = some false ∧ ∃ data, tree = .file data := by
  cases held with
  | file isFile _ => exact .inr ⟨isFile, _, rfl⟩
  | dir isDir _ _ _ _ => exact .inl ⟨isDir, _, rfl⟩

/-- A name that is noted is that of something that was put there. -/
theorem Contiguous.exists_plain (contiguous : Contiguous n s) (lists : Lists list s) {name : Text}
    (member : name ∈ list) (unregistered : isUnregistered name = true) :
    ∃ tree, s.lookup name = some (.plain tree) := by
  obtain ⟨item, there⟩ :=
    Option.isSome_iff_exists.mp (AList.lookup_isSome.mpr (lists.mem_iff.mp member).1)
  cases item with
  | plain tree => exact ⟨tree, there⟩
  | version log ks =>
      exact absurd (contiguous.version name log ks there) (isUnregistered_iff.mp unregistered).1

theorem Shows.registrable (shows : Shows env s) (contiguous : Contiguous n s)
    (lists : Lists list s) (logged : VersionsLogged env.disk list) : Registrable env list := by
  refine ⟨fun k low high => ?_, logged, fun name member unregistered => ?_, fun q isNew => ?_⟩
  · intro member
    obtain ⟨k', -, small, same⟩ := (contiguous.numbers (versionName k)).mp
      ⟨(lists.mem_iff.mp member).1, head_versionName k⟩
    rw [contiguous.versionCount_eq lists] at low
    have := versionName_injective same
    omega
  · obtain ⟨tree, there⟩ := contiguous.exists_plain lists member unregistered
    obtain ⟨stat, -⟩ | ⟨stat, -⟩ := (shows.holds name tree there).1.isDirectory
    all_goals
      rw [stat]
      exact Option.some_ne_none _
  · obtain ⟨name, at_q, noVersion, noOrg, directory⟩ := isNew
    have member : name ∈ list := List.mem_of_getElem? at_q
    have unregistered := isUnregistered_iff.mpr ⟨noVersion, noOrg⟩
    obtain ⟨tree, there⟩ := contiguous.exists_plain lists member unregistered
    obtain ⟨held, small⟩ := shows.holds name tree there
    obtain ⟨-, entries, rfl⟩ | ⟨stat, -⟩ := held.isDirectory
    · obtain ⟨files, -, run⟩ := makeHashFile_ends env.lib held
      rw [nameAt, at_q]
      exact ⟨_, run env.turns small⟩
    · rw [stat] at directory
      cases directory

theorem Shows.nothingThrows (shows : Shows env s) (contiguous : Contiguous n s)
    (lists : Lists list s) (logged : VersionsLogged env.disk list) : NothingThrows env list := by
  refine (nothingThrows_iff fun k => ?_).mpr (shows.registrable contiguous lists logged)
  rw [shows.mkdirSync, lists.mem_iff, not_and_or, not_not]
  exact (or_iff_left (versionName_ne_org k)).symm

/-- Without all logs the routine ends in the first loop, and nothing is begun. -/
theorem moves_of_not_logged (unlogged : ¬ VersionsLogged env.disk list) : moves env list = [] := by
  rw [moves, (registered_eq_nil_iff env list).mpr (.inl unlogged), List.map_nil]

theorem isNewKernel_iff {name : Text} : isNewKernel s name = true ↔
    isUnregistered name = true ∧ ∃ entries, s.lookup name = some (.plain (.dir entries)) := by
  rw [isNewKernel, Bool.and_eq_true]
  refine and_congr_right fun _ => ?_
  split
  case h_1 entries there => exact iff_of_true rfl ⟨entries, there⟩
  case h_2 other => exact iff_of_false Bool.false_ne_true fun found => found.elim other

theorem mem_newKernels (lists : Lists list s) {name : Text} : name ∈ newKernels s list ↔
    isUnregistered name = true ∧ ∃ entries, s.lookup name = some (.plain (.dir entries)) := by
  rw [newKernels, List.mem_filter, isNewKernel_iff, and_iff_right_iff_imp]
  rintro ⟨unregistered, entries, there⟩
  have present : name ∈ s := AList.lookup_isSome.mp (by rw [there]; rfl)
  exact lists.mem_iff.mpr ⟨present, (isUnregistered_iff.mp unregistered).2⟩

theorem newKernels_nodup (lists : Lists list s) : (newKernels s list).Nodup :=
  ((List.Perm.nodup_iff lists).mpr (s.keys_nodup.filter _)).filter _

/-- The routine finds the new kernels, in their order. -/
theorem names_newPositions (shows : Shows env s) (contiguous : Contiguous n s)
    (lists : Lists list s) : (newPositions env list).map (nameAt list) = newKernels s list := by
  have each : ∀ name ∈ list, (decide (env.source.lstatSync
      (kernelDirPath ++ "/".toList ++ name) = some true) && isUnregistered name) =
      isNewKernel s name := by
    intro name member
    rw [Bool.eq_iff_iff, Bool.and_eq_true, decide_eq_true_eq, isNewKernel_iff, and_comm]
    refine and_congr_right fun unregistered => ?_
    obtain ⟨tree, there⟩ := contiguous.exists_plain lists member unregistered
    rw [there]
    obtain ⟨stat, entries, rfl⟩ | ⟨stat, data, rfl⟩ := (shows.holds name tree there).1.isDirectory
    · exact iff_of_true stat ⟨entries, rfl⟩
    · rw [stat]
      exact iff_of_false (by decide) fun found => by cases found with | intro _ same => cases same
  calc (newPositions env list).map (nameAt list)
      = ((unregistered list 0).map (nameAt list)).filter fun name => decide (env.source.lstatSync
          (kernelDirPath ++ "/".toList ++ name) = some true) := by
        rw [List.filter_map]
        rfl
    _ = newKernels s list := by
        rw [map_nameAt_unregistered, List.filter_filter]
        exact List.filter_congr each

/-- Directories for the numbers from `n + 1` on, and a new kernel for each of them. -/
structure Numbered (n : Nat) (s : Store) (ms : List (Text × Text)) : Prop where
  names : ms.map Prod.snd = (List.range' (n + 1) ms.length).map versionName
  plain : ∀ m ∈ ms, ∃ entries, s.lookup m.1 = some (.plain (.dir entries))
  distinct : (ms.map Prod.fst).Nodup

/-- With all logs there a start begins to move the new kernels to the numbers that follow. -/
theorem moves_of_logged (shows : Shows env s) (contiguous : Contiguous n s) (lists : Lists list s)
    (logged : VersionsLogged env.disk list) :
    moves env list = ((newKernels s list).zipIdx (n + 1)).map fun entry =>
      (entry.1, versionName entry.2) := by
  obtain ⟨registered, names⟩ := routineDone_named (shows.nothingThrows contiguous lists logged)
  rw [contiguous.versionCount_eq lists] at names
  have nodup : (newPositions env list).Nodup := (unregistered_nodup list 0).filter _
  have each : ∀ entry ∈ (newPositions env list).zipIdx (n + 1),
      nameAt (renamed list (newPositions env list) (n + 1)) entry.1 = versionName entry.2 := by
    intro entry member
    obtain ⟨name, at_q, -⟩ := isNew_iff.mp (mem_of_mem_zipIdx member)
    rw [nameAt, getElem?_renamed nodup member (List.getElem?_eq_some_iff.mp at_q).1]
    rfl
  rw [moves, registered, names, ← names_newPositions shows contiguous lists, List.zipIdx_map,
    List.map_map]
  calc (newPositions env list).map (fun q =>
        (nameAt list q, nameAt (renamed list (newPositions env list) (n + 1)) q))
      = (((newPositions env list).zipIdx (n + 1)).map Prod.fst).map (fun q =>
        (nameAt list q, nameAt (renamed list (newPositions env list) (n + 1)) q)) :=
        congrArg (List.map _) (List.zipIdx_map_fst (n + 1) _).symm
    _ = ((newPositions env list).zipIdx (n + 1)).map ((fun entry => (entry.1, versionName entry.2)) ∘
        Prod.map (nameAt list) id) := by
        rw [List.map_map]
        refine List.map_congr_left fun entry member => ?_
        rw [Function.comp, each entry member]
        rfl

/-- What a start begins is the same in every order of the listing: the next numbers, and the
    new kernels, each of them once. -/
theorem moves_numbered (shows : Shows env s) (contiguous : Contiguous n s) (lists : Lists list s) :
    Numbered n s (moves env list) := by
  by_cases logged : VersionsLogged env.disk list
  · rw [moves_of_logged shows contiguous lists logged]
    refine ⟨?_, fun m member => ?_, ?_⟩
    · rw [List.map_map, List.length_map, List.length_zipIdx, ← List.zipIdx_map_snd, List.map_map]
      rfl
    · obtain ⟨entry, noted, rfl⟩ := List.mem_map.mp member
      exact ((mem_newKernels lists).mp (List.fst_mem_of_mem_zipIdx noted)).2
    · rw [List.map_map]
      exact (List.zipIdx_map_fst (n + 1) (newKernels s list)).symm ▸ newKernels_nodup lists
  · rw [moves_of_not_logged logged]
    exact ⟨rfl, fun _ member => absurd member List.not_mem_nil, List.nodup_nil⟩

end Start

/-! ## What a start leaves behind -/

section Effects

variable {s t : Store} {n : Nat} {ms : List (Text × Text)}

/-- The directories that are made are new ones with the next numbers. -/
theorem Contiguous.mkdirs (contiguous : Contiguous n s) (j : Nat) :
    let t := ((List.range' (n + 1) j).map versionName).foldl Server.mkdir s
    Contiguous (n + j) t ∧ (trees t).Perm (trees s) ∧
      (∀ k, t.lookup (versionName k) =
        if n < k ∧ k ≤ n + j then some (.version none []) else s.lookup (versionName k)) ∧
      ∀ name, name.head? ≠ some 'V' → t.lookup name = s.lookup name := by
  induction j with
  | zero =>
      refine ⟨contiguous, .refl _, fun k => ?_, fun _ _ => rfl⟩
      rw [if_neg (by omega)]
      rfl
  | succ j ih =>
      obtain ⟨numbers, conserved, versions, others⟩ := ih
      have fresh : versionName (n + j + 1) ∉
          ((List.range' (n + 1) j).map versionName).foldl Server.mkdir s := by
        intro present
        obtain ⟨k, -, small, same⟩ := (numbers.numbers _).mp ⟨present, head_versionName _⟩
        have := versionName_injective same
        omega
      rw [List.range'_concat, List.map_append, List.foldl_append, Nat.one_mul,
        show n + 1 + j = n + j + 1 by omega]
      refine ⟨numbers.mkdir, (trees_mkdir fresh).trans conserved, fun k => ?_, fun name other => ?_⟩
      · by_cases last : k = n + j + 1
        · rw [if_pos (by omega), last]
          exact AList.lookup_insert _
        · refine (AList.lookup_insert_ne fun same => last (versionName_injective same)).trans ?_
          rw [versions]
          exact if_congr (by omega) rfl rfl
      · refine (AList.lookup_insert_ne fun same => ?_).trans (others name other)
        rw [same, head_versionName] at other
        exact other rfl

theorem Contiguous.renames (contiguous : Contiguous n s) (ms : List (Text × Text)) :
    Contiguous n (ms.foldl Server.rename s) ∧ (trees (ms.foldl Server.rename s)).Perm (trees s) := by
  induction ms generalizing s with
  | nil => exact ⟨contiguous, .refl _⟩
  | cons m ms ih =>
      obtain ⟨numbers, conserved⟩ := ih (contiguous.rename m)
      exact ⟨numbers, conserved.trans (trees_rename s m)⟩

theorem lookup_renames {name : Text} (other : ∀ m ∈ ms, name ≠ m.1 ∧ name ≠ m.2) :
    (ms.foldl rename s).lookup name = s.lookup name := by
  induction ms generalizing s with
  | nil => rfl
  | cons m ms ih =>
      obtain ⟨⟨first, second⟩, rest⟩ := List.forall_mem_cons.mp other
      rw [List.foldl_cons, ih rest, lookup_rename first second]

theorem Numbered.number (numbered : Numbered n s ms) {m : Text × Text} (member : m ∈ ms) :
    ∃ k, n < k ∧ k ≤ n + ms.length ∧ m.2 = versionName k := by
  have name : m.2 ∈ ms.map Prod.snd := List.mem_map_of_mem member
  rw [numbered.names] at name
  obtain ⟨k, range, same⟩ := List.mem_map.mp name
  obtain ⟨low, high⟩ := List.mem_range'_1.mp range
  exact ⟨k, by omega, by omega, same.symm⟩

theorem Numbered.begun {made : List (Text × Text)} (numbered : Numbered n s ms)
    (begun : made <+: ms) : Numbered n s made := by
  obtain ⟨rest, rfl⟩ := begun
  refine ⟨?_, fun m member => numbered.plain m (List.mem_append_left rest member), ?_⟩
  · have names := numbered.names
    rw [List.map_append, List.length_append, ← List.range'_append_1, List.map_append] at names
    exact (List.append_inj names (by simp)).1
  · have distinct := numbered.distinct
    rw [List.map_append] at distinct
    exact distinct.of_append_left

end Effects

/-! ## Whole runs -/

/-- What may be relied on from the store `s`, with the versions 1 to `n`, to a later one. -/
structure Safe (n : Nat) (s : Store) (added : List (Text × SourceTree)) (t : Store) : Prop where
  numbers : ∃ m, n ≤ m ∧ Contiguous m t
  /-- No tree is lost and none is there twice. -/
  conserved : (trees t).Perm (trees s ++ added)
  /-- A version keeps what it has. -/
  kept : ∀ name log ks, s.lookup name = some (.version log ks) →
    ∃ log', t.lookup name = some (.version log' ks) ∧ (log' = none → log = none)

section Steps

variable {n : Nat} {s : Store}

theorem safe_add (contiguous : Contiguous n s) {name : Text} (tree : SourceTree)
    (fresh : name ∉ s) (unregistered : isUnregistered name = true) :
    Safe n s [(name, tree)] (s.insert name (.plain tree)) := by
  have conditions := isUnregistered_iff.mp unregistered
  refine ⟨⟨n, le_rfl, fun other => ?_, fun other tree' there => ?_, fun other log ks there => ?_⟩,
    ?_, fun other log ks there => ?_⟩
  · rw [← contiguous.numbers, AList.mem_insert]
    constructor
    · rintro ⟨rfl | member, version⟩
      · exact absurd version conditions.1
      · exact ⟨member, version⟩
    · rintro ⟨member, version⟩
      exact ⟨.inr member, version⟩
  · by_cases own : other = name
    · rw [own]
      exact conditions.1
    · rw [AList.lookup_insert_ne own] at there
      exact contiguous.plain other tree' there
  · by_cases own : other = name
    · rw [own, AList.lookup_insert] at there
      cases there
    · rw [AList.lookup_insert_ne own] at there
      exact contiguous.version other log ks there
  · rw [trees, AList.entries_insert_of_notMem fresh, List.flatMap_cons]
    exact List.perm_append_comm
  · have own : other ≠ name := by
      rintro rfl
      rw [AList.lookup_eq_none.mpr fresh] at there
      cases there
    exact ⟨log, (AList.lookup_insert_ne own).trans there, id⟩

theorem safe_log (contiguous : Contiguous n s) {name : Text} {log : Option Text}
    {ks : List (Text × SourceTree)} (text : Text) (there : s.lookup name = some (.version log ks)) :
    Safe n s [] (s.insert name (.version (some text) ks)) := by
  have present : name ∈ s := AList.lookup_isSome.mp (by rw [there]; rfl)
  refine ⟨⟨n, le_rfl, fun other => ?_, fun other tree' found => ?_, fun other log' ks' found => ?_⟩,
    ?_, fun other log' ks' found => ?_⟩
  · rw [← contiguous.numbers, AList.mem_insert]
    exact and_congr_left fun _ => ⟨fun either => either.elim (fun same => same ▸ present) id, .inr⟩
  · by_cases own : other = name
    · rw [own, AList.lookup_insert] at found
      cases found
    · rw [AList.lookup_insert_ne own] at found
      exact contiguous.plain other tree' found
  · by_cases own : other = name
    · rw [own]
      exact contiguous.version name log ks there
    · rw [AList.lookup_insert_ne own] at found
      exact contiguous.version other log' ks' found
  · rw [trees_insert, List.append_nil]
    exact (trees_erase there).symm
  · by_cases own : other = name
    · rw [own, there] at found
      cases found
      exact ⟨some text, own ▸ AList.lookup_insert s, fun none => by cases none⟩
    · exact ⟨log', (AList.lookup_insert_ne own).trans found, id⟩

theorem safe_start (contiguous : Contiguous n s) {made done : List (Text × Text)}
    (numbered : Numbered n s made) (carried : done.Subperm made) :
    Safe n s [] (done.foldl rename ((made.map Prod.snd).foldl mkdir s)) := by
  obtain ⟨numbers, conserved, versions, -⟩ := contiguous.mkdirs made.length
  rw [← numbered.names] at numbers conserved versions
  obtain ⟨renamed, moved⟩ := numbers.renames done
  refine ⟨⟨n + made.length, by omega, renamed⟩, ?_, fun name log ks there => ?_⟩
  · rw [List.append_nil]
    exact moved.trans conserved
  · -- the moves go from names that are no versions to versions that are new
    have isVersion := contiguous.version name log ks there
    obtain ⟨k, low, high, rfl⟩ := (contiguous.numbers name).mp
      ⟨AList.lookup_isSome.mp (by rw [there]; rfl), isVersion⟩
    refine ⟨log, ?_, id⟩
    rw [lookup_renames, versions, if_neg (by omega), there]
    intro m member
    have begun := carried.subset member
    constructor
    · intro same
      obtain ⟨entries, plain⟩ := numbered.plain m begun
      rw [← same, there] at plain
      cases plain
    · intro same
      obtain ⟨k', large, -, name⟩ := numbered.number begun
      rw [name] at same
      have := versionName_injective same
      omega

theorem Store.Step.safe {t : Store} {new : List (Text × SourceTree)}
    (contiguous : Contiguous n s) (step : s.Step new t) : Safe n s new t := by
  cases step with
  | add fresh unregistered => exact safe_add contiguous _ fresh unregistered
  | log text there => exact safe_log contiguous text there
  | start shows lists begun carried =>
      exact safe_start contiguous ((moves_numbered shows contiguous lists).begun begun) carried

end Steps

theorem Safe.trans {n m : Nat} {s t u : Store} {added new : List (Text × SourceTree)}
    (first : Safe n s added t) (more : n ≤ m) (second : Safe m t new u) :
    Safe n s (added ++ new) u := by
  obtain ⟨m', more', numbers⟩ := second.numbers
  refine ⟨⟨m', more.trans more', numbers⟩, ?_, fun name log ks there => ?_⟩
  · rw [← List.append_assoc]
    exact second.conserved.trans (first.conserved.append_right _)
  · obtain ⟨log', there', earlier⟩ := first.kept name log ks there
    obtain ⟨log'', there'', later⟩ := second.kept name log' ks there'
    exact ⟨log'', there'', fun none => earlier (later none)⟩

/-- However often the server is started and killed: the versions are numbered without gaps,
    every tree that was put into the directory is in it once, and a version keeps what it has. -/
theorem restarts_safe {n : Nat} {s t : Store} {added : List (Text × SourceTree)}
    (contiguous : Contiguous n s) (run : s.Run added t) : Safe n s added t := by
  induction run with
  | refl => exact ⟨⟨n, le_rfl, contiguous⟩, by simp, fun name log ks there => ⟨log, there, id⟩⟩
  | step _ next ih =>
      obtain ⟨m, more, numbers⟩ := ih.numbers
      exact ih.trans more (next.safe numbers)

def onlyLinux : Store := AList.insert "linux".toList (.plain (.dir [])) ∅

theorem contiguous_empty : Contiguous 0 ∅ where
  numbers := fun name => by
    constructor
    · intro present
      exact absurd present.1 (AList.notMem_empty name)
    · rintro ⟨k, low, high, -⟩
      omega
  plain := fun name tree there => by cases there
  version := fun name log ks there => by cases there

theorem lookup_onlyLinux {name : Text} {item : Placed} (there : onlyLinux.lookup name = some item) :
    name = "linux".toList ∧ item = .plain (.dir []) := by
  rw [onlyLinux] at there
  by_cases own : name = "linux".toList
  · subst own
    rw [AList.lookup_insert] at there
    exact ⟨rfl, (Option.some.inj there).symm⟩
  · rw [AList.lookup_insert_ne own] at there
    cases there

theorem shows_onlyLinux : Shows newDirectory onlyLinux where
  readFile := fun name log ks there => by cases (lookup_onlyLinux there).2
  holds := fun name tree there => by
    cases (lookup_onlyLinux there).2
    exact ⟨.dir rfl rfl List.nodup_nil (fun e member => absurd member List.not_mem_nil)
      (fun e member => absurd member List.not_mem_nil), by decide⟩
  mkdirSync := fun n => by
    refine iff_of_true rfl fun present => ?_
    rw [onlyLinux, AList.mem_insert] at present
    cases present with
    | inl same => simp [versionName] at same
    | inr empty => exact AList.notMem_empty _ empty

theorem lists_onlyLinux : Lists ["linux".toList] onlyLinux := .of_eq (by decide)

theorem moves_onlyLinux :
    moves newDirectory ["linux".toList] = [("linux".toList, "V1".toList)] := by decide +kernel

theorem step_onlyLinux : Store.Step ∅ [("linux".toList, .dir [])] onlyLinux :=
  .add (AList.notMem_empty _) (by decide)

/-- A kernel is put into the directory, and the start is killed before it is moved. -/
theorem restarts_safe_killed :
    Safe 0 ∅ [("linux".toList, .dir [])] (mkdir onlyLinux "V1".toList) := by
  have begun : [("linux".toList, "V1".toList)] <+: moves newDirectory ["linux".toList] := by
    rw [moves_onlyLinux]
  have killed : onlyLinux.Step [] (mkdir onlyLinux "V1".toList) :=
    @Store.Step.start onlyLinux newDirectory ["linux".toList] [("linux".toList, "V1".toList)] []
      shows_onlyLinux lists_onlyLinux begun List.nil_subperm
  exact restarts_safe contiguous_empty (.step (.step (.refl ∅) step_onlyLinux) killed)

/-! ## A start that is not killed -/

/-- The moves can be carried out, one after the other. -/
structure Ready (s : Store) (ms : List (Text × Text)) : Prop where
  sources : (ms.map Prod.fst).Nodup
  targets : (ms.map Prod.snd).Nodup
  each : ∀ m ∈ ms, (∃ tree, s.lookup m.1 = some (.plain tree)) ∧
    s.lookup m.2 = some (.version none [])

section Ready

variable {s : Store} {ms : List (Text × Text)}

theorem Ready.perm {ms' : List (Text × Text)} (ready : Ready s ms) (perm : ms'.Perm ms) :
    Ready s ms' where
  sources := (perm.map _).nodup_iff.mpr ready.sources
  targets := (perm.map _).nodup_iff.mpr ready.targets
  each := fun m member => ready.each m (perm.mem_iff.mp member)

/-- The names of other moves are not touched. -/
theorem Ready.apart {m m' : Text × Text} (ready : Ready s (m :: ms)) (member : m' ∈ ms) :
    (m'.1 ≠ m.1 ∧ m'.1 ≠ m.2) ∧ m'.2 ≠ m.1 ∧ m'.2 ≠ m.2 := by
  obtain ⟨⟨tree, source⟩, target⟩ := ready.each m List.mem_cons_self
  obtain ⟨⟨tree', source'⟩, target'⟩ := ready.each m' (List.mem_cons_of_mem m member)
  have sources := (List.nodup_cons.mp ready.sources).1
  have targets := (List.nodup_cons.mp ready.targets).1
  refine ⟨⟨fun same => ?_, fun same => ?_⟩, fun same => ?_, fun same => ?_⟩
  · exact sources (same ▸ List.mem_map_of_mem member)
  · rw [same, target] at source'
    cases source'
  · rw [same, source] at target'
    cases target'
  · exact targets (same ▸ List.mem_map_of_mem member)

theorem Ready.next {m : Text × Text} (ready : Ready s (m :: ms)) : Ready (rename s m) ms where
  sources := (List.nodup_cons.mp ready.sources).2
  targets := (List.nodup_cons.mp ready.targets).2
  each := by
    intro m' member
    obtain ⟨first, second⟩ := ready.apart member
    rw [lookup_rename first.1 first.2, lookup_rename second.1 second.2]
    exact ready.each m' (List.mem_cons_of_mem m member)

theorem Ready.renames (ready : Ready s ms) {m : Text × Text} (member : m ∈ ms) {tree : SourceTree}
    (there : s.lookup m.1 = some (.plain tree)) :
    (ms.foldl rename s).lookup m.1 = none ∧
      (ms.foldl rename s).lookup m.2 = some (.version none [(m.1, tree)]) := by
  induction ms generalizing s with
  | nil => cases member
  | cons first ms ih =>
      cases List.mem_cons.mp member with
      | inl own =>
          subst own
          have target := (ready.each m List.mem_cons_self).2
          have other : m.1 ≠ m.2 := fun same => by
            rw [same, target] at there
            cases there
          have rest := fun m' (later : m' ∈ ms) => ready.apart later
          rw [List.foldl_cons, lookup_renames fun m' later =>
              ⟨(rest m' later).1.1.symm, (rest m' later).2.1.symm⟩,
            lookup_renames fun m' later => ⟨(rest m' later).1.2.symm, (rest m' later).2.2.symm⟩,
            rename_eq there target, AList.lookup_insert_ne other, AList.lookup_erase,
            AList.lookup_insert]
          exact ⟨rfl, rfl⟩
      | inr later =>
          obtain ⟨apart, -⟩ := ready.apart later
          exact ih ready.next later ((lookup_rename apart.1 apart.2).trans there)

end Ready

/-- The boot log of every version is there. -/
def AllLogged (s : Store) : Prop :=
  ∀ name log ks, s.lookup name = some (.version log ks) → log ≠ none

section Complete

variable {env : StartUpEnv} {s : Store} {list : List Text} {n : Nat}

theorem Shows.logged_iff (shows : Shows env s) (contiguous : Contiguous n s)
    (lists : Lists list s) : VersionsLogged env.disk list ↔ AllLogged s := by
  constructor
  · intro logged name log ks there none
    have isVersion := contiguous.version name log ks there
    have present : name ∈ s := AList.lookup_isSome.mp (by rw [there]; rfl)
    have noOrg : name ≠ "ORG".toList := by
      rintro rfl
      simp at isVersion
    refine logged name (lists.mem_iff.mpr ⟨present, noOrg⟩) isVersion ?_
    rw [shows.readFile name log ks there, none]
  · intro logged name member isVersion
    obtain ⟨item, there⟩ :=
      Option.isSome_iff_exists.mp (AList.lookup_isSome.mpr (lists.mem_iff.mp member).1)
    cases item with
    | plain tree => exact absurd isVersion (contiguous.plain name tree there)
    | version log ks =>
        rw [shows.readFile name log ks there]
        exact logged name log ks there

theorem Numbered.ready {ms : List (Text × Text)} (numbered : Numbered n s ms)
    (contiguous : Contiguous n s) : Ready ((ms.map Prod.snd).foldl mkdir s) ms := by
  obtain ⟨-, -, versions, others⟩ := contiguous.mkdirs ms.length
  rw [← numbered.names] at versions others
  refine ⟨numbered.distinct, ?_, fun m member => ⟨?_, ?_⟩⟩
  · rw [numbered.names]
    exact List.Nodup.map versionName_injective List.nodup_range'
  · obtain ⟨entries, there⟩ := numbered.plain m member
    exact ⟨_, (others m.1 (contiguous.plain _ _ there)).trans there⟩
  · obtain ⟨k, low, high, name⟩ := numbered.number member
    rw [name, versions, if_pos ⟨low, high⟩]

end Complete

theorem Store.Run.contiguous {n : Nat} {s t : Store} {added : List (Text × SourceTree)}
    (run : s.Run added t) (contiguous : Contiguous n s) : ∃ m, Contiguous m t := by
  induction run with
  | refl => exact ⟨n, contiguous⟩
  | step _ next ih =>
      obtain ⟨m, numbers⟩ := ih
      obtain ⟨m', -, numbers'⟩ := (next.safe numbers).numbers
      exact ⟨m', numbers'⟩

/-- A start that is not killed, at any time of a run, with the versions 1 to `m` there: if
    every version has its boot log, the new kernels are moved into new versions, with the numbers
    that follow in the order of the listing; otherwise nothing changes. -/
theorem start_registers {n : Nat} {s₀ s : Store} {added : List (Text × SourceTree)}
    {env : StartUpEnv} {list : List Text} {done : List (Text × Text)}
    (contiguous : Contiguous n s₀) (run : s₀.Run added s) (shows : Shows env s)
    (lists : Lists list s) (carried : done.Perm (moves env list)) :
    let t := done.foldl rename (((moves env list).map Prod.snd).foldl mkdir s)
    ∃ m, Contiguous m s ∧
      (AllLogged s → Contiguous (m + (newKernels s list).length) t ∧
        (∀ name, name ∈ newKernels s list ↔
          isUnregistered name = true ∧ ∃ entries, s.lookup name = some (.plain (.dir entries))) ∧
        ∀ i name, (newKernels s list)[i]? = some name → t.lookup name = none ∧
          ∃ entries, s.lookup name = some (.plain (.dir entries)) ∧
            t.lookup (versionName (m + 1 + i)) = some (.version none [(name, .dir entries)])) ∧
      (¬ AllLogged s → t = s) := by
  intro t
  obtain ⟨m, numbers⟩ := run.contiguous contiguous
  have numbered := moves_numbered shows numbers lists
  obtain ⟨made, -, -, others⟩ := numbers.mkdirs (moves env list).length
  rw [← numbered.names] at made others
  refine ⟨m, numbers, ?_⟩
  rw [← shows.logged_iff numbers lists]
  refine ⟨fun logged => ⟨?_, fun name => mem_newKernels lists, fun i name at_i => ?_⟩, ?_⟩
  · have length : (moves env list).length = (newKernels s list).length := by
      rw [moves_of_logged shows numbers lists logged, List.length_map, List.length_zipIdx]
    rw [← length]
    exact (made.renames done).1
  · have member : (name, versionName (m + 1 + i)) ∈ moves env list := by
      rw [moves_of_logged shows numbers lists logged]
      exact List.mem_map.mpr ⟨(name, m + 1 + i), List.mk_add_mem_zipIdx_iff_getElem?.mpr at_i, rfl⟩
    obtain ⟨entries, there⟩ := numbered.plain _ member
    have moved := ((numbered.ready numbers).perm carried).renames (carried.mem_iff.mpr member)
      ((others name (numbers.plain _ _ there)).trans there)
    exact ⟨moved.1, entries, there, moved.2⟩
  · intro unlogged
    have none := moves_of_not_logged unlogged
    have nothing : done = [] := List.perm_nil.mp (none ▸ carried)
    simp only [t, none, nothing, List.map_nil, List.foldl_nil]

/-- The first kernel has become version 1, and its boot log is there. -/
def oneVersion : Store :=
  AList.insert (versionName 1) (.version (newDirectory.disk.readFile (dmesgPath (versionName 1)))
    [("linux".toList, .dir [])]) ∅

/-- Two more kernels are put beside it, one of them under the name of the first one. -/
def twoKernels : Store :=
  (oneVersion.insert "linux".toList (.plain (.dir []))).insert "linux-next".toList (.plain (.dir []))

theorem lookup_twoKernels {name : Text} {item : Placed}
    (there : twoKernels.lookup name = some item) :
    name = versionName 1 ∧ item = .version (newDirectory.disk.readFile (dmesgPath (versionName 1)))
      [("linux".toList, .dir [])] ∨ name ∈ twoDirectories ∧ item = .plain (.dir []) := by
  rw [twoKernels, oneVersion] at there
  by_cases last : name = "linux-next".toList
  · rw [last, AList.lookup_insert] at there
    exact .inr ⟨last ▸ by decide, (Option.some.inj there).symm⟩
  · rw [AList.lookup_insert_ne last] at there
    by_cases first : name = "linux".toList
    · rw [first, AList.lookup_insert] at there
      exact .inr ⟨first ▸ by decide, (Option.some.inj there).symm⟩
    · rw [AList.lookup_insert_ne first] at there
      by_cases version : name = versionName 1
      · rw [version, AList.lookup_insert] at there
        exact .inl ⟨version, (Option.some.inj there).symm⟩
      · rw [AList.lookup_insert_ne version] at there
        cases there

theorem lists_twoKernels : Lists (versionName 1 :: twoDirectories) twoKernels := by
  have keys : (twoKernels.keys.filter fun name => name ≠ "ORG".toList) =
      (versionName 1 :: twoDirectories).reverse := by decide
  rw [Lists, keys]
  exact (List.reverse_perm _).symm

theorem shows_twoKernels : Shows (besideVersion (versionName 1)) twoKernels where
  readFile := fun name log ks there => by
    obtain ⟨rfl, same⟩ | ⟨-, same⟩ := lookup_twoKernels there
    · cases same
      rfl
    · cases same
  holds := fun name tree there => by
    obtain ⟨-, same⟩ | ⟨-, same⟩ := lookup_twoKernels there
    · cases same
    · cases same
      exact ⟨.dir rfl rfl List.nodup_nil (fun e member => absurd member List.not_mem_nil)
        (fun e member => absurd member List.not_mem_nil), by decide⟩
  mkdirSync := fun n => by
    rw [besideVersion_exclusive _ fun _ member => head_of_mem_twoDirectories member,
      lists_twoKernels.mem_iff, and_iff_left (versionName_ne_org n)]

/-- It is put there, moved by the first start and given its boot log, and then come the others. -/
theorem run_twoKernels : Store.Run ∅ [("linux".toList, .dir []), ("linux".toList, .dir []),
    ("linux-next".toList, .dir [])] twoKernels := by
  have begun : [("linux".toList, "V1".toList)] <+: moves newDirectory ["linux".toList] := by
    rw [moves_onlyLinux]
  have start : onlyLinux.Step []
      (rename (mkdir onlyLinux "V1".toList) ("linux".toList, "V1".toList)) :=
    @Store.Step.start onlyLinux newDirectory ["linux".toList] [("linux".toList, "V1".toList)]
      [("linux".toList, "V1".toList)] shows_onlyLinux lists_onlyLinux begun (.refl _)
  have logged : Store.Step (rename (mkdir onlyLinux "V1".toList) ("linux".toList, "V1".toList)) []
      oneVersion := .log _ rfl
  have next : oneVersion.Step [("linux".toList, .dir [])]
      (oneVersion.insert "linux".toList (.plain (.dir []))) :=
    .add (by decide) (by decide)
  have last : Store.Step (oneVersion.insert "linux".toList (.plain (.dir [])))
      [("linux-next".toList, .dir [])] twoKernels := .add (by decide) (by decide)
  exact .step (.step (.step (.step (.step (.refl ∅) step_onlyLinux) start) logged) next) last

theorem moves_twoKernels :
    moves (besideVersion (versionName 1)) (versionName 1 :: twoDirectories) =
      [("linux".toList, versionName 2), ("linux-next".toList, versionName 3)] := by decide +kernel

/-- The next start makes them the versions 2 and 3; here the second move is done first. -/
theorem start_registers_twoKernels :
    let t := rename (rename (mkdir (mkdir twoKernels (versionName 2)) (versionName 3))
      ("linux-next".toList, versionName 3)) ("linux".toList, versionName 2)
    Contiguous 1 twoKernels ∧ AllLogged twoKernels ∧ Contiguous 3 t ∧
      t.lookup (versionName 2) = some (.version none [("linux".toList, .dir [])]) ∧
      t.lookup (versionName 3) = some (.version none [("linux-next".toList, .dir [])]) := by
  intro t
  have logged : AllLogged twoKernels := fun name log ks there => by
    obtain ⟨-, same⟩ | ⟨-, same⟩ := lookup_twoKernels there
    · cases same
      exact Option.some_ne_none _
    · cases same
  have registers := start_registers contiguous_empty run_twoKernels shows_twoKernels
    lists_twoKernels (List.reverse_perm (moves (besideVersion (versionName 1)) _))
  rw [moves_twoKernels] at registers
  obtain ⟨m, numbers, moved, -⟩ := registers
  obtain rfl : m = 1 := (numbers.versionCount_eq lists_twoKernels).symm
  have kernels : newKernels twoKernels (versionName 1 :: twoDirectories) = twoDirectories := by
    decide
  obtain ⟨numbers', -, each⟩ := moved logged
  rw [kernels] at numbers' each
  obtain ⟨-, entries, there, first⟩ := each 0 _ rfl
  obtain ⟨-, entries', there', second⟩ := each 1 _ rfl
  cases there
  cases there'
  exact ⟨numbers, logged, numbers', first, second⟩

end OslabProfiler.Server

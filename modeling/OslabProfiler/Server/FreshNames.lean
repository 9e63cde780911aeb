import OslabProfiler.Server.Registration

/-! # The names of new versions

The start-up routine numbers the new directories from the number of the versions there
are. The second loop is described from any state on: which of the noted positions it
registers, and which names it gives to them. A number that is in use makes `mkdirSync`
throw, and the exception drops all directories that are still to come.
-/

namespace OslabProfiler.Server

open Lib CompKernel Lib.Command

/-! ## The new directories -/

def isNewAt (env : StartUpEnv) (list : List Text) (q : Nat) : Bool :=
  env.source.lstatSync (kernelDirPath ++ "/".toList ++ nameAt list q) = some true

/-- The positions of the directories that are to become versions. -/
def newPositions (env : StartUpEnv) (list : List Text) : List Nat :=
  (unregistered list 0).filter (isNewAt env list)

theorem isNew_iff {env : StartUpEnv} {list : List Text} {q : Nat} :
    q ∈ newPositions env list ↔ IsNew env list q := by
  rw [newPositions, List.mem_filter, mem_unregistered_zero]
  constructor
  · rintro ⟨⟨name, at_q, unregistered⟩, directory⟩
    obtain ⟨noVersion, noOrg⟩ := isUnregistered_iff.mp unregistered
    rw [isNewAt, nameAt, at_q, decide_eq_true_eq] at directory
    exact ⟨name, at_q, noVersion, noOrg, directory⟩
  · rintro ⟨name, at_q, noVersion, noOrg, directory⟩
    refine ⟨⟨name, at_q, isUnregistered_iff.mpr ⟨noVersion, noOrg⟩⟩, ?_⟩
    rw [isNewAt, nameAt, at_q, decide_eq_true_eq]
    exact directory

/-! ## The second loop -/

/-- `kernel_dir_list` when the positions have got consecutive numbers. -/
def renamed (list : List Text) (positions : List Nat) (first : Nat) : List Text :=
  (positions.zipIdx first).foldl (fun list entry => list.set entry.1 (versionName entry.2)) list

/-- The calls for one new version succeed. -/
def Made (env : StartUpEnv) (list : List Text) (entry : Nat × Nat) : Prop :=
  env.mkdirSync (kernelDirPath ++ "/".toList ++ versionName entry.2) = true ∧
    ∃ written, makeHashFile env.lib env.source kernelDirPath (nameAt list entry.1) env.turns =
      .ended written

/-- Every call of the second loop succeeds for these positions. -/
def AllMade (env : StartUpEnv) (list : List Text) (positions : List Nat) (first : Nat) : Prop :=
  (∀ q ∈ positions, env.source.lstatSync (kernelDirPath ++ "/".toList ++ nameAt list q) ≠ none) ∧
    ∀ entry ∈ (positions.filter (isNewAt env list)).zipIdx first, Made env list entry

/-- What the second loop has done at these positions. -/
structure Named (env : StartUpEnv) (list : List Text) (positions : List Nat) (s t : StartUp) :
    Prop where
  registered : t.registered = s.registered ++ positions.filter (isNewAt env list)
  list : t.kernelDirList =
    renamed s.kernelDirList (positions.filter (isNewAt env list)) (s.countVersion + 1)

theorem renamed_append (list : List Text) (ps qs : List Nat) (first : Nat) :
    renamed list (ps ++ qs) first = renamed (renamed list ps first) qs (first + ps.length) := by
  simp only [renamed, List.zipIdx_append, List.foldl_append]

theorem getElem?_renamed_of_not_mem {positions : List Nat} {q : Nat} (other : q ∉ positions)
    (list : List Text) (first : Nat) : (renamed list positions first)[q]? = list[q]? := by
  induction positions generalizing list first with
  | nil => rfl
  | cons p positions ih =>
      rw [List.mem_cons, not_or] at other
      have later := ih other.2 (list.set p (versionName first)) (first + 1)
      rw [List.getElem?_set_ne (Ne.symm other.1)] at later
      exact later

theorem allMade_append (env : StartUpEnv) (list : List Text) (ps qs : List Nat) (first : Nat) :
    AllMade env list (ps ++ qs) first ↔ AllMade env list ps first ∧
      AllMade env list qs (first + (ps.filter (isNewAt env list)).length) := by
  simp only [AllMade, List.filter_append, List.zipIdx_append, List.forall_mem_append]
  exact and_and_and_comm

theorem Named.trans {env : StartUpEnv} {list : List Text} {ps qs : List Nat} {s t u : StartUp}
    (before : Named env list ps s t)
    (count : t.countVersion = s.countVersion + (ps.filter (isNewAt env list)).length)
    (after : Named env list qs t u) : Named env list (ps ++ qs) s u := by
  constructor
  · rw [after.registered, before.registered, List.filter_append, List.append_assoc]
  · rw [after.list, before.list, count, List.filter_append, renamed_append, Nat.add_right_comm]

theorem filter_isNewAt_of_dir {env : StartUpEnv} {list : List Text} {q : Nat}
    (stat : env.source.lstatSync (kernelDirPath ++ "/".toList ++ nameAt list q) = some true) :
    [q].filter (isNewAt env list) = [q] := by
  apply List.filter_cons_of_pos
  rw [isNewAt, stat]
  decide

/-- One turn names the entry at `q` if it is a new directory, and counts it. -/
theorem registerEntry_named (env : StartUpEnv) (list : List Text) {q : Nat} {s : StartUp}
    (same : s.kernelDirList[q]? = list[q]?) :
    wp (registerEntry env q)
      (fun _ t => AllMade env list [q] (s.countVersion + 1) ∧ Named env list [q] s t ∧
        t.countVersion = s.countVersion + ([q].filter (isNewAt env list)).length)
      (fun _ _ => ¬ AllMade env list [q] (s.countVersion + 1)) s := by
  have name : nameAt s.kernelDirList q = nameAt list q := by rw [nameAt, same, nameAt]
  refine wp_mono (registerEntry_turn env q s) (fun _ t turn => ?_) fun _ t threw made => ?_
  · cases turn with
    | file stat =>
        rw [name] at stat
        have passed : [q].filter (isNewAt env list) = [] := by
          apply List.filter_cons_of_neg
          rw [isNewAt, stat]
          decide
        refine ⟨⟨?_, ?_⟩, ⟨?_, ?_⟩, ?_⟩
        · exact List.forall_mem_singleton.mpr (stat ▸ Option.some_ne_none _)
        · rw [passed]
          exact List.forall_mem_nil _
        · rw [passed, List.append_nil]
        · rw [passed]
          rfl
        · rw [passed]
          rfl
    | version stat made hashed =>
        rw [name] at stat hashed
        have taken := filter_isNewAt_of_dir stat
        refine ⟨⟨?_, ?_⟩, ⟨?_, ?_⟩, ?_⟩
        · exact List.forall_mem_singleton.mpr (stat ▸ Option.some_ne_none _)
        · rw [taken]
          exact List.forall_mem_singleton.mpr ⟨made, _, hashed⟩
        · rw [taken]
        · rw [taken]
          rfl
        · rw [taken]
          rfl
  · obtain ⟨-, noFile, stops⟩ := threw
    rw [name] at noFile stops
    obtain ⟨found, each⟩ := made
    obtain ⟨isDirectory, stat⟩ := Option.ne_none_iff_exists'.mp (found q List.mem_cons_self)
    cases isDirectory with
    | false => exact noFile stat
    | true =>
        rw [filter_isNewAt_of_dir stat] at each
        obtain ⟨made, written, hashed⟩ := each _ List.mem_cons_self
        exact stops stat made written hashed

theorem register_named (env : StartUpEnv) (list : List Text) {positions : List Nat}
    (nodup : positions.Nodup) {s : StartUp}
    (same : ∀ q ∈ positions, s.kernelDirList[q]? = list[q]?) :
    wp (fold (fun _ q => registerEntry env q) () positions)
      (fun _ t => AllMade env list positions (s.countVersion + 1) ∧ Named env list positions s t)
      (fun _ _ => ¬ AllMade env list positions (s.countVersion + 1)) s := by
  induction positions generalizing s with
  | nil => exact ⟨⟨by simp, by simp⟩, by simp, rfl⟩
  | cons q positions ih =>
      obtain ⟨fresh, nodup⟩ := List.nodup_cons.mp nodup
      rw [fold, wp_bind, ← List.singleton_append, allMade_append]
      refine wp_mono (registerEntry_named env list (same q List.mem_cons_self))
        (fun _ t turn => ?_) fun _ _ stopped all => stopped all.1
      obtain ⟨made, named, count⟩ := turn
      -- a turn renames its own entry only, so the later ones still have the names of the list
      have later : ∀ p ∈ positions, t.kernelDirList[p]? = list[p]? := by
        intro p member
        have other : p ∉ [q].filter (isNewAt env list) := by
          intro own
          exact fresh (List.mem_singleton.mp (List.mem_of_mem_filter own) ▸ member)
        rw [named.list, getElem?_renamed_of_not_mem other, same p (List.mem_cons_of_mem q member)]
      have loop := ih nodup later
      rw [count, Nat.add_right_comm] at loop
      exact wp_mono loop (fun _ u done => ⟨⟨made, done.1⟩, named.trans count done.2⟩)
        fun _ _ stopped all => stopped all.2

/-! ## The whole routine -/

/-- No call throws: the logs are there, the names still lead somewhere, and the directories
    can be made and hashed. -/
def NothingThrows (env : StartUpEnv) (list : List Text) : Prop :=
  VersionsLogged env.disk list ∧ AllMade env list (unregistered list 0) (versionCount list + 1)

theorem startUpRoutine_named (env : StartUpEnv) (list : List Text) :
    wp (startUpRoutine env)
      (fun _ t => NothingThrows env list ∧ t.registered = newPositions env list ∧
        t.kernelDirList = renamed list (newPositions env list) (versionCount list + 1))
      (fun _ _ => ¬ NothingThrows env list) { kernelDirList := list } := by
  unfold startUpRoutine
  simp only [wp_bind, wp_read]
  refine wp_mono (survey_listed env.disk list 0 { kernelDirList := list })
    (fun _ s surveyed => ?_) fun _ _ stopped all => stopped.1 all.1
  obtain ⟨logged, listed⟩ := surveyed
  have noted := listed.noted
  have start := listed.counted
  have same : ∀ q ∈ s.unregisteredFile, s.kernelDirList[q]? = list[q]? := by
    intro q _
    rw [listed.list]
  have loop := register_named env list (noted ▸ unregistered_nodup list 0) same
  rw [start] at loop
  rw [noted] at loop ⊢
  refine wp_mono loop (fun _ t done => ?_) fun _ _ stopped all => stopped all.2
  refine ⟨⟨logged, done.1⟩, ?_, ?_⟩
  · rw [done.2.registered, listed.registered]
    exact List.nil_append _
  · rw [done.2.list, listed.list, start]
    rfl

/-- The exception of any call ends the routine, and nothing else does. -/
theorem ends_iff_nothingThrows (env : StartUpEnv) (list : List Text) :
    (startUpRoutine env { kernelDirList := list }).1 = .ok () ↔ NothingThrows env list := by
  have outcome := startUpRoutine_named env list
  constructor
  · intro ok
    exact (wp_ends outcome (ends_of_ok ok)).1
  · intro nothing
    obtain ⟨_, t, ends, _⟩ := ends_of_unstopped outcome fun _ _ stopped => stopped nothing
    exact congrArg Prod.fst ends

theorem routineDone_named {env : StartUpEnv} {list : List Text}
    (nothing : NothingThrows env list) :
    (routineDone env list).registered = newPositions env list ∧
      (routineDone env list).kernelDirList =
        renamed list (newPositions env list) (versionCount list + 1) := by
  have ends := ends_of_ok ((ends_iff_nothingThrows env list).mpr nothing)
  exact (wp_ends (startUpRoutine_named env list) ends).2

theorem versionName_injective : Function.Injective versionName := by
  intro m n same
  have digits : Nat.toDigits 10 m = Nat.toDigits 10 n := List.append_cancel_left same
  calc
    m = Nat.ofDigitChars 10 (Nat.toDigits 10 m) 0 := Nat.ofDigitChars_ten_toDigits.symm
    _ = Nat.ofDigitChars 10 (Nat.toDigits 10 n) 0 := by rw [digits]
    _ = n := Nat.ofDigitChars_ten_toDigits

/-- Each position gets the name with its own number. -/
theorem getElem?_renamed {positions : List Nat} (nodup : positions.Nodup) {q n first : Nat}
    (entry : (q, n) ∈ positions.zipIdx first) {list : List Text} (inside : q < list.length) :
    (renamed list positions first)[q]? = some (versionName n) := by
  induction positions generalizing list first with
  | nil => cases entry
  | cons p positions ih =>
      obtain ⟨fresh, nodup⟩ := List.nodup_cons.mp nodup
      rw [List.zipIdx_cons] at entry
      cases List.mem_cons.mp entry with
      | inl own =>
          cases own
          have later := getElem?_renamed_of_not_mem fresh (list.set q (versionName n)) (n + 1)
          rw [List.getElem?_set_self inside] at later
          exact later
      | inr later => exact ih nodup later (by rwa [List.length_set])

/-- Every unregistered directory becomes a version under a name of its own, which nothing
    had before, and no exception ends the routine. -/
structure Registers (env : StartUpEnv) (list : List Text) : Prop where
  ends : (startUpRoutine env { kernelDirList := list }).1 = .ok ()
  complete : ∀ q, IsNew env list q → q ∈ (routineDone env list).registered
  fresh : ∀ q ∈ (routineDone env list).registered, ∃ n,
    (routineDone env list).kernelDirList[q]? = some (versionName n) ∧ versionName n ∉ list
  distinct : ∀ p ∈ (routineDone env list).registered, ∀ q ∈ (routineDone env list).registered,
    (routineDone env list).kernelDirList[p]? = (routineDone env list).kernelDirList[q]? → p = q

/-- The numbers that follow the number of versions are free, as many as there are new
    directories; the boot logs are there and the new directories can be read. -/
structure Registrable (env : StartUpEnv) (list : List Text) : Prop where
  free : ∀ n, versionCount list < n → n ≤ versionCount list + (newPositions env list).length →
    versionName n ∉ list
  logged : VersionsLogged env.disk list
  found : ∀ name ∈ list, isUnregistered name = true →
    env.source.lstatSync (kernelDirPath ++ "/".toList ++ name) ≠ none
  hashed : ∀ q, IsNew env list q → ∃ written,
    makeHashFile env.lib env.source kernelDirPath (nameAt list q) env.turns = .ended written

/-- The number of an entry is one of those that follow. -/
theorem mem_zipIdx_iff_number {positions : List Nat} {first n : Nat} :
    (∃ q, (q, n) ∈ positions.zipIdx first) ↔ first ≤ n ∧ n < first + positions.length := by
  rw [← List.mem_range'_1, ← List.zipIdx_map_snd first positions, List.mem_map]
  constructor
  · rintro ⟨q, member⟩
    exact ⟨(q, n), member, rfl⟩
  · rintro ⟨⟨q, _⟩, member, rfl⟩
    exact ⟨q, member⟩

theorem mem_of_mem_zipIdx {positions : List Nat} {first : Nat} {entry : Nat × Nat}
    (member : entry ∈ positions.zipIdx first) : entry.1 ∈ positions := by
  rw [← List.zipIdx_map_fst first positions]
  exact List.mem_map_of_mem member

section Exclusive

variable {env : StartUpEnv} {list : List Text}

theorem nothingThrows_iff
    (exclusive : ∀ n, env.mkdirSync (kernelDirPath ++ "/".toList ++ versionName n) = true ↔
      versionName n ∉ list) : NothingThrows env list ↔ Registrable env list := by
  constructor
  · rintro ⟨logged, found, made⟩
    refine ⟨fun n low high => ?_, logged, fun name member unregistered => ?_, fun q isNew => ?_⟩
    · have numbered : ∃ q, (q, n) ∈ (newPositions env list).zipIdx (versionCount list + 1) :=
        mem_zipIdx_iff_number.mpr ⟨low, by omega⟩
      obtain ⟨q, entry⟩ := numbered
      exact (exclusive n).mp (made (q, n) entry).1
    · obtain ⟨q, at_q⟩ := List.mem_iff_getElem?.mp member
      have noted := found q (mem_unregistered_zero.mpr ⟨name, at_q, unregistered⟩)
      rwa [nameAt, at_q] at noted
    · obtain ⟨n, at_n⟩ := List.mem_iff_getElem?.mp (isNew_iff.mpr isNew)
      exact (made (q, versionCount list + 1 + n) (List.mk_add_mem_zipIdx_iff_getElem?.mpr at_n)).2
  · intro registrable
    refine ⟨registrable.logged, fun q noted => ?_, fun entry member => ?_⟩
    · obtain ⟨name, at_q, unregistered⟩ := mem_unregistered_zero.mp noted
      rw [nameAt, at_q]
      exact registrable.found name (List.mem_of_getElem? at_q) unregistered
    · have number := mem_zipIdx_iff_number.mp ⟨entry.1, member⟩
      have free := registrable.free entry.2 (by omega) (by rw [newPositions]; omega)
      exact ⟨(exclusive entry.2).mpr free,
        registrable.hashed entry.1 (isNew_iff.mp (mem_of_mem_zipIdx member))⟩

/-- A new directory has its number among those that follow. -/
theorem exists_number {q : Nat} (isNew : IsNew env list q) :
    ∃ i, (newPositions env list)[i]? = some q ∧
      (renamed list (newPositions env list) (versionCount list + 1))[q]? =
        some (versionName (versionCount list + 1 + i)) := by
  obtain ⟨i, at_i⟩ := List.mem_iff_getElem?.mp (isNew_iff.mpr isNew)
  obtain ⟨name, at_q, _⟩ := isNew
  refine ⟨i, at_i, ?_⟩
  exact getElem?_renamed ((unregistered_nodup list 0).filter _)
    (List.mk_add_mem_zipIdx_iff_getElem?.mpr at_i) (List.getElem?_eq_some_iff.mp at_q).1

end Exclusive

/-- Where `mkdirSync` refuses exactly the names in use, registration succeeds exactly when
    the numbers that follow the number of versions are free (and the files it reads are
    there). -/
theorem registers_iff (env : StartUpEnv) (list : List Text)
    (exclusive : ∀ n, env.mkdirSync (kernelDirPath ++ "/".toList ++ versionName n) = true ↔
      versionName n ∉ list) :
    Registers env list ↔ Registrable env list := by
  rw [← nothingThrows_iff exclusive]
  constructor
  · intro registers
    exact (ends_iff_nothingThrows env list).mp registers.ends
  · intro nothing
    have registrable := (nothingThrows_iff exclusive).mp nothing
    obtain ⟨registered, names⟩ := routineDone_named nothing
    refine ⟨(ends_iff_nothingThrows env list).mpr nothing, fun q isNew => ?_, fun q member => ?_,
      fun p hp q hq same => ?_⟩
    · rw [registered]
      exact isNew_iff.mpr isNew
    · rw [registered] at member
      obtain ⟨i, at_i, name⟩ := exists_number (isNew_iff.mp member)
      have inside := (List.getElem?_eq_some_iff.mp at_i).1
      exact ⟨_, names ▸ name, registrable.free _ (by omega) (by omega)⟩
    · rw [registered] at hp hq
      obtain ⟨i, at_i, nameP⟩ := exists_number (isNew_iff.mp hp)
      obtain ⟨j, at_j, nameQ⟩ := exists_number (isNew_iff.mp hq)
      rw [names, nameP, nameQ, Option.some_inj, versionName_injective.eq_iff] at same
      have index : i = j := by omega
      rw [index, at_j] at at_i
      exact (Option.some_inj.mp at_i).symm

/-- One version is there, and the names beside it are those of new directories. -/
def besideVersion (version : Text) : StartUpEnv :=
  { newDirectory with
    mkdirSync := fun path => path ≠ kernelDirPath ++ "/".toList ++ version }

theorem besideVersion_exclusive (version : Text) {others : List Text}
    (new : ∀ name ∈ others, name.head? ≠ some 'V') (n : Nat) :
    (besideVersion version).mkdirSync (kernelDirPath ++ "/".toList ++ versionName n) = true ↔
      versionName n ∉ version :: others := by
  have apart : versionName n ∉ others := fun member => new _ member (by simp [versionName])
  rw [List.mem_cons, not_or, and_iff_left apart, besideVersion, decide_eq_true_eq, ne_eq,
    List.append_cancel_left_eq]

def twoDirectories : List Text := ["linux".toList, "linux-next".toList]

theorem head_of_mem_twoDirectories {name : Text} (member : name ∈ twoDirectories) :
    name.head? ≠ some 'V' := by
  rcases List.mem_cons.mp member with rfl | last
  · decide
  · rw [List.mem_singleton.mp last]
    decide

/-- Beside version 1 they become the versions 2 and 3. -/
theorem registers_twoDirectories :
    Registers (besideVersion (versionName 1)) (versionName 1 :: twoDirectories) ∧
      (routineDone (besideVersion (versionName 1)) (versionName 1 :: twoDirectories)).kernelDirList =
        [versionName 1, versionName 2, versionName 3] := by
  have exclusive :=
    besideVersion_exclusive (versionName 1) fun _ member => head_of_mem_twoDirectories member
  refine ⟨(registers_iff _ _ exclusive).mpr ⟨fun n low _ => ?_,
    fun _ _ _ => Option.some_ne_none _, fun _ _ _ => Option.some_ne_none _,
    fun _ _ => ⟨[], rfl⟩⟩, by decide +kernel⟩
  have one : versionCount (versionName 1 :: twoDirectories) = 1 := by decide
  refine (exclusive n).mp (decide_eq_true fun same => ?_)
  have := versionName_injective (List.append_cancel_left same)
  omega

/-- Version 1 is gone, and version 2 is still there. -/
def gapDirectory : StartUpEnv := besideVersion "V2".toList

def gapList : List Text := ["V2".toList, "linux".toList]

theorem gapDirectory_exclusive (n : Nat) :
    gapDirectory.mkdirSync (kernelDirPath ++ "/".toList ++ versionName n) = true ↔
      versionName n ∉ gapList :=
  besideVersion_exclusive "V2".toList (List.forall_mem_singleton.mpr (by decide)) n

/-- The new directory should become version 2, which exists: it is left out. -/
theorem gap_not_registered :
    (∀ n, gapDirectory.mkdirSync (kernelDirPath ++ "/".toList ++ versionName n) = true ↔
      versionName n ∉ gapList) ∧
    IsNew gapDirectory gapList 1 ∧ (routineDone gapDirectory gapList).registered = [] ∧
    ¬ Registers gapDirectory gapList := by
  have left : (routineDone gapDirectory gapList).registered = [] := by decide +kernel
  have isNew : IsNew gapDirectory gapList 1 := ⟨"linux".toList, rfl, by decide, by decide, rfl⟩
  refine ⟨gapDirectory_exclusive, isNew, left, fun registers => ?_⟩
  have member := registers.complete 1 isNew
  rw [left] at member
  cases member

end OslabProfiler.Server
